import Codegen6502.Proofs.Liveness.Flow

/-!
# Intervals

`intervals_cover`: the interval of a virtual register contains every line that concerns it.  So two
registers that concern one line have overlapping intervals (`overlaps_of_cover`).
-/

namespace Codegen6502.Proofs.Liveness.Intervals

open Settling Liveness.Flow

variable {code : List Line} {calls : Std.TreeMap ℕ CallTarget} {exit : RegSet} {live : Liveness}

/-- A line that an interval contains. -/
def Covers (interval? : Option Interval) (k : ℕ) : Prop :=
  ∃ interval, interval? = some interval ∧ interval.first ≤ k ∧ k ≤ interval.last

theorem covers_cover (interval? : Option Interval) (k : ℕ) :
    Covers (some (.cover interval? k)) k := by
  cases interval? with
  | none => exact ⟨⟨k, k⟩, rfl, le_rfl, le_rfl⟩
  | some a => exact ⟨_, rfl, min_le_right .., le_max_right ..⟩

theorem Covers.cover {interval? : Option Interval} {k : ℕ} (h : Covers interval? k) (j : ℕ) :
    Covers (some (.cover interval? j)) k := by
  obtain ⟨a, rfl, hfirst, hlast⟩ := h
  exact ⟨_, rfl, le_trans (min_le_left ..) hfirst, hlast.trans (le_max_left ..)⟩

/-- Adding lines one by one gives intervals that contain all of them. -/
theorem covers_foldl (points : List (UInt32 × ℕ)) : ∀ m : Std.TreeMap UInt32 Interval,
    (∀ v k, Covers m[v]? k ∨ (v, k) ∈ points →
      Covers (points.foldl (fun m (v, i) => m.insert v (.cover m[v]? i)) m)[v]? k) := by
  induction points with
  | nil => exact fun m v k h => h.resolve_right (by simp)
  | cons point rest ih =>
    intro m v k h
    obtain ⟨w, j⟩ := point
    refine ih _ v k ?_
    dsimp only
    rw [Std.TreeMap.getElem?_insert]
    split
    · rename_i heq
      cases Std.LawfulEqCmp.eq_of_compare heq
      rcases h with h | h
      · exact .inl (h.cover j)
      · rcases List.mem_cons.mp h with h | h
        · cases h
          exact .inl (covers_cover _ k)
        · exact .inr h
    · rename_i hne
      rcases h with h | h
      · exact .inl h
      · rcases List.mem_cons.mp h with h | h
        · cases h
          exact absurd Std.ReflCmp.compare_self hne
        · exact .inr h

/-- An interval does not end before it starts. -/
theorem intervals_ordered (live : Liveness) {v : UInt32} {interval : Interval}
    (h : live.intervals[v]? = some interval) : interval.first ≤ interval.last := by
  have key : ∀ (points : List (UInt32 × ℕ)) (m : Std.TreeMap UInt32 Interval),
      (∀ (v : UInt32) (i : Interval), m[v]? = some i → i.first ≤ i.last) →
      ∀ (v : UInt32) (i : Interval),
        (points.foldl (fun m (v, i) => m.insert v (.cover m[v]? i)) m)[v]? = some i →
          i.first ≤ i.last := by
    intro points
    induction points with
    | nil => exact fun m hm => hm
    | cons point rest ih =>
      intro m hm
      obtain ⟨w, j⟩ := point
      refine ih _ fun v i hi => ?_
      dsimp only at hi
      rw [Std.TreeMap.getElem?_insert] at hi
      split at hi
      · cases hi
        obtain ⟨a, ha, hfirst, hlast⟩ := covers_cover m[w]? j
        cases ha
        exact hfirst.trans hlast
      · exact hm v i hi
  exact key _ ∅ (fun v i hi => by simp at hi) v interval h

theorem mem_vregs {s : LiveSet} {v : VReg} : v ∈ s.vregs ↔ s.contains (.vreg v) = true := by
  simp only [LiveSet.vregs, LiveSet.contains, List.mem_filterMap, List.contains_iff_mem]
  constructor
  · rintro ⟨item, hitem, hv⟩
    cases item <;> simp_all [Item.vreg?]
  · exact fun h => ⟨.vreg v, h, rfl⟩

/-- A line concerns a virtual register if it reads or writes it, or if it is live around the
line. -/
def Concerns (live : Liveness) (line : Line) (call? : Option CallTarget) (k : ℕ) (v : VReg) : Prop :=
  (live.liveIn k).contains (.vreg v) = true ∨ (line.uses call?).contains (.vreg v) = true ∨
    line.defs.contains (.vreg v) = true ∨ live.isLiveOut k (.vreg v) = true

/-- **The interval of a virtual register contains the lines that concern it.** -/
theorem intervals_cover (h : Solves code calls exit live) {k : ℕ} {line : Line}
    (hline : code[k]? = some line) {v : VReg} (hv : Concerns live line calls[k]? k v) :
    Covers live.intervals[v.index]? k := by
  obtain ⟨node, ns, hnode, huses, hdefs, -⟩ := h.node k line hline
  refine covers_foldl _ ∅ v.index k (.inr (List.mem_append_left _ ?_))
  refine List.mem_flatMap.mpr ⟨(node, k), ?_, ?_⟩
  · rw [List.mem_zipIdx_iff_getElem?]
    simpa using hnode
  · rw [List.mem_flatMap]
    have hmem : ∀ s : LiveSet, s.contains (.vreg v) = true →
        (v.index, k) ∈ s.vregs.map fun v => (v.index, k) := fun s hs =>
      List.mem_map.mpr ⟨v, mem_vregs.mpr hs, rfl⟩
    rcases hv with hv | hv | hv | hv
    · exact ⟨_, by simp, hmem _ hv⟩
    · exact ⟨node.uses, by simp, hmem _ (huses ▸ hv)⟩
    · exact ⟨node.defs, by simp, hmem _ (hdefs ▸ hv)⟩
    · exact ⟨live.liveOut k, by simp, hmem _ hv⟩

theorem overlaps_of_cover {a b : Interval} {k : ℕ} (ha : a.first ≤ k ∧ k ≤ a.last)
    (hb : b.first ≤ k ∧ k ≤ b.last) : a.overlaps b = true := by
  unfold Interval.overlaps
  simp only [Bool.and_eq_true, decide_eq_true_eq]
  omega

end Codegen6502.Proofs.Liveness.Intervals
