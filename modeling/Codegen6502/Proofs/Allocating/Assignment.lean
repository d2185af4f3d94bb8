import Codegen6502.Proofs.Allocating.Scan
import Codegen6502.Proofs.Liveness.Intervals

/-!
# What locations promise

Values whose intervals overlap have different locations, a value in a register can be held there for
its whole life, and none is in X where the frame is addressed through it.

The scan goes through the intervals in the order of their starts, so a value that overlaps a later
one is still active when that one is placed (`Scanned`).  Slots of the frame are told apart by their
numbers; the bytes they get differ as long as the frame fits (`toNat_frameByte`, `scan_apart`).
-/

namespace Codegen6502.Proofs.Allocating.Assignment

open Allocation Scan Liveness.Intervals

variable {p : Problem}

/-! ### Slots -/

/-- What choosing a slot does to the ends of the slots. -/
theorem slot_spec (ends : List ℕ) (interval : Interval) :
    let chosen := Problem.slot ends interval
    chosen.2[chosen.1]? = some interval.last ∧
      (∀ j, j ≠ chosen.1 → ∀ e, ends[j]? = some e → chosen.2[j]? = some e) ∧
      (∀ e, ends[chosen.1]? = some e → e < interval.first) := by
  unfold Problem.slot
  cases hfind : ends.findIdx? (· < interval.first) with
  | none =>
    refine ⟨by simp, fun j _ e he => ?_, fun e he => ?_⟩
    · have hj : j < ends.length := (List.getElem?_eq_some_iff.mp he).1
      rw [List.getElem?_append_left hj]
      exact he
    · have hlt : ends.length < ends.length := (List.getElem?_eq_some_iff.mp he).1
      omega
  | some k =>
    obtain ⟨hk, hfree, -⟩ := List.findIdx?_eq_some_iff_getElem.mp hfind
    refine ⟨by simp [hk], fun j hj e he => ?_, fun e he => ?_⟩
    · rw [List.getElem?_set_ne (Ne.symm hj)]
      exact he
    · rw [List.getElem?_eq_getElem hk] at he
      cases he
      simpa using hfree

/-! ### One step -/

/-- A register that a value gets can hold it, and no value that is active has it. -/
theorem located_reg {s : Scan} {index : UInt32} {interval : Interval} {r : Register}
    (h : located p s index interval = .reg r) :
    p.canHold ⟨index⟩ r (p.accesses ⟨index⟩) = true ∧
      (∀ access ∈ p.accesses ⟨index⟩, access.2 = .lda ∨ access.2 = .sta) ∧
      (r = .x → p.useX = true) ∧
      ∀ a ∈ stillActive s interval, a.location = .reg r → a.interval.overlaps interval = false := by
  unfold located at h
  split at h
  · rename_i r' hr
    cases h
    unfold Problem.register? at hr
    dsimp only at hr
    split at hr
    · cases hr
    · rename_i hplain
      have hchosen := List.find?_some hr
      simp only [Bool.or_eq_true, Bool.not_eq_eq_eq_not, Bool.not_true, not_or, Bool.not_eq_false,
        List.all_eq_true, decide_eq_true_eq] at hplain
      simp only [Bool.and_eq_true, Bool.or_eq_true, decide_eq_true_eq, Bool.not_eq_eq_eq_not,
        Bool.not_true, List.any_eq_false, Bool.and_eq_true, not_and, Bool.not_eq_true] at hchosen
      refine ⟨hchosen.2, fun access haccess => hplain.2 access haccess, fun hx => ?_, hchosen.1.2⟩
      exact hchosen.1.1.resolve_left fun hne => hne hx
  · split at h <;> cases h

theorem located_stack {s : Scan} {index : UInt32} {interval : Interval} {o : UInt8}
    (h : located p s index interval = .stack o) :
    o = p.frameByte (Problem.slot s.slotEnds interval).1 := by
  unfold located at h
  split at h
  · cases h
  · split at h
    · cases h
    · cases h
      rfl

/-- **The values placed so far**: each has a location and is active as long as it may be live;
values that overlap have different locations, or different slots of the frame. -/
structure Scanned (p : Problem) (done : List (UInt32 × Interval)) (s : Scan)
    (slotOf : UInt32 → ℕ) : Prop where
  only : ∀ (v : UInt32) location, s.locations[v]? = some location → ∃ e ∈ done, e.1 = v
  active : ∀ e ∈ done, ∃ location, s.locations[e.1]? = some location ∧
    ∀ first, (∀ d ∈ done, d.2.first ≤ first) → first ≤ e.2.last → ⟨e.2, location⟩ ∈ s.active
  slot : ∀ e ∈ done, ∀ o, s.locations[e.1]? = some (.stack o) →
    o = p.frameByte (slotOf e.1) ∧ ∃ last, s.slotEnds[slotOf e.1]? = some last ∧ e.2.last ≤ last
  apart : ∀ e ∈ done, ∀ e' ∈ done, e.1 ≠ e'.1 → e.2.overlaps e'.2 = true →
    ∀ location, s.locations[e.1]? = some location → s.locations[e'.1]? = some location →
      (∃ o, location = .stack o) ∧ slotOf e.1 ≠ slotOf e'.1

theorem overlaps_comm (a b : Interval) : a.overlaps b = b.overlaps a := by
  unfold Interval.overlaps
  exact Bool.and_comm ..

section Step

variable {done : List (UInt32 × Interval)} {s : Scan} {slotOf : UInt32 → ℕ} {index : UInt32}
  {interval : Interval}

/-- A value that overlaps the next one is still active when that one is placed. -/
theorem Scanned.stillActive (h : Scanned p done s slotOf) {e : UInt32 × Interval} (he : e ∈ done)
    (hfirst : ∀ d ∈ done, d.2.first ≤ interval.first) (hoverlap : e.2.overlaps interval = true)
    {location : Location} (hlocation : s.locations[e.1]? = some location) :
    ⟨e.2, location⟩ ∈ Scan.stillActive s interval := by
  obtain ⟨location', hlocation', hactive⟩ := h.active e he
  rw [hlocation] at hlocation'
  cases hlocation'
  have hlast : interval.first ≤ e.2.last := by
    unfold Interval.overlaps at hoverlap
    simp only [Bool.and_eq_true, decide_eq_true_eq] at hoverlap
    exact hoverlap.2
  exact List.mem_filter.mpr ⟨hactive _ hfirst hlast, by simpa using hlast⟩

/-- A value that overlaps the next one has another location, or another slot. -/
theorem Scanned.located_ne (h : Scanned p done s slotOf) {e : UInt32 × Interval} (he : e ∈ done)
    (hfirst : ∀ d ∈ done, d.2.first ≤ interval.first) (hoverlap : e.2.overlaps interval = true)
    (hlocation : s.locations[e.1]? = some (located p s index interval)) :
    (∃ o, located p s index interval = .stack o) ∧
      slotOf e.1 ≠ (Problem.slot s.slotEnds interval).1 := by
  have hactive := h.stillActive he hfirst hoverlap hlocation
  cases hlocated : located p s index interval with
  | reg r =>
    rw [hlocated] at hactive
    have := (located_reg hlocated).2.2.2 _ hactive rfl
    rw [hoverlap] at this
    cases this
  | zeroPage z =>
    rw [hlocated] at hactive
    exact absurd rfl ((located_cell hlocated).2.2.1 _ hactive)
  | stack o =>
    refine ⟨⟨o, rfl⟩, fun hslot => ?_⟩
    rw [hlocated] at hlocation
    obtain ⟨-, last, hlast, hle⟩ := h.slot e he o hlocation
    rw [hslot] at hlast
    have hfree := (slot_spec s.slotEnds interval).2.2 last hlast
    unfold Interval.overlaps at hoverlap
    simp only [Bool.and_eq_true, decide_eq_true_eq] at hoverlap
    omega

/-- The location of the value that has been placed. -/
theorem location_placed :
    (Scan.place p s (index, interval)).locations[index]? = some (located p s index interval) := by
  rw [place_eq]
  exact Std.TreeMap.getElem?_insert_self

/-- The others keep their locations. -/
theorem location_other {v : UInt32} (hv : v ≠ index) :
    (Scan.place p s (index, interval)).locations[v]? = s.locations[v]? := by
  rw [place_eq, Std.TreeMap.getElem?_insert, if_neg]
  exact fun heq => hv (Std.LawfulEqCmp.eq_of_compare heq).symm

/-- The end of a slot is never set back. -/
theorem slotEnds_rise (p : Problem) (index : UInt32) (hordered : interval.first ≤ interval.last)
    {j last : ℕ} (h : s.slotEnds[j]? = some last) :
    ∃ last', (Scan.place p s (index, interval)).slotEnds[j]? = some last' ∧ last ≤ last' := by
  obtain ⟨hchosen, hothers, hfree⟩ := slot_spec s.slotEnds interval
  rw [place_eq]
  dsimp only
  unfold slotted
  split
  · by_cases hslot : j = (Problem.slot s.slotEnds interval).1
    · rw [hslot] at h ⊢
      have := hfree last h
      exact ⟨_, hchosen, by omega⟩
    · exact ⟨last, hothers j hslot last h, le_rfl⟩
  · exact ⟨last, h, le_rfl⟩

/-- A value on the frame has the slot that was chosen for it, up to its end. -/
theorem slot_placed {o : UInt8} (h : located p s index interval = .stack o) :
    (Scan.place p s (index, interval)).slotEnds[(Problem.slot s.slotEnds interval).1]? =
      some interval.last := by
  rw [place_eq]
  dsimp only
  unfold slotted
  rw [h]
  exact (slot_spec s.slotEnds interval).1

/-- A value stays active until it ends, and the placed one is active. -/
theorem Scanned.active_place (h : Scanned p done s slotOf) (hindex : ∀ d ∈ done, d.1 ≠ index) :
    ∀ e ∈ done ++ [(index, interval)], ∃ location,
      (Scan.place p s (index, interval)).locations[e.1]? = some location ∧
        ∀ first, (∀ d ∈ done ++ [(index, interval)], d.2.first ≤ first) → first ≤ e.2.last →
          ⟨e.2, location⟩ ∈ (Scan.place p s (index, interval)).active := by
  intro e he
  rcases List.mem_append.mp he with he | he
  · obtain ⟨location, hlocation, hactive⟩ := h.active e he
    refine ⟨location, (location_other (hindex e he)).trans hlocation, fun first hall hle => ?_⟩
    rw [place_eq]
    refine List.mem_append_left _ (List.mem_filter.mpr ⟨?_, ?_⟩)
    · exact hactive first (fun d hd => hall d (List.mem_append_left _ hd)) hle
    · have hnext : interval.first ≤ first :=
        hall (index, interval) (List.mem_append_right _ (List.mem_singleton_self _))
      simp only [decide_eq_true_eq]
      omega
  · obtain rfl := List.mem_singleton.mp he
    refine ⟨_, location_placed, fun _ _ _ => ?_⟩
    rw [place_eq]
    exact List.mem_append_right _ (List.mem_singleton_self _)

/-- **Placing a value** keeps what holds of the values placed so far. -/
theorem Scanned.place (h : Scanned p done s slotOf) (hindex : ∀ d ∈ done, d.1 ≠ index)
    (hfirst : ∀ d ∈ done, d.2.first ≤ interval.first) (hordered : interval.first ≤ interval.last) :
    ∃ slotOf', Scanned p (done ++ [(index, interval)]) (Scan.place p s (index, interval))
      slotOf' := by
  refine ⟨Function.update slotOf index (Problem.slot s.slotEnds interval).1, ?_⟩
  have hold : ∀ e ∈ done, (Scan.place p s (index, interval)).locations[e.1]? = s.locations[e.1]? :=
    fun e he => location_other (hindex e he)
  have hslotOf : ∀ e ∈ done, Function.update slotOf index (Problem.slot s.slotEnds interval).1 e.1 =
      slotOf e.1 := fun e he => Function.update_of_ne (hindex e he) ..
  refine ⟨fun v location hv => ?_, h.active_place hindex, fun e he o ho => ?_,
    fun e he e' he' hne hoverlap location hl hl' => ?_⟩
  · by_cases heq : v = index
    · exact ⟨(index, interval), by simp, heq.symm⟩
    · obtain ⟨e, he, hev⟩ := h.only v location ((location_other heq).symm.trans hv)
      exact ⟨e, List.mem_append_left _ he, hev⟩
  · rcases List.mem_append.mp he with he | he
    · rw [hold e he] at ho
      obtain ⟨hbyte, last, hlast, hle⟩ := h.slot e he o ho
      obtain ⟨last', hlast', hrise⟩ := slotEnds_rise p index hordered hlast
      rw [hslotOf e he]
      exact ⟨hbyte, last', hlast', hle.trans hrise⟩
    · obtain rfl := List.mem_singleton.mp he
      have hstack := Option.some.inj (location_placed.symm.trans ho)
      rw [Function.update_self]
      exact ⟨located_stack hstack, interval.last, slot_placed hstack, le_rfl⟩
  · rcases List.mem_append.mp he with he | he <;> rcases List.mem_append.mp he' with he' | he'
    · rw [hold e he] at hl
      rw [hold e' he'] at hl'
      rw [hslotOf e he, hslotOf e' he']
      exact h.apart e he e' he' hne hoverlap location hl hl'
    · obtain rfl := List.mem_singleton.mp he'
      obtain rfl := Option.some.inj (location_placed.symm.trans hl')
      rw [hold e he] at hl
      rw [hslotOf e he, Function.update_self]
      exact h.located_ne he hfirst hoverlap hl
    · obtain rfl := List.mem_singleton.mp he
      obtain rfl := Option.some.inj (location_placed.symm.trans hl)
      rw [hold e' he'] at hl'
      rw [hslotOf e' he', Function.update_self]
      rw [overlaps_comm] at hoverlap
      obtain ⟨hstack, hslot⟩ := h.located_ne he' hfirst hoverlap hl'
      exact ⟨hstack, hslot.symm⟩
    · obtain rfl := List.mem_singleton.mp he
      obtain rfl := List.mem_singleton.mp he'
      exact absurd rfl hne

end Step

/-! ### The whole scan -/

theorem mem_order {e : UInt32 × Interval} :
    e ∈ p.order ↔ p.live.intervals[e.1]? = some e.2 := by
  unfold Problem.order
  rw [List.mem_mergeSort]
  exact Std.TreeMap.mem_toList_iff_getElem?_eq_some

/-- The values are visited by the start of their intervals, and none of them twice. -/
theorem pairwise_order (p : Problem) :
    p.order.Pairwise fun a b => a.2.first ≤ b.2.first ∧ a.1 ≠ b.1 := by
  have hfirst : p.order.Pairwise fun a b => a.2.first ≤ b.2.first := by
    refine (List.pairwise_mergeSort ?_ ?_ _).imp fun h => by simpa using h
    · intro a b c hab hbc
      simp only [decide_eq_true_eq] at hab hbc ⊢
      exact hab.trans hbc
    · intro a b
      simp only [Bool.or_eq_true, decide_eq_true_eq]
      exact Nat.le_total ..
  have hkeys : p.order.Pairwise fun a b => a.1 ≠ b.1 := by
    refine ((List.mergeSort_perm ..).pairwise_iff fun h => h.symm).mpr ?_
    refine (Std.TreeMap.distinct_keys_toList (t := p.live.intervals)).imp fun h heq => h ?_
    exact heq ▸ Std.ReflCmp.compare_self
  exact hfirst.and hkeys

theorem scanned_scan (p : Problem) : ∃ slotOf, Scanned p p.order p.scan slotOf := by
  suffices key : ∀ (rest done : List (UInt32 × Interval)) (s : Scan), p.order = done ++ rest →
      (∃ slotOf, Scanned p done s slotOf) →
      ∃ slotOf, Scanned p p.order (rest.foldl (Scan.place p) s) slotOf from
    key p.order [] {} rfl ⟨fun _ => 0, by simp, by simp, by simp, by simp⟩
  intro rest
  induction rest with
  | nil =>
    intro done s hsplit hdone
    rw [hsplit, List.append_nil]
    exact hdone
  | cons entry rest ih =>
    intro done s hsplit ⟨slotOf, hdone⟩
    obtain ⟨index, interval⟩ := entry
    have hbefore := (List.pairwise_append.mp (hsplit ▸ pairwise_order p)).2.2
    have hordered : interval.first ≤ interval.last := by
      have hmem : (index, interval) ∈ p.order := by
        rw [hsplit]
        exact List.mem_append_right _ (List.mem_cons_self ..)
      exact intervals_ordered p.live (mem_order.mp hmem)
    refine ih (done ++ [(index, interval)]) _ (by simp [hsplit]) (hdone.place ?_ ?_ hordered)
    · exact fun d hd => (hbefore d hd _ (List.mem_cons_self ..)).2
    · exact fun d hd => (hbefore d hd _ (List.mem_cons_self ..)).1

theorem toNat_frameByte {slot : ℕ} (h : p.locals.toNat + slot ≤ 255) :
    (p.frameByte slot).toNat = p.locals.toNat + slot := by
  unfold Problem.frameByte
  rw [UInt8.toNat_ofNat_of_lt' (by simp [UInt8.size])]
  omega

/-- **Values that overlap are apart** if the frame fits. -/
theorem scan_apart (hframe : p.locals.toNat + p.scan.slotEnds.length ≤ 255) {v w : UInt32}
    {iv iw : Interval} (hv : p.live.intervals[v]? = some iv) (hw : p.live.intervals[w]? = some iw)
    (hne : v ≠ w) (hoverlap : iv.overlaps iw = true) {location : Location}
    (hlv : p.scan.locations[v]? = some location) : p.scan.locations[w]? ≠ some location := by
  intro hlw
  obtain ⟨slotOf, h⟩ := scanned_scan p
  have hv' : (v, iv) ∈ p.order := mem_order.mpr hv
  have hw' : (w, iw) ∈ p.order := mem_order.mpr hw
  obtain ⟨⟨o, rfl⟩, hslots⟩ := h.apart _ hv' _ hw' hne hoverlap location hlv hlw
  obtain ⟨hov, last, hlast, -⟩ := h.slot _ hv' o hlv
  obtain ⟨how, last', hlast', -⟩ := h.slot _ hw' o hlw
  have hlt := (List.getElem?_eq_some_iff.mp hlast).1
  have hlt' := (List.getElem?_eq_some_iff.mp hlast').1
  dsimp only at hov how hlt hlt' hslots
  rw [hov] at how
  have hbytes := congrArg UInt8.toNat how
  rw [toNat_frameByte (by omega), toNat_frameByte (by omega)] at hbytes
  omega

/-- The bytes of slots come after the locals and inside the frame. -/
theorem scan_stack (hframe : p.locals.toNat + p.scan.slotEnds.length ≤ 255) {v : UInt32} {o : UInt8}
    (h : p.scan.locations[v]? = some (.stack o)) :
    p.locals.toNat ≤ o.toNat ∧ o.toNat < p.locals.toNat + p.scan.slotEnds.length := by
  obtain ⟨slotOf, hscan⟩ := scanned_scan p
  obtain ⟨e, he, rfl⟩ := hscan.only v _ h
  obtain ⟨hbyte, last, hlast, -⟩ := hscan.slot e he o h
  have hlt := (List.getElem?_eq_some_iff.mp hlast).1
  rw [hbyte, toNat_frameByte (by omega)]
  omega

/-! ### Allocation -/

/-- **What the locations of an allocated function promise.** -/
structure Assigned (selected : SelectedCode) (callClobbers : Std.TreeMap ℕ Clobbers)
    (live : Liveness) (a : AllocatedCode) : Prop where
  /-- Values that overlap are apart. -/
  apart : ∀ (v w : VReg) (iv iw : Interval), live.intervals[v.index]? = some iv →
    live.intervals[w.index]? = some iw → v ≠ w → iv.overlaps iw = true →
    ∀ location, a.locations[v.index]? = some location → a.locations[w.index]? ≠ some location
  /-- A value in a register is only loaded and stored. -/
  plain : ∀ (v : VReg) (r : Register), a.locations[v.index]? = some (.reg r) →
    ∀ (k : ℕ) (op : Opcode), selected.code[k]? = some (.op op (.virtual v)) → op = .lda ∨ op = .sta
  /-- The register is undisturbed while the value is live. -/
  undisturbed : ∀ (v : VReg) (r : Register), a.locations[v.index]? = some (.reg r) →
    ∀ (k : ℕ) (line : Line), selected.code[k]? = some line → live.isLiveOut k (.vreg v) = true →
      ((∃ op, line = .op op (.virtual v)) ∨ live.writes k (.reg r) = false) ∧
        (r = .a ∨ live.isLiveOut k (.reg r) = false)
  /-- An access to the value may be replaced. -/
  replaceable : ∀ (v : VReg) (r : Register), a.locations[v.index]? = some (.reg r) →
    ∀ (k : ℕ) (op : Opcode), selected.code[k]? = some (.op op (.virtual v)) →
      (r = .a → op = .lda → live.isLiveOut k .nz = false) ∧
        (r ≠ .a → op = .sta → live.isLiveOut k .nz = false ∧ live.isLiveOut k (.reg r) = false)
  /-- A cell is spared by the calls that its value lives through. -/
  spared : ∀ (v : VReg) (cell : UInt8), a.locations[v.index]? = some (.zeroPage cell) →
    ∀ (k : ℕ) (set : Clobbers), callClobbers[k]? = some set →
      live.isLiveOut k (.vreg v) = true → set.containsCell cell = false
  /-- X holds no value where the frame is addressed through it. -/
  indexFree : ∀ v : VReg, a.locations[v.index]? = some (.reg .x) → a.frameBytes = 0
  /-- Slots are inside the frame, after the locals. -/
  stack : ∀ (v : VReg) (o : UInt8), a.locations[v.index]? = some (.stack o) →
    selected.locals.toNat ≤ o.toNat ∧ o.toNat < a.frameBytes.toNat
  locals : selected.locals.toNat ≤ a.frameBytes.toNat

/-- The scan whose locations are kept: with slots in the frame, it has no value in X. -/
theorem assign_cases (p : Problem) : ∃ useX : Bool, (useX = true → p.useX = true) ∧
    (assign p).1 = { p with useX }.scan ∧
    (0 < { p with useX }.scan.slotEnds.length →
      ∀ v : UInt32, { p with useX }.scan.locations[v]? ≠ some (.reg .x)) := by
  unfold assign
  dsimp only
  split
  · refine ⟨false, fun h => (Bool.false_ne_true h).elim, rfl, fun _ v hv => ?_⟩
    refine absurd rfl (scan_locations (P := fun _ location => location ≠ .reg .x)
      (fun s index interval hlocated => ?_) v _ hv)
    have := (located_reg hlocated).2.2.1 rfl
    cases this
  · rename_i hkeep
    refine ⟨p.useX, id, rfl, fun hslots v hv => hkeep ?_⟩
    simp only [Bool.and_eq_true, decide_eq_true_eq, List.any_eq_true]
    exact ⟨hslots, _, Computations.mem_values.mpr ⟨v, hv⟩, rfl⟩

theorem mem_accesses {v : VReg} {k : ℕ} {op : Opcode} :
    (k, op) ∈ p.accesses v ↔ p.code[k]? = some (.op op (.virtual v)) := by
  unfold Problem.accesses
  rw [List.mem_filterMap]
  constructor
  · rintro ⟨⟨line, i⟩, hmem, hline⟩
    rw [List.mem_zipIdx_iff_getElem?] at hmem
    dsimp only at hline hmem
    split at hline
    · split_ifs at hline with hv
      cases hline
      rw [hmem, hv]
    · cases hline
  · intro h
    exact ⟨(.op op (.virtual v), k), List.mem_zipIdx_iff_getElem?.mpr h, by simp⟩

/-- A register that the scan gives to a value can hold it. -/
theorem scan_reg {v : VReg} {r : Register} (h : p.scan.locations[v.index]? = some (.reg r)) :
    p.canHold v r (p.accesses v) = true ∧
      (∀ access ∈ p.accesses v, access.2 = .lda ∨ access.2 = .sta) ∧
      (r = .x → p.useX = true) := by
  refine scan_locations (P := fun index location => ∀ r, location = .reg r →
    p.canHold ⟨index⟩ r (p.accesses ⟨index⟩) = true ∧
      (∀ access ∈ p.accesses ⟨index⟩, access.2 = .lda ∨ access.2 = .sta) ∧
      (r = .x → p.useX = true)) (fun s index interval r hr => ?_) v.index _ h r rfl
  obtain ⟨hhold, hplain, hx, -⟩ := located_reg hr
  exact ⟨hhold, hplain, hx⟩

theorem canHold_iff {v : VReg} {r : Register} :
    p.canHold v r (p.accesses v) = true ↔
      (∀ (k : ℕ) (line : Line), p.code[k]? = some line → p.live.isLiveOut k (.vreg v) = true →
        ((∃ op, line = .op op (.virtual v)) ∨ p.live.writes k (.reg r) = false) ∧
          (r = .a ∨ p.live.isLiveOut k (.reg r) = false)) ∧
      ∀ (k : ℕ) (op : Opcode), p.code[k]? = some (.op op (.virtual v)) →
        p.replaceable r k op = true := by
  unfold Problem.canHold Problem.undisturbed
  simp only [Bool.and_eq_true, List.all_eq_true, List.mem_range, Bool.or_eq_true,
    Bool.not_eq_eq_eq_not, Bool.not_true, decide_eq_true_eq, List.contains_iff_mem, List.mem_map]
  refine and_congr ⟨fun h k line hline hlive => ?_, fun h k hk => ?_⟩
    ⟨fun h k op hk => h (k, op) (mem_accesses.mpr hk), fun h access haccess => ?_⟩
  · have hk : k < p.code.length := (List.getElem?_eq_some_iff.mp hline).1
    obtain ⟨hwrites, hregs⟩ := (h k hk).resolve_left (by rw [hlive]; simp)
    refine ⟨hwrites.imp_left ?_, hregs⟩
    rintro ⟨⟨i, op⟩, haccess, rfl⟩
    rw [mem_accesses] at haccess
    rw [hline] at haccess
    cases haccess
    exact ⟨op, rfl⟩
  · cases hlive : p.live.isLiveOut k (.vreg v) with
    | false => exact .inl rfl
    | true =>
      obtain ⟨hwrites, hregs⟩ := h k (p.code.get ⟨k, hk⟩) (by simp [hk]) hlive
      refine .inr ⟨hwrites.imp_left ?_, hregs⟩
      rintro ⟨op, hop⟩
      exact ⟨(k, op), mem_accesses.mpr (by rw [← hop]; simp [hk]), rfl⟩
  · exact h access.1 access.2 (mem_accesses.mp haccess)

/-- The promises, from the scan whose locations are kept. -/
theorem assigned_of_scan {selected : SelectedCode} {a : AllocatedCode} {p : Problem}
    (hcode : p.code = selected.code) (hlocals : p.locals = selected.locals)
    (hlocations : a.locations = p.scan.locations)
    (hframe : p.locals.toNat + p.scan.slotEnds.length ≤ 255)
    (hsize : a.frameBytes.toNat = p.locals.toNat + p.scan.slotEnds.length)
    (huseX : p.useX = true → p.locals = 0)
    (hx : 0 < p.scan.slotEnds.length → ∀ v : UInt32, p.scan.locations[v]? ≠ some (.reg .x))
    (hspared : ∀ (v : VReg) (cell : UInt8), a.locations[v.index]? = some (.zeroPage cell) →
      ∀ (k : ℕ) (set : Clobbers), p.callClobbers[k]? = some set →
        p.live.isLiveOut k (.vreg v) = true → set.containsCell cell = false) :
    Assigned selected p.callClobbers p.live a := by
  refine ⟨fun v w iv iw hv hw hne hoverlap location hl => ?_, fun v r hv k op hk => ?_,
    fun v r hv k line hk hout => ?_, fun v r hv k op hk => ?_, hspared,
    fun v hv => ?_, fun v o hv => ?_, by rw [← hlocals]; omega⟩
  · rw [hlocations] at hl ⊢
    exact scan_apart hframe hv hw (fun heq => hne (congrArg VReg.mk heq)) hoverlap hl
  · rw [hlocations] at hv
    rw [← hcode] at hk
    exact (scan_reg hv).2.1 (k, op) (mem_accesses.mpr hk)
  · rw [hlocations] at hv
    rw [← hcode] at hk
    exact (canHold_iff.mp (scan_reg hv).1).1 k line hk hout
  · rw [hlocations] at hv
    rw [← hcode] at hk
    have hreplace := (canHold_iff.mp (scan_reg hv).1).2 k op hk
    unfold Problem.replaceable at hreplace
    constructor
    · rintro rfl rfl
      simpa using hreplace
    · rintro hr rfl
      cases r with
      | a => exact absurd rfl hr
      | x => simpa using hreplace
      | y => simpa using hreplace
  · rw [hlocations] at hv
    have hzero := huseX ((scan_reg hv).2.2 rfl)
    have hnone : ¬ 0 < p.scan.slotEnds.length := fun hpos => hx hpos v.index hv
    refine UInt8.toNat_inj.mp ?_
    rw [hsize, hzero]
    simp only [UInt8.toNat_zero]
    omega
  · rw [hlocations] at hv
    obtain ⟨hle, hlt⟩ := scan_stack hframe hv
    rw [hsize, ← hlocals]
    exact ⟨hle, hlt⟩

/-- **The promises are kept.** -/
theorem assigned_of_allocate {z : ZeroPage} {selected : SelectedCode} {binding : Binding}
    {callClobbers : Std.TreeMap ℕ Clobbers} {a : AllocatedCode}
    (h : allocate z selected binding callClobbers = .ok a) {live : Liveness}
    (hlive : Liveness.compute selected.code selected.calls binding.returnKind.registers = .ok live) :
    Assigned selected callClobbers live a := by
  obtain ⟨live', moved, hlive', hframe, -, -, hlocations, hslots, hbytes⟩ := (allocate_spec h).out
  rw [hlive] at hlive'
  cases hlive'
  obtain ⟨useX, huseX, hscan, hx⟩ := assign_cases (problemOf z selected binding callClobbers live)
  rw [hscan] at hlocations hslots hframe
  have hsize : a.frameBytes.toNat = selected.locals.toNat + a.slots := by
    rw [hbytes, hslots, UInt8.toNat_ofNat_of_lt' (by simp only [UInt8.size]; omega)]
  rw [hslots] at hsize
  refine assigned_of_scan (p := { problemOf z selected binding callClobbers live with useX })
    rfl rfl hlocations hframe hsize (fun hfree => ?_) hx fun v cell hv => (cell_spared h hlive hv).2
  exact of_decide_eq_true (huseX hfree)

end Codegen6502.Proofs.Allocating.Assignment
