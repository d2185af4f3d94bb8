import Codegen6502.Proofs.Allocating.Blocks
import Codegen6502.Proofs.Liveness.Least
import Codegen6502.Proofs.Selecting.Bodies

/-!
# Where X is live

The walk along selected code says at each of its points whether X is needed.  Under strict rules the
analysis of liveness agrees: X is live at most where the walk says so (`liveX`).  The labels that
control goes to are all there, so the analysis has a result (`exists_live`).
-/

namespace Codegen6502.Proofs.Allocating.NeededX

open Computations Liveness.Flow Liveness.Least Selecting.Growth Selecting.Shapes Selecting.Bodies

/-! ### Points along a walk -/

section Points

variable {r : Rules} {known : String → Prop}

/-- The points between the entries of a walk. -/
structure Along (r : Rules) (known : String → Prop) (p q : Point) (es : List Entry)
    (points : ℕ → Point) : Prop where
  first : points 0 = p
  last : points es.length = q
  step : ∀ (k : ℕ) (e : Entry), es[k]? = some e → Step r known (points k) (points (k + 1)) e

theorem exists_along {p q : Point} {es : List Entry} (h : Walk r known p q es) :
    ∃ points, Along r known p q es points := by
  induction h with
  | nil p => exact ⟨fun _ => p, rfl, rfl, fun k e hk => by simp at hk⟩
  | @cons p _ _ e es step rest ih =>
    obtain ⟨points, hfirst, hlast, hstep⟩ := ih
    refine ⟨Blocks.prepend p points, rfl, hlast, fun k e' hk => ?_⟩
    cases k with
    | zero =>
      obtain rfl : e = e' := by simpa using hk
      change Step r known p (points 0) e
      rw [hfirst]
      exact step
    | succ k => exact hstep k e' (by simpa using hk)

end Points

/-! ### Recorded calls -/

theorem mem_callsFrom {i : ℕ} {target : CallTarget} : ∀ {es : List Entry} {n : ℕ},
    (i, target) ∈ callsFrom n es ↔ ∃ k line, i = n + k ∧ es[k]? = some (line, some target)
  | [], n => by simp [callsFrom]
  | (line, none) :: es, n => by
    rw [callsFrom, mem_callsFrom]
    constructor
    · rintro ⟨k, line', rfl, hk⟩
      exact ⟨k + 1, line', by omega, hk⟩
    · rintro ⟨k, line', rfl, hk⟩
      cases k with
      | zero => cases hk
      | succ k => exact ⟨k, line', by omega, hk⟩
  | (line, some first) :: es, n => by
    rw [callsFrom, List.mem_cons, mem_callsFrom]
    constructor
    · rintro (hfirst | ⟨k, line', rfl, hk⟩)
      · cases hfirst
        exact ⟨0, line, rfl, rfl⟩
      · exact ⟨k + 1, line', by omega, hk⟩
    · rintro ⟨k, line', rfl, hk⟩
      cases k with
      | zero =>
        cases hk
        exact Or.inl rfl
      | succ k => exact Or.inr ⟨k, line', by omega, hk⟩

theorem pairwise_callsFrom : ∀ (es : List Entry) (n : ℕ),
    (callsFrom n es).Pairwise fun a b => a.1 < b.1
  | [], _ => List.Pairwise.nil
  | (_, none) :: es, n => pairwise_callsFrom es (n + 1)
  | (_, some _) :: es, n => by
    refine List.pairwise_cons.mpr ⟨fun later hlater => ?_, pairwise_callsFrom es (n + 1)⟩
    obtain ⟨i, target⟩ := later
    obtain ⟨k, line, rfl, -⟩ := mem_callsFrom.mp hlater
    change n < n + 1 + k
    omega

/-- What is recorded for a line. -/
theorem getElem?_calls (es : List Entry) (k : ℕ) :
    (Std.TreeMap.ofList (callsFrom 0 es) : Std.TreeMap ℕ CallTarget)[k]? =
      es[k]?.bind Prod.snd := by
  have hdistinct : (callsFrom 0 es).Pairwise fun a b => ¬ compare a.1 b.1 = .eq :=
    (pairwise_callsFrom es 0).imp fun hlt heq => by
      have := Std.LawfulEqCmp.eq_of_compare heq
      omega
  cases htarget : es[k]?.bind Prod.snd with
  | some target =>
    obtain ⟨⟨line, target?⟩, hk, rfl⟩ := Option.bind_eq_some_iff.mp htarget
    refine Std.TreeMap.getElem?_ofList_of_mem Std.ReflCmp.compare_self hdistinct ?_
    exact mem_callsFrom.mpr ⟨k, line, by omega, hk⟩
  | none =>
    refine Std.TreeMap.getElem?_ofList_of_contains_eq_false ?_
    rw [List.contains_eq_mem, decide_eq_false_iff_not, List.mem_map]
    rintro ⟨⟨i, target⟩, hmem, rfl⟩
    obtain ⟨k', line', hk', hget⟩ := mem_callsFrom.mp hmem
    obtain rfl : i = k' := by omega
    rw [hget] at htarget
    cases htarget

/-! ### Uses of X -/

section Steps

variable {r : Rules} {known : String → Prop} {p q : Point} {line : Line}
  {target? : Option CallTarget}

theorem plain_reads {opcode : Opcode} {operand : Operand} {reach : UInt8 → Prop}
    (hop : isPlain opcode = true) (hwithin : Within reach operand) :
    (Line.op opcode operand).effects.reads.x = false ∧
      (Line.op opcode operand).effects.writes.x = false := by
  have hindex : operand.index.x = false := by
    cases operand <;> first | rfl | cases hwithin
  simp only [Line.effects, RegSet.union, hindex, Bool.or_false]
  cases opcode <;> first | exact ⟨rfl, rfl⟩ | cases hop

theorem ne_jsr_of_plain {opcode : Opcode} (hop : isPlain opcode = true) : opcode ≠ .jsr := by
  rintro rfl
  cases hop

/-- **X is needed in front of a line that uses it.** -/
theorem needed_of_uses (h : Step r known p q (line, target?)) (hstrict : r.strict)
    (huses : (line.uses target?).contains (.reg .x) = true) : p.x = true := by
  cases h with
  | plain hop hwithin haccess hdeep hx =>
    rw [uses_op (ne_jsr_of_plain hop), itemsOf_reg] at huses
    exact absurd huses (by rw [RegSet.contains, (plain_reads hop hwithin).1]; decide)
  | push n x => cases huses
  | pull n x => cases huses
  | setX d x x' hset hdeep => obtain rfl | rfl | ⟨i, rfl⟩ := hset <;> cases huses
  | useX d x x' huse hx => exact hx hstrict
  | @call operand target d x x' hoperand hx hresumes =>
    rw [uses_jsr, itemsOf_reg] at huses
    exact hx hstrict huses
  | @branch opcode target x hop hknown hx =>
    have hreads : opcode ≠ .jsr ∧ (Line.op opcode (.relative target)).effects.reads.x = false := by
      revert hop
      cases opcode <;> first | exact fun _ => ⟨by decide, rfl⟩ | (intro hop; cases hop)
    rw [Line.branch, uses_op hreads.1, itemsOf_reg, RegSet.contains, hreads.2] at huses
    cases huses
  | jump x x' hknown hx => cases huses
  | escape x x' h => cases huses
  | label x hplaces hx => cases huses

/-- A line after which control goes on to the next one. -/
theorem next_op {labels : Std.TreeMap String ℕ} {k : ℕ} {opcode : Opcode} {operand : Operand}
    (hop : opcode.isBranch = false) (hjmp : opcode ≠ .jmp) (hends : opcode.endsBlock = false) :
    Line.next labels k (.op opcode operand) = .ok [k + 1] := by
  unfold Line.next
  split
  · rename_i heq
    cases heq
    rw [hop, hends]
    rfl
  · rename_i heq
    cases heq
    exact absurd rfl hjmp
  · rename_i heq
    cases heq
    rw [hends]
    rfl
  · rfl

theorem mayResume_op {opcode : Opcode} {operand : Operand} {call? : Option CallTarget}
    (hjsr : opcode ≠ .jsr) (hjmp : opcode ≠ .jmp) :
    (Line.op opcode operand).mayResume call? = false := by
  unfold Line.mayResume
  split
  · rename_i heq
    cases heq
    exact absurd rfl hjsr
  · rename_i heq
    cases heq
    exact absurd rfl hjmp
  · rfl

variable {code : List Line} {calls : Std.TreeMap ℕ CallTarget} {k j : ℕ}

/-- Only the next line follows. -/
theorem follows_next {opcode : Opcode} {operand : Operand} (hop : opcode.isBranch = false)
    (hjmp : opcode ≠ .jmp) (hjsr : opcode ≠ .jsr) (hends : opcode.endsBlock = false)
    (h : Follows code calls k (.op opcode operand) j) : j = k + 1 := by
  rcases h with ⟨ns, hns, hj⟩ | ⟨hresume, -⟩
  · rw [next_op hop hjmp hends] at hns
    cases hns
    exact List.mem_singleton.mp hj
  · rw [mayResume_op hjsr hjmp] at hresume
    cases hresume

theorem labelIndex_ok {labels : Std.TreeMap String ℕ} {name : String} {i : ℕ}
    (h : labelIndex labels name = .ok i) : labels[name]? = some i := by
  unfold labelIndex at h
  split at h
  · cases h
    assumption
  · cases h

theorem next_branch {labels : Std.TreeMap String ℕ} {opcode : Opcode} {target : String}
    (hop : opcode.isBranch = true) {ns : List ℕ}
    (h : Line.next labels k (.branch opcode target) = .ok ns) :
    ∃ i, labels[target]? = some i ∧ ns = [i, k + 1] := by
  simp only [Line.branch, Line.next, hop, ↓reduceIte] at h
  obtain ⟨i, hi, h⟩ := bind_eq_ok.mp h
  cases h
  exact ⟨i, labelIndex_ok hi, rfl⟩

theorem next_jmp {labels : Std.TreeMap String ℕ} {target : String} {ns : List ℕ}
    (h : Line.next labels k (.jmp target) = .ok ns) : ∃ i, labels[target]? = some i ∧ ns = [i] := by
  obtain ⟨i, hi, h⟩ := bind_eq_ok.mp h
  cases h
  exact ⟨i, labelIndex_ok hi, rfl⟩

/-- **X is needed in front of a line that leaves it alone** if it is needed behind it, or at the
label that it goes to. -/
theorem needed_of_follows (h : Step r known p q (line, target?)) (hstrict : r.strict)
    (hresumes : ¬r.resumes → resumePoints code.length calls = [])
    (hdefs : line.defs.contains (.reg .x) = false) (hfollows : Follows code calls k line j) :
    j = k + 1 ∧ (q.x = true → p.x = true) ∨
      ∃ name, (labelIndices code)[name]? = some j ∧ (r.xAt name = true → p.x = true) := by
  cases h with
  | @plain d x opcode operand hop hwithin haccess hdeep hx =>
    have hkind : opcode.isBranch = false ∧ opcode ≠ .jmp ∧ opcode ≠ .jsr ∧
        opcode.endsBlock = false := by
      revert hop
      cases opcode <;> first | exact fun _ => by decide | (intro hop; cases hop)
    exact Or.inl ⟨follows_next hkind.1 hkind.2.1 hkind.2.2.1 hkind.2.2.2 hfollows, id⟩
  | push n x => exact Or.inl ⟨follows_next rfl (by decide) (by decide) rfl hfollows, id⟩
  | pull n x => exact Or.inl ⟨follows_next rfl (by decide) (by decide) rfl hfollows, id⟩
  | setX d x x' hset hdeep => obtain rfl | rfl | ⟨i, rfl⟩ := hset <;> cases hdefs
  | useX d x x' huse hx =>
    obtain rfl | rfl | ⟨cell, rfl⟩ := huse <;>
      exact Or.inl ⟨follows_next rfl (by decide) (by decide) rfl hfollows, fun _ => hx hstrict⟩
  | call d x x' hoperand hx hresumes' =>
    rw [defs_jsr, itemsOf_reg] at hdefs
    cases hdefs
  | @branch opcode target x hop hknown hx =>
    rcases hfollows with ⟨ns, hns, hj⟩ | ⟨hresume, -⟩
    · obtain ⟨i, hi, rfl⟩ := next_branch hop hns
      rcases List.mem_pair.mp hj with rfl | rfl
      · exact Or.inr ⟨target, hi, hx hstrict⟩
      · exact Or.inl ⟨rfl, id⟩
    · have hkind : opcode ≠ .jsr ∧ opcode ≠ .jmp := by
        constructor <;> rintro rfl <;> cases hop
      rw [Line.branch, mayResume_op hkind.1 hkind.2] at hresume
      cases hresume
  | @jump target x x' hknown hx =>
    rcases hfollows with ⟨ns, hns, hj⟩ | ⟨hresume, -⟩
    · obtain ⟨i, hi, rfl⟩ := next_jmp hns
      obtain rfl := List.mem_singleton.mp hj
      exact Or.inr ⟨target, hi, hx hstrict⟩
    · cases hresume
  | escape x x' h =>
    rcases hfollows with ⟨ns, hns, hj⟩ | ⟨-, hj⟩
    · cases hns
      cases hj
    · rw [hresumes (h hstrict)] at hj
      cases hj
  | label x hplaces hx =>
    rcases hfollows with ⟨ns, hns, hj⟩ | ⟨hresume, -⟩
    · cases hns
      exact Or.inl ⟨List.mem_singleton.mp hj, id⟩
    · cases hresume

/-- A label is known to need X if it is needed there. -/
theorem xAt_of_label {name : String} (h : Step r known p q (.label name, target?))
    (hstrict : r.strict) (hx : p.x = true) : r.xAt name = true := by
  cases h with
  | label x hplaces hlabel => exact hlabel hstrict hx
  | setX d x x' hset hdeep => obtain h | h | ⟨i, h⟩ := hset <;> cases h
  | useX d x x' huse hx => obtain h | h | ⟨cell, h⟩ := huse <;> cases h

theorem resumes_of_capture (h : Step r known p q (line, some (.routine .setJmp))) : r.resumes := by
  cases h with
  | call d x x' hoperand hx hresumes => exact hresumes rfl

/-- **Every line of a walk has its successors** if the labels that are known are there. -/
theorem exists_next (h : Step r known p q (line, target?))
    (hknown : ∀ name, known name → .label name ∈ code) :
    ∃ ns, line.next (labelIndices code) k = .ok ns := by
  have hlabel : ∀ name, known name → ∃ i, labelIndex (labelIndices code) name = .ok i := by
    intro name hname
    obtain ⟨i, hi⟩ := Blocks.exists_labelIndex (hknown name hname)
    exact ⟨i, by rw [labelIndex, hi]⟩
  have hop : ∀ (opcode : Opcode) (operand : Operand), opcode.isBranch = false → opcode ≠ .jmp →
      opcode.endsBlock = false → ∃ ns, Line.next (labelIndices code) k (.op opcode operand) = .ok ns :=
    fun _ _ hop hjmp hends => ⟨_, next_op hop hjmp hends⟩
  cases h with
  | @plain d x opcode operand hplain hwithin haccess hdeep hx =>
    have hkind : opcode.isBranch = false ∧ opcode ≠ .jmp ∧ opcode.endsBlock = false := by
      revert hplain
      cases opcode <;> first | exact fun _ => by decide | (intro hplain; cases hplain)
    exact hop _ _ hkind.1 hkind.2.1 hkind.2.2
  | push n x => exact hop _ _ rfl (by decide) rfl
  | pull n x => exact hop _ _ rfl (by decide) rfl
  | setX d x x' hset hdeep =>
    obtain rfl | rfl | ⟨i, rfl⟩ := hset <;> exact hop _ _ rfl (by decide) rfl
  | useX d x x' huse hx =>
    obtain rfl | rfl | ⟨cell, rfl⟩ := huse <;> exact hop _ _ rfl (by decide) rfl
  | call d x x' hoperand hx hresumes => exact hop _ _ rfl (by decide) rfl
  | @branch opcode target x hbranch hname hx =>
    obtain ⟨i, hi⟩ := hlabel target hname
    refine ⟨[i, k + 1], ?_⟩
    simp only [Line.branch, Line.next, hbranch, ↓reduceIte, hi]
    rfl
  | @jump target x x' hname hx =>
    obtain ⟨i, hi⟩ := hlabel target hname
    exact ⟨[i], bind_eq_ok.mpr ⟨i, hi, rfl⟩⟩
  | escape x x' h => exact ⟨[], rfl⟩
  | label x hplaces hx => exact ⟨[k + 1], rfl⟩

end Steps

/-! ### The analysis of selected code -/

section Selected

variable {r : Rules} {f : FunctionDef} {b : Binding} {s : SelectedCode} {es : List Entry} {k : ℕ}
  {line : Line} {live : Liveness} {points : ℕ → Point}

theorem entry_of_line (h : Outline r f b s es) (hk : s.code[k]? = some line) :
    ∃ target?, es[k]? = some (line, target?) ∧ s.calls[k]? = target? := by
  rw [h.code, List.getElem?_map, Option.map_eq_some_iff] at hk
  obtain ⟨⟨line', target?⟩, hk, rfl⟩ := hk
  refine ⟨target?, hk, ?_⟩
  rw [h.calls, getElem?_calls, hk]
  rfl

/-- Where no state is captured there is none to go back to. -/
theorem resumePoints_eq_nil (h : Outline r f b s es)
    (halong : Along r (fun l => r.names l ∨ .label l ∈ s.code) idle ⟨0, bodyEndsWithX b f.body⟩ es
      points) (hresumes : ¬r.resumes) : resumePoints s.code.length s.calls = [] := by
  refine List.filterMap_eq_nil_iff.mpr fun ⟨i, target⟩ hmem => ?_
  have hget := Std.TreeMap.mem_toList_iff_getElem?_eq_some.mp hmem
  simp only [h.calls, getElem?_calls] at hget
  obtain ⟨⟨line, target?⟩, hi, rfl⟩ := Option.bind_eq_some_iff.mp hget
  simp only [ite_eq_right_iff, reduceCtorEq, imp_false]
  rintro rfl
  exact hresumes (resumes_of_capture (halong.step i _ hi))

/-- **X is live at most where the walk needs it.** -/
theorem liveX (h : Outline r f b s es)
    (halong : Along r (fun l => r.names l ∨ .label l ∈ s.code) idle ⟨0, bodyEndsWithX b f.body⟩ es
      points) (hstrict : r.strict) (hend : exitsWithX b = true → bodyEndsWithX b f.body = true)
    (hlive : Liveness.compute s.code s.calls b.returnKind.registers = .ok live)
    (hk : (live.liveIn k).contains (.reg .x) = true) : (points k).x = true := by
  have hlength : s.code.length = es.length := by rw [h.code, List.length_map]
  refine liveIn_least (P := fun k => (points k).x = true) hlive (fun hexit => ?_)
    (fun k line hline hpass => ?_) hk
  · rw [hlength, halong.last]
    refine hend (decide_eq_true ?_)
    revert hexit
    cases b.returnKind <;> simp [ReturnKind.registers, LiveSet.ofRegs, LiveSet.contains,
      RegSet.toList, Register.all, RegSet.contains]
  · obtain ⟨target?, hes, hcalls⟩ := entry_of_line h hline
    have hstep := halong.step k _ hes
    rcases hpass with huses | ⟨hdefs, j, hfollows, hj⟩
    · rw [hcalls] at huses
      exact needed_of_uses hstep hstrict huses
    · rcases needed_of_follows hstep hstrict (resumePoints_eq_nil h halong) hdefs hfollows with
        ⟨rfl, hx⟩ | ⟨name, hname, hx⟩
      · exact hx hj
      · obtain ⟨hlabel, -⟩ := (Blocks.labelIndices_getElem? s.code).mp hname
        obtain ⟨target?', hes', -⟩ := entry_of_line h hlabel
        exact hx (xAt_of_label (halong.step j _ hes') hstrict hj)

/-- **The analysis of selected code has a result** if the labels of the function are there. -/
theorem exists_live (h : Outline r f b s es) (hnames : ∀ name, r.names name → .label name ∈ s.code)
    (exit : RegSet) : ∃ live, Liveness.compute s.code s.calls exit = .ok live := by
  obtain ⟨points, halong⟩ := exists_along h.walk
  refine exists_compute s.calls exit fun k line hline => ?_
  obtain ⟨target?, hes, -⟩ := entry_of_line h hline
  exact exists_next (halong.step k _ hes) fun name hname => hname.elim (hnames name) id

end Selected

end Codegen6502.Proofs.Allocating.NeededX
