import Codegen6502.Proofs.Allocating.Scan
import Mathlib.Algebra.Order.Ring.Int

/-!
# Placed code in blocks

Placing makes a block of every line: nothing, one line, or the lines of a frame access.  The blocks
stand one after the other (`place_blocks`), so a line starts at the sum of the lengths of the blocks
before it (`offset`).

* `Laid.labelIndices`: a label of the code stands at the offset of its line;
* `Laid.calls_getElem?`: what is recorded for a line that is kept is recorded at its offset.
-/

namespace Codegen6502.Proofs.Allocating.Blocks

open Allocation Computations

/-! ### Consecutive blocks -/

/-- A sequence with one more element in front. -/
def prepend {α : Type} (a : α) (f : ℕ → α) : ℕ → α
  | 0 => a
  | j + 1 => f j

/-- The first blocks in a row. -/
def joined (block : ℕ → List Line) (n : ℕ) : List Line := (List.range n).flatMap block

/-- Where a block starts. -/
def offset (block : ℕ → List Line) (n : ℕ) : ℕ := (joined block n).length

variable {block : ℕ → List Line}

theorem joined_succ (block : ℕ → List Line) (n : ℕ) :
    joined block (n + 1) = joined block n ++ block n := by
  simp [joined, List.range_succ]

theorem joined_prepend (first : List Line) (block : ℕ → List Line) (n : ℕ) :
    joined (prepend first block) (n + 1) = first ++ joined block n := by
  simp [joined, List.range_succ_eq_map, List.flatMap_map, prepend]

@[simp] theorem offset_zero (block : ℕ → List Line) : offset block 0 = 0 := rfl

theorem offset_succ (block : ℕ → List Line) (n : ℕ) :
    offset block (n + 1) = offset block n + (block n).length := by
  simp [offset, joined_succ]

theorem offset_prepend (first : List Line) (block : ℕ → List Line) (n : ℕ) :
    offset (prepend first block) (n + 1) = first.length + offset block n := by
  simp [offset, joined_prepend]

theorem offset_mono (block : ℕ → List Line) {j k : ℕ} (h : j ≤ k) :
    offset block j ≤ offset block k := by
  induction h with
  | refl => exact Nat.le_refl _
  | step _ ih =>
    rw [Nat.succ_eq_add_one, offset_succ]
    omega

/-- A block of some length ends before later ones start. -/
theorem offset_lt {j k : ℕ} (hjk : j < k) (hj : block j ≠ []) : offset block j < offset block k := by
  have hlength := List.length_pos_iff.mpr hj
  have hmono := offset_mono block (Nat.succ_le_of_lt hjk)
  rw [Nat.succ_eq_add_one, offset_succ] at hmono
  omega

/-- The blocks before, at and behind a line. -/
theorem joined_split (block : ℕ → List Line) {k n : ℕ} (h : k < n) :
    ∃ back, joined block n = joined block k ++ block k ++ back := by
  induction h with
  | refl => exact ⟨[], by rw [Nat.succ_eq_add_one, joined_succ]; simp⟩
  | @step n _ ih =>
    obtain ⟨back, hback⟩ := ih
    exact ⟨back ++ block n, by rw [Nat.succ_eq_add_one, joined_succ, hback]; simp⟩

/-- Every line stands in a block. -/
theorem joined_getElem? (block : ℕ → List Line) {n q : ℕ} {line : Line}
    (h : (joined block n)[q]? = some line) :
    ∃ k < n, offset block k ≤ q ∧ (block k)[q - offset block k]? = some line := by
  induction n with
  | zero => simp [joined] at h
  | succ n ih =>
    rw [joined_succ] at h
    by_cases hq : q < offset block n
    · rw [List.getElem?_append_left hq] at h
      obtain ⟨k, hk, hle, hline⟩ := ih h
      exact ⟨k, by omega, hle, hline⟩
    · rw [List.getElem?_append_right (Nat.le_of_not_lt hq)] at h
      exact ⟨n, Nat.lt_succ_self n, Nat.le_of_not_lt hq, h⟩

/-! ### Frame accesses -/

/-- The address of frame byte `o` for an access through X, loaded at a push depth. -/
def indexedAddress (o : UInt8) (depth : ℤ) : ℤ := 0x0101 + (o.toNat : ℤ) + depth

/-- The access itself. -/
def indexedAccess (op : Opcode) (o : UInt8) (depth : ℤ) : Line :=
  .op op (.absoluteX (.absolute (UInt16.ofNat (indexedAddress o depth).toNat)))

theorem frameAccess_ok {op : Opcode} {o : UInt8} {depth : ℤ} {line : Line}
    (h : frameAccess op o depth = .ok line) :
    0x0100 ≤ indexedAddress o depth ∧ indexedAddress o depth ≤ 0x01FF ∧
      line = indexedAccess op o depth := by
  unfold frameAccess at h
  dsimp only at h
  split at h
  · rename_i hrange
    cases h
    simp only [Bool.and_eq_true, decide_eq_true_eq] at hrange
    exact ⟨hrange.1, hrange.2, rfl⟩
  · cases h

/-- The lines of a frame access, with the view of the stack behind them: through X as it is, or with
X loaded from the stack pointer, the flags saved around that or not. -/
inductive Accesses (live : Liveness) (view : StackView) (k : ℕ) (op : Opcode) (o : UInt8) :
    List Line → StackView → Prop where
  | indexed {depth : ℤ} : view.indexed = some depth →
    Accesses live view k op o [indexedAccess op o depth] view
  | saving : view.indexed = none → (live.liveIn k).contains (.reg .x) = false →
    (op.effects (.frame 0)).writesNZ = false →
    Accesses live view k op o
      [.op .php .implied, .op .tsx .implied, indexedAccess op o (view.depth + 1), .op .plp .implied]
      { view with indexed := some (view.depth + 1) }
  | loading : view.indexed = none → (live.liveIn k).contains (.reg .x) = false →
    ((op.effects (.frame 0)).writesNZ = true ∨ live.isLiveOut k .nz = false) →
    Accesses live view k op o [.op .tsx .implied, indexedAccess op o view.depth]
      { view with indexed := some view.depth }

theorem accesses_of_frameLines {p : Placement} {view view' : StackView} {k : ℕ} {op : Opcode}
    {o : UInt8} {lines : List Line} (h : p.frameLines view k op o = .ok (lines, view')) :
    Accesses p.live view k op o lines view' := by
  unfold Placement.frameLines at h
  cases hindexed : view.indexed with
  | some depth =>
    rw [hindexed] at h
    obtain ⟨line, hline, h⟩ := bind_eq_ok.mp h
    cases h
    rw [(frameAccess_ok hline).2.2]
    exact .indexed hindexed
  | none =>
    rw [hindexed] at h
    dsimp only at h
    split at h
    · cases h
    · rename_i hx
      rw [Bool.not_eq_true] at hx
      obtain ⟨line, hline, h⟩ := bind_eq_ok.mp h
      cases h
      rw [(frameAccess_ok hline).2.2]
      split_ifs with hkeeps
      · rw [Bool.and_eq_true, Bool.not_eq_true'] at hkeeps
        exact .saving hindexed hx hkeeps.1
      · refine .loading hindexed hx ?_
        rw [Bool.and_eq_true, not_and_or, Bool.not_eq_true', Bool.not_eq_false,
          Bool.not_eq_true] at hkeeps
        exact hkeeps

/-! ### Placing a line -/

variable {p : Placement} {calls : Std.TreeMap ℕ CallTarget} {code out : List Line}

/-- What an access to a value becomes at a location. -/
inductive Accessed (op : Opcode) : Location → Option Line → Prop where
  | zeroPage {cell : UInt8} : Accessed op (.zeroPage cell) (some (.op op (.zeroPage cell)))
  | stack {o : UInt8} : Accessed op (.stack o) (some (.op op (.frame o)))
  | held : op = .lda ∨ op = .sta → Accessed op (.reg .a) none
  | toX : op = .sta → Accessed op (.reg .x) (some (.op .tax .implied))
  | fromX : op = .lda → Accessed op (.reg .x) (some (.op .txa .implied))
  | toY : op = .sta → Accessed op (.reg .y) (some (.op .tay .implied))
  | fromY : op = .lda → Accessed op (.reg .y) (some (.op .tya .implied))

theorem accessed_of_access {op : Opcode} {v : VReg} {placed? : Option Line}
    (h : p.access op v = .ok placed?) :
    ∃ location, p.locations[v.index]? = some location ∧ Accessed op location placed? := by
  unfold Placement.access at h
  split at h
  · cases h
  · rename_i cell hcell
    cases h
    exact ⟨_, hcell, .zeroPage⟩
  · rename_i o ho
    cases h
    exact ⟨_, ho, .stack⟩
  · rename_i r hr
    refine ⟨.reg r, hr, ?_⟩
    split at h
    · cases h; exact .held (.inl rfl)
    · cases h; exact .held (.inr rfl)
    · cases h; exact .toX rfl
    · cases h; exact .fromX rfl
    · cases h; exact .toY rfl
    · cases h; exact .fromY rfl
    · cases h

/-- A line without virtual register is kept as it is. -/
theorem line_eq {line : Line} (h : ∀ op v, line ≠ .op op (.virtual v)) :
    p.line line = .ok (some line) := by
  unfold Placement.line
  split
  · rename_i op v
    exact absurd rfl (h op v)
  · rfl

/-- What placing makes of line `k`, and the view of the stack behind it. -/
inductive PlacedAs (p : Placement) (view : StackView) (k : ℕ) (line : Line) :
    List Line → StackView → Prop where
  | gone : p.line line = .ok none → PlacedAs p view k line [] view
  | frame {op : Opcode} {o : UInt8} {lines : List Line} {view' : StackView} :
    p.line line = .ok (some (.op op (.frame o))) → p.frameLines view k op o = .ok (lines, view') →
    PlacedAs p view k line lines view'
  | kept {placed : Line} : p.line line = .ok (some placed) → (∀ op o, placed ≠ .op op (.frame o)) →
    PlacedAs p view k line [placed] (view.after placed)

theorem PlacedAs.eq_of_kept {view view' : StackView} {k : ℕ} {line placed : Line}
    {lines : List Line} (h : PlacedAs p view k line lines view')
    (hline : p.line line = .ok (some placed)) (hframe : ∀ op o, placed ≠ .op op (.frame o)) :
    lines = [placed] ∧ view' = view.after placed := by
  cases h with
  | gone hgone => rw [hline] at hgone; cases hgone
  | frame hother _ => rw [hline] at hother; cases hother; exact absurd rfl (hframe _ _)
  | kept hkept _ => rw [hline] at hkept; cases hkept; exact ⟨rfl, rfl⟩

/-- Whether a line is placed as a line of its own, with what is recorded for it. -/
def IsKept (p : Placement) (line : Line) : Prop :=
  ∃ placed, p.line line = .ok (some placed) ∧ ∀ op o, placed ≠ .op op (.frame o)

/-- The calls that placing has moved: in order, and one for each that is recorded for a kept
line. -/
structure Moved (p : Placement) (calls : Std.TreeMap ℕ CallTarget) (code : List Line)
    (block : ℕ → List Line) (i pos : ℕ) (moved : List (ℕ × CallTarget)) : Prop where
  ordered : moved.Pairwise fun a b => a.1 < b.1
  from_ : ∀ entry ∈ moved, ∃ j line, code[j]? = some line ∧ IsKept p line ∧
    entry.1 = pos + offset block j ∧ calls[i + j]? = some entry.2
  all : ∀ (j : ℕ) (line : Line) (target : CallTarget), code[j]? = some line → IsKept p line →
    calls[i + j]? = some target → (pos + offset block j, target) ∈ moved

theorem Moved.cons {line : Line} {first : List Line} {call moved : List (ℕ × CallTarget)} {i pos : ℕ}
    (h : Moved p calls code block (i + 1) (pos + first.length) moved) (hcall : call.length ≤ 1)
    (hfrom : ∀ entry ∈ call, first ≠ [] ∧ IsKept p line ∧ entry.1 = pos ∧ calls[i]? = some entry.2)
    (hall : ∀ target, IsKept p line → calls[i]? = some target → (pos, target) ∈ call) :
    Moved p calls (line :: code) (prepend first block) i pos (call ++ moved) := by
  refine ⟨List.pairwise_append.mpr ⟨?_, h.ordered, fun a ha b hb => ?_⟩, fun entry hentry => ?_,
    fun j other target hj hkept htarget => ?_⟩
  · cases call with
    | nil => exact .nil
    | cons entry tail =>
      have htail : tail = [] := by simpa using hcall
      rw [htail]
      exact List.pairwise_singleton ..
  · obtain ⟨hne, -, hpos, -⟩ := hfrom a ha
    obtain ⟨j, other, -, -, hb, -⟩ := h.from_ b hb
    have := List.length_pos_iff.mpr hne
    omega
  · rcases List.mem_append.mp hentry with hentry | hentry
    · obtain ⟨-, hkept, hpos, htarget⟩ := hfrom entry hentry
      exact ⟨0, line, rfl, hkept, by simpa using hpos, htarget⟩
    · obtain ⟨j, other, hj, hkept, hpos, htarget⟩ := h.from_ entry hentry
      refine ⟨j + 1, other, by simpa using hj, hkept, ?_, ?_⟩
      · rw [offset_prepend, hpos, Nat.add_assoc]
      · rw [← htarget, Nat.add_right_comm, Nat.add_assoc]
  · cases j with
    | zero =>
      cases hj
      exact List.mem_append_left _ (by simpa using hall target hkept htarget)
    | succ j =>
      refine List.mem_append_right _ ?_
      rw [offset_prepend, ← Nat.add_assoc]
      exact h.all j other target (by simpa using hj) hkept
        (by rw [← htarget, Nat.add_right_comm, Nat.add_assoc])

/-- Placed code and moved calls as blocks of the lines, each seen from the view behind the one
before. -/
def InBlocks (p : Placement) (calls : Std.TreeMap ℕ CallTarget) (view : StackView) (i pos : ℕ)
    (code out : List Line) (moved : List (ℕ × CallTarget)) : Prop :=
  ∃ (block : ℕ → List Line) (views : ℕ → StackView), views 0 = view ∧
    (∀ j line, code[j]? = some line → PlacedAs p (views j) (i + j) line (block j) (views (j + 1))) ∧
    out = joined block code.length ∧ Moved p calls code block i pos moved

/-- A block for a line, in front of the blocks of the rest. -/
theorem InBlocks.cons {line : Line} {rest first restOut : List Line}
    {call restMoved : List (ℕ × CallTarget)} {view view' : StackView} {i pos : ℕ}
    (h : InBlocks p calls view' (i + 1) (pos + first.length) rest restOut restMoved)
    (hplaced : PlacedAs p view i line first view') (hcall : call.length ≤ 1)
    (hfrom : ∀ entry ∈ call, first ≠ [] ∧ IsKept p line ∧ entry.1 = pos ∧ calls[i]? = some entry.2)
    (hall : ∀ target, IsKept p line → calls[i]? = some target → (pos, target) ∈ call) :
    InBlocks p calls view i pos (line :: rest) (first ++ restOut) (call ++ restMoved) := by
  obtain ⟨block, views, rfl, hplacedRest, rfl, hmoved⟩ := h
  refine ⟨prepend first block, prepend view views, rfl, fun j other hj => ?_,
    (joined_prepend ..).symm, hmoved.cons hcall hfrom hall⟩
  cases j with
  | zero =>
    cases hj
    exact hplaced
  | succ j =>
    rw [Nat.add_comm j 1, ← Nat.add_assoc, Nat.add_comm 1 j]
    exact hplacedRest j other (by simpa using hj)

/-- **Placed code is the blocks of its lines.** -/
theorem place_blocks (code : List Line) : ∀ {view : StackView} {i pos : ℕ} {out : List Line}
    {moved : List (ℕ × CallTarget)}, p.place calls view i pos code = .ok (out, moved) →
    InBlocks p calls view i pos code out moved := by
  induction code with
  | nil =>
    intro view i pos out moved h
    cases h
    exact ⟨fun _ => [], fun _ => view, rfl, by simp, rfl, by simp, by simp, by simp⟩
  | cons line rest ih =>
    intro view i pos out moved h
    unfold Placement.place at h
    obtain ⟨placed?, hplaced, h⟩ := bind_eq_ok.mp h
    split at h
    · have hnot : ¬ IsKept p line := fun ⟨placed, hsome, _⟩ => by rw [hplaced] at hsome; cases hsome
      change InBlocks p calls view i pos (line :: rest) ([] ++ out) ([] ++ moved)
      exact (ih h).cons (.gone hplaced) (by simp) (by simp) fun _ hkept => absurd hkept hnot
    · rename_i op o
      obtain ⟨⟨lines, view'⟩, hlines, h⟩ := bind_eq_ok.mp h
      obtain ⟨⟨restOut, restMoved⟩, hrest, h⟩ := bind_eq_ok.mp h
      cases h
      have hnot : ¬ IsKept p line := by
        rintro ⟨placed, hsome, hframe⟩
        rw [hplaced] at hsome
        cases hsome
        exact hframe op o rfl
      change InBlocks p calls view i pos (line :: rest) (lines ++ restOut) ([] ++ moved)
      exact (ih hrest).cons (.frame hplaced hlines) (by simp) (by simp)
        fun _ hkept => absurd hkept hnot
    · rename_i placed hframe
      obtain ⟨⟨restOut, restMoved⟩, hrest, h⟩ := bind_eq_ok.mp h
      cases h
      have hkept : IsKept p line := ⟨placed, hplaced, fun op o heq => hframe op o (by rw [heq])⟩
      refine InBlocks.cons (ih hrest) (.kept hplaced fun op o heq => hframe op o (by rw [heq]))
        ?_ ?_ ?_
      · split <;> simp
      · intro entry hentry
        split at hentry
        · rename_i target htarget
          rw [List.mem_singleton] at hentry
          subst hentry
          exact ⟨by simp, hkept, rfl, htarget⟩
        · cases hentry
      · intro target _ htarget
        rw [htarget]
        exact List.mem_singleton_self _

/-! ### Labels -/

theorem labelIndices_concat (code : List Line) (line : Line) :
    labelIndices (code ++ [line]) =
      match line with
      | .label name => (labelIndices code).insert name code.length
      | _ => labelIndices code := by
  unfold labelIndices
  rw [List.zipIdx_append, List.foldl_append]
  cases line <;> simp

/-- **A label is looked up** at its last occurrence. -/
theorem labelIndices_getElem? (code : List Line) : ∀ {name : String} {i : ℕ},
    (labelIndices code)[name]? = some i ↔
      code[i]? = some (.label name) ∧ ∀ j, i < j → code[j]? ≠ some (.label name) := by
  induction code using List.reverseRecOn with
  | nil => simp [labelIndices]
  | append_singleton code line ih =>
    intro name i
    have hget : ∀ j, (code ++ [line])[j]? = if j = code.length then some line else code[j]? := by
      intro j
      rcases Nat.lt_trichotomy j code.length with hj | rfl | hj
      · rw [List.getElem?_append_left hj, if_neg (by omega)]
      · simp
      · rw [if_neg (by omega), List.getElem?_eq_none (by simp; omega),
          List.getElem?_eq_none (by omega)]
    rw [labelIndices_concat]
    by_cases hline : line = .label name
    · subst hline
      simp only [Std.TreeMap.getElem?_insert_self, Option.some.injEq, hget]
      constructor
      · rintro rfl
        refine ⟨if_pos rfl, fun j hj => ?_⟩
        rw [if_neg (by omega), List.getElem?_eq_none (by omega)]
        simp
      · rintro ⟨hi, hlast⟩
        by_contra hne
        rw [if_neg (Ne.symm hne)] at hi
        have hlt : i < code.length := (List.getElem?_eq_some_iff.mp hi).1
        exact hlast code.length hlt (if_pos rfl)
    · have hother : ∀ j : ℕ, (code ++ [line])[j]? = some (Line.label name) ↔
          code[j]? = some (Line.label name) := by
        intro j
        rw [hget]
        split_ifs with hj
        · simp [hj, hline]
        · rfl
      have hlabels : (labelIndices (code ++ [line]))[name]? = (labelIndices code)[name]? := by
        rw [labelIndices_concat]
        cases line with
        | label other =>
          dsimp only
          rw [Std.TreeMap.getElem?_insert, if_neg]
          exact fun heq => hline (by rw [Std.LawfulEqCmp.eq_of_compare heq])
        | _ => rfl
      rw [← labelIndices_concat, hlabels, ih, hother]
      refine and_congr_right fun _ => forall_congr' fun j => ?_
      rw [ne_eq, ne_eq, hother]

/-- A label that stands in the code is looked up. -/
theorem exists_labelIndex {code : List Line} {name : String} (h : .label name ∈ code) :
    ∃ i, (labelIndices code)[name]? = some i := by
  suffices hlast : ∃ i : ℕ, code[i]? = some (.label name) ∧
      ∀ j : ℕ, i < j → code[j]? ≠ some (.label name) by
    obtain ⟨i, hi⟩ := hlast
    exact ⟨i, (labelIndices_getElem? code).mpr hi⟩
  induction code using List.reverseRecOn with
  | nil => exact (List.not_mem_nil h).elim
  | append_singleton code line ih =>
    by_cases hline : line = .label name
    · refine ⟨code.length, by simp [hline], fun j hj => ?_⟩
      rw [List.getElem?_eq_none (by simp; omega)]
      simp
    · obtain ⟨i, hi, hlater⟩ := ih ((List.mem_append.mp h).elim id fun hmem =>
        absurd (List.mem_singleton.mp hmem).symm hline)
      have hlt := (List.getElem?_eq_some_iff.mp hi).1
      refine ⟨i, by rw [List.getElem?_append_left hlt, hi], fun j hj => ?_⟩
      rcases Nat.lt_trichotomy j code.length with hjlt | rfl | hjgt
      · rw [List.getElem?_append_left hjlt]
        exact hlater j hj
      · simpa using hline
      · rw [List.getElem?_eq_none (by simp; omega)]
        simp

/-! ### The placed code -/

/-- **The blocks of a placed function**, with the view of the stack before each. -/
structure Laid (p : Placement) (calls : Std.TreeMap ℕ CallTarget) (code out : List Line)
    (outCalls : Std.TreeMap ℕ CallTarget) (block : ℕ → List Line) (view : ℕ → StackView) :
    Prop where
  start : view 0 = {}
  placed : ∀ k line, code[k]? = some line → PlacedAs p (view k) k line (block k) (view (k + 1))
  out : out = joined block code.length
  calls : ∃ moved, outCalls = .ofList moved ∧ Moved p calls code block 0 0 moved

variable {outCalls : Std.TreeMap ℕ CallTarget} {view : ℕ → StackView}

/-- A line that stands in a block. -/
theorem Laid.getElem? (h : Laid p calls code out outCalls block view) {k : ℕ}
    (hk : k < code.length) {j : ℕ} (hj : j < (block k).length) :
    out[offset block k + j]? = (block k)[j]? := by
  obtain ⟨back, hback⟩ := joined_split block hk
  rw [h.out, hback, List.append_assoc, offset, List.getElem?_append_right (Nat.le_add_right ..),
    Nat.add_sub_cancel_left, List.getElem?_append_left hj]

theorem Laid.length (h : Laid p calls code out outCalls block view) :
    out.length = offset block code.length := by
  rw [h.out, offset]

/-- Only the block of a label has a label in it. -/
theorem PlacedAs.label {view view' : StackView} {k : ℕ} {line : Line} {lines : List Line}
    (h : PlacedAs p view k line lines view') {name : String} (hname : .label name ∈ lines) :
    line = .label name ∧ lines = [.label name] := by
  cases h with
  | gone hline => cases hname
  | frame hline hlines =>
    cases accesses_of_frameLines hlines <;> simp [indexedAccess] at hname
  | @kept placed hline hframe =>
    rw [List.mem_singleton] at hname
    subst hname
    refine ⟨?_, rfl⟩
    unfold Placement.line at hline
    split at hline
    · obtain ⟨location, -, haccess⟩ := accessed_of_access hline
      cases haccess
    · cases hline
      rfl

/-- A label has a block of its own. -/
theorem Laid.block_label (h : Laid p calls code out outCalls block view) {k : ℕ} {name : String}
    (hk : code[k]? = some (.label name)) : block k = [.label name] :=
  ((h.placed k _ hk).eq_of_kept rfl (by simp)).1

/-- **A label stands at the offset of its line.** -/
theorem Laid.labelIndices (h : Laid p calls code out outCalls block view) {name : String} {i : ℕ}
    (hi : (labelIndices code)[name]? = some i) :
    (labelIndices out)[name]? = some (offset block i) := by
  obtain ⟨hcode, hlast⟩ := (labelIndices_getElem? code).mp hi
  have hlt : i < code.length := (List.getElem?_eq_some_iff.mp hcode).1
  have hblock := h.block_label hcode
  refine (labelIndices_getElem? out).mpr ⟨?_, fun q hq hlabel => ?_⟩
  · have hget := h.getElem? hlt (j := 0) (by simp [hblock])
    rw [Nat.add_zero, hblock] at hget
    exact hget
  · -- A later label of the name would stand in a later block, which is that of a label as well.
    rw [h.out] at hlabel
    obtain ⟨k, hk, hle, hline⟩ := joined_getElem? block hlabel
    have hkline : code[k]? = some (code.get ⟨k, hk⟩) := by simp [hk]
    obtain ⟨hname, hk1⟩ := (h.placed k _ hkline).label (List.mem_of_getElem? hline)
    rw [hname] at hkline
    have hzero : q - offset block k = 0 := by
      have := (List.getElem?_eq_some_iff.mp hline).1
      rw [hk1] at this
      simpa using this
    rcases Nat.lt_trichotomy i k with hik | rfl | hki
    · exact hlast k hik hkline
    · omega
    · have hne : block k ≠ [] := by rw [hk1]; simp
      have := offset_lt hki hne
      omega

/-- **What is recorded for a kept line** is recorded at its offset. -/
theorem Laid.calls_getElem? (h : Laid p calls code out outCalls block view) {k : ℕ} {line : Line}
    (hk : code[k]? = some line) (hkept : IsKept p line) :
    outCalls[offset block k]? = calls[k]? := by
  obtain ⟨moved, rfl, hmoved⟩ := h.calls
  have hne : ∀ j line, code[j]? = some line → IsKept p line → block j ≠ [] := by
    intro j line hj hkept'
    obtain ⟨placed, hline, hframe⟩ := hkept'
    rw [((h.placed j line hj).eq_of_kept hline hframe).1]
    simp
  have hdistinct : moved.Pairwise fun a b => ¬ compare a.1 b.1 = .eq :=
    hmoved.ordered.imp fun hlt heq => by
      have := Std.LawfulEqCmp.eq_of_compare heq
      omega
  cases hcall : calls[k]? with
  | some target =>
    refine Std.TreeMap.getElem?_ofList_of_mem Std.ReflCmp.compare_self hdistinct ?_
    have := hmoved.all k line target hk hkept (by rw [Nat.zero_add]; exact hcall)
    rwa [Nat.zero_add] at this
  | none =>
    refine Std.TreeMap.getElem?_ofList_of_contains_eq_false ?_
    rw [List.contains_eq_mem, decide_eq_false_iff_not, List.mem_map]
    rintro ⟨entry, hentry, hoffset⟩
    obtain ⟨j, other, hj, hother, hpos, htarget⟩ := hmoved.from_ entry hentry
    rw [Nat.zero_add] at hpos htarget
    have heq : offset block j = offset block k := hpos.symm.trans hoffset
    rcases Nat.lt_trichotomy j k with hjk | rfl | hkj
    · have := offset_lt hjk (hne j other hj hother)
      omega
    · rw [hcall] at htarget
      cases htarget
    · have := offset_lt hkj (hne k line hk hkept)
      omega

/-- The blocks of an allocated function. -/
theorem laid_of_place {moved : List (ℕ × CallTarget)}
    (h : p.place calls {} 0 0 code = .ok (out, moved)) :
    ∃ block view, Laid p calls code out (.ofList moved) block view := by
  obtain ⟨block, view, hstart, hplaced, hout, hmoved⟩ := place_blocks code h
  refine ⟨block, view, hstart, fun k line hk => ?_, hout, moved, rfl, hmoved⟩
  have := hplaced k line hk
  rwa [Nat.zero_add] at this

theorem laid_of_allocate {z : ZeroPage} {selected : SelectedCode} {binding : Binding}
    {callClobbers : Std.TreeMap ℕ Clobbers} {a : AllocatedCode} {live : Liveness}
    (h : allocate z selected binding callClobbers = .ok a)
    (hlive : Liveness.compute selected.code selected.calls binding.returnKind.registers = .ok live) :
    ∃ block view, Laid ⟨selected.name, live, a.locations⟩ selected.calls selected.code a.code a.calls
      block view := by
  obtain ⟨live', moved, hlive', -, hplace, hcalls, hlocations, -, -⟩ := (Scan.allocate_spec h).out
  rw [hlive] at hlive'
  cases hlive'
  rw [hcalls, hlocations]
  exact laid_of_place hplace

end Codegen6502.Proofs.Allocating.Blocks
