import Codegen6502.Proofs.Allocating.Blockwise
import Codegen6502.Proofs.Allocating.Outcomes
import Codegen6502.Proofs.Liveness.Exact

/-!
# Pushes balance

The bytes that have been pushed at a line are counted along the ways that control takes to it
(`Arrives`): through the text, to labels, and back to a capture.  They are as many as the text in
front of the line pushes as long as it pushes nothing in front of labels, branches and jumps
(`Level`, `Level.balanced`).

* `countable_selected`: selected code is level;
* `level_placed`: placing keeps code level.
-/

namespace Codegen6502.Proofs.Allocating.Depths

open Allocation Selection Liveness.Exact Blocks Blockwise NeededX Outcomes
open Selecting.Growth Selecting.Shapes Selecting.Bodies Selecting.FrameReach

/-! ### Ways and what they push -/

/-- **Control comes to a line, with a number of bytes pushed on the way**: along the text, to a
label, or back to a capture, which finds the stack as it was. -/
inductive Arrives (code : List Line) (calls : Std.TreeMap ℕ CallTarget) : ℕ → ℤ → Prop where
  | entry : Arrives code calls 0 0
  | edge {i j : ℕ} {depth : ℤ} {line : Line} : Arrives code calls i depth → code[i]? = some line →
    Edge code i j → Arrives code calls j (depth + pushes line)
  | resume {i : ℕ} {depth : ℤ} : Arrives code calls i depth →
    calls[i]? = some (.routine .setJmp) → Arrives code calls (i + 1) depth

/-- Labels, branches and jumps. -/
def isTurn : Line → Bool
  | .label _ => true
  | .op op _ => op.isBranch || op == .jmp
  | .comment _ => false

/-- **The pushes of code balance**: all ways to a line push the same number of bytes, that of the
text in front of it.  It is not negative, and zero at labels, branches and jumps, which the exit,
the ways to it and the jump that restores a captured state are among. -/
structure Balanced (code : List Line) (calls : Std.TreeMap ℕ CallTarget) : Prop where
  same : ∀ (k : ℕ) (depth : ℤ), Arrives code calls k depth → depth = pushed code k
  nonneg : ∀ (k : ℕ) (depth : ℤ), Arrives code calls k depth → 0 ≤ depth
  turn : ∀ (k : ℕ) (depth : ℤ) (line : Line), Arrives code calls k depth → code[k]? = some line →
    isTurn line = true → depth = 0

/-- In the order of the text, nothing is pushed in front of labels, branches and jumps, and nowhere
less than nothing. -/
structure Level (code : List Line) : Prop where
  nonneg : ∀ k : ℕ, 0 ≤ pushed code k
  turn : ∀ (k : ℕ) (line : Line), code[k]? = some line → isTurn line = true → pushed code k = 0
  noTxs : ∀ (k : ℕ) (operand : Operand), code[k]? ≠ some (.op .txs operand)

/-- Captures are calls. -/
def CapturesCall (code : List Line) (calls : Std.TreeMap ℕ CallTarget) : Prop :=
  ∀ i : ℕ, calls[i]? = some (.routine .setJmp) → ∃ operand, code[i]? = some (.op .jsr operand)

section Ways

variable {code : List Line} {calls : Std.TreeMap ℕ CallTarget} {k : ℕ} {line : Line}

theorem pushes_of_isTurn (h : isTurn line = true) : pushes line = 0 := by
  cases line with
  | op op operand => cases op <;> first | rfl | cases h
  | _ => rfl

/-- **On every way to a line of level code**, what has been pushed is what the text in front of the
line pushes. -/
theorem Level.arrives (h : Level code) (hcalls : CapturesCall code calls) {depth : ℤ}
    (hk : Arrives code calls k depth) : depth = pushed code k := by
  induction hk with
  | entry => rfl
  | @edge i j depth line _ hline hedge ih =>
    subst ih
    -- Where control turns off, nothing is pushed on either side.
    have hturns : isTurn line = true → ∀ name, code[j]? = some (.label name) →
        pushed code i + pushes line = pushed code j := by
      intro hturn name hj
      rw [h.turn i line hline hturn, pushes_of_isTurn hturn, h.turn j _ hj rfl]
      rfl
    cases hedge with
    | on => exact (pushed_succ hline).symm
    | branch hi hop hj =>
      rw [hline] at hi
      cases hi
      exact hturns (by simp [isTurn, hop]) _ hj
    | jump hi hj =>
      rw [hline] at hi
      cases hi
      exact hturns rfl _ hj
  | @resume i depth _ hcapture ih =>
    obtain ⟨operand, hline⟩ := hcalls i hcapture
    rw [pushed_succ hline, ih]
    exact (add_zero _).symm

theorem Level.balanced (h : Level code) (hcalls : CapturesCall code calls) :
    Balanced code calls where
  same _ _ hk := h.arrives hcalls hk
  nonneg k _ hk := by
    rw [h.arrives hcalls hk]
    exact h.nonneg k
  turn k _ line hk hline hturn := by
    rw [h.arrives hcalls hk]
    exact h.turn k line hline hturn

end Ways

/-! ### Selected code -/

section Selected

variable {conv : Convention} {bindings : Std.TreeMap String Binding} {limits : Limits}
  {f : FunctionDef} {b : Binding} {s : SelectedCode} {r : Rules} {known : String → Prop} {p q : Point}
  {line : Line} {target? : Option CallTarget} {es : List Entry} {points : ℕ → Point} {k : ℕ}

theorem pushes_of_isPlain {op : Opcode} (h : isPlain op = true) (operand : Operand) :
    pushes (.op op operand) = 0 := by
  cases op <;> first | rfl | cases h

/-- **A step counts what its line pushes.** -/
theorem depth_of_step (h : Step r known p q (line, target?)) :
    (q.depth : ℤ) = p.depth + pushes line := by
  cases h with
  | plain hop hwithin haccess hdeep hx =>
    rw [pushes_of_isPlain hop]
    exact (add_zero _).symm
  | push n x => simp [pushes, Line.bare]
  | pull n x => simp [pushes, Line.bare]
  | setX d x x' hset hdeep => obtain rfl | rfl | ⟨i, rfl⟩ := hset <;> exact (add_zero _).symm
  | useX d x x' huse hx => obtain rfl | rfl | ⟨cell, rfl⟩ := huse <;> exact (add_zero _).symm
  | call d x x' hoperand hx hresumes => exact (add_zero _).symm
  | branch x hop hknown hx =>
    rw [Line.branch, pushes_of_isTurn (by simp [isTurn, hop])]
    rfl
  | jump x x' hknown hx => rfl
  | escape x x' hescape => rfl
  | label x hplaces hx => rfl

/-- Labels, branches and jumps stand where nothing is pushed. -/
theorem depth_of_turn (h : Step r known p q (line, target?)) (hturn : isTurn line = true) :
    p.depth = 0 := by
  cases h with
  | @plain d x op operand hop hwithin haccess hdeep hx =>
    cases op <;> first | cases hop; done | cases hturn
  | setX d x x' hset hdeep => obtain rfl | rfl | ⟨i, rfl⟩ := hset <;> cases hturn
  | useX d x x' huse hx => obtain rfl | rfl | ⟨cell, rfl⟩ := huse <;> cases hturn
  | push | pull | call => cases hturn
  | _ => rfl

/-- The stack pointer is not set. -/
theorem ne_txs_of_step (h : Step r known p q (line, target?)) (operand : Operand) :
    line ≠ .op .txs operand := by
  rintro rfl
  generalize hline : Line.op .txs operand = line at h
  cases h with
  | plain hop hwithin haccess hdeep hx => cases hline; cases hop
  | setX d x x' hset hdeep => obtain rfl | rfl | ⟨i, rfl⟩ := hset <;> cases hline
  | useX d x x' huse hx => obtain rfl | rfl | ⟨cell, rfl⟩ := huse <;> cases hline
  | branch x hop hknown hx => cases hline; cases hop
  | _ => cases hline

/-- The points of a walk tell what its text pushes. -/
theorem depth_along (h : Along r known idle q es points) (hk : k ≤ es.length) :
    ((points k).depth : ℤ) = pushed (es.map Prod.fst) k := by
  induction k with
  | zero => rw [h.first]; rfl
  | succ k ih =>
    have he : es[k]? = some (es.get ⟨k, hk⟩) := by simp [Nat.lt_of_succ_le hk]
    have hline : (es.map Prod.fst)[k]? = some (es.get ⟨k, hk⟩).1 := by
      rw [List.getElem?_map, he]
      rfl
    rw [depth_of_step (h.step k _ he), ih (Nat.le_of_succ_le hk), pushed_succ hline]

/-- Nothing is pushed behind the last line. -/
theorem pushed_of_length_le {code : List Line} (h : code.length ≤ k) :
    pushed code k = pushed code code.length := by
  rw [pushed, pushed, List.take_of_length_le h, List.take_length]

theorem level_of_along (h : Along r known idle q es points) : Level (es.map Prod.fst) where
  nonneg k := by
    rcases Nat.le_total k es.length with hk | hk
    · rw [← depth_along h hk]
      exact Int.natCast_nonneg _
    · rw [pushed_of_length_le (by simpa using hk), List.length_map,
        ← depth_along h (Nat.le_refl _)]
      exact Int.natCast_nonneg _
  turn k line hline hturn := by
    rw [List.getElem?_map, Option.map_eq_some_iff] at hline
    obtain ⟨⟨line, target?⟩, he, rfl⟩ := hline
    rw [← depth_along h (List.getElem?_eq_some_iff.mp he).1.le,
      depth_of_turn (h.step k _ he) hturn]
    rfl
  noTxs k operand hline := by
    rw [List.getElem?_map, Option.map_eq_some_iff] at hline
    obtain ⟨⟨line, target?⟩, he, heq⟩ := hline
    exact ne_txs_of_step (h.step k _ he) operand heq

/-- What is recorded stands at a call. -/
theorem jsr_of_step {target : CallTarget} (h : Step r known p q (line, some target)) :
    ∃ operand, line = .op .jsr operand := by
  cases h with
  | call => exact ⟨_, rfl⟩

/-- Code that can be placed without losing count of what it pushes. -/
structure Countable (code : List Line) (calls : Std.TreeMap ℕ CallTarget) : Prop where
  level : Level code
  captures : CapturesCall code calls
  plain : ∀ (k : ℕ) (op : Opcode) (operand : Operand), code[k]? = some (.op op operand) →
    operand.isPreAllocation = true → isPlain op = true

/-- **Selected code is level.** -/
theorem countable_selected (h : selectFunction conv bindings limits f = .ok s)
    (hb : bindings[f.name]? = some b) (hbound : Bound conv bindings) : Countable s.code s.calls := by
  have hfits : Fits (reachRules everywhere bindings f b) bindings f b :=
    fits_reachRules fun node _ => reached_everywhere b node
  obtain ⟨es, hes⟩ := selected_outline h hb hbound hfits
  obtain ⟨points, halong⟩ := exists_along hes.walk
  refine ⟨hes.code ▸ level_of_along halong, fun i hcall => ?_, fun k op operand hline hpre => ?_⟩
  · rw [hes.calls, getElem?_calls, Option.bind_eq_some_iff] at hcall
    obtain ⟨⟨line, target?⟩, hi, rfl⟩ := hcall
    obtain ⟨operand, rfl⟩ := jsr_of_step (halong.step i _ hi)
    exact ⟨operand, by rw [hes.code, List.getElem?_map, hi]; rfl⟩
  · obtain ⟨target?, hk, -⟩ := entry_of_line hes hline
    exact (plain_of_preAllocation (halong.step k _ hk) hpre).1

end Selected

/-! ### Views of the stack -/

/-- The view of the stack after the lines in front of one. -/
def viewAt (code : List Line) (k : ℕ) : StackView := (code.take k).foldl StackView.after {}

section Views

variable {code out lines : List Line} {calls outCalls : Std.TreeMap ℕ CallTarget} {k j : ℕ}
  {line placed : Line} {p : Placement} {view view' : StackView} {block : ℕ → List Line}
  {views : ℕ → StackView}

@[simp] theorem viewAt_zero (code : List Line) : viewAt code 0 = {} := rfl

theorem viewAt_succ (hline : code[k]? = some line) :
    viewAt code (k + 1) = (viewAt code k).after line := by
  unfold viewAt
  rw [List.take_add_one, hline, List.foldl_append]
  rfl

/-- The view counts what has been pushed. -/
theorem depth_viewAt (code : List Line) (k : ℕ) : (viewAt code k).depth = pushed code k := by
  induction k with
  | zero => rfl
  | succ k ih =>
    cases hline : code[k]? with
    | some line => rw [viewAt_succ hline, after_depth, pushed_succ hline, ih]
    | none =>
      have htake : code.take (k + 1) = code.take k := by rw [List.take_add_one, hline]; simp
      rw [viewAt, pushed, htake]
      exact ih

/-- A plain line leaves the stack and X alone. -/
theorem after_of_isPlain {op : Opcode} (h : isPlain op = true) (view : StackView) (operand : Operand) :
    view.after (.op op operand) = view := by
  cases op <;> first | rfl | cases h

/-- What becomes an access to the frame is an instruction that is to be placed. -/
theorem preAllocation_of_frame {op : Opcode} {o : UInt8}
    (h : p.line line = .ok (some (.op op (.frame o)))) :
    ∃ operand, line = .op op operand ∧ operand.isPreAllocation = true := by
  by_cases hvirtual : ∃ op v, line = .op op (.virtual v)
  · obtain ⟨op', v, rfl⟩ := hvirtual
    obtain ⟨location, -, haccess⟩ := accessed_of_access h
    cases haccess
    exact ⟨_, rfl, rfl⟩
  · rw [line_eq fun op v heq => hvirtual ⟨op, v, heq⟩] at h
    cases h
    exact ⟨_, rfl, rfl⟩

/-- **The view behind a block** is the one after its lines. -/
theorem view_of_placed (h : PlacedAs p view k line lines view')
    (hplain : ∀ op operand, line = .op op operand → operand.isPreAllocation = true →
      isPlain op = true) : view' = lines.foldl StackView.after view := by
  cases h with
  | gone hline => rfl
  | kept hline hframe => rfl
  | frame hline hlines =>
    obtain ⟨operand, rfl, hpre⟩ := preAllocation_of_frame hline
    have hop := hplain _ _ rfl hpre
    cases accesses_of_frameLines hlines with
    | indexed => exact (after_of_isPlain hop ..).symm
    | saving =>
      simp only [List.foldl_cons, List.foldl_nil, indexedAccess, after_of_isPlain hop]
      simp [StackView.after, Line.effects, Opcode.effects]
    | loading =>
      simp only [List.foldl_cons, List.foldl_nil, indexedAccess, after_of_isPlain hop]
      rfl

end Views

/-! ### Placed code -/

section Placed

variable {code out lines : List Line} {calls outCalls : Std.TreeMap ℕ CallTarget} {k j : ℕ}
  {line placed : Line} {p : Placement} {block : ℕ → List Line} {view : ℕ → StackView}
  {before behind : StackView}

/-- What placing neither changes nor makes: labels, branches, jumps and setting the stack
pointer. -/
def isFixed : Line → Bool
  | .op .txs _ => true
  | line => isTurn line

theorem isFixed_of_isTurn (h : isTurn line = true) : isFixed line = true := by
  cases line with
  | op op operand => cases op <;> first | rfl | cases h
  | label name => rfl
  | comment text => cases h

theorem isFixed_of_isPlain {op : Opcode} (h : isPlain op = true) (operand : Operand) :
    isFixed (.op op operand) = false := by
  cases op <;> first | rfl | cases h

/-- The lines of an access to the frame. -/
theorem mem_accesses {live : Liveness} {op : Opcode} {o : UInt8}
    (h : Accesses live before k op o lines behind) (hmem : placed ∈ lines) :
    placed ∈ [.bare .php, .bare .tsx, .bare .plp] ∨ ∃ depth, placed = indexedAccess op o depth := by
  cases h with
  | indexed => exact .inr ⟨_, List.mem_singleton.mp hmem⟩
  | saving =>
    simp only [List.mem_cons, List.not_mem_nil, or_false] at hmem
    rcases hmem with rfl | rfl | rfl | rfl
    · exact .inl (by simp [Line.bare])
    · exact .inl (by simp [Line.bare])
    · exact .inr ⟨_, rfl⟩
    · exact .inl (by simp [Line.bare])
  | loading =>
    rcases List.mem_pair.mp hmem with rfl | rfl
    · exact .inl (by simp [Line.bare])
    · exact .inr ⟨_, rfl⟩

section Block

variable (h : PlacedAs p before k line lines behind)
  (hplain : ∀ op operand, line = .op op operand → operand.isPreAllocation = true →
    isPlain op = true) (hj : lines[j]? = some placed)

include h hplain hj

/-- A label, branch or jump in a block is the line itself. -/
theorem eq_of_isFixed (hfixed : isFixed placed = true) : j = 0 ∧ placed = line := by
  cases h with
  | gone hline => simp at hj
  | @kept placed' hline hframe =>
    obtain ⟨rfl, rfl⟩ : j = 0 ∧ placed' = placed := by simpa [List.getElem?_singleton] using hj
    refine ⟨rfl, ?_⟩
    by_cases hvirtual : ∃ op v, line = .op op (.virtual v)
    · obtain ⟨op, v, rfl⟩ := hvirtual
      obtain ⟨location, -, haccess⟩ := accessed_of_access hline
      cases haccess with
      | zeroPage =>
        rw [isFixed_of_isPlain (hplain op _ rfl rfl)] at hfixed
        cases hfixed
      | stack => exact absurd rfl (hframe _ _)
      | _ => cases hfixed
    · rw [line_eq fun op v heq => hvirtual ⟨op, v, heq⟩] at hline
      cases hline
      rfl
  | frame hline hlines =>
    obtain ⟨operand, rfl, hpre⟩ := preAllocation_of_frame hline
    rcases mem_accesses (accesses_of_frameLines hlines) (List.mem_of_getElem? hj) with hmem | ⟨depth, rfl⟩
    · simp only [List.mem_cons, List.not_mem_nil, or_false] at hmem
      rcases hmem with rfl | rfl | rfl <;> cases hfixed
    · rw [indexedAccess, isFixed_of_isPlain (hplain _ _ rfl hpre)] at hfixed
      cases hfixed

/-- In front of the lines of a block no less is pushed than in front of the block. -/
theorem depth_le_inside : before.depth ≤ ((lines.take j).foldl StackView.after before).depth := by
  have hlt := (List.getElem?_eq_some_iff.mp hj).1
  cases h with
  | gone hline => simp at hj
  | kept hline hframe =>
    obtain rfl : j = 0 := by simpa using hlt
    exact le_rfl
  | frame hline hlines =>
    obtain ⟨operand, rfl, hpre⟩ := preAllocation_of_frame hline
    have hop := hplain _ _ rfl hpre
    cases accesses_of_frameLines hlines with
    | indexed =>
      obtain rfl : j = 0 := by simpa using hlt
      exact le_rfl
    | saving =>
      obtain rfl | rfl | rfl | rfl : j = 0 ∨ j = 1 ∨ j = 2 ∨ j = 3 := by
        simp only [List.length_cons, List.length_nil] at hlt
        omega
      · exact le_rfl
      · exact Int.le_add_one le_rfl
      · exact Int.le_add_one le_rfl
      · simp only [List.take_succ_cons, List.take_zero, List.foldl_cons, List.foldl_nil,
          indexedAccess, after_of_isPlain hop]
        exact Int.le_add_one le_rfl
    | loading =>
      obtain rfl | rfl : j = 0 ∨ j = 1 := by
        simp only [List.length_cons, List.length_nil] at hlt
        omega
      · exact le_rfl
      · exact le_rfl

end Block

/-- What a table made of an ordered list holds is in the list. -/
theorem mem_of_getElem?_ofList {moved : List (ℕ × CallTarget)} {q : ℕ} {target : CallTarget}
    (hordered : moved.Pairwise fun a b => a.1 < b.1)
    (hq : (Std.TreeMap.ofList moved : Std.TreeMap ℕ CallTarget)[q]? = some target) :
    (q, target) ∈ moved := by
  have hdistinct : moved.Pairwise fun a b => ¬ compare a.1 b.1 = .eq :=
    hordered.imp fun hlt heq => by
      have := Std.LawfulEqCmp.eq_of_compare heq
      omega
  by_cases hkey : (moved.map Prod.fst).contains q = true
  · obtain ⟨⟨_, found⟩, hentry, rfl⟩ := List.mem_map.mp (List.contains_iff_mem.mp hkey)
    rw [Std.TreeMap.getElem?_ofList_of_mem Std.ReflCmp.compare_self hdistinct hentry] at hq
    cases hq
    exact hentry
  · rw [Std.TreeMap.getElem?_ofList_of_contains_eq_false (by simpa using hkey)] at hq
    cases hq

variable (h : Laid p calls code out outCalls block view) (hcode : Countable code calls)

include h

/-- The lines in front of a line of a block. -/
theorem take_placed (hk : k < code.length) (hj : j ≤ (block k).length) :
    out.take (offset block k + j) = joined block k ++ (block k).take j := by
  obtain ⟨back, hback⟩ := joined_split block hk
  rw [h.out, hback, List.append_assoc, offset, List.take_length_add_append,
    List.take_append_of_le_length hj]

include hcode

/-- **Placing keeps the view of the stack.** -/
theorem view_of_laid (hk : k ≤ code.length) :
    view k = (joined block k).foldl StackView.after {} := by
  induction k with
  | zero => exact h.start
  | succ k ih =>
    have hline : code[k]? = some (code.get ⟨k, hk⟩) := by simp [Nat.lt_of_succ_le hk]
    rw [joined_succ, List.foldl_append, ← ih (Nat.le_of_succ_le hk)]
    exact view_of_placed (h.placed k _ hline) fun op operand heq =>
      hcode.plain k op operand (hline.trans (congrArg some heq))

theorem viewAt_placed (hk : k < code.length) (hj : j ≤ (block k).length) :
    viewAt out (offset block k + j) = ((block k).take j).foldl StackView.after (view k) := by
  rw [viewAt, take_placed h hk hj, List.foldl_append, ← view_of_laid h hcode hk.le]

theorem depth_of_laid (hk : k ≤ code.length) : (view k).depth = pushed code k :=
  Laid.depth h (fun k op operand hline hpre =>
    pushes_of_isPlain (hcode.plain k op operand hline hpre) operand) hk

/-- Every line of placed code stands in the block of some line. -/
theorem exists_block {q : ℕ} (hq : out[q]? = some placed) : ∃ k line j, code[k]? = some line ∧
    (block k)[j]? = some placed ∧ PlacedAs p (view k) k line (block k) (view (k + 1)) ∧
    (∀ op operand, line = .op op operand → operand.isPreAllocation = true → isPlain op = true) ∧
    pushed out q = (((block k).take j).foldl StackView.after (view k)).depth := by
  rw [h.out] at hq
  obtain ⟨k, hk, hle, hj⟩ := joined_getElem? block hq
  have hline := List.getElem?_eq_getElem hk
  refine ⟨k, _, q - offset block k, hline, hj, h.placed k _ hline, fun op operand heq =>
    hcode.plain k op operand (hline.trans (congrArg some heq)), ?_⟩
  rw [← viewAt_placed h hcode hk (List.getElem?_eq_some_iff.mp hj).1.le, depth_viewAt]
  congr 1
  omega

/-- **Placed code is level.** -/
theorem level_placed : Level out where
  nonneg q := by
    rcases Nat.lt_or_ge q out.length with hlt | hge
    · obtain ⟨k, line, j, hline, hj, hplaced, hplain, hpushed⟩ :=
        exists_block h hcode (List.getElem?_eq_getElem hlt)
      have hdepth := depth_of_laid h hcode (List.getElem?_eq_some_iff.mp hline).1.le
      have hinside := depth_le_inside hplaced hplain hj
      have hnonneg := hcode.level.nonneg k
      omega
    · rw [pushed_of_length_le hge, ← depth_viewAt, viewAt, List.take_length, h.out,
        ← view_of_laid h hcode le_rfl, depth_of_laid h hcode le_rfl]
      exact hcode.level.nonneg _
  turn q placed hq hturn := by
    obtain ⟨k, line, j, hline, hj, hplaced, hplain, hpushed⟩ := exists_block h hcode hq
    obtain ⟨rfl, rfl⟩ := eq_of_isFixed hplaced hplain hj (isFixed_of_isTurn hturn)
    rw [hpushed]
    change (view k).depth = 0
    rw [depth_of_laid h hcode (List.getElem?_eq_some_iff.mp hline).1.le]
    exact hcode.level.turn k _ hline hturn
  noTxs q operand hq := by
    obtain ⟨k, line, j, hline, hj, hplaced, hplain, -⟩ := exists_block h hcode hq
    obtain ⟨-, rfl⟩ := eq_of_isFixed hplaced hplain hj rfl
    exact hcode.level.noTxs k operand hline

/-- Captures are calls in placed code as well. -/
theorem captures_placed : CapturesCall out outCalls := by
  intro q hq
  obtain ⟨moved, rfl, hmoved⟩ := h.calls
  obtain ⟨k, line, hline, ⟨placed, hplaced, hframe⟩, rfl, hcall⟩ :=
    hmoved.from_ _ (mem_of_getElem?_ofList hmoved.ordered hq)
  rw [Nat.zero_add] at hcall
  obtain ⟨operand, hjsr⟩ := hcode.captures k hcall
  obtain rfl := Option.some.inj (hline.symm.trans hjsr)
  have hblock := ((h.placed k _ hline).eq_of_kept hplaced hframe).1
  rw [line_eq fun op v heq => by cases heq; cases hcode.plain k .jsr _ hline rfl] at hplaced
  cases hplaced
  have hget := h.getElem? (List.getElem?_eq_some_iff.mp hline).1 (j := 0) (by simp [hblock])
  rw [hblock] at hget
  exact ⟨operand, by rw [Nat.zero_add]; exact hget⟩

end Placed

end Codegen6502.Proofs.Allocating.Depths
