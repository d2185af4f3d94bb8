import Codegen6502.Proofs.Allocating.Blocks
import Codegen6502.Proofs.Processor.Straight

/-!
# Lines that branch forwards

A branch leads to a label further on in the same lines or out of them.  `follow` goes through lines
once, from the first to the last: behind a branch that is taken lines are left out up to the label
that it goes to.  What is left in the end is a store and the label, if any, that control has gone to
(`Passage`).

`run_follow` says that a run of the code around the lines does just that.
-/

namespace Codegen6502.Proofs.Processor.Passages

open LineRun Straight

variable {k : Linkage} {s t : Store}

/-! ### Going through lines -/

/-- A store, and the label that control is on its way to. -/
structure Passage where
  store : Store
  seeking : Option String := none

/-- The label that control may go to from a line. -/
def exit? : Line → Option String
  | .op op operand => if isData op then none else (Line.op op operand).target?
  | _ => none

/-- Whether control goes to the label of a line that has one. -/
def leaves (r : Registers) : Line → Bool
  | .op op _ => op = .jmp || isTaken op r
  | _ => false

def advance (k : Linkage) (p : Passage) (line : Line) : Passage :=
  match p.seeking with
  | some target => if line = .label target then { store := p.store } else p
  | none =>
    match exit? line with
    | some target =>
      { store := p.store, seeking := if leaves p.store.regs line then some target else none }
    | none => { store := execLine k p.store line }

def follow (k : Linkage) (lines : List Line) (p : Passage) : Passage := lines.foldl (advance k) p

@[simp] theorem follow_nil (p : Passage) : follow k [] p = p := rfl

@[simp] theorem follow_cons (line : Line) (lines : List Line) (p : Passage) :
    follow k (line :: lines) p = follow k lines (advance k p line) := rfl

@[simp] theorem follow_append (front back : List Line) (p : Passage) :
    follow k (front ++ back) p = follow k back (follow k front p) := List.foldl_append ..

/-- Straight lines are passed through. -/
theorem follow_straight {lines : List Line} (h : ∀ line ∈ lines, IsStraight line) :
    follow k lines { store := s } = { store := execAll k lines s } := by
  induction lines generalizing s with
  | nil => rfl
  | cons line rest ih =>
    obtain ⟨op, operand, rfl, hdata, -⟩ := h line (List.mem_cons_self ..)
    have hadvance : advance k { store := s } (.op op operand) = { store := s.exec k op operand } := by
      simp [advance, exit?, hdata, execLine]
    rw [follow_cons, hadvance, ih fun l hl => h l (List.mem_cons_of_mem _ hl)]
    rfl

/-- Lines without the label that control is on its way to are left out. -/
theorem follow_seeking {lines : List Line} {target : String} (h : .label target ∉ lines) :
    follow k lines { store := s, seeking := some target } =
      { store := s, seeking := some target } := by
  induction lines with
  | nil => rfl
  | cons line rest ih =>
    have hline : line ≠ .label target := fun heq => h (heq ▸ List.mem_cons_self ..)
    rw [follow_cons]
    simp only [advance, if_neg hline]
    exact ih fun hmem => h (List.mem_cons_of_mem _ hmem)

/-! ### Runs -/

variable {e : Environment} {code : List Line} {calls : Std.TreeMap ℕ CallTarget}

/-- A run leads from one point to another. -/
def Reaches (e : Environment) (code : List Line) (calls : Std.TreeMap ℕ CallTarget)
    (c c' : Config) : Prop :=
  ∃ n, run e code calls n c = some c'

namespace Reaches

variable {c c' c'' : Config}

theorem refl (c : Config) : Reaches e code calls c c := ⟨0, rfl⟩

theorem trans (h : Reaches e code calls c c') (h' : Reaches e code calls c' c'') :
    Reaches e code calls c c'' := by
  obtain ⟨m, hm⟩ := h
  obtain ⟨n, hn⟩ := h'
  refine ⟨m + n, ?_⟩
  induction m generalizing c with
  | zero =>
    cases hm
    rwa [Nat.zero_add]
  | succ m ih =>
    obtain ⟨d, hstep, hd⟩ := Option.bind_eq_some_iff.mp hm
    rw [Nat.succ_add, run, hstep]
    exact ih hd

theorem single (h : step e code calls c = some c') : Reaches e code calls c c' :=
  ⟨1, by rw [run, h]; rfl⟩

end Reaches

/-- The lines that `follow` accounts for. -/
inductive IsForward : Line → Prop
  | straight {line : Line} (h : IsStraight line) : IsForward line
  | label (name : String) : IsForward (.label name)
  | branch {op : Opcode} (target : String) (h : op.isBranch = true) : IsForward (.branch op target)
  | jmp (target : String) : IsForward (.jmp target)

/-- Control is at a line, or at the label that it was on its way to. -/
def At (code : List Line) (p : Passage) (next : ℕ) (c : Config) : Prop :=
  c.store = p.store ∧ match p.seeking with
    | none => c.line = next
    | some target => (labelIndices code)[target]? = some c.line

theorem isData_branch {op : Opcode} (h : op.isBranch = true) : isData op = false := by
  cases op <;> first | rfl | cases h

theorem isSome_encode_branch {op : Opcode} (h : op.isBranch = true) :
    (op.encode .relative).isSome = true := by
  cases op <;> first | rfl | cases h

theorem ne_jmp_of_isBranch {op : Opcode} (h : op.isBranch = true) : op ≠ .jmp := by
  rintro rfl
  cases h

theorem exit?_branch {op : Opcode} (h : op.isBranch = true) (target : String) :
    exit? (.branch op target) = some target := by
  simp [exit?, Line.branch, isData_branch h, Line.target?]

theorem leaves_branch {op : Opcode} (h : op.isBranch = true) (r : Registers) (target : String) :
    leaves r (.branch op target) = isTaken op r := by
  simp [leaves, Line.branch, ne_jmp_of_isBranch h]

/-- **One line.** -/
theorem reaches_advance (calls : Std.TreeMap ℕ CallTarget) {line : Line} {p : Passage} {i : ℕ} {c : Config}
    (hline : code[i]? = some line) (hforward : IsForward line)
    (hexit : ∀ target, exit? line = some target → .label target ∈ code)
    (hlabel : ∀ name, line = .label name → (labelIndices code)[name]? = some i)
    (hat : At code p i c) :
    ∃ c', Reaches e code calls c c' ∧ c'.captures = c.captures ∧
      At code (advance e.linkage p line) (i + 1) c' := by
  obtain ⟨hstore, hat⟩ := hat
  unfold advance
  split
  · -- On the way to a label: control is there already, and passes it if the line is the label.
    rename_i target hseeking
    rw [hseeking] at hat
    split
    · rename_i hfound
      have hi : c.line = i := Option.some.inj (hat.symm.trans (hlabel target hfound))
      refine ⟨{ c with line := i + 1 }, .single ?_, rfl, hstore, rfl⟩
      unfold step
      rw [hi, hline, hfound]
    · exact ⟨c, .refl c, rfl, hstore, by rw [hseeking]; exact hat⟩
  · rename_i hseeking
    rw [hseeking] at hat
    have hgoto : ∀ (c : Config) (target : String), .label target ∈ code →
        ∃ j, (labelIndices code)[target]? = some j ∧ c.goto code target = some { c with line := j } := by
      intro c target hmem
      obtain ⟨j, hj⟩ := Allocating.Blocks.exists_labelIndex hmem
      exact ⟨j, hj, by unfold Config.goto; rw [hj]; rfl⟩
    cases hforward with
    | straight h =>
      obtain ⟨op, operand, rfl, hdata, hencode⟩ := h
      have hnone : exit? (.op op operand) = none := by simp [exit?, hdata]
      rw [hnone]
      refine ⟨c.pass e op operand, .single ?_, rfl, ?_, congrArg (· + 1) hat⟩
      · unfold step
        rw [hat, hline]
        simp [hdata, Option.isNone_eq_false_iff.mpr hencode]
      · simp only [Config.pass, hstore, execLine]
    | label name =>
      refine ⟨{ c with line := i + 1 }, .single ?_, rfl, hstore, rfl⟩
      unfold step
      rw [hat, hline]
    | @branch op target h =>
      have hstep : step e code calls c = c.branch code op (.relative target) := by
        unfold step
        rw [hat, hline]
        simp [Line.branch, isData_branch h, h, Operand.mode, Option.isNone_eq_false_iff.mpr
          (isSome_encode_branch h)]
      rw [exit?_branch h, leaves_branch h, ← hstore]
      change ∃ c', Reaches e code calls c c' ∧ _ ∧ At code { store := c.store, seeking := _ } _ c'
      unfold Config.branch at hstep
      by_cases htaken : isTaken op c.store.regs = true
      · obtain ⟨j, hj, hgo⟩ := hgoto { c with trace := c.trace ++ [Event.branch target true] } target
          (hexit target (exit?_branch h target))
        simp only [htaken, ↓reduceIte, hgo] at hstep ⊢
        exact ⟨_, .single hstep, rfl, rfl, hj⟩
      · simp only [htaken] at hstep ⊢
        exact ⟨_, .single hstep, rfl, rfl, congrArg (· + 1) hat⟩
    | jmp target =>
      obtain ⟨j, hj, hgo⟩ := hgoto c target (hexit target rfl)
      refine ⟨{ c with line := j }, .single ?_, rfl, hstore, hj⟩
      unfold step
      rw [hat, hline]
      exact hgo

/-- No label of the lines comes again further on. -/
def Lone (lines back : List Line) : Prop :=
  ∀ mid name rest, lines = mid ++ .label name :: rest → .label name ∉ rest ++ back

/-- **Lines that branch forwards are run as `follow` says**, whatever stands before and behind
them. -/
theorem run_follow (lines : List Line) : ∀ (front back : List Line) (p : Passage) (c : Config),
    code = front ++ lines ++ back → (∀ line ∈ lines, IsForward line) →
    (∀ line ∈ lines, ∀ target, exit? line = some target → .label target ∈ code) →
    Lone lines back → At code p front.length c →
    ∃ c', Reaches e code calls c c' ∧ c'.captures = c.captures ∧
      At code (follow e.linkage lines p) (front.length + lines.length) c' := by
  induction lines with
  | nil => exact fun front back p c _ _ _ _ hat => ⟨c, .refl c, rfl, hat⟩
  | cons line rest ih =>
    intro front back p c hcode hforward hexit hlone hat
    have hline : code[front.length]? = some line := by
      rw [hcode, List.append_assoc, List.getElem?_append_right le_rfl]
      simp
    have hlabel : ∀ name, line = .label name → (labelIndices code)[name]? = some front.length := by
      rintro name rfl
      refine (Allocating.Blocks.labelIndices_getElem? code).mpr ⟨hline, fun j hj hlater => ?_⟩
      refine hlone [] name rest rfl ?_
      rw [hcode, List.append_assoc, List.getElem?_append_right hj.le, List.cons_append,
        List.getElem?_cons, if_neg (by omega)] at hlater
      exact List.mem_of_getElem? hlater
    obtain ⟨c₁, hreaches, hcaptures, hat₁⟩ := reaches_advance calls hline
      (hforward line (List.mem_cons_self ..)) (hexit line (List.mem_cons_self ..)) hlabel hat
    obtain ⟨c₂, hreaches', hcaptures', hat₂⟩ := ih (front ++ [line]) back (advance e.linkage p line)
      c₁ (by simp [hcode]) (fun l hl => hforward l (List.mem_cons_of_mem _ hl))
      (fun l hl => hexit l (List.mem_cons_of_mem _ hl))
      (fun mid name tail heq => hlone (line :: mid) name tail (by rw [heq]; rfl)) (by simpa using hat₁)
    refine ⟨c₂, hreaches.trans hreaches', hcaptures'.trans hcaptures, ?_⟩
    simpa [Nat.add_comm, Nat.add_left_comm] using hat₂

end Codegen6502.Proofs.Processor.Passages
