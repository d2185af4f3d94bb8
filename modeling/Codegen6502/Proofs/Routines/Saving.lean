import Codegen6502.Convention.Entry
import Codegen6502.Proofs.Processor.Polling
import Codegen6502.Proofs.Selecting.Returning

/-!
# Saving and restoring

What the pieces do that the entry and exit sequences of interrupt handlers are made of.  Registers
are stored in slots of the save area and loaded from them; cells of the zero page are copied there
and back through A, or pushed and pulled through A; a frame is reserved and released through A and
X.

Each piece comes with what it leaves alone: the registers that it does not name, and memory outside
of what it writes.
-/

namespace Codegen6502.Proofs.Routines.Saving

open Processor.Memory Processor.LineRun Processor.Fetching Processor.Stack Processor.Polling
open SaveScheme (numbered slot storeOp loadOp)

variable {k : Linkage} {m : Machine} {name : String}

/-! ### Frames -/

/-- **A frame is reserved**; A and X are lost. -/
theorem acts_reserve (n : UInt8) (m : Machine) :
    ∃ r, acts k (Sequence.reserve n).code m = { m with regs := r } ∧ r.sp = m.regs.sp - n ∧
      r.y = m.regs.y ∧ (n = 0 → r = m.regs) := by
  unfold Sequence.reserve
  split
  · rename_i hzero
    exact ⟨m.regs, rfl, by rw [hzero, UInt8.sub_zero], rfl, fun _ => rfl⟩
  · rename_i hsome
    exact ⟨_, rfl, Selecting.Returning.a_subtract n (flag_setFlag _ .c .c true), rfl,
      fun h => absurd h hsome⟩

/-- **A frame is released**; A and X are lost. -/
theorem acts_release (n : UInt8) (m : Machine) :
    ∃ r, acts k (Sequence.release n).code m = { m with regs := r } ∧ r.sp = m.regs.sp + n ∧
      r.y = m.regs.y ∧ (n = 0 → r = m.regs) := by
  unfold Sequence.release
  split
  · rename_i hzero
    exact ⟨m.regs, rfl, by rw [hzero, UInt8.add_zero], rfl, fun _ => rfl⟩
  · rename_i hsome
    exact ⟨_, rfl, Selecting.Returning.a_add n (flag_setFlag _ .c .c false), rfl,
      fun h => absurd h hsome⟩

/-! ### The slots of a save area -/

/-- The address of a slot. -/
def slotAt (k : Linkage) (name : String) (i : ℕ) : UInt16 := k.address (.symbol name (Int32.ofNat i))

theorem slotAt_eq {i : ℕ} (hi : i < 0x10000) : slotAt k name i = k.symbol name + UInt16.ofNat i := by
  have hoffset : (UInt16.ofNat i).toNat = i := by
    rw [UInt16.toNat_ofNat']
    omega
  have hword := Selecting.Places.addend_eq (UInt16.ofNat i)
  rw [hoffset] at hword
  exact congrArg (k.symbol name + ·) hword

theorem slotAt_inj {i j : ℕ} (hi : i < 0x10000) (hj : j < 0x10000)
    (h : slotAt k name i = slotAt k name j) : i = j := by
  rw [slotAt_eq hi, slotAt_eq hj, UInt16.add_right_inj] at h
  have hnat := congrArg UInt16.toNat h
  rw [UInt16.toNat_ofNat', UInt16.toNat_ofNat'] at hnat
  omega

/-- The slots of a stretch of the area. -/
def InSlots (k : Linkage) (name : String) (s n : ℕ) (a : UInt16) : Prop :=
  ∃ i, s ≤ i ∧ i < s + n ∧ slotAt k name i = a

theorem inSlots_mono {s n s' n' : ℕ} (hlo : s' ≤ s) (hhi : s + n ≤ s' + n')
    {a : UInt16} (h : InSlots k name s n a) : InSlots k name s' n' a := by
  obtain ⟨i, hle, hlt, rfl⟩ := h
  exact ⟨i, by omega, by omega, rfl⟩

theorem numbered_cons {α : Type} (s : ℕ) (a : α) (as : List α) :
    numbered s (a :: as) = (s, a) :: numbered (s + 1) as := rfl

theorem mem_numbered {α : Type} {as : List α} : ∀ {s : ℕ} {p : ℕ × α}, p ∈ numbered s as →
    s ≤ p.1 ∧ p.1 < s + as.length ∧ p.2 ∈ as := by
  induction as with
  | nil => exact fun h => absurd h List.not_mem_nil
  | cons a as ih =>
    intro s p h
    rw [numbered_cons] at h
    rcases List.mem_cons.mp h with rfl | h
    · exact ⟨le_rfl, by simp, List.mem_cons_self ..⟩
    · obtain ⟨hle, hlt, hmem⟩ := ih h
      rw [List.length_cons]
      exact ⟨by omega, by omega, List.mem_cons_of_mem _ hmem⟩

theorem exists_numbered {α : Type} {as : List α} {a : α} (h : a ∈ as) :
    ∀ s : ℕ, ∃ i, (i, a) ∈ numbered s as := by
  induction as with
  | nil => exact absurd h List.not_mem_nil
  | cons b as ih =>
    intro s
    rw [numbered_cons]
    rcases List.mem_cons.mp h with rfl | h
    · exact ⟨s, List.mem_cons_self ..⟩
    · obtain ⟨i, hi⟩ := ih h (s + 1)
      exact ⟨i, List.mem_cons_of_mem _ hi⟩

/-- A save area outside the zero page, in plain memory. -/
structure Roomy (k : Linkage) (name : String) (n : ℕ) (b : Bus) : Prop where
  small : n ≤ 0x10000
  plain : ∀ i < n, Plain b (slotAt k name i)
  high : ∀ i < n, 0x200 ≤ (slotAt k name i).toNat

section Areas

variable {n : ℕ} {b c : Bus} {written : UInt16 → Prop}

theorem Roomy.kept (h : Roomy k name n b) (hkept : Kept written b c) : Roomy k name n c :=
  ⟨h.small, fun i hi => (hkept.plain _).mpr (h.plain i hi), h.high⟩

theorem Roomy.ne_cell (h : Roomy k name n b) {i : ℕ} (hi : i < n) (cell : UInt8) :
    slotAt k name i ≠ cell.toUInt16 := by
  intro heq
  have hhigh := h.high i hi
  have hcell := cell.toNat_lt
  rw [heq, UInt8.toNat_toUInt16] at hhigh
  omega

/-- A slot that is not written. -/
theorem Roomy.read (h : Roomy k name n b) {s len i : ℕ} (hkept : Kept (InSlots k name s len) b c)
    (hlen : s + len ≤ n) (hi : i < n) (hout : i < s ∨ s + len ≤ i) :
    c.read (slotAt k name i) = b.read (slotAt k name i) := by
  refine hkept.read ?_ (h.plain i hi).1
  rintro ⟨j, hle, hlt, heq⟩
  have hsmall := h.small
  have hsame := slotAt_inj (by omega) (by omega) heq
  omega

/-- A cell of the zero page is not in the area. -/
theorem Roomy.read_cell (h : Roomy k name n b) (hsound : Sound b) {s len : ℕ}
    (hkept : Kept (InSlots k name s len) b c) (hlen : s + len ≤ n) (cell : UInt8) :
    c.read cell.toUInt16 = b.read cell.toUInt16 := by
  refine hkept.read ?_ (hsound.plain_cell cell).1
  rintro ⟨i, -, hlt, heq⟩
  exact h.ne_cell (by omega) cell heq

/-- What is on the stack is in no slot. -/
theorem above_slots {s len : ℕ} (hsound : Sound b)
    (harea : Roomy k name n b) (hkept : Kept (InSlots k name s len) b c) (hlen : s + len ≤ n)
    (sp : UInt8) : above c sp = above b sp := by
  refine above_congr fun i _ => hkept.read ?_ (hsound.plain_stack i).1
  rintro ⟨j, -, hj, heq⟩
  have hhigh := harea.high j (by omega)
  have hi := i.toNat_lt
  rw [heq, toNat_stackAddress] at hhigh
  omega

end Areas

/-! ### Registers in slots -/

/-- Stores registers in slots. -/
def storing (name : String) (s : ℕ) (regs : List Register) : List Line :=
  (numbered s regs).map fun (i, r) => .op (storeOp r) (slot name i)

theorem act_store (m : Machine) (r : Register) (i : ℕ) : act k m (.op (storeOp r) (slot name i)) =
    { m with bus := m.bus.write (slotAt k name i) (regValue m.regs r) } := by
  cases r <;> rfl

theorem act_load (k : Linkage) (name : String) (m : Machine) (r : Register) (i : ℕ) :
    (act k m (.op (loadOp r) (slot name i))).bus = m.bus ∧
    (act k m (.op (loadOp r) (slot name i))).regs.sp = m.regs.sp ∧
    ∀ r', regValue (act k m (.op (loadOp r) (slot name i))).regs r' =
      if r = r' then m.bus.read (slotAt k name i) else regValue m.regs r' := by
  refine ⟨by cases r <;> rfl, by cases r <;> rfl, fun r' => ?_⟩
  cases r <;> cases r' <;> rfl

/-- **Registers are stored.** -/
theorem acts_storing {n : ℕ} {regs : List Register} : ∀ {s : ℕ} {m : Machine},
    Roomy k name n m.bus → s + regs.length ≤ n →
    (acts k (storing name s regs) m).regs = m.regs ∧
      Kept (InSlots k name s regs.length) m.bus (acts k (storing name s regs) m).bus ∧
      ∀ p ∈ numbered s regs,
        (acts k (storing name s regs) m).bus.read (slotAt k name p.1) = regValue m.regs p.2 := by
  induction regs with
  | nil => exact fun _ _ => ⟨rfl, .refl _, fun p hp => absurd hp List.not_mem_nil⟩
  | cons r rest ih =>
    intro s m hroomy hlen
    rw [List.length_cons] at hlen
    have hacts : acts k (storing name s (r :: rest)) m = acts k (storing name (s + 1) rest)
        { m with bus := m.bus.write (slotAt k name s) (regValue m.regs r) } := by
      rw [← act_store]
      rfl
    have hfirst : Kept (InSlots k name s (r :: rest).length) m.bus
        (m.bus.write (slotAt k name s) (regValue m.regs r)) :=
      kept_write _ ⟨s, le_rfl, by simp, rfl⟩ _
    have hroomy' := hroomy.kept hfirst
    obtain ⟨hregs, hkept, hread⟩ := ih (s := s + 1)
      (m := { m with bus := m.bus.write (slotAt k name s) (regValue m.regs r) }) hroomy' (by omega)
    rw [hacts]
    refine ⟨hregs, hfirst.trans (hkept.mono fun a => inSlots_mono (by omega) (by simp; omega)), ?_⟩
    intro p hp
    rw [numbered_cons] at hp
    rcases List.mem_cons.mp hp with rfl | hp
    · rw [hroomy'.read hkept (by omega) (by omega) (by omega), read_write (hroomy.plain s (by omega)),
        if_pos rfl]
    · exact hread p hp

/-- Loads registers from slots. -/
def loading (name : String) (places : List (ℕ × Register)) : List Line :=
  places.map fun (i, r) => .op (loadOp r) (slot name i)

/-- **Registers are loaded**; the others are as before. -/
theorem acts_loading (v : Register → UInt8) {places : List (ℕ × Register)} : ∀ {m : Machine},
    (∀ p ∈ places, m.bus.read (slotAt k name p.1) = v p.2) →
    (acts k (loading name places) m).bus = m.bus ∧
      (acts k (loading name places) m).regs.sp = m.regs.sp ∧
      (∀ p ∈ places, regValue (acts k (loading name places) m).regs p.2 = v p.2) ∧
      ∀ r, (∀ p ∈ places, p.2 ≠ r) →
        regValue (acts k (loading name places) m).regs r = regValue m.regs r := by
  induction places with
  | nil => exact fun _ => ⟨rfl, rfl, fun p hp => absurd hp List.not_mem_nil, fun _ _ => rfl⟩
  | cons place rest ih =>
    intro m hslots
    obtain ⟨i, r⟩ := place
    have hacts : acts k (loading name ((i, r) :: rest)) m =
        acts k (loading name rest) (act k m (.op (loadOp r) (slot name i))) := rfl
    obtain ⟨hbus, hsp, hregs⟩ := act_load k name m r i
    have hfirst : regValue (act k m (.op (loadOp r) (slot name i))).regs r = v r := by
      rw [hregs, if_pos rfl]
      exact hslots (i, r) (List.mem_cons_self ..)
    obtain ⟨hbus', hsp', hloaded, hothers⟩ := ih (m := act k m (.op (loadOp r) (slot name i)))
      fun p hp => by rw [hbus]; exact hslots p (List.mem_cons_of_mem _ hp)
    rw [hacts]
    refine ⟨hbus'.trans hbus, hsp'.trans hsp, fun p hp => ?_, fun r' hr' => ?_⟩
    · rcases List.mem_cons.mp hp with rfl | hp
      · -- A register that is loaded twice has the same value both times.
        by_cases hagain : ∃ q ∈ rest, q.2 = r
        · obtain ⟨q, hq, rfl⟩ := hagain
          exact hloaded q hq
        · rw [hothers r fun q hq heq => hagain ⟨q, hq, heq⟩]
          exact hfirst
      · exact hloaded p hp
    · rw [hothers r' fun q hq => hr' q (List.mem_cons_of_mem _ hq), hregs,
        if_neg (hr' (i, r) (List.mem_cons_self ..))]

/-! ### Cells in slots -/

/-- Copies cells to slots. -/
def copying (name : String) (s : ℕ) (cells : List UInt8) : List Line :=
  (numbered s cells).flatMap fun (i, cell) => [.op .lda (.zeroPage cell), .op .sta (slot name i)]

/-- Copies cells back from slots. -/
def copyingBack (name : String) (s : ℕ) (cells : List UInt8) : List Line :=
  (numbered s cells).flatMap fun (i, cell) => [.op .lda (slot name i), .op .sta (.zeroPage cell)]

/-- The registers are as before, but for A and the status. -/
structure SameButA (r r' : Registers) : Prop where
  x : r'.x = r.x
  y : r'.y = r.y
  sp : r'.sp = r.sp

theorem SameButA.refl (r : Registers) : SameButA r r := ⟨rfl, rfl, rfl⟩

theorem SameButA.trans {r r' r'' : Registers} (h : SameButA r r') (h' : SameButA r' r'') :
    SameButA r r'' := ⟨h'.x.trans h.x, h'.y.trans h.y, h'.sp.trans h.sp⟩

/-- A byte is copied through A. -/
def carried (m : Machine) (source destination : UInt16) : Machine :=
  { m with
    bus := m.bus.write destination (m.bus.read source)
    regs := m.regs.loadA (m.bus.read source) }

theorem acts_copying_cons (s : ℕ) (cell : UInt8) (rest : List UInt8) (m : Machine) :
    acts k (copying name s (cell :: rest)) m =
      acts k (copying name (s + 1) rest) (carried m cell.toUInt16 (slotAt k name s)) := rfl

theorem acts_copyingBack_cons (s : ℕ) (cell : UInt8) (rest : List UInt8) (m : Machine) :
    acts k (copyingBack name s (cell :: rest)) m =
      acts k (copyingBack name (s + 1) rest) (carried m (slotAt k name s) cell.toUInt16) := rfl

theorem sameButA_carried (m : Machine) (source destination : UInt16) :
    SameButA m.regs (carried m source destination).regs := ⟨rfl, rfl, rfl⟩

/-- **Cells are copied to the area.** -/
theorem acts_copying {n : ℕ} {cells : List UInt8} : ∀ {s : ℕ} {m : Machine}, Sound m.bus →
    Roomy k name n m.bus → s + cells.length ≤ n →
    SameButA m.regs (acts k (copying name s cells) m).regs ∧
      Kept (InSlots k name s cells.length) m.bus (acts k (copying name s cells) m).bus ∧
      ∀ p ∈ numbered s cells, (acts k (copying name s cells) m).bus.read (slotAt k name p.1) =
        m.bus.read p.2.toUInt16 := by
  induction cells with
  | nil => exact fun _ _ _ => ⟨.refl _, .refl _, fun p hp => absurd hp List.not_mem_nil⟩
  | cons cell rest ih =>
    intro s m hsound hroomy hlen
    rw [List.length_cons] at hlen
    have hfirst : Kept (InSlots k name s (cell :: rest).length) m.bus
        (carried m cell.toUInt16 (slotAt k name s)).bus :=
      kept_write _ ⟨s, le_rfl, by simp, rfl⟩ _
    have hsound' := hfirst.sound hsound
    have hroomy' := hroomy.kept hfirst
    obtain ⟨hregs, hkept, hread⟩ := ih (s := s + 1)
      (m := carried m cell.toUInt16 (slotAt k name s)) hsound' hroomy' (by omega)
    rw [acts_copying_cons]
    refine ⟨(sameButA_carried ..).trans hregs,
      hfirst.trans (hkept.mono fun a => inSlots_mono (by omega) (by simp; omega)), fun p hp => ?_⟩
    rw [numbered_cons] at hp
    rcases List.mem_cons.mp hp with rfl | hp
    · rw [hroomy'.read hkept (by omega) (by omega) (by omega)]
      exact (read_write (hroomy.plain s (by omega)) _ _).trans (if_pos rfl)
    · rw [hread p hp]
      exact hroomy.read_cell hsound hfirst (by simp; omega) p.2

/-- The cells of a list. -/
def InCells (cells : List UInt8) (a : UInt16) : Prop := ∃ cell ∈ cells, cell.toUInt16 = a

/-- What is on the stack is in no cell. -/
theorem above_cells {b c : Bus} {cells : List UInt8} (hsound : Sound b)
    (hkept : Kept (InCells cells) b c) (sp : UInt8) : above c sp = above b sp := by
  refine above_congr fun i _ => hkept.read ?_ (hsound.plain_stack i).1
  rintro ⟨cell, -, heq⟩
  exact cell_ne_stack cell i heq

/-- **Cells are copied back.** -/
theorem acts_copyingBack {n : ℕ} (v : UInt8 → UInt8) {cells : List UInt8} :
    ∀ {s : ℕ} {m : Machine}, Sound m.bus → Roomy k name n m.bus → s + cells.length ≤ n →
    (∀ p ∈ numbered s cells, m.bus.read (slotAt k name p.1) = v p.2) →
    SameButA m.regs (acts k (copyingBack name s cells) m).regs ∧
      Kept (InCells cells) m.bus (acts k (copyingBack name s cells) m).bus ∧
      ∀ cell ∈ cells, (acts k (copyingBack name s cells) m).bus.read cell.toUInt16 = v cell := by
  induction cells with
  | nil => exact fun _ _ _ _ => ⟨.refl _, .refl _, fun p hp => absurd hp List.not_mem_nil⟩
  | cons cell rest ih =>
    intro s m hsound hroomy hlen hslots
    rw [List.length_cons] at hlen
    rw [numbered_cons] at hslots
    have hvalue : m.bus.read (slotAt k name s) = v cell :=
      hslots (s, cell) (List.mem_cons_self ..)
    have hfirst : Kept (InCells (cell :: rest)) m.bus
        (carried m (slotAt k name s) cell.toUInt16).bus :=
      kept_write _ ⟨cell, List.mem_cons_self .., rfl⟩ _
    have hslots' : ∀ p ∈ numbered (s + 1) rest,
        (carried m (slotAt k name s) cell.toUInt16).bus.read (slotAt k name p.1) = v p.2 := by
      intro p hp
      obtain ⟨-, hlt, -⟩ := mem_numbered hp
      rw [← hslots p (List.mem_cons_of_mem _ hp)]
      exact (read_write (hsound.plain_cell _) _ _).trans
        (if_neg (hroomy.ne_cell (by omega) cell).symm)
    obtain ⟨hregs, hkept, hread⟩ := ih (s := s + 1)
      (m := carried m (slotAt k name s) cell.toUInt16) (hfirst.sound hsound) (hroomy.kept hfirst)
      (by omega) hslots'
    rw [acts_copyingBack_cons]
    refine ⟨(sameButA_carried ..).trans hregs, hfirst.trans (hkept.mono ?_), fun c hc => ?_⟩
    · rintro a ⟨c, hc, rfl⟩
      exact ⟨c, List.mem_cons_of_mem _ hc, rfl⟩
    · by_cases hagain : c ∈ rest
      · exact hread c hagain
      · obtain rfl : c = cell := by simpa [hagain] using hc
        rw [hkept.read ?_ ((hfirst.sound hsound).plain_cell c).1]
        · exact ((read_write (hsound.plain_cell c) _ _).trans (if_pos rfl)).trans hvalue
        · rintro ⟨c', hc', heq⟩
          exact hagain (UInt8.toUInt16_inj.mp heq ▸ hc')

/-! ### Cells on the stack -/

/-- Pushes cells. -/
def pushing (cells : List UInt8) : List Line :=
  cells.flatMap fun cell => [.op .lda (.zeroPage cell), .bare .pha]

/-- Pulls cells. -/
def pulling (cells : List UInt8) : List Line :=
  cells.flatMap fun cell => [.bare .pla, .op .sta (.zeroPage cell)]

/-- The addresses of the stack. -/
def InStack (a : UInt16) : Prop := 0x100 ≤ a.toNat ∧ a.toNat < 0x200

theorem inStack_stackAddress (sp : UInt8) : InStack (Machine.stackAddress sp) := by
  have hsp := sp.toNat_lt
  unfold InStack
  rw [toNat_stackAddress]
  omega

theorem read_cell_of_kept {b c : Bus} (hsound : Sound b) (h : Kept InStack b c) (cell : UInt8) :
    c.read cell.toUInt16 = b.read cell.toUInt16 := by
  refine h.read ?_ (hsound.plain_cell cell).1
  have hcell := cell.toNat_lt
  rintro ⟨hlo, -⟩
  rw [UInt8.toNat_toUInt16] at hlo
  omega

/-- The machine after a byte has been pushed through A. -/
def pushed (m : Machine) (value : UInt8) : Machine := (m.mapRegs (·.loadA value)).push value

theorem stack_pushed (hsound : Sound m.bus) (hroom : 0 < m.regs.sp.toNat) (value : UInt8) :
    stack (pushed m value) = value :: stack m :=
  stack_push (m := m.mapRegs (·.loadA value)) hsound hroom value

theorem sp_push (hroom : 0 < m.regs.sp.toNat) (value : UInt8) :
    (m.push value).regs.sp.toNat = m.regs.sp.toNat - 1 := toNat_pred hroom

theorem sp_pushed (hroom : 0 < m.regs.sp.toNat) (value : UInt8) :
    (pushed m value).regs.sp.toNat = m.regs.sp.toNat - 1 := toNat_pred hroom

theorem kept_push (m : Machine) (value : UInt8) : Kept InStack m.bus (m.push value).bus :=
  kept_write _ (inStack_stackAddress _) value

theorem kept_pushed (m : Machine) (value : UInt8) : Kept InStack m.bus (pushed m value).bus :=
  kept_write _ (inStack_stackAddress _) value

/-- **Cells are pushed.** -/
theorem acts_pushing {cells : List UInt8} : ∀ {m : Machine}, Sound m.bus →
    cells.length ≤ m.regs.sp.toNat →
    stack (acts k (pushing cells) m) =
        (cells.map fun cell => m.bus.read cell.toUInt16).reverse ++ stack m ∧
      Kept InStack m.bus (acts k (pushing cells) m).bus := by
  induction cells with
  | nil => exact fun _ _ => ⟨rfl, .refl _⟩
  | cons cell rest ih =>
    intro m hsound hroom
    rw [List.length_cons] at hroom
    have hacts : acts k (pushing (cell :: rest)) m =
        acts k (pushing rest) (pushed m (m.bus.read cell.toUInt16)) := rfl
    have hfirst := kept_pushed m (m.bus.read cell.toUInt16)
    have hsp := sp_pushed (show 0 < m.regs.sp.toNat by omega) (m.bus.read cell.toUInt16)
    obtain ⟨hstack, hkept⟩ := ih (m := pushed m (m.bus.read cell.toUInt16)) (hfirst.sound hsound)
      (by omega)
    rw [hacts, hstack, stack_pushed hsound (by omega), List.map_cons, List.reverse_cons,
      List.append_assoc]
    refine ⟨?_, hfirst.trans hkept⟩
    have hcells : (rest.map fun c => (pushed m (m.bus.read cell.toUInt16)).bus.read c.toUInt16) =
        rest.map fun c => m.bus.read c.toUInt16 :=
      List.map_congr_left fun c _ => read_cell_of_kept hsound hfirst c
    rw [hcells]
    rfl

/-- The machine after a byte has been pulled into A and stored in a cell. -/
def pulled (m : Machine) (cell : UInt8) : Machine :=
  { m.pull.2 with
    bus := m.bus.write cell.toUInt16 m.pull.1
    regs := m.pull.2.regs.loadA m.pull.1 }

/-- **Cells are pulled.** -/
theorem acts_pulling (v : UInt8 → UInt8) {bytes : List UInt8} {cells : List UInt8} :
    ∀ {m : Machine}, Sound m.bus → stack m = cells.map v ++ bytes →
    stack (acts k (pulling cells) m) = bytes ∧
      Kept (InCells cells) m.bus (acts k (pulling cells) m).bus ∧
      ∀ cell ∈ cells, (acts k (pulling cells) m).bus.read cell.toUInt16 = v cell := by
  induction cells with
  | nil => exact fun _ h => ⟨h, .refl _, fun c hc => absurd hc List.not_mem_nil⟩
  | cons cell rest ih =>
    intro m hsound hstack
    have hacts : acts k (pulling (cell :: rest)) m = acts k (pulling rest) (pulled m cell) := rfl
    obtain ⟨hvalue, htail⟩ := pull_of_stack hstack
    have hfirst : Kept (InCells (cell :: rest)) m.bus (pulled m cell).bus :=
      kept_write _ ⟨cell, List.mem_cons_self .., rfl⟩ _
    have hstack' : stack (pulled m cell) = rest.map v ++ bytes := by
      rw [← List.append_eq, ← htail]
      exact above_write hsound (fun i _ => cell_ne_stack cell i) _
    obtain ⟨hbytes, hkept, hread⟩ := ih (m := pulled m cell) (hfirst.sound hsound) hstack'
    rw [hacts]
    refine ⟨hbytes, hfirst.trans (hkept.mono ?_), fun c hc => ?_⟩
    · rintro a ⟨c, hc, rfl⟩
      exact ⟨c, List.mem_cons_of_mem _ hc, rfl⟩
    · by_cases hagain : c ∈ rest
      · exact hread c hagain
      · obtain rfl : c = cell := by simpa [hagain] using hc
        rw [hkept.read ?_ ((hfirst.sound hsound).plain_cell c).1]
        · exact ((read_write (hsound.plain_cell c) _ _).trans (if_pos rfl)).trans hvalue
        · rintro ⟨c', hc', heq⟩
          exact hagain (UInt8.toUInt16_inj.mp heq ▸ hc')

/-! ### Registers on the stack -/

/-- Pushes the status and the registers. -/
def pushingAll : List Line := [.bare .php, .bare .pha, .bare .txa, .bare .pha, .bare .tya, .bare .pha]

/-- Pulls the registers and the status. -/
def pullingAll : List Line := [.bare .pla, .bare .tay, .bare .pla, .bare .tax, .bare .pla, .bare .plp]

/-- **The registers are pushed.** -/
theorem acts_pushingAll (hsound : Sound m.bus) (hroom : 4 ≤ m.regs.sp.toNat) :
    stack (acts k pushingAll m) =
        [m.regs.y, m.regs.x, m.regs.a, m.regs.pushedStatus] ++ stack m ∧
      (acts k pushingAll m).regs.sp.toNat = m.regs.sp.toNat - 4 ∧
      Kept InStack m.bus (acts k pushingAll m).bus := by
  have hacts : acts k pushingAll m =
      pushed (pushed ((m.push m.regs.pushedStatus).push m.regs.a) m.regs.x) m.regs.y := rfl
  have hone := sp_push (show 0 < m.regs.sp.toNat by omega) m.regs.pushedStatus
  have htwo := sp_push (m := m.push m.regs.pushedStatus) (by omega) m.regs.a
  have hthree := sp_pushed (m := (m.push m.regs.pushedStatus).push m.regs.a) (by omega) m.regs.x
  have hfour := sp_pushed (m := pushed ((m.push m.regs.pushedStatus).push m.regs.a) m.regs.x)
    (by omega) m.regs.y
  have hstatus : Sound (m.push m.regs.pushedStatus).bus := hsound.write ..
  have ha : Sound ((m.push m.regs.pushedStatus).push m.regs.a).bus := hstatus.write ..
  have hx : Sound (pushed ((m.push m.regs.pushedStatus).push m.regs.a) m.regs.x).bus := ha.write ..
  rw [hacts]
  refine ⟨?_, by omega, ?_⟩
  · rw [stack_pushed hx (by omega), stack_pushed ha (by omega), stack_push hstatus (by omega),
      stack_push hsound (by omega)]
    rfl
  · exact ((kept_push m _).trans (kept_push _ _)).trans ((kept_pushed _ _).trans (kept_pushed _ _))

/-- **The registers are pulled.** -/
theorem acts_pullingAll {y x a p : UInt8} {bytes : List UInt8}
    (hstack : stack m = y :: x :: a :: p :: bytes) :
    stack (acts k pullingAll m) = bytes ∧ (acts k pullingAll m).bus = m.bus ∧
      (acts k pullingAll m).regs.a = a ∧ (acts k pullingAll m).regs.x = x ∧
      (acts k pullingAll m).regs.y = y ∧
      (acts k pullingAll m).regs.p = Registers.pulledStatus p := by
  obtain ⟨hy, hstack₁⟩ := pull_of_stack hstack
  obtain ⟨hx, hstack₂⟩ := pull_of_stack hstack₁
  obtain ⟨ha, hstack₃⟩ := pull_of_stack hstack₂
  obtain ⟨hp, hstack₄⟩ := pull_of_stack hstack₃
  exact ⟨hstack₄, rfl, ha, hx, hy, congrArg Registers.pulledStatus hp⟩

/-! ### The return from an interrupt -/

/-- **A return from an interrupt** restores the status and the program counter. -/
theorem step_rti {area : UInt16 → Prop} {lines : List Line} {status : UInt8} {pc : UInt16}
    {bytes : List UInt8} (hlies : Lies k area m.bus.read m.regs.pc (.bare .rti :: lines))
    (hstack : stack m = status :: wordBytes pc ++ bytes) :
    ∃ m', m.step = (none, m') ∧ stack m' = bytes ∧ m'.bus = m.bus ∧
      m'.regs = { m.regs with
        sp := m.regs.sp + 1 + 1 + 1, p := Registers.pulledStatus status, pc } := by
  have hstep := step_line hlies (by decide) (by decide)
  obtain ⟨hstatus, hstack₁⟩ := pull_of_stack hstack
  obtain ⟨hlo, hstack₂⟩ := pull_of_stack hstack₁
  obtain ⟨hhi, hstack₃⟩ := pull_of_stack hstack₂
  refine ⟨_, hstep, hstack₃, rfl, ?_⟩
  change ({ m.regs with
    sp := m.regs.sp + 1 + 1 + 1
    p := Registers.pulledStatus m.pull.1
    pc := word m.pull.2.pull.1 m.pull.2.pull.2.pull.1 } : Registers) = _
  rw [hstatus, hlo, hhi, word_bytes]

end Codegen6502.Proofs.Routines.Saving
