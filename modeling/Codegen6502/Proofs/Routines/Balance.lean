import Codegen6502.Emission.FunctionWriter
import Codegen6502.Proofs.Calls.Emitted
import Codegen6502.Proofs.Processor.Agreement
import Codegen6502.Proofs.Routines.Saving
import Codegen6502.Proofs.Routines.Switching

/-!
# What an entry sequence takes, the exit sequence gives back

Entry and exit sequences carry a record of how far they move the stack pointer.

* `Moves`: the record is what they do, whatever the kind of the function, the frame and the saved
  set (`counts_entry`, `counts_exit`), up to the return: the stack pointer ends so far below where
  it was, and the movements of the lines (`moved`) add up to exactly so many bytes;
* `effect_prologue`, `effect_epilogue`: the two records are the bytes that are pushed and the frame,
  and cancel, so a `FunctionWriter` that has come as far as its exit sequence writes it
  (`Reached.leave_eq`);
* `Entering.opens`, `Leaving.returns`: a subroutine with a frame inside the stack page gets back to
  its caller with the result that its body has left in A and X, and nothing but the frame is
  written.
-/

namespace Codegen6502.Proofs.Routines.Balance

open Convention Selecting.Handing Selecting.Returning
open Processor.Memory Processor.LineRun Processor.Straight Processor.Fetching Processor.Stack
open Processor.Polling Saving Calls
open Processor.Agreement (execute_sp)

variable {k : Linkage} {m m₁ m₂ : Machine} {b : Binding} {n : UInt8} {saves : Clobbers}

/-! ### How far lines move the stack pointer -/

/-- By how many bytes a line moves the stack pointer down.  `TXS` moves it from where it is to where
it is then; every other line moves it by a byte at most, round the page if need be. -/
def moved (k : Linkage) (m : Machine) (line : Line) : ℤ :=
  match line with
  | .op .txs _ => (m.regs.sp.toNat : ℤ) - (act k m line).regs.sp.toNat
  | _ => (m.regs.sp - (act k m line).regs.sp).toInt8.toInt

/-- By how many bytes lines move the stack pointer down, one after the other. -/
def movedBy (k : Linkage) : List Line → Machine → ℤ
  | [], _ => 0
  | line :: rest, m => moved k m line + movedBy k rest (act k m line)

theorem movedBy_append (front back : List Line) (m : Machine) :
    movedBy k (front ++ back) m = movedBy k front m + movedBy k back (acts k front m) := by
  induction front generalizing m with
  | nil => exact (Int.zero_add _).symm
  | cons line rest ih =>
    rw [List.cons_append, movedBy, movedBy, ih, Int.add_assoc, acts_cons]

/-- Instructions that control passes through and that move the stack pointer down by some bytes.
Where there is room for them, the pointer passes through all of these bytes. -/
structure Counts (k : Linkage) (lines : List Line) (room : Machine → Prop) (effect : ℤ) : Prop where
  passed : ∀ line ∈ lines, isPassed line = true
  sp : ∀ m : Machine, (acts k lines m).regs.sp = m.regs.sp - UInt8.ofInt effect
  exact : ∀ m : Machine, room m → movedBy k lines m = effect

/-- A line that can move the stack pointer by a push or a pull only. -/
def isCounted : Line → Bool
  | .op op _ => isData op && op != .txs
  | _ => false

theorem sub_ofInt (sp : UInt8) (x y : ℤ) :
    sp - UInt8.ofInt x - UInt8.ofInt y = sp - UInt8.ofInt (x + y) := by
  rw [UInt8.ofInt_add]
  grind

theorem Counts.append {front back : List Line} {room room₁ room₂ : Machine → Prop}
    {effect effect' : ℤ} (h : Counts k front room₁ effect) (h' : Counts k back room₂ effect')
    (hroom : ∀ m, room m → room₁ m ∧ room₂ (acts k front m)) :
    Counts k (front ++ back) room (effect + effect') where
  passed line hline := (List.mem_append.mp hline).elim (h.passed line) (h'.passed line)
  sp m := by rw [acts_append, h'.sp, h.sp, sub_ofInt]
  exact m hm := by rw [movedBy_append, h.exact m (hroom m hm).1, h'.exact _ (hroom m hm).2]

theorem Counts.mono {lines : List Line} {room room' : Machine → Prop} {effect : ℤ}
    (h : Counts k lines room effect) (hroom : ∀ m, room' m → room m) : Counts k lines room' effect :=
  ⟨h.passed, h.sp, fun m hm => h.exact m (hroom m hm)⟩

/-- Lines that leave the stack pointer where it is. -/
theorem Counts.level {lines : List Line} {room : Machine → Prop} (h : Counts k lines room 0)
    (m : Machine) : (acts k lines m).regs.sp = m.regs.sp := (h.sp m).trans (UInt8.sub_zero _)

/-- Only pushes, pulls and `TXS` move the stack pointer. -/
theorem sp_execute {op : Opcode} (hop : isData op = true) (htxs : op ≠ .txs) (operand : Operand)
    (m : Machine) (t : EffectiveOperand) :
    (m.execute op t).regs.sp = m.regs.sp - UInt8.ofInt (Sequence.pushedBy (.op op operand)) := by
  have hzero : m.regs.sp = m.regs.sp - UInt8.ofInt 0 := (UInt8.sub_zero _).symm
  have hone : m.regs.sp + 1 = m.regs.sp - UInt8.ofInt (-1) := by
    rw [show UInt8.ofInt (-1) = -1 from rfl]
    grind
  cases op
  case txs => exact absurd rfl htxs
  case pha | php => rfl
  case pla | plp => exact hone
  all_goals first
    | (cases hop; done)
    | exact (execute_sp (by decide) m t).trans hzero

/-- A line pushes a byte, pulls one or does neither. -/
theorem pushedBy_cases (line : Line) :
    Sequence.pushedBy line = 1 ∨ Sequence.pushedBy line = -1 ∨ Sequence.pushedBy line = 0 := by
  unfold Sequence.pushedBy
  split <;> simp

/-- What a byte-wise difference of the stack pointer says of a line that pushes or pulls. -/
theorem toInt_ofInt_pushedBy (sp : UInt8) (line : Line) :
    (sp - (sp - UInt8.ofInt (Sequence.pushedBy line))).toInt8.toInt = Sequence.pushedBy line := by
  have hback : sp - (sp - UInt8.ofInt (Sequence.pushedBy line)) =
      UInt8.ofInt (Sequence.pushedBy line) := by grind
  rw [hback]
  rcases pushedBy_cases line with h | h | h <;> rw [h] <;> rfl

theorem moved_of_ne {op : Opcode} (htxs : op ≠ .txs) (operand : Operand) (m : Machine) :
    moved k m (.op op operand) =
      (m.regs.sp - (act k m (.op op operand)).regs.sp).toInt8.toInt := by
  cases op <;> first | rfl | exact absurd rfl htxs

theorem counts_line {line : Line} (h : isCounted line = true) :
    Counts k [line] (fun _ => True) (Sequence.pushedBy line) := by
  cases line with
  | op op operand =>
    obtain ⟨hop, htxs⟩ := Bool.and_eq_true_iff.mp h
    rw [bne_iff_ne] at htxs
    have hsp : ∀ m : Machine, (act k m (.op op operand)).regs.sp =
        m.regs.sp - UInt8.ofInt (Sequence.pushedBy (.op op operand)) := fun m =>
      sp_execute hop htxs operand m _
    refine ⟨?_, hsp, fun m _ => ?_⟩
    · simpa [isPassed] using hop
    · rw [movedBy, movedBy, Int.add_zero, moved_of_ne htxs, hsp, toInt_ofInt_pushedBy]
  | _ => cases h

theorem counts_ofLines {lines : List Line} (h : ∀ line ∈ lines, isCounted line = true) :
    Counts k lines (fun _ => True) (Sequence.ofLines lines).stackEffect := by
  induction lines with
  | nil =>
    exact ⟨fun line hline => absurd hline List.not_mem_nil, fun m => (UInt8.sub_zero _).symm,
      fun _ _ => rfl⟩
  | cons line rest ih =>
    exact (counts_line (h line (List.mem_cons_self ..))).append
      (ih fun l hl => h l (List.mem_cons_of_mem _ hl)) fun _ _ => ⟨trivial, trivial⟩

theorem ofInt_toNat (n : UInt8) : UInt8.ofInt n.toNat = n := by
  have hn := n.toNat_lt
  refine UInt8.toNat_inj.mp ?_
  simp only [UInt8.ofInt, UInt8.toNat_ofNat']
  omega

theorem effect_reserve (n : UInt8) : (Sequence.reserve n).stackEffect = n.toNat := by
  unfold Sequence.reserve
  split
  · rename_i hzero
    rw [hzero]
    rfl
  · rfl

/-- Moving the stack pointer writes nothing. -/
theorem quiet_moveSP {flag op : Opcode} {n : UInt8}
    (hflag : ∀ m : Machine, (act k m (.bare flag)).bus = m.bus)
    (hop : ∀ m : Machine, (act k m (.op op (.byte n))).bus = m.bus) :
    ∀ line ∈ Sequence.moveSP flag op n, ∀ m : Machine, (act k m line).bus = m.bus := by
  simp only [Sequence.moveSP, List.forall_mem_cons, List.not_mem_nil, false_implies, implies_true,
    and_true]
  exact ⟨fun _ => rfl, fun _ => rfl, hflag, hop, fun _ => rfl, fun _ => rfl⟩

/-- Reserving is done by instructions that write nothing. -/
theorem quiet_reserve (n : UInt8) :
    ∀ line ∈ (Sequence.reserve n).code,
      isPassed line = true ∧ ∀ m : Machine, (act k m line).bus = m.bus := by
  unfold Sequence.reserve
  split
  · exact fun line hline => absurd hline List.not_mem_nil
  · have hpassed : ∀ line ∈ Sequence.moveSP .sec .sbc n, isPassed line = true := by
      simp [Sequence.moveSP, Line.bare, isPassed, isData, Opcode.isBranch]
    exact fun line hline => ⟨hpassed line hline, quiet_moveSP (fun _ => rfl) (fun _ => rfl) line hline⟩

theorem quiet_release (n : UInt8) :
    ∀ line ∈ (Sequence.release n).code,
      isPassed line = true ∧ ∀ m : Machine, (act k m line).bus = m.bus := by
  unfold Sequence.release
  split
  · exact fun line hline => absurd hline List.not_mem_nil
  · have hpassed : ∀ line ∈ Sequence.moveSP .clc .adc n, isPassed line = true := by
      simp [Sequence.moveSP, Line.bare, isPassed, isData, Opcode.isBranch]
    exact fun line hline => ⟨hpassed line hline, quiet_moveSP (fun _ => rfl) (fun _ => rfl) line hline⟩

/-- The stack pointer is set once, by the last line, and not moved before. -/
theorem movedBy_moveSP {flag op : Opcode} {n : UInt8} (hflag : isCounted (.bare flag) = true)
    (hflag' : Sequence.pushedBy (.bare flag) = 0) (hop : isCounted (.op op (.byte n)) = true)
    (hop' : Sequence.pushedBy (.op op (.byte n)) = 0) (m : Machine) :
    movedBy k (Sequence.moveSP flag op n) m =
      (m.regs.sp.toNat : ℤ) - (acts k (Sequence.moveSP flag op n) m).regs.sp.toNat := by
  have hsplit : Sequence.moveSP flag op n = [.bare .tsx, .bare .txa, .bare flag, .op op (.byte n),
      .bare .tax] ++ [.bare .txs] := rfl
  have hfront : Counts k [.bare .tsx, .bare .txa, .bare flag, .op op (.byte n), .bare .tax]
      (fun _ => True) 0 := by
    have heffect : (Sequence.ofLines [.bare .tsx, .bare .txa, .bare flag, .op op (.byte n),
        .bare .tax]).stackEffect = 0 := by
      simp only [Sequence.ofLines, List.foldr_cons, List.foldr_nil, hflag', hop']
      rfl
    refine heffect ▸ counts_ofLines ?_
    simp only [List.forall_mem_cons, List.not_mem_nil, false_implies, implies_true, and_true]
    exact ⟨rfl, rfl, hflag, hop, rfl⟩
  rw [hsplit, movedBy_append, hfront.exact m trivial, acts_append, Int.zero_add, ← hfront.level m]
  exact Int.add_zero _

/-- The frame lies inside the stack page, under the stack pointer. -/
def RoomBelow (n : UInt8) (m : Machine) : Prop := n.toNat ≤ m.regs.sp.toNat

/-- The frame lies inside the stack page, above the stack pointer. -/
def RoomAbove (n : UInt8) (m : Machine) : Prop := m.regs.sp.toNat + n.toNat ≤ 0xFF

theorem counts_reserve (n : UInt8) : Counts k (Sequence.reserve n).code (RoomBelow n) n.toNat := by
  refine ⟨fun line hline => (quiet_reserve (k := k) n line hline).1, fun m => ?_, fun m hm => ?_⟩
  · obtain ⟨r, hr, hsp, -, -⟩ := acts_reserve (k := k) n m
    rw [hr, ofInt_toNat]
    exact hsp
  · obtain ⟨r, hr, hsp, -, -⟩ := acts_reserve (k := k) n m
    unfold Sequence.reserve at hr ⊢
    split at hr
    · rename_i hzero
      rw [if_pos hzero, hzero]
      rfl
    · rename_i hsome
      rw [if_neg hsome]
      dsimp only at hr ⊢
      rw [movedBy_moveSP rfl rfl rfl rfl, hr]
      change (m.regs.sp.toNat : ℤ) - r.sp.toNat = n.toNat
      rw [hsp, UInt8.toNat_sub_of_le _ _ (UInt8.le_iff_toNat_le.mpr hm), Nat.cast_sub hm]
      omega

theorem effect_release (n : UInt8) : (Sequence.release n).stackEffect = -n.toNat := by
  unfold Sequence.release
  split
  · rename_i hzero
    rw [hzero]
    rfl
  · rfl

theorem counts_release (n : UInt8) :
    Counts k (Sequence.release n).code (RoomAbove n) (-n.toNat) := by
  refine ⟨fun line hline => (quiet_release (k := k) n line hline).1, fun m => ?_, fun m hm => ?_⟩
  · obtain ⟨r, hr, hsp, -, -⟩ := acts_release (k := k) n m
    rw [hr, UInt8.ofInt_neg, ofInt_toNat]
    change r.sp = _
    rw [hsp]
    grind
  · obtain ⟨r, hr, hsp, -, -⟩ := acts_release (k := k) n m
    unfold Sequence.release at hr ⊢
    split at hr
    · rename_i hzero
      rw [if_pos hzero, hzero]
      rfl
    · rename_i hsome
      rw [if_neg hsome]
      dsimp only at hr ⊢
      rw [movedBy_moveSP rfl rfl rfl rfl, hr]
      change (m.regs.sp.toNat : ℤ) - r.sp.toNat = -n.toNat
      have hsum : (m.regs.sp + n).toNat = m.regs.sp.toNat + n.toNat := by
        rw [UInt8.toNat_add]
        exact Nat.mod_eq_of_lt (Nat.lt_succ_of_le hm)
      rw [hsp, hsum]
      omega

theorem effect_sequence (s t : Sequence) : (s ++ t).stackEffect = s.stackEffect + t.stackEffect := rfl

theorem effect_append (front back : List Line) : (Sequence.ofLines (front ++ back)).stackEffect =
    (Sequence.ofLines front).stackEffect + (Sequence.ofLines back).stackEffect := by
  unfold Sequence.ofLines
  induction front with
  | nil => simp
  | cons line front ih =>
    simp only [List.cons_append, List.foldr_cons] at ih ⊢
    omega

theorem effect_of_none {lines : List Line} (h : ∀ line ∈ lines, Sequence.pushedBy line = 0) :
    (Sequence.ofLines lines).stackEffect = 0 := by
  unfold Sequence.ofLines
  induction lines with
  | nil => rfl
  | cons line rest ih =>
    have hfirst := h line (List.mem_cons_self ..)
    have hrest := ih fun l hl => h l (List.mem_cons_of_mem _ hl)
    simp only [List.foldr_cons] at hrest ⊢
    omega

/-- The same lines for each cell. -/
theorem effect_cells {lines : UInt8 → List Line} (effect : ℤ)
    (h : ∀ cell, (Sequence.ofLines (lines cell)).stackEffect = effect) (cells : List UInt8) :
    (Sequence.ofLines (cells.flatMap lines)).stackEffect = cells.length * effect := by
  induction cells with
  | nil => exact (Int.zero_mul _).symm
  | cons cell rest ih =>
    rw [List.flatMap_cons, effect_append, h, ih, List.length_cons, Nat.cast_succ, Int.add_mul,
      Int.one_mul, Int.add_comm]

theorem effect_pushing (cells : List UInt8) :
    (Sequence.ofLines (pushing cells)).stackEffect = cells.length := by
  unfold pushing
  rw [effect_cells 1 fun _ => rfl, Int.mul_one]

theorem effect_pulling (cells : List UInt8) :
    (Sequence.ofLines (pulling cells)).stackEffect = -cells.length := by
  unfold pulling
  rw [effect_cells (-1) fun _ => rfl, Int.mul_neg_one]

/-! ### Saving and restoring -/

/-- The bytes that are pushed to save. -/
def pushes : SaveScheme → ℕ
  | .area .. => 0
  | .stacked cells => 4 + cells.length

/-- The restoring sequence up to the return. -/
def restoring : SaveScheme → List Line
  | .area name regs cells =>
    copyingBack name regs.length cells ++ loading name (SaveScheme.numbered 0 regs).reverse
  | .stacked cells => pulling cells.reverse ++ pullingAll

theorem restores (scheme : SaveScheme) :
    scheme.epilogue = Sequence.ofLines (restoring scheme ++ [Line.bare .rti]) := by
  cases scheme with
  | area name regs cells => rfl
  | stacked cells =>
    unfold SaveScheme.epilogue restoring
    rw [List.append_assoc]
    rfl

/-- Lines that move registers and cells to a save area and back. -/
theorem counted_area {line : Line} {name : String} {regs : List Register} {cells : List UInt8}
    (h : line ∈ (SaveScheme.area name regs cells).prologue.code ++
      restoring (.area name regs cells)) : isCounted line = true ∧ Sequence.pushedBy line = 0 := by
  simp only [SaveScheme.prologue, restoring, Sequence.ofLines, copyingBack, loading, List.mem_append,
    List.mem_map, List.mem_flatMap, List.mem_cons, List.not_mem_nil, or_false] at h
  rcases h with (⟨⟨i, r⟩, -, rfl⟩ | ⟨p, -, rfl | rfl⟩) | ⟨p, -, rfl | rfl⟩ | ⟨⟨i, r⟩, -, rfl⟩
  · cases r <;> exact ⟨rfl, rfl⟩
  · exact ⟨rfl, rfl⟩
  · exact ⟨rfl, rfl⟩
  · exact ⟨rfl, rfl⟩
  · exact ⟨rfl, rfl⟩
  · cases r <;> exact ⟨rfl, rfl⟩

/-- Lines that move registers and cells to the stack and back. -/
theorem counted_stack {line : Line} {cells cells' : List UInt8}
    (h : line ∈ pushingAll ++ pushing cells ++ (pulling cells' ++ pullingAll)) :
    isCounted line = true := by
  simp only [pushing, pulling, pushingAll, pullingAll, List.mem_append, List.mem_flatMap, List.mem_cons,
    List.not_mem_nil, or_false] at h
  rcases h with (h | ⟨cell, -, rfl | rfl⟩) | ⟨cell, -, rfl | rfl⟩ | h
  · rcases h with rfl | rfl | rfl | rfl | rfl | rfl <;> rfl
  · rfl
  · rfl
  · rfl
  · rfl
  · rcases h with rfl | rfl | rfl | rfl | rfl | rfl <;> rfl

theorem effect_saving (scheme : SaveScheme) : scheme.prologue.stackEffect = pushes scheme := by
  cases scheme with
  | area name regs cells =>
    exact effect_of_none fun line hline => (counted_area (List.mem_append_left _ hline)).2
  | stacked cells =>
    have hsplit := effect_append pushingAll (pushing cells)
    rw [effect_pushing] at hsplit
    exact hsplit

theorem effect_restoring (scheme : SaveScheme) :
    (Sequence.ofLines (restoring scheme)).stackEffect = -pushes scheme := by
  cases scheme with
  | area name regs cells =>
    exact effect_of_none fun line hline => (counted_area (List.mem_append_right _ hline)).2
  | stacked cells =>
    have hall : (Sequence.ofLines pullingAll).stackEffect = -4 := rfl
    rw [restoring, effect_append, effect_pulling, hall, List.length_reverse, pushes]
    omega

theorem counts_saving (scheme : SaveScheme) :
    Counts k scheme.prologue.code (fun _ => True) (pushes scheme) := by
  rw [← effect_saving]
  cases scheme with
  | area name regs cells =>
    exact counts_ofLines fun line hline => (counted_area (List.mem_append_left _ hline)).1
  | stacked cells =>
    exact counts_ofLines fun line hline => @counted_stack line _ [] (List.mem_append_left _ hline)

theorem counts_restoring (scheme : SaveScheme) :
    Counts k (restoring scheme) (fun _ => True) (-pushes scheme) := by
  rw [← effect_restoring]
  cases scheme with
  | area name regs cells =>
    exact counts_ofLines fun line hline => (counted_area (List.mem_append_right _ hline)).1
  | stacked cells =>
    exact counts_ofLines fun line hline => @counted_stack line [] _ (List.mem_append_right _ hline)

/-! ### The sequences of each kind of function -/

/-- The bytes that the entry sequence pushes in front of the frame. -/
def pushedFor (b : Binding) (saves : Clobbers) : ℕ :=
  match b.entry with
  | .subroutine => 0
  | .interrupt => pushes (.inArea b.name saves)
  | .nestedInterrupt => pushes (.onStack saves)

/-- The room on the stack that the entry sequence takes. -/
def taken (b : Binding) (n : UInt8) (saves : Clobbers) : ℕ := pushedFor b saves + n.toNat

/-- The frame that the entry sequence reserves lies inside the stack page. -/
def EntryRoom (b : Binding) (n : UInt8) (saves : Clobbers) (m : Machine) : Prop :=
  n.toNat ≤ (m.regs.sp - UInt8.ofInt (pushedFor b saves)).toNat

/-- The entry sequence behind its label. -/
def entryLines (b : Binding) (n : UInt8) (saves : Clobbers) : List Line :=
  match b.entry with
  | .subroutine => (Sequence.reserve n).code
  | .interrupt => (SaveScheme.inArea b.name saves).prologue.code ++ (Sequence.reserve n).code
  | .nestedInterrupt =>
    (SaveScheme.onStack saves).prologue.code ++ (Sequence.reserve n).code ++ [Line.bare .cli]

/-- The exit sequence up to the return. -/
def exitLines (b : Binding) (n : UInt8) (saves : Clobbers) : List Line :=
  match b.entry with
  | .subroutine => releaseLines n b.returnKind
  | .interrupt => (Sequence.release n).code ++ restoring (.inArea b.name saves)
  | .nestedInterrupt => .bare .sei :: ((Sequence.release n).code ++ restoring (.onStack saves))

/-- The instruction that ends the exit sequence. -/
def exitOp (b : Binding) : Opcode :=
  match b.entry with
  | .subroutine => .rts
  | _ => .rti

theorem prologue_code (b : Binding) (n : UInt8) (saves : Clobbers) :
    (prologue b n saves).code = .label b.name :: entryLines b n saves := by
  unfold prologue entryLines
  cases b.entry <;> rfl

theorem epilogue_code (b : Binding) (n : UInt8) (saves : Clobbers) :
    (epilogue b n saves).code = exitLines b n saves ++ [Line.bare (exitOp b)] := by
  unfold epilogue exitLines exitOp
  cases b.entry with
  | subroutine => exact releaseAndReturn_eq n b.returnKind
  | interrupt =>
    simp only [Emitted.code_append, restores, Emitted.code_ofLines, List.append_assoc]
  | nestedInterrupt =>
    simp only [Emitted.code_append, restores, Emitted.code_ofLines, List.append_assoc, List.cons_append,
      List.nil_append]

theorem effect_releaseAndReturn (n : UInt8) (kind : ReturnKind) :
    (Sequence.releaseAndReturn n kind).stackEffect = -n.toNat := by
  unfold Sequence.releaseAndReturn
  split
  · rename_i hzero
    rw [hzero]
    rfl
  · rename_i hsome
    have hpos := UInt8.lt_iff_toNat_lt.mp (UInt8.pos_iff_ne_zero.mpr hsome)
    have hpred : ((n - 1).toNat : ℤ) = n.toNat - 1 := by
      rw [toNat_pred hpos]
      omega
    have hrts : (Sequence.ofLines [.bare .rts]).stackEffect = 0 := rfl
    have htay : (Sequence.ofLines [.bare .tay]).stackEffect = 0 := rfl
    have hpark : (Sequence.ofLines [.bare .tay, .bare .txa, .bare .tsx,
        .op .sta (.absoluteX (.absolute (0x0100 + n.toUInt16)))]).stackEffect = 0 := rfl
    have htya : (Sequence.ofLines [.bare .tya, .bare .rts]).stackEffect = 0 := rfl
    have hpull : (Sequence.ofLines [.bare .pla, .bare .tax, .bare .tya, .bare .rts]).stackEffect = -1 :=
      rfl
    cases kind <;> simp only [effect_sequence, effect_release, hrts, htay, htya, hpark, hpull, hpred] <;>
      omega

theorem effect_prologue (b : Binding) (n : UInt8) (saves : Clobbers) :
    (prologue b n saves).stackEffect = taken b n saves := by
  have hlabel : (Sequence.ofLines [.label b.name]).stackEffect = 0 := rfl
  have hcli : (Sequence.ofLines [.bare .cli]).stackEffect = 0 := rfl
  unfold prologue taken pushedFor
  cases b.entry <;>
    simp only [effect_sequence, hlabel, hcli, effect_reserve, effect_saving, Nat.cast_add] <;> omega

theorem effect_epilogue (b : Binding) (n : UInt8) (saves : Clobbers) :
    (epilogue b n saves).stackEffect = -taken b n saves := by
  have hsei : (Sequence.ofLines [.bare .sei]).stackEffect = 0 := rfl
  have hrti : (Sequence.ofLines [.bare .rti]).stackEffect = 0 := rfl
  unfold epilogue taken pushedFor
  cases b.entry with
  | subroutine =>
    rw [Nat.zero_add]
    exact effect_releaseAndReturn n b.returnKind
  | _ =>
    simp only [effect_sequence, hsei, effect_release, restores, effect_append, hrti, effect_restoring,
      Nat.cast_add]
    omega

/-- **The entry sequence** takes what is recorded for it. -/
theorem counts_entry (b : Binding) (n : UInt8) (saves : Clobbers) :
    Counts k (entryLines b n saves) (EntryRoom b n saves) (prologue b n saves).stackEffect := by
  have hcli : Counts k [.bare .cli] (fun _ => True) 0 := counts_ofLines (by decide)
  have hsaved : ∀ scheme : SaveScheme, Counts k (scheme.prologue.code ++ (Sequence.reserve n).code)
      (fun m => RoomBelow n (acts k scheme.prologue.code m)) (pushes scheme + n.toNat) := fun scheme =>
    (counts_saving scheme).append (counts_reserve n) fun m hm => ⟨trivial, hm⟩
  rw [effect_prologue]
  unfold entryLines taken EntryRoom pushedFor
  cases b.entry with
  | subroutine =>
    rw [Nat.zero_add]
    refine (counts_reserve n).mono fun m (hm : n.toNat ≤ (m.regs.sp - UInt8.ofInt 0).toNat) => ?_
    rwa [show UInt8.ofInt 0 = 0 from rfl, UInt8.sub_zero] at hm
  | interrupt =>
    refine (hsaved (.inArea b.name saves)).mono fun m hm => ?_
    rw [RoomBelow, (counts_saving _).sp]
    exact hm
  | nestedInterrupt =>
    have h := (hsaved (.onStack saves)).append hcli fun m hm => ⟨hm, trivial⟩
    rw [Int.add_zero] at h
    refine h.mono fun m hm => ?_
    rw [RoomBelow, (counts_saving _).sp]
    exact hm

theorem counts_releaseLines (n : UInt8) (kind : ReturnKind) :
    Counts k (releaseLines n kind) (RoomAbove n) (-n.toNat) := by
  unfold releaseLines
  split
  · rename_i hzero
    rw [hzero]
    exact (counts_ofLines (by decide)).mono fun _ _ => trivial
  · rename_i hsome
    cases kind with
    | void => exact counts_release n
    | struct size => exact counts_release n
    | byte =>
      have htay : Counts k [.bare .tay] (fun _ => True) 0 := counts_ofLines (by decide)
      have htya : Counts k [.bare .tya] (fun _ => True) 0 := counts_ofLines (by decide)
      have hreleased : Counts k _ (RoomAbove n) _ := htay.append (counts_release n) fun m hm => by
        rw [RoomAbove, htay.level]
        exact ⟨trivial, hm⟩
      have h := hreleased.append htya fun m hm => ⟨hm, trivial⟩
      rwa [Int.zero_add, Int.add_zero] at h
    | word =>
      have hpark : Counts k [.bare .tay, .bare .txa, .bare .tsx,
          .op .sta (.absoluteX (.absolute (0x0100 + n.toUInt16)))] (fun _ => True) 0 :=
        counts_ofLines (by simp [isCounted, Line.bare, isData, Opcode.isBranch])
      have hpull : Counts k [.bare .pla, .bare .tax, .bare .tya] (fun _ => True) (-1) :=
        counts_ofLines (by decide)
      have hpos := UInt8.lt_iff_toNat_lt.mp (UInt8.pos_iff_ne_zero.mpr hsome)
      have hpred := toNat_pred hpos
      have heffect : 0 + -((n - 1).toNat : ℤ) + -1 = -n.toNat := by
        rw [hpred]
        omega
      have hreleased : Counts k _ (RoomAbove n) _ := hpark.append (counts_release (n - 1)) fun m hm => by
        have hle : m.regs.sp.toNat + n.toNat ≤ 0xFF := hm
        rw [RoomAbove, hpark.level, hpred]
        exact ⟨trivial, by omega⟩
      have h := hreleased.append hpull fun m hm => ⟨hm, trivial⟩
      rwa [heffect] at h

/-- **The exit sequence** gives back what is recorded for it. -/
theorem counts_exit (b : Binding) (n : UInt8) (saves : Clobbers) :
    Counts k (exitLines b n saves) (RoomAbove n) (epilogue b n saves).stackEffect := by
  have hsei : Counts k [.bare .sei] (fun _ => True) 0 := counts_ofLines (by decide)
  have hsum : ∀ p : ℕ, (-n.toNat : ℤ) + -p = -(p + n.toNat : ℕ) := fun p => by omega
  have hrestored : ∀ scheme : SaveScheme, Counts k ((Sequence.release n).code ++ restoring scheme)
      (RoomAbove n) (-n.toNat + -pushes scheme) := fun scheme =>
    (counts_release n).append (counts_restoring scheme) fun m hm => ⟨hm, trivial⟩
  rw [effect_epilogue]
  unfold exitLines taken pushedFor
  cases b.entry with
  | subroutine =>
    rw [Nat.zero_add]
    exact counts_releaseLines n b.returnKind
  | interrupt =>
    have h := hrestored (.inArea b.name saves)
    rwa [hsum] at h
  | nestedInterrupt =>
    have h : Counts k _ (RoomAbove n) _ := hsei.append (hrestored (.onStack saves)) fun m hm => by
      rw [RoomAbove, hsei.level]
      exact ⟨trivial, hm⟩
    rwa [hsum, Int.zero_add] at h

/-! ### On the machine -/

/-- Code that moves the stack pointer down by some bytes wherever it stands, if it does not write
over itself.  Where there is room, its lines move the pointer by so many bytes in all. -/
def Moves (k : Linkage) (lines : List Line) (room : Machine → Prop) (effect : ℤ) : Prop :=
  ∀ (area : UInt16 → Prop) (m : Machine) (rest : List Line),
    Lies k area m.bus.read m.regs.pc (lines ++ rest) → Spares k area lines m →
    ∃ j m', after j m = some m' ∧ Lies k area m'.bus.read m'.regs.pc rest ∧
      m'.regs.sp = m.regs.sp - UInt8.ofInt effect ∧ (room m → movedBy k lines m = effect)

theorem Counts.moves {lines : List Line} {room : Machine → Prop} {effect : ℤ}
    (h : Counts k lines room effect) : Moves k lines room effect := by
  intro area m rest hlies hspares
  obtain ⟨hafter, hrest⟩ := after_lines hlies h.passed hspares
  exact ⟨_, _, hafter, hrest, h.sp m, h.exact m⟩

theorem Counts.moves_label {lines : List Line} {room : Machine → Prop} {effect : ℤ}
    (h : Counts k lines room effect) (name : String) : Moves k (.label name :: lines) room effect := by
  intro area m rest hlies hspares
  obtain ⟨j, m', hafter, hrest, hsp, hexact⟩ := h.moves area m rest hlies.2 hspares.2
  have hlabel : moved k m (.label name) = 0 := by
    change (m.regs.sp - m.regs.sp).toInt8.toInt = 0
    rw [UInt8.sub_self]
    rfl
  refine ⟨j, m', hafter, hrest, hsp, fun hm => ?_⟩
  rw [movedBy, hlabel, Int.zero_add]
  exact hexact hm

/-! ### Writers -/

/-- The writers of a function that come up when it is written. -/
inductive Reached (b : Binding) : FunctionWriter → Prop
  | created : Reached b { binding := b }
  | entered {w w' : FunctionWriter} {n : UInt8} {saves : Clobbers} {e e' : Emission} (h : Reached b w)
    (step : (w.enter n saves).run e = .ok w' e') : Reached b w'
  | bodyWritten {w w' : FunctionWriter} {code : List Line} {e e' : Emission} (h : Reached b w)
    (step : (w.body code).run e = .ok w' e') : Reached b w'
  | left {w w' : FunctionWriter} {e e' : Emission} (h : Reached b w)
    (step : w.leave.run e = .ok w' e') : Reached b w'

/-- Either nothing has been written yet, or the entry sequence has been. -/
def Recorded (w : FunctionWriter) : Prop :=
  w.stage = .unstarted ∨ w.pushed = (prologue w.binding w.frameBytes w.saves).stackEffect

theorem Recorded.of_expect {w : FunctionWriter} {stage : WritingStage} {action : String} {u : Unit}
    {e e' : Emission} (h : Recorded w) (hstage : stage ≠ .unstarted)
    (hexpect : (MonadExcept.ofExcept (w.expect stage action) : Emit Unit).run e = .ok u e') :
    w.pushed = (prologue w.binding w.frameBytes w.saves).stackEffect := by
  refine h.resolve_left fun hunstarted => ?_
  unfold FunctionWriter.expect at hexpect
  rw [if_neg (hunstarted.trans_ne hstage.symm)] at hexpect
  cases hexpect

/-- The room that is recorded is what the entry sequence has taken. -/
theorem Reached.recorded {w : FunctionWriter} (h : Reached b w) : Recorded w := by
  induction h with
  | created => exact Or.inl rfl
  | entered h step ih =>
    unfold FunctionWriter.enter at step
    obtain ⟨_, _, -, step⟩ := Emitted.run_bind_eq_ok step
    obtain ⟨_, _, -, step⟩ := Emitted.run_bind_eq_ok step
    obtain ⟨rfl, -⟩ := Emitted.run_pure step
    exact Or.inr rfl
  | bodyWritten h step ih =>
    unfold FunctionWriter.body at step
    obtain ⟨_, _, hexpect, step⟩ := Emitted.run_bind_eq_ok step
    obtain ⟨_, _, -, step⟩ := Emitted.run_bind_eq_ok step
    obtain ⟨rfl, -⟩ := Emitted.run_pure step
    exact Or.inr (ih.of_expect (by decide) hexpect)
  | left h step ih =>
    unfold FunctionWriter.leave at step
    obtain ⟨_, _, hexpect, step⟩ := Emitted.run_bind_eq_ok step
    dsimp only at step
    split at step
    · obtain ⟨_, _, hthrow, -⟩ := Emitted.run_bind_eq_ok step
      cases hthrow
    · obtain ⟨_, _, -, step⟩ := Emitted.run_bind_eq_ok step
      obtain ⟨rfl, -⟩ := Emitted.run_pure step
      exact Or.inr (ih.of_expect (by decide) hexpect)

/-- **A writer never finds the two sequences out of balance**: whatever stops it is that its
function is not at that point, or the emission. -/
theorem Reached.leave_eq {w : FunctionWriter} (h : Reached b w) :
    w.leave = do
      MonadExcept.ofExcept (w.expect .bodyWritten "emit the epilogue")
      Emission.endFunction (epilogue w.binding w.frameBytes w.saves).code
      return { w with stage := .left } := by
  unfold FunctionWriter.leave
  rcases h.recorded with hstage | hpushed
  · unfold FunctionWriter.expect
    rw [hstage]
    rfl
  · have hzero : ¬ w.pushed + (epilogue w.binding w.frameBytes w.saves).stackEffect ≠ 0 := by
      rw [hpushed, effect_prologue, effect_epilogue]
      omega
    simp only [if_neg hzero]

/-! ### Frames of subroutines -/

/-- The bytes of a frame over a stack pointer. -/
def InFrame (n sp : UInt8) (a : UInt16) : Prop :=
  ∃ o : UInt8, o < n ∧ 0x0101 + sp.toUInt16 + o.toUInt16 = a

/-- A subroutine is entered, with room for its frame inside the stack page. -/
structure Entering (k : Linkage) (b : Binding) (n : UInt8) (saves : Clobbers) (area : UInt16 → Prop)
    (m : Machine) : Prop where
  entry : b.entry = .subroutine
  code : Lies k area m.bus.read m.regs.pc (prologue b n saves).code
  room : ∀ a, InFrame n (m.regs.sp - n) a → a.toNat < 0x200

/-- The body has come to its end: the stack pointer is where the entry sequence has left it, the
return address has not been touched, and the exit sequence comes next. -/
structure Leaving (k : Linkage) (b : Binding) (n : UInt8) (saves : Clobbers) (m m₂ : Machine) :
    Prop where
  sp : m₂.regs.sp = m.regs.sp - n
  lo : m₂.bus.read (Machine.stackAddress (m.regs.sp + 1)) =
    m.bus.read (Machine.stackAddress (m.regs.sp + 1))
  hi : m₂.bus.read (Machine.stackAddress (m.regs.sp + 1 + 1)) =
    m.bus.read (Machine.stackAddress (m.regs.sp + 1 + 1))
  code : Lies k (fun a => ¬ InFrame n (m.regs.sp - n) a) m₂.bus.read m₂.regs.pc (epilogue b n saves).code
  plain : ∀ a, InFrame n (m.regs.sp - n) a → Plain m₂.bus a

/-- The entry sequence has reserved the frame and written nothing. -/
structure Opened (b : Binding) (n : UInt8) (saves : Clobbers) (m m₁ : Machine) : Prop where
  pc : m₁.regs.pc = m.regs.pc + extent (prologue b n saves).code
  sp : m₁.regs.sp = m.regs.sp - n
  bus : m₁.bus = m.bus

/-- The exit sequence has come back to the caller of the subroutine with the result of its body, and
has written to nothing but the frame. -/
structure BackIn (b : Binding) (n : UInt8) (m m₂ m₃ : Machine) : Prop where
  pc : m₃.regs.pc = word (m.bus.read (Machine.stackAddress (m.regs.sp + 1)))
    (m.bus.read (Machine.stackAddress (m.regs.sp + 1 + 1))) + 1
  sp : m₃.regs.sp = m.regs.sp + 2
  result : returned b.returnKind m₃.regs = returned b.returnKind m₂.regs
  kept : Kept (InFrame n (m.regs.sp - n)) m₂.bus m₃.bus
  bank : m₃.bus.selected = m₂.bus.selected

section Frames

variable {area : UInt16 → Prop}

/-- **The entry sequence** of a subroutine. -/
theorem Entering.opens (h : Entering k b n saves area m) :
    ∃ j m₁, after j m = some m₁ ∧ Opened b n saves m m₁ := by
  have hcode : (prologue b n saves).code = .label b.name :: ((Sequence.reserve n).code ++ []) := by
    rw [prologue_code, entryLines, h.entry, List.append_nil]
  have hlies := h.code
  rw [hcode] at hlies
  obtain ⟨hafter, -⟩ := after_lines hlies.2 (counts_reserve (k := k) n).passed
    (spares_of_bus fun line hline => (quiet_reserve n line hline).2)
  obtain ⟨r, hr, hsp, -, -⟩ := acts_reserve (k := k) n m
  refine ⟨_, _, hafter, ?_, ?_, ?_⟩
  · rw [hcode, List.append_nil]
    exact congrArg (m.regs.pc + ·) (UInt16.zero_add _).symm
  · change (acts k (Sequence.reserve n).code m).regs.sp = _
    rw [hr]
    exact hsp
  · rw [bus_ran, hr]

/-- Lines that stand in memory name neither virtual registers nor frame bytes. -/
theorem machine_execAll {mem : UInt16 → UInt8} {lines rest : List Line} :
    ∀ {pc : UInt16} {s : Store}, Lies k area mem pc (lines ++ rest) →
      (execAll k lines s).machine = acts k lines s.machine := by
  induction lines with
  | nil => exact fun _ => rfl
  | cons line lines ih =>
    intro pc s hlies
    cases line with
    | op op operand =>
      have hone : (execLine k s (.op op operand)).machine = act k s.machine (.op op operand) := by
        have hplaced := hlies.2.1
        cases operand <;> first | rfl | cases hplaced
      rw [execAll_cons, ih hlies.2.2.2.2, hone]
      rfl
    | label name => exact ih (s := s) hlies.2
    | comment text => exact ih (s := s) hlies

/-- A frame inside the stack page ends under the stack pointer of its caller. -/
theorem Entering.inside (h : Entering k b n saves area m) :
    n ≠ 0 → (m.regs.sp - n).toNat + n.toNat ≤ 0xFF ∧
      InFrame n (m.regs.sp - n) (Machine.stackAddress m.regs.sp) := by
  intro hsome
  have hpos := UInt8.lt_iff_toNat_lt.mp (UInt8.pos_iff_ne_zero.mpr hsome)
  have htop : n - 1 < n := UInt8.lt_iff_toNat_lt.mpr (by rw [toNat_pred hpos]; omega)
  have hlast := h.room _ ⟨n - 1, htop, rfl⟩
  have hn := n.toNat_lt
  have hsp := (m.regs.sp - n).toNat_lt
  have hbase : (0x0101 : UInt16).toNat = 0x101 := rfl
  have haddress : (0x0101 + (m.regs.sp - n).toUInt16 + (n - 1).toUInt16).toNat =
      0x100 + (m.regs.sp - n).toNat + n.toNat := by
    rw [UInt16.toNat_add, UInt16.toNat_add, UInt8.toNat_toUInt16, UInt8.toNat_toUInt16, toNat_pred hpos,
      hbase]
    omega
  have hroom : (m.regs.sp - n).toNat + n.toNat ≤ 0xFF := by omega
  refine ⟨hroom, n - 1, htop, UInt16.toNat_inj.mp ?_⟩
  have hback := congrArg UInt8.toNat (UInt8.sub_add_cancel m.regs.sp n)
  rw [UInt8.toNat_add] at hback
  rw [haddress, toNat_stackAddress]
  omega

/-- The exit sequence writes to the topmost byte of the frame at most. -/
theorem spares_releaseLines {kind : ReturnKind}
    (hplain : n ≠ 0 → Plain m.bus (Machine.stackAddress (m.regs.sp + n)) ∧
      ¬ area (Machine.stackAddress (m.regs.sp + n)))
    (hroom : n ≠ 0 → m.regs.sp.toNat + n.toNat ≤ 0xFF) : Spares k area (releaseLines n kind) m := by
  unfold releaseLines
  split
  · exact trivial
  · rename_i hsome
    cases kind with
    | void => exact spares_of_bus fun line hline => (quiet_release n line hline).2
    | struct size => exact spares_of_bus fun line hline => (quiet_release n line hline).2
    | byte =>
      refine spares_of_bus fun line hline => ?_
      rcases List.mem_append.mp hline with hline | hline
      · rcases List.mem_cons.mp hline with rfl | hline
        · exact fun _ => rfl
        · exact (quiet_release n line hline).2
      · rw [List.mem_singleton.mp hline]
        exact fun _ => rfl
    | word =>
      have hquiet : ∀ line ∈ (Sequence.release (n - 1)).code ++ [Line.bare .pla, .bare .tax, .bare .tya],
          ∀ q : Machine, (act k q line).bus = q.bus := by
        intro line hline
        rcases List.mem_append.mp hline with hline | hline
        · exact (quiet_release (n - 1) line hline).2
        · simp only [List.mem_cons, List.not_mem_nil, or_false] at hline
          rcases hline with rfl | rfl | rfl <;> exact fun _ => rfl
      rw [List.append_assoc]
      refine ⟨fun _ _ => rfl, fun _ _ => rfl, fun _ _ => rfl, fun a ha => ?_, spares_of_bus hquiet⟩
      change (m.bus.write (0x0100 + n.toUInt16 + m.regs.sp.toUInt16) m.regs.x).read a = m.bus.read a
      rw [frame_address (hroom hsome), read_write (hplain hsome).1, if_neg]
      exact fun heq => (hplain hsome).2 (heq ▸ ha)

/-- A return from a subroutine, wherever the stack pointer is. -/
theorem after_return {rest : List Line}
    (hlies : Lies k area m.bus.read m.regs.pc (.bare .rts :: rest)) :
    ∃ m', after 1 m = some m' ∧ m'.bus = m.bus ∧ m'.regs = { m.regs with
      sp := m.regs.sp + 1 + 1
      pc := word (m.bus.read (Machine.stackAddress (m.regs.sp + 1)))
        (m.bus.read (Machine.stackAddress (m.regs.sp + 1 + 1))) + 1 } :=
  ⟨_, after_one (step_line hlies (by decide) (by decide)), rfl, rfl⟩

/-- What has not been written, or been written at one plain address. -/
theorem kept_of_bus {written : UInt16 → Prop} {b c : Bus} {top : UInt16} (htop : written top)
    (hplain : Plain b top) (hbus : c = b ∨ ∃ byte, c = b.write top byte) :
    Kept written b c ∧ c.selected = b.selected ∧ ∀ a, a ≠ top → c.read a = b.read a := by
  rcases hbus with rfl | ⟨byte, rfl⟩
  · exact ⟨.refl _, rfl, fun _ _ => rfl⟩
  · exact ⟨kept_write _ htop byte, selected_write hplain.2 byte,
      fun a ha => by rw [read_write hplain, if_neg ha.symm]⟩

/-- At the end of a body: the frame is above the stack pointer, with its topmost byte under the
stack pointer of the caller. -/
structure Above (n : UInt8) (m m₂ : Machine) : Prop where
  back : m₂.regs.sp + n = m.regs.sp
  room : n ≠ 0 → m₂.regs.sp.toNat + n.toNat ≤ 0xFF
  top : n ≠ 0 → InFrame n (m.regs.sp - n) (Machine.stackAddress (m₂.regs.sp + n))
  plain : n ≠ 0 → Plain m₂.bus (Machine.stackAddress (m₂.regs.sp + n))

theorem Leaving.above (hentering : Entering k b n saves area m) (h : Leaving k b n saves m m₂) :
    Above n m m₂ := by
  have hback : m₂.regs.sp + n = m.regs.sp := by rw [h.sp, UInt8.sub_add_cancel]
  have htop : n ≠ 0 → InFrame n (m.regs.sp - n) (Machine.stackAddress (m₂.regs.sp + n)) := by
    rw [hback]
    exact fun hsome => (hentering.inside hsome).2
  refine ⟨hback, ?_, htop, fun hsome => h.plain _ (htop hsome)⟩
  rw [h.sp]
  exact fun hsome => (hentering.inside hsome).1

/-- The lines that give the frame back leave the result in its registers, and write to the topmost
byte of the frame at most. -/
theorem Above.released {rest : List Line} (h : Above n m m₂)
    (hlies : Lies k area m₂.bus.read m₂.regs.pc (releaseLines n b.returnKind ++ rest)) :
    (acts k (releaseLines n b.returnKind) m₂).regs.sp = m.regs.sp ∧
      returned b.returnKind (acts k (releaseLines n b.returnKind) m₂).regs =
        returned b.returnKind m₂.regs ∧
      Kept (InFrame n (m.regs.sp - n)) m₂.bus (acts k (releaseLines n b.returnKind) m₂).bus ∧
      (acts k (releaseLines n b.returnKind) m₂).bus.selected = m₂.bus.selected ∧
      ∀ a, a ≠ Machine.stackAddress m.regs.sp →
        (acts k (releaseLines n b.returnKind) m₂).bus.read a = m₂.bus.read a := by
  by_cases hzero : n = 0
  · have hnone : releaseLines n b.returnKind = [] := if_pos hzero
    rw [hnone]
    refine ⟨?_, rfl, .refl _, rfl, fun _ _ => rfl⟩
    rw [← h.back, hzero, UInt8.add_zero]
    rfl
  · have hreleased : Released n b.returnKind _ _ := exec_releaseLines (k := k) b.returnKind
      (s := ⟨m₂, fun _ => 0, fun _ => 0⟩) h.plain (h.room hzero)
    have hsp := hreleased.sp
    have hresult := hreleased.result
    have hbus := hreleased.bus
    unfold Store.regs at hsp hresult hbus
    rw [machine_execAll (s := ⟨m₂, fun _ => 0, fun _ => 0⟩) hlies] at hsp hresult hbus
    rw [← h.back]
    have htop := h.top hzero
    rw [← h.back] at htop
    exact ⟨hsp, hresult, kept_of_bus htop (h.plain hzero) hbus⟩

/-- **The exit sequence** of a subroutine. -/
theorem Leaving.returns (hentering : Entering k b n saves area m) (h : Leaving k b n saves m m₂) :
    ∃ j m₃, after j m₂ = some m₃ ∧ BackIn b n m m₂ m₃ := by
  have hcode : (epilogue b n saves).code = releaseLines n b.returnKind ++ [Line.bare .rts] := by
    rw [epilogue_code, exitLines, exitOp, hentering.entry]
  have hlies := h.code
  rw [hcode] at hlies
  have habove := h.above hentering
  have hspares : Spares k (fun a => ¬ InFrame n (m.regs.sp - n) a) (releaseLines n b.returnKind) m₂ :=
    spares_releaseLines (fun hsome => ⟨habove.plain hsome, not_not.mpr (habove.top hsome)⟩) habove.room
  obtain ⟨hafter, hrts⟩ := after_lines hlies (counts_releaseLines (k := k) n b.returnKind).passed
    hspares
  obtain ⟨m₃, hlast, hbus₃, hregs₃⟩ := after_return hrts
  obtain ⟨hsp, hresult, hkept, hbank, hread⟩ := habove.released hlies
  have hone : Machine.stackAddress (m.regs.sp + 1) ≠ Machine.stackAddress m.regs.sp := by
    rw [Ne, stackAddress_inj]
    grind
  have htwo : Machine.stackAddress (m.regs.sp + 1 + 1) ≠ Machine.stackAddress m.regs.sp := by
    rw [Ne, stackAddress_inj]
    grind
  have hran : (ran k (releaseLines n b.returnKind) m₂).regs.sp = m.regs.sp := hsp
  rw [bus_ran] at hbus₃
  rw [bus_ran, hran, hread _ hone, hread _ htwo, h.lo, h.hi] at hregs₃
  refine ⟨_, m₃, (after_add hafter).trans hlast, ?_, ?_, ?_, ?_, ?_⟩
  · rw [hregs₃]
  · rw [hregs₃]
    change m.regs.sp + 1 + 1 = _
    rw [UInt8.add_assoc]
    rfl
  · rw [← hresult, hregs₃]
    rfl
  · rw [hbus₃]
    exact hkept
  · rw [hbus₃]
    exact hbank

/-- **Entry and exit sequences are in balance.**  A subroutine that is entered with room for its
frame inside the stack page reserves it, and from the end of a body that leaves the stack pointer
and the return address as they were it gets back to its caller with the result of the body in A and
X; the two sequences write nothing outside the frame.  For every kind of function, frame and saved
set the recorded effects are what the sequences do to the stack pointer up to the return, to the
byte: they are the bytes pushed and those of the frame, and they cancel, so a writer never stops for
them. -/
theorem entry_exit_balance (k : Linkage) (b : Binding) (n : UInt8) (saves : Clobbers) :
    (∀ (area : UInt16 → Prop) (m : Machine), Entering k b n saves area m →
      (∃ j m₁, after j m = some m₁ ∧ Opened b n saves m m₁) ∧
      ∀ m₂, Leaving k b n saves m m₂ → ∃ j m₃, after j m₂ = some m₃ ∧ BackIn b n m m₂ m₃) ∧
    (epilogue b n saves).code = exitLines b n saves ++ [.bare (exitOp b)] ∧
    Moves k (prologue b n saves).code (EntryRoom b n saves) (prologue b n saves).stackEffect ∧
    Moves k (exitLines b n saves) (RoomAbove n) (epilogue b n saves).stackEffect ∧
    (prologue b n saves).stackEffect = taken b n saves ∧
    (prologue b n saves).stackEffect + (epilogue b n saves).stackEffect = 0 ∧
    ∀ w, Reached b w → w.leave = do
      MonadExcept.ofExcept (w.expect .bodyWritten "emit the epilogue")
      Emission.endFunction (epilogue w.binding w.frameBytes w.saves).code
      return { w with stage := .left } := by
  refine ⟨fun area m h => ⟨h.opens, fun m₂ h₂ => h₂.returns h⟩, epilogue_code b n saves, ?_,
    (counts_exit b n saves).moves, effect_prologue b n saves, ?_, fun w hw => hw.leave_eq⟩
  · rw [prologue_code]
    exact (counts_entry b n saves).moves_label b.name
  · rw [effect_prologue, effect_epilogue]
    omega

end Frames

/-! ### A word result over a frame of two bytes -/

/-- A function with a word for a result. -/
def wordBinding : Binding where
  name := "f"
  entry := .subroutine
  bank := .common
  placement := .common
  variadic := false
  params := []
  returnKind := .word
  returnType := .u16
  visible := false
  declaredClobbers := none
  resultSlot := none
  vaCountSlot := none
  vaPtrSlot := none

/-- The entry sequence at `$0600`, the exit sequence at `$0700`, and `$0233` for the return
address. -/
def wordMemory (a : UInt16) : UInt8 :=
  let entryBytes : List UInt8 := [0xBA, 0x8A, 0x38, 0xE9, 0x02, 0xAA, 0x9A]
  let exitBytes : List UInt8 :=
    [0xA8, 0x8A, 0xBA, 0x9D, 0x02, 0x01, 0xBA, 0x8A, 0x18, 0x69, 0x01, 0xAA, 0x9A, 0x68, 0xAA, 0x98, 0x60]
  if a = 0x01F1 then 0x33
  else if a = 0x01F2 then 0x02
  else if a < 0x0600 then 0
  else if a < 0x0700 then entryBytes.getD (a.toNat - 0x0600) 0
  else exitBytes.getD (a.toNat - 0x0700) 0

/-- The machine with `$1234` in A and X. -/
def wordMachine (sp : UInt8) (pc : UInt16) : Machine :=
  { Machine.create 0xA000 0x2000 0xD500 with
    regs := { (Machine.create 0xA000 0x2000 0xD500).regs with a := 0x34, x := 0x12, sp, pc }
    bus := Switching.filled wordMemory ∅ }

def wordLinkage : Linkage := ⟨fun _ => 0x0600, 0xA000⟩

/-- The code is above the stack page and in front of the window. -/
def wordArea (a : UInt16) : Prop := 0x200 ≤ a.toNat ∧ a.toNat < 0xA000

instance : DecidablePred wordArea := fun a =>
  inferInstanceAs (Decidable (0x200 ≤ a.toNat ∧ a.toNat < 0xA000))

theorem read_wordArea (a : UInt16) (ha : wordArea a) :
    (Switching.filled wordMemory ∅).read a = wordMemory a :=
  Switching.read_filled (Switching.plain_filled ha.2).1

theorem low_wordFrame {a : UInt16} (h : InFrame 2 0xEE a) : a.toNat < 0x200 := by
  obtain ⟨o, ho, rfl⟩ := h
  have hbelow : o.toNat < 2 := UInt8.lt_iff_toNat_lt.mp ho
  have hbase : (0x0101 + (0xEE : UInt8).toUInt16).toNat = 0x1EF := rfl
  rw [UInt16.toNat_add, UInt8.toNat_toUInt16, hbase]
  omega

theorem word_entering :
    Entering wordLinkage wordBinding 2 {} wordArea (wordMachine 0xF0 0x0600) := by
  have hlies : Lies wordLinkage wordArea wordMemory 0x0600 (prologue wordBinding 2 {}).code := by
    decide +kernel
  exact ⟨rfl, hlies.congr fun a ha => ⟨ha, read_wordArea a ha⟩, fun a ha => low_wordFrame ha⟩

theorem word_leaving :
    Leaving wordLinkage wordBinding 2 {} (wordMachine 0xF0 0x0600) (wordMachine 0xEE 0x0700) := by
  have hlies : Lies wordLinkage wordArea wordMemory 0x0700 (epilogue wordBinding 2 {}).code := by
    decide +kernel
  refine ⟨rfl, rfl, rfl, hlies.congr fun a ha => ⟨fun hframe => ?_, read_wordArea a ha⟩,
    fun a ha => Switching.plain_filled (lt_trans (low_wordFrame ha) (by decide))⟩
  exact absurd (low_wordFrame hframe) (not_lt.mpr ha.1)

/-- **The word gets back** to `$0234`, over a byte on the stack. -/
theorem word_gets_back : ∃ j m₁ j' m₃,
    after j (wordMachine 0xF0 0x0600) = some m₁ ∧ m₁.regs.sp = 0xEE ∧ m₁.regs.pc = 0x0607 ∧
    after j' (wordMachine 0xEE 0x0700) = some m₃ ∧ m₃.regs.sp = 0xF2 ∧ m₃.regs.pc = 0x0234 ∧
    [m₃.regs.a, m₃.regs.x] = [0x34, 0x12] := by
  obtain ⟨hruns, -⟩ := entry_exit_balance wordLinkage wordBinding 2 {}
  obtain ⟨⟨j, m₁, hafter, hopened⟩, hbody⟩ := hruns wordArea _ word_entering
  obtain ⟨j', m₃, hafter', hback⟩ := hbody _ word_leaving
  refine ⟨j, m₁, j', m₃, hafter, hopened.sp, hopened.pc, hafter', hback.sp, ?_, hback.result⟩
  have hlo : (Switching.filled wordMemory ∅).read 0x01F1 = 0x33 :=
    Switching.read_filled (Switching.plain_filled (by decide)).1
  have hhi : (Switching.filled wordMemory ∅).read 0x01F2 = 0x02 :=
    Switching.read_filled (Switching.plain_filled (by decide)).1
  rw [hback.pc]
  change word ((Switching.filled wordMemory ∅).read 0x01F1)
    ((Switching.filled wordMemory ∅).read 0x01F2) + 1 = 0x0234
  rw [hlo, hhi]
  decide

end Codegen6502.Proofs.Routines.Balance
