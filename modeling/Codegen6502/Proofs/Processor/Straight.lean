import Codegen6502.Proofs.Processor.LineRun

/-!
# Straight-line code

Lines that control passes through one after the other: `execAll` is what they do to a store, and
`run_straight` says that a run of the code around them does just that.

A `Spot` is a byte that a line can read or write, wherever it lives.  `get_put`: a spot that can be
written holds what was written last, and no other spot changes.
-/

namespace Codegen6502.Proofs.Processor.Straight

open Memory LineRun

variable {k : Linkage} {s t : Store}

/-! ### Lines in a row -/

/-- What a line does that control passes through. -/
def execLine (k : Linkage) (s : Store) : Line → Store
  | .op op operand => s.exec k op operand
  | _ => s

def execAll (k : Linkage) (lines : List Line) (s : Store) : Store := lines.foldl (execLine k) s

@[simp] theorem execAll_nil : execAll k [] s = s := rfl

@[simp] theorem execAll_cons (line : Line) (lines : List Line) :
    execAll k (line :: lines) s = execAll k lines (execLine k s line) := rfl

@[simp] theorem execAll_append (front back : List Line) :
    execAll k (front ++ back) s = execAll k back (execAll k front s) := List.foldl_append ..

/-- Whether a line is an instruction that the processor has and that control passes through. -/
def IsStraight (line : Line) : Prop :=
  ∃ op operand, line = .op op operand ∧ isData op = true ∧ (op.encode operand.mode).isSome

/-- **Straight lines are run to their end**, whatever stands before and behind them. -/
theorem run_straight (e : Environment) (calls : Std.TreeMap ℕ CallTarget) (lines : List Line) :
    ∀ (front back : List Line) (c : Config), (∀ line ∈ lines, IsStraight line) →
      c.line = front.length →
      ∃ trace, run e (front ++ lines ++ back) calls lines.length c =
        some { c with
          line := front.length + lines.length
          store := execAll e.linkage lines c.store
          trace } := by
  induction lines with
  | nil =>
    intro front back c _ hline
    exact ⟨c.trace, by rw [← hline]; rfl⟩
  | cons line rest ih =>
    intro front back c hstraight hline
    obtain ⟨op, operand, rfl, hdata, hencode⟩ := hstraight line (List.mem_cons_self ..)
    have hget : (front ++ Line.op op operand :: rest ++ back)[c.line]? = some (.op op operand) := by
      rw [hline, List.append_assoc, List.getElem?_append_right le_rfl]
      simp
    have hstep : step e (front ++ Line.op op operand :: rest ++ back) calls c =
        some (c.pass e op operand) := by
      unfold step
      rw [hget]
      simp [hdata, Option.isNone_eq_false_iff.mpr hencode]
    obtain ⟨trace, hrun⟩ := ih (front ++ [Line.op op operand]) back (c.pass e op operand)
      (fun l hl => hstraight l (List.mem_cons_of_mem _ hl)) (by simp [Config.pass, hline])
    refine ⟨trace, ?_⟩
    rw [List.length_cons, run, hstep, Option.bind_some]
    have hcode : front ++ Line.op op operand :: rest ++ back =
        front ++ [Line.op op operand] ++ rest ++ back := by simp
    rw [hcode, hrun]
    simp only [Config.pass, List.length_append, List.length_singleton, execAll_cons, execLine,
      Option.some.injEq, Config.mk.injEq, and_true]
    omega

/-! ### Instructions on one byte -/

theorem read_alone (r : Registers) (byte : UInt8) : (alone r byte).bus.read 0 = byte := by
  have hplain : Plain (Bus.create 0 0 1) 0 := ⟨by decide, by decide⟩
  unfold alone
  rw [read_write hplain, if_pos rfl]

theorem read_alone_write (r : Registers) (byte value : UInt8) :
    ((alone r byte).bus.write 0 value).read 0 = value := by
  have hplain : Plain (alone r byte).bus 0 := by
    unfold alone Plain
    simp only [inWindow_write, bankSelect_write]
    decide
  rw [read_write hplain, if_pos rfl]

theorem cellOp_lda (r : Registers) (byte : UInt8) : cellOp .lda r byte = (r.loadA byte, byte) := by
  have h := read_alone r byte
  simp only [cellOp, Machine.execute, Machine.readOperand, Machine.mapRegs, h]
  rfl

theorem cellOp_sta (r : Registers) (byte : UInt8) : cellOp .sta r byte = (r, r.a) := by
  have h := read_alone_write r byte r.a
  simp only [cellOp, Machine.execute, Machine.writeOperand]
  exact Prod.ext rfl h

/-- The value of an operand. -/
def value (k : Linkage) (s : Store) : Operand → UInt8
  | .virtual v => s.cells v
  | .frame offset => s.frame offset
  | operand => s.machine.readOperand (k.effective s.machine operand)

theorem exec_lda (operand : Operand) :
    s.exec k .lda operand = s.setRegs (s.regs.loadA (value k s operand)) := by
  cases operand with
  | virtual v =>
    simp only [Store.exec, cellOp_lda, value, Store.setCell, Store.setRegs,
      Function.update_eq_self]
  | frame offset =>
    simp only [Store.exec, cellOp_lda, value, Store.setFrame, Store.setRegs,
      Function.update_eq_self]
  | _ => rfl

/-! ### Spots -/

/-- A constant, or a byte by the place where it lives. -/
inductive Spot where
  | constant (value : UInt8)
  | cell (v : VReg)
  | frame (offset : UInt8)
  | memory (address : UInt16)
  deriving DecidableEq

def get (s : Store) : Spot → UInt8
  | .constant value => value
  | .cell v => s.cells v
  | .frame offset => s.frame offset
  | .memory a => s.machine.bus.read a

def put (s : Store) (spot : Spot) (byte : UInt8) : Store :=
  match spot with
  | .constant _ => s
  | .cell v => s.setCell v byte
  | .frame offset => s.setFrame offset byte
  | .memory a => { s with machine := { s.machine with bus := s.machine.bus.write a byte } }

/-- Whether a spot keeps what is written to it. -/
def Keeps (s : Store) : Spot → Prop
  | .constant _ => False
  | .cell _ | .frame _ => True
  | .memory a => Plain s.machine.bus a

@[simp] theorem regs_put (spot : Spot) (byte : UInt8) : (put s spot byte).regs = s.regs := by
  cases spot <;> rfl

theorem get_put {spot : Spot} (h : Keeps s spot) (other : Spot) (byte : UInt8) :
    get (put s spot byte) other = if spot = other then byte else get s other := by
  cases spot with
  | constant value => exact h.elim
  | cell v =>
    cases other <;> simp [put, get, Store.setCell, Function.update_apply]
    grind
  | frame offset =>
    cases other <;> simp [put, get, Store.setFrame, Function.update_apply]
    grind
  | memory a =>
    cases other with
    | memory c => simp [put, get, read_write h]
    | _ => simp [put, get]

theorem plain_put (spot : Spot) (byte : UInt8) (a : UInt16) :
    Plain (put s spot byte).machine.bus a ↔ Plain s.machine.bus a := by
  cases spot with
  | memory b => simp [put, Plain]
  | _ => rfl

theorem keeps_put (spot other : Spot) (byte : UInt8) :
    Keeps (put s spot byte) other ↔ Keeps s other := by
  cases other with
  | memory a => exact plain_put spot byte a
  | _ => rfl

end Codegen6502.Proofs.Processor.Straight
