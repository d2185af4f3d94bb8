import Codegen6502.Clobbers
import Codegen6502.Proofs.Calls.Search

/-!
# What clobber sets contain

A clobber set is a set of registers and zero-page cells.  Everything about it is stated through the
test `Has` for one of these (`Resource`).

* `has_union`, `has_insertReg`, `has_writtenBy`: the operations;
* `eq_of_has`: sets with the same elements are equal;
* `size_lt`: a set that grows gets larger, and `size_le` bounds it.
-/

namespace Codegen6502.Proofs.Calls.ClobberSets

open Search

/-- Something that code can overwrite. -/
inductive Resource where
  | reg (r : Register)
  | cell (z : UInt8)
  deriving DecidableEq

/-- Whether a set has a register or a cell. -/
def has (s : Clobbers) : Resource → Bool
  | .reg r => s.containsReg r
  | .cell z => s.containsCell z

/-- Whether a set has a register or a cell. -/
def Has (s : Clobbers) (i : Resource) : Prop := has s i = true

instance (s : Clobbers) (i : Resource) : Decidable (Has s i) := by unfold Has; infer_instance

/-- Inclusion. -/
def Sub (s t : Clobbers) : Prop := ∀ i, Has s i → Has t i

theorem Sub.refl (s : Clobbers) : Sub s s := fun _ h => h

theorem Sub.trans {s t u : Clobbers} (hst : Sub s t) (htu : Sub t u) : Sub s u :=
  fun i h => htu i (hst i h)

/-! ### Sets of cells -/

theorem contains_union (s t : CellSet) (z : UInt8) :
    (s.union t).contains z = (s.contains z || t.contains z) := by
  simp [CellSet.contains, CellSet.union]

theorem contains_insert (s : CellSet) (y z : UInt8) :
    (s.insert y).contains z = (s.contains z || decide (y = z)) := by
  have hz : z.toNat < 256 := z.toNat_lt
  have hyz : z.toNat = y.toNat ↔ y = z := UInt8.toNat_inj.trans eq_comm
  simp [CellSet.contains, CellSet.insert, hz, hyz]

@[simp] theorem contains_empty (z : UInt8) : CellSet.empty.contains z = false := by
  simp [CellSet.contains, CellSet.empty]

theorem contains_foldl_insert (cells : List UInt8) (z : UInt8) : ∀ s : CellSet,
    (cells.foldl CellSet.insert s).contains z = (s.contains z || cells.contains z) := by
  induction cells with
  | nil => simp
  | cons y rest ih =>
    intro s
    rw [List.foldl_cons, ih, contains_insert, List.contains_cons, Bool.or_assoc]
    have hyz : decide (y = z) = (z == y) := by
      rw [Bool.eq_iff_iff, decide_eq_true_iff, beq_iff_eq, eq_comm]
    rw [hyz]

theorem contains_ofList (cells : List UInt8) (z : UInt8) :
    (CellSet.ofList cells).contains z = cells.contains z := by
  unfold CellSet.ofList
  rw [contains_foldl_insert]
  simp

theorem mem_everyByte (z : UInt8) : z ∈ CellSet.everyByte :=
  List.mem_map.mpr ⟨z.toNat, List.mem_range.mpr z.toNat_lt, by simp⟩

theorem mem_toList {s : CellSet} {z : UInt8} : z ∈ s.toList ↔ s.contains z = true := by
  simp [CellSet.toList, mem_everyByte]

theorem eq_of_contains {s t : CellSet} (h : ∀ z, s.contains z = t.contains z) : s = t := by
  obtain ⟨bits⟩ := s
  obtain ⟨bits'⟩ := t
  congr
  refine BitVec.eq_of_getLsbD_eq fun i hi => ?_
  have := h (UInt8.ofNat i)
  simpa [CellSet.contains, Nat.mod_eq_of_lt hi] using this

theorem cells_isEmpty_iff (s : CellSet) : s.isEmpty = true ↔ ∀ z, s.contains z = false := by
  unfold CellSet.isEmpty
  rw [decide_eq_true_iff]
  constructor
  · intro h z
    simp [CellSet.contains, h]
  · intro h
    have : s = CellSet.empty := eq_of_contains fun z => by rw [h z, contains_empty]
    rw [this]
    rfl

/-! ### The operations -/

@[simp] theorem has_union (s t : Clobbers) (i : Resource) :
    Has (s.union t) i ↔ Has s i ∨ Has t i := by
  unfold Has has
  cases i with
  | reg r => cases r <;>
      simp [Clobbers.containsReg, Clobbers.union, RegSet.contains, RegSet.union]
  | cell z => simp [Clobbers.containsCell, Clobbers.union, contains_union]

theorem has_insertReg (s : Clobbers) (r : Register) (i : Resource) :
    Has (s.insertReg r) i ↔ Has s i ∨ i = .reg r := by
  unfold Has has
  cases i with
  | reg q => cases r <;> cases q <;>
      simp [Clobbers.containsReg, Clobbers.insertReg, RegSet.contains, RegSet.insert]
  | cell z => simp [Clobbers.containsCell, Clobbers.insertReg]

@[simp] theorem not_has_empty (i : Resource) : ¬ Has {} i := by
  unfold Has has
  cases i with
  | reg r => cases r <;> simp [Clobbers.containsReg, RegSet.contains]
  | cell z => simp [Clobbers.containsCell]

theorem has_foldl_union {α : Type} (f : α → Clobbers) (i : Resource) :
    ∀ (elements : List α) (s : Clobbers), Has (elements.foldl (fun s a => s.union (f a)) s) i ↔
      Has s i ∨ ∃ a ∈ elements, Has (f a) i := by
  intro elements
  induction elements with
  | nil => simp
  | cons a rest ih =>
    intro s
    rw [List.foldl_cons, ih, has_union]
    simp [or_assoc]

/-- What an instruction overwrites that is not a call. -/
theorem ofLine_op {opcode : Opcode} (h : opcode ≠ .jsr) (operand : Operand) :
    Clobbers.ofLine (.op opcode operand) =
      { regs := (Line.op opcode operand).effects.writes
        cells := match operand with
          | .zeroPage cell => if opcode.writesMemory then .ofList [cell] else .empty
          | _ => .empty } := by
  cases opcode <;> first | rfl | exact absurd rfl h

/-- **What a list of lines overwrites** is what one of its lines does. -/
theorem has_writtenBy (code : List Line) (i : Resource) :
    Has (.writtenBy code) i ↔ ∃ line ∈ code, Has (.ofLine line) i := by
  unfold Clobbers.writtenBy
  rw [has_foldl_union]
  simp

theorem has_pool_everything {z : ZeroPage} {cell : UInt8} (h : cell ∈ z.pool) :
    Has (.everything z) (.cell cell) := by
  simp [Has, has, Clobbers.containsCell, Clobbers.everything, contains_union, contains_ofList, h]

/-! ### Equality and size -/

theorem eq_of_has {s t : Clobbers} (h : ∀ i, Has s i ↔ Has t i) : s = t := by
  have hb : ∀ i, has s i = has t i := fun i => Bool.eq_iff_iff.mpr (h i)
  obtain ⟨⟨a, x, y⟩, cells⟩ := s
  obtain ⟨⟨a', x', y'⟩, cells'⟩ := t
  have ha : a = a' := hb (.reg .a)
  have hx : x = x' := hb (.reg .x)
  have hy : y = y' := hb (.reg .y)
  have hcells : cells = cells' := eq_of_contains fun z => hb (.cell z)
  subst ha hx hy hcells
  rfl

/-- Everything that there is. -/
def resources : List Resource := Register.all.map .reg ++ CellSet.everyByte.map .cell

theorem mem_resources (i : Resource) : i ∈ resources := by
  cases i with
  | reg r => cases r <;> simp [resources, Register.all]
  | cell z => simp [resources, mem_everyByte]

/-- The number of elements. -/
def size (s : Clobbers) : ℕ := totalOf (fun _ => 1) (resources.filter (has s))

theorem totalOf_one {α : Type} (elements : List α) :
    totalOf (fun _ => 1) elements = elements.length := by
  induction elements with
  | nil => rfl
  | cons a rest ih => rw [totalOf_cons, ih, List.length_cons, Nat.add_comm]

theorem size_le (s : Clobbers) : size s ≤ 259 := by
  unfold size
  rw [totalOf_one]
  exact Nat.le_trans (List.length_filter_le _ _)
    (by simp [resources, Register.all, CellSet.everyByte])

theorem size_le_size {s t : Clobbers} (h : Sub s t) : size s ≤ size t :=
  totalOf_filter_le _ h resources

theorem size_lt {s t : Clobbers} (h : Sub s t) (hne : s ≠ t) : size s < size t := by
  have hnew : ∃ i, Has t i ∧ ¬ Has s i := by
    by_contra hno
    push Not at hno
    exact hne (eq_of_has fun i => ⟨h i, hno i⟩)
  obtain ⟨i, hi, hni⟩ := hnew
  have := totalOf_filter_lt (fun _ => 1) h hi (Bool.eq_false_iff.mpr hni) (mem_resources i)
  exact Nat.lt_of_succ_le this

end Codegen6502.Proofs.Calls.ClobberSets
