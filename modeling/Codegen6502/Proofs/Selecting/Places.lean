import Codegen6502.Proofs.Selecting.Numbering
import Codegen6502.Proofs.Selecting.Tracking

/-!
# Values and places

What values and places stand for in a store, told without the code: the spot at which a place starts
(`start`), the bytes of a value (`bytesOf`).  Against it stands what lowering makes of them:
`placeLoc_spec` for one byte of a place, `valueBytes_spec` for the bytes of a value.
-/

namespace Codegen6502.Proofs.Selecting.Places

open Selection Processor.Memory Processor.LineRun Processor.Straight Tracking

variable {α β : Type} {c : Context} {k : Linkage} {s t : Store} {st st' : State}

/-! ### Lowerings that succeed -/

theorem bind_ok {x : Lower α} {f : α → Lower β} {b : β} :
    (x >>= f) c st = .ok (b, st') ↔
      ∃ a st₁, x c st = .ok (a, st₁) ∧ f a c st₁ = .ok (b, st') := by
  have hbind : (x >>= f) c st = x c st >>= fun r => f r.1 c r.2 := rfl
  rw [hbind, Computations.bind_eq_ok]
  exact ⟨fun ⟨⟨a, st₁⟩, h, h'⟩ => ⟨a, st₁, h, h'⟩, fun ⟨a, st₁, h, h'⟩ => ⟨⟨a, st₁⟩, h, h'⟩⟩

theorem pure_ok {a b : α} : (pure a : Lower α) c st = .ok (b, st') ↔ b = a ∧ st' = st := by
  constructor
  · intro h
    cases h
    exact ⟨rfl, rfl⟩
  · rintro ⟨rfl, rfl⟩
    rfl

theorem tempInfo_ok {x : Temp} {info : TempInfo} (h : tempInfo x c st = .ok (info, st')) :
    st' = st ∧ c.temps[x]? = some info := by
  obtain ⟨c', st₁, hread, h⟩ := bind_ok.mp h
  cases hread
  cases hget : c.temps[x]? with
  | none =>
    simp only [hget] at h
    cases h
  | some found =>
    simp only [hget] at h
    cases h
    exact ⟨rfl, rfl⟩

/-! ### What places stand for -/

/-- The registers of a temporary, low byte first. -/
def registersOf (c : Context) (x : Temp) : List VReg :=
  match c.temps[x]? with
  | some info => info.vregs
  | none => []

/-- The address in two registers. -/
def addressIn (s : Store) : List VReg → UInt16
  | [lo, hi] => word (s.cells lo) (s.cells hi)
  | _ => 0

/-- The registers of the hidden pointer to the caller's result buffer. -/
def resultRegisters (c : Context) : List VReg :=
  match c.hidden.resultPointer with
  | some pointer => [pointer.1, pointer.2]
  | none => []

/-- The first byte of a place. -/
def start (c : Context) (k : Linkage) (s : Store) : Place → Spot
  | .absolute address => .memory address
  | .global name offset => .memory (k.symbol name + offset)
  | .frameByte offset => .frame offset
  | .indirect base offset => .memory (addressIn s (registersOf c base) + offset.toUInt16)
  | .banked _ offset => .memory (k.window + offset)
  | .iocb channel field => .memory ((field.address? channel).getD 0)
  | .returnSlot offset => .memory (addressIn s (resultRegisters c) + offset.toUInt16)

/-- The byte `i` bytes further on. -/
def plus : Spot → ℕ → Spot
  | .memory address, i => .memory (address + UInt16.ofNat i)
  | .frame offset, i => .frame (offset + UInt8.ofNat i)
  | spot, _ => spot

/-- The pointers that a context goes through have been numbered. -/
structure Pointed (c : Context) (n : ℕ) : Prop where
  temps : ∀ x, ∀ v ∈ registersOf c x, v.index.toNat < n
  result : ∀ v ∈ resultRegisters c, v.index.toNat < n

theorem pointerOf_ok {x : Temp} {pointer : PointerPair}
    (h : pointerOf x c st = .ok (pointer, st')) :
    st' = st ∧ registersOf c x = [pointer.1, pointer.2] := by
  obtain ⟨info, st₁, hinfo, hrest⟩ := bind_ok.mp h
  obtain ⟨rfl, hget⟩ := tempInfo_ok hinfo
  have hregs : registersOf c x = info.vregs := by simp [registersOf, hget]
  rw [hregs]
  rcases hvregs : info.vregs with _ | ⟨lo, _ | ⟨hi, _ | ⟨third, rest⟩⟩⟩ <;> rw [hvregs] at hrest
  case cons.cons.nil =>
    obtain ⟨rfl, rfl⟩ := pure_ok.mp hrest
    exact ⟨rfl, rfl⟩
  all_goals cases hrest

theorem resultPointer_ok {pointer : PointerPair} (h : resultPointer c st = .ok (pointer, st')) :
    st' = st ∧ resultRegisters c = [pointer.1, pointer.2] := by
  obtain ⟨c', st₁, hread, h⟩ := bind_ok.mp h
  cases hread
  unfold resultRegisters
  cases hget : c.hidden.resultPointer with
  | none =>
    simp only [hget] at h
    cases h
  | some found =>
    simp only [hget] at h
    cases h
    exact ⟨rfl, rfl⟩

/-- An offset from a symbol keeps its value. -/
theorem addend_eq (offset : UInt16) :
    (Int32.ofNat offset.toNat).toInt16.toUInt16 = offset := by
  refine UInt16.toBitVec_inj.mp ?_
  change ((BitVec.ofNat 32 offset.toNat).signExtend 16) = offset.toBitVec
  rw [BitVec.signExtend_eq_setWidth_of_le _ (by decide)]
  refine BitVec.eq_of_toNat_eq ?_
  have := offset.toNat_lt
  simp

theorem toUInt16_toUInt8_of_lt {a : UInt16} (h : a < 0x100) : a.toUInt8.toUInt16 = a := by
  have hlt : a.toNat < 256 := h
  refine UInt16.toNat_inj.mp ?_
  simp only [UInt8.toNat_toUInt16, UInt16.toNat_toUInt8]
  omega

/-- A byte of a place that lowering has found. -/
structure Locates (c : Context) (n : ℕ) (place : Place) (loc : ByteLoc) : Prop where
  isByte : IsByte loc
  below : Below n loc
  spot : ∀ (k : Linkage) (s : Store), spotOf k s loc = start c k s place
  addressed : ∀ channel field, place = .iocb channel field → (field.address? channel).isSome

theorem placeLoc_spec {n : ℕ} (hp : Pointed c n) {place : Place} {loc : ByteLoc}
    (h : placeLoc place c st = .ok (loc, st')) : st' = st ∧ Locates c n place loc := by
  cases place with
  | absolute address =>
    obtain ⟨rfl, rfl⟩ := pure_ok.mp h
    refine ⟨rfl, ?_⟩
    split
    · rename_i hlt
      have haddr := toUInt16_toUInt8_of_lt hlt
      exact ⟨trivial, trivial, fun k s => congrArg Spot.memory haddr, fun _ _ h => by cases h⟩
    · exact ⟨trivial, trivial, fun k s => rfl, fun _ _ h => by cases h⟩
  | global name offset =>
    obtain ⟨rfl, rfl⟩ := pure_ok.mp h
    refine ⟨rfl, trivial, trivial, fun k s => ?_, fun _ _ h => by cases h⟩
    simp only [spotOf, operandSpot, Linkage.address, start, addend_eq]
  | frameByte offset =>
    obtain ⟨rfl, rfl⟩ := pure_ok.mp h
    exact ⟨rfl, trivial, trivial, fun k s => rfl, fun _ _ h => by cases h⟩
  | indirect base offset =>
    obtain ⟨pointer, st₁, hpointer, hrest⟩ := bind_ok.mp h
    obtain ⟨rfl, hregs⟩ := pointerOf_ok hpointer
    obtain ⟨rfl, rfl⟩ := pure_ok.mp hrest
    have hbelow := hp.temps base
    rw [hregs] at hbelow
    refine ⟨rfl, trivial, ⟨hbelow _ (by simp), hbelow _ (by simp)⟩, fun k s => ?_,
      fun _ _ h => by cases h⟩
    simp only [start, hregs, addressIn, spotOf]
  | banked bank offset =>
    cases bank with
    | paged bank =>
      obtain ⟨rfl, rfl⟩ := pure_ok.mp h
      exact ⟨rfl, trivial, trivial, fun k s => rfl, fun _ _ h => by cases h⟩
    | common => cases h
  | iocb channel field =>
    obtain ⟨address, st₁, haddress, h⟩ := bind_ok.mp h
    obtain ⟨rfl, rfl⟩ := pure_ok.mp h
    unfold iocbAddress at haddress
    cases hfield : field.address? channel with
    | none =>
      simp only [hfield] at haddress
      cases haddress
    | some found =>
      simp only [hfield] at haddress
      obtain ⟨rfl, rfl⟩ := pure_ok.mp haddress
      refine ⟨rfl, trivial, trivial, fun k s => ?_, fun channel' field' heq => ?_⟩
      · simp only [start, hfield, Option.getD_some]
        rfl
      · injection heq with hchannel hfield'
        rw [← hchannel, ← hfield', hfield]
        rfl
  | returnSlot offset =>
    obtain ⟨pointer, st₁, hpointer, hrest⟩ := bind_ok.mp h
    obtain ⟨rfl, hregs⟩ := resultPointer_ok hpointer
    obtain ⟨rfl, rfl⟩ := pure_ok.mp hrest
    have hbelow := hp.result
    rw [hregs] at hbelow
    refine ⟨rfl, trivial, ⟨hbelow _ (by simp), hbelow _ (by simp)⟩, fun k s => ?_,
      fun _ _ h => by cases h⟩
    simp only [start, hregs, addressIn, spotOf]

/-- A lowering of each element that leaves the state alone. -/
theorem mapM_ok {f : α → Lower β} {P : α → β → Prop}
    (hf : ∀ a b st st', f a c st = .ok (b, st') → st' = st ∧ P a b) :
    ∀ (as : List α) (bs : List β) (st st' : State), as.mapM f c st = .ok (bs, st') →
      st' = st ∧ List.Forall₂ P as bs
  | [], bs, st, st', h => by
    obtain ⟨rfl, rfl⟩ := pure_ok.mp h
    exact ⟨rfl, .nil⟩
  | a :: as, bs, st, st', h => by
    rw [List.mapM_cons] at h
    obtain ⟨b, st₁, hb, hrest⟩ := bind_ok.mp h
    obtain ⟨bs', st₂, hbs, hpure⟩ := bind_ok.mp hrest
    obtain ⟨rfl, rfl⟩ := pure_ok.mp hpure
    obtain ⟨rfl, hab⟩ := hf a b st st₁ hb
    obtain ⟨rfl, hall⟩ := mapM_ok hf as bs' _ _ hbs
    exact ⟨rfl, .cons hab hall⟩

theorem placeBytes_spec {n : ℕ} (hp : Pointed c n) {place : Place} {size : ℕ}
    {locs : List ByteLoc} (h : placeBytes place size c st = .ok (locs, st')) :
    st' = st ∧ List.Forall₂ (fun i loc => Locates c n (place.displaced (UInt16.ofNat i)) loc)
      (List.range size) locs := by
  refine mapM_ok (fun i loc st st' hloc => ?_) _ _ _ _ h
  exact placeLoc_spec hp hloc

/-! ### The bytes of a place -/

theorem plus_zero (place : Place) : plus (start c k s place) 0 = start c k s place := by
  cases place <;> simp [start, plus]

theorem start_displaced_zero (place : Place) :
    start c k s (place.displaced 0) = start c k s place := by
  cases place with
  | iocb channel field =>
    cases h : field.address? channel <;> simp [Place.displaced, start, h]
  | _ => simp [Place.displaced, start]

theorem word_ne_succ (a : UInt16) : a ≠ a + 1 := fun h => by simp at h

theorem byte_ne_succ (a : UInt8) : a ≠ a + 1 := fun h => by simp at h

/-- The second byte that lowering finds is another one than the first. -/
theorem start_ne_displaced {place : Place}
    (h : ∀ channel field, place = .iocb channel field → (field.address? channel).isSome) :
    start c k s place ≠ start c k s (place.displaced 1) := by
  have hone : (1 : UInt16).toUInt8 = 1 := rfl
  intro heq
  cases place with
  | absolute address =>
    injection heq with heq
    exact word_ne_succ address heq
  | global name offset =>
    injection heq with heq
    exact word_ne_succ offset (UInt16.add_right_inj _ |>.mp heq)
  | frameByte offset =>
    injection heq with heq
    rw [hone] at heq
    exact byte_ne_succ offset heq
  | indirect base offset =>
    injection heq with heq
    rw [hone] at heq
    exact scratch_ne offset (UInt16.add_right_inj _ |>.mp heq)
  | banked bank offset =>
    injection heq with heq
    exact word_ne_succ offset (UInt16.add_right_inj _ |>.mp heq)
  | iocb channel field =>
    obtain ⟨address, haddress⟩ := Option.isSome_iff_exists.mp (h channel field rfl)
    simp only [Place.displaced, haddress, start, Option.getD_some, Spot.memory.injEq] at heq
    exact word_ne_succ address heq
  | returnSlot offset =>
    injection heq with heq
    rw [hone] at heq
    exact scratch_ne offset (UInt16.add_right_inj _ |>.mp heq)

/-- The byte behind the first is another one. -/
theorem start_ne_plus (place : Place) : start c k s place ≠ plus (start c k s place) 1 := by
  cases place with
  | frameByte offset =>
    intro heq
    injection heq with heq
    exact byte_ne_succ offset heq
  | _ =>
    intro heq
    injection heq with heq
    exact word_ne_succ _ heq

/-! ### What values stand for -/

/-- The type of a temporary. -/
def typeOf (c : Context) (x : Temp) : ValueType :=
  match c.temps[x]? with
  | some info => info.type
  | none => .void

/-- The byte by which a temporary is extended. -/
def extension (c : Context) (s : Store) (x : Temp) : UInt8 :=
  match (registersOf c x).getLast? with
  | some top => if (typeOf c x).isSigned = true ∧ 0x80 ≤ s.cells top then 0xFF else 0
  | none => 0

/-- The bytes of a value taken with a size, low byte first. -/
def bytesOf (c : Context) (k : Linkage) (s : Store) (size : ℕ) : Value → List UInt8
  | .constant value => (List.range size).map (constByte value)
  | .temp x => ((registersOf c x).map s.cells ++ List.replicate size (extension c s x)).take size
  | .memory place => (List.range size).map fun i => get s (plus (start c k s place) i)

/-! ### Sign extension -/

theorem modifyDraft_ok {f : Draft → Draft} {u : Unit} (h : modifyDraft f c st = .ok (u, st')) :
    st'.draft = f st.draft := by
  cases h
  rfl

theorem storeA_ok {loc : ByteLoc} {u : Unit} (h : storeA loc c st = .ok (u, st')) :
    st.draft.storeA loc = .ok st'.draft := by
  obtain ⟨st₁, st₂, hget, hrest⟩ := bind_ok.mp h
  cases hget
  obtain ⟨d, st₃, hlift, hset⟩ := bind_ok.mp hrest
  cases hd : st.draft.storeA loc with
  | error e =>
    simp only [hd] at hlift
    cases hlift
  | ok d' =>
    simp only [hd] at hlift
    cases hlift
    cases hset
    rfl

theorem newVReg_ok {v : VReg} (h : newVReg c st = .ok (v, st')) :
    v = st.draft.newVReg.1 ∧ st'.draft = st.draft.newVReg.2 := by
  cases h
  exact ⟨rfl, rfl⟩

theorem high_bit (a : UInt8) : a &&& 0x80 ≠ 0 ↔ 0x80 ≤ a := by
  have h : ∀ x : BitVec 8, x &&& 0x80#8 ≠ 0#8 ↔ 0x80#8 ≤ x := by decide
  rw [Ne, ← UInt8.toBitVec_inj]
  exact h a.toBitVec

/-- A line that computes in A. -/
theorem emits_arithmetic (d : Draft) {opcode : Opcode} {operand : Operand}
    (hop : (opcode = .adc ∨ opcode = .eor) ∧ (∃ byte, operand = .byte byte) ∨
      opcode = .asl ∧ operand = .accumulator) :
    Emits k 0 d (d.op opcode operand) (fun _ => True) fun s t => t = s.exec k opcode operand := by
  refine Emits.op d ?_ ?_ fun s hr _ => ⟨knows_arithmetic hr.1 hop, ?_, rfl⟩
  · obtain ⟨rfl | rfl, byte, rfl⟩ | ⟨rfl, rfl⟩ := hop <;> rfl
  · obtain ⟨rfl | rfl, byte, rfl⟩ | ⟨rfl, rfl⟩ := hop <;> rfl
  · obtain ⟨rfl | rfl, byte, rfl⟩ | ⟨rfl, rfl⟩ := hop <;> exact hr.2

/-- The lines that spread the top bit of A over A. -/
def spread (d : Draft) : Draft :=
  (((d.bare .asl).op .lda (.byte 0)).op .adc (.byte 0xFF)).op .eor (.byte 0xFF)

theorem exec_asl : s.exec k .asl .accumulator = s.setRegs
    { (s.regs.setFlag .c (s.regs.a &&& 0x80 != 0)).setNZ (s.regs.a <<< 1) with
      a := s.regs.a <<< 1 } := rfl

theorem exec_adc (byte : UInt8) :
    s.exec k .adc (.byte byte) = s.setRegs (s.regs.add byte) := rfl

theorem exec_eor (byte : UInt8) :
    s.exec k .eor (.byte byte) = s.setRegs (s.regs.loadA (s.regs.a ^^^ byte)) := rfl

theorem regs_setRegs (r : Registers) : (s.setRegs r).regs = r := rfl

theorem setRegs_setRegs (r r' : Registers) : (s.setRegs r).setRegs r' = s.setRegs r' := rfl

theorem flag_loadA (r : Registers) (byte : UInt8) : (r.loadA byte).flag .c = r.flag .c := by
  unfold Registers.loadA
  rw [flag_setNZ]
  rfl

/-- Shifting the top bit into the carry, and adding the carry to `$FF`. -/
theorem spread_a (r : Registers) :
    ((({ (r.setFlag .c (r.a &&& 0x80 != 0)).setNZ (r.a <<< 1) with a := r.a <<< 1 } :
      Registers).loadA 0).add 0xFF).a ^^^ 0xFF = if 0x80 ≤ r.a then 0xFF else 0 := by
  have hadd : ∀ q : Registers, (q.add 0xFF).a = q.a + 0xFF + if q.flag .c then 1 else 0 :=
    fun q => rfl
  have hp : ∀ (q : Registers) (a : UInt8), ({ q with a } : Registers).flag .c = q.flag .c :=
    fun q a => rfl
  rw [hadd, flag_loadA, hp, flag_setNZ, loadA_a]
  simp only [reduceCtorEq, ↓reduceIte, flag_setFlag]
  by_cases h : 0x80 ≤ r.a
  · have hbit : (r.a &&& 0x80 != 0) = true := by simpa using (high_bit r.a).mpr h
    rw [if_pos h, hbit]
    rfl
  · have hbit : (r.a &&& 0x80 != 0) = false := by simpa using mt (high_bit r.a).mp h
    rw [if_neg h, hbit]
    rfl

theorem emits_spread (d : Draft) :
    Emits k 0 d (spread d) (fun _ => True) fun s t =>
      t = s.setRegs t.regs ∧ t.regs.a = if 0x80 ≤ s.regs.a then 0xFF else 0 := by
  have hasl := emits_arithmetic (k := k) d (Or.inr ⟨rfl, rfl⟩)
  have hlda := emits_lda (k := k) (d.bare .asl) (.byte 0) rfl
  have hadc := emits_arithmetic (k := k) ((d.bare .asl).op .lda (.byte 0))
    (Or.inl ⟨Or.inl rfl, 0xFF, rfl⟩)
  have heor := emits_arithmetic (k := k) (((d.bare .asl).op .lda (.byte 0)).op .adc (.byte 0xFF))
    (Or.inl ⟨Or.inr rfl, 0xFF, rfl⟩)
  refine (((hasl.trans hlda fun _ _ _ _ => trivial).trans hadc fun _ _ _ _ => trivial).trans heor
    fun _ _ _ _ => trivial).imp le_rfl (fun _ h => h) ?_
  rintro s w - - ⟨v, ⟨u, ⟨t, rfl, rfl⟩, rfl⟩, rfl⟩
  have hzero : ∀ u : Store, value k u (.byte 0) = 0 := fun u => rfl
  rw [exec_eor, exec_adc, exec_asl]
  simp only [regs_setRegs, setRegs_setRegs, hzero, loadA_a]
  exact ⟨trivial, spread_a s.regs⟩

theorem nextVReg_newVReg {d : Draft} (hroom : d.nextVReg.toNat + 1 < everything) :
    d.newVReg.2.nextVReg.toNat = d.nextVReg.toNat + 1 := by
  have h1 : (1 : UInt32).toNat = 1 := rfl
  simp only [Draft.newVReg, UInt32.toNat_add, h1, Nat.mod_eq_of_lt hroom]

/-- **The sign of a byte** is left in a new register. -/
theorem signByte_spec {top : VReg} {loc : ByteLoc} {n : ℕ}
    (h : signByte (.vreg top) c st = .ok (loc, st')) (hn : n ≤ st.draft.nextVReg.toNat)
    (hroom : st.draft.nextVReg.toNat + 2 < everything) :
    loc = .vreg st.draft.newVReg.1 ∧ st.draft.nextVReg.toNat + 1 ≤ st'.draft.nextVReg.toNat ∧
      Emits k 2 st.draft st'.draft (fun _ => True) fun s t =>
        Same st.draft.pointerCell n s t ∧
          t.cells st.draft.newVReg.1 = if 0x80 ≤ s.cells top then 0xFF else 0 := by
  obtain ⟨v, st₁, hnew, h1⟩ := bind_ok.mp h
  obtain ⟨rfl, hd₁⟩ := newVReg_ok hnew
  obtain ⟨u₂, st₂, hload, h2⟩ := bind_ok.mp h1
  obtain ⟨u₃, st₃, hasl, h3⟩ := bind_ok.mp h2
  obtain ⟨u₄, st₄, hlda, h4⟩ := bind_ok.mp h3
  obtain ⟨u₅, st₅, hadc, h5⟩ := bind_ok.mp h4
  obtain ⟨u₆, st₆, heor, h6⟩ := bind_ok.mp h5
  obtain ⟨u₇, st₇, hstore, h7⟩ := bind_ok.mp h6
  obtain ⟨rfl, rfl⟩ := pure_ok.mp h7
  have hd₆ : st₆.draft = spread (st.draft.newVReg.2.loadA (.vreg top)) := by
    rw [modifyDraft_ok heor, modifyDraft_ok hadc, modifyDraft_ok hlda, modifyDraft_ok hasl,
      modifyDraft_ok hload, hd₁]
    rfl
  have hfresh := nextVReg_newVReg (d := st.draft) (by omega)
  have hnewVReg := emits_newVReg (k := k) (d := st.draft) (by omega)
  have hloadA := emits_loadA (k := k) st.draft.newVReg.2 (show IsByte (.vreg top) from trivial)
  have hspread := emits_spread (k := k) (st.draft.newVReg.2.loadA (.vreg top))
  have hthree := ((hnewVReg.trans hloadA fun s t _ _ a ha => by cases ha).trans hspread
    fun _ _ _ _ => trivial)
  have hnext : st₆.draft.nextVReg.toNat = st.draft.nextVReg.toNat + 1 := by
    have := hthree.bounded
    have := hspread.grows
    have := hloadA.grows
    rw [hd₆]
    omega
  have hstoreA := emits_storeA (k := k) (show IsByte (.vreg st.draft.newVReg.1) from trivial)
    (le_refl st₆.draft.nextVReg.toNat) (by omega)
    (show st.draft.nextVReg.toNat < _ by omega) (storeA_ok hstore)
  rw [← hd₆] at hthree
  refine ⟨rfl, hnext.symm.le.trans hstoreA.grows, ?_⟩
  refine (hthree.trans hstoreA ?_).imp le_rfl (fun _ h => h) ?_
  · intro s t _ _
    exact ⟨trivial, fun a ha => by cases ha⟩
  · rintro s w - - ⟨v, ⟨u, ⟨t, rfl, hsame, ha⟩, hv, ha'⟩, hw⟩
    have hcell₆ : st₆.draft.pointerCell = st.draft.pointerCell := hthree.cell
    rw [hcell₆] at hw
    have hhidden : ¬Visible st.draft.pointerCell n (.cell st.draft.newVReg.1) := not_lt.mpr hn
    have htv : Same st.draft.pointerCell n t v :=
      (hsame.mono (by omega)).trans (hv ▸ Same.setRegs u _)
    refine ⟨(htv.trans (Same.put_hidden (show Keeps v (.cell _) from trivial) hhidden _)).trans
      (hw.mono (by omega)), ?_⟩
    have hget := hw.get (.cell st.draft.newVReg.1) (by
      change st.draft.nextVReg.toNat < _
      omega)
    have hput : (put v (.cell st.draft.newVReg.1) v.regs.a).cells st.draft.newVReg.1 = v.regs.a :=
      Function.update_self ..
    have htop' : get t (spotOf k t (.vreg top)) = t.cells top := rfl
    rw [ha, htop'] at ha'
    exact hget.trans (hput.trans ha')

/-! ### The bytes of values -/

/-- The bytes of a value that is not in memory: constants and registers, those of the temporary or
new ones, which hold the value. -/
structure Supplies (c : Context) (n : ℕ) (value : Value) (size : ℕ) (d d' : Draft)
    (locs : List ByteLoc) : Prop where
  length : locs.length = size
  simple : ∀ loc ∈ locs, (∃ byte, loc = .byte byte) ∨ ∃ v, loc = .vreg v ∧
    v.index.toNat < d'.nextVReg.toNat ∧
    ((∃ x, value = .temp x ∧ v ∈ registersOf c x) ∨ n ≤ v.index.toNat)
  emits : ∀ k, Emits k 2 d d' (fun _ => True) fun s t =>
    Same d.pointerCell n s t ∧
      locs.map (fun loc => get t (spotOf k t loc)) = bytesOf c k s size value

theorem extension_eq {x : Temp} {info : TempInfo} (h : c.temps[x]? = some info) :
    extension c s x = match info.vregs.getLast? with
      | some top => if info.type.isSigned = true ∧ 0x80 ≤ s.cells top then 0xFF else 0
      | none => 0 := by
  simp [extension, registersOf, typeOf, h]

theorem bytesOf_temp (x : Temp) (size : ℕ) :
    bytesOf c k s size (.temp x) =
      if (registersOf c x).length < size then
        (registersOf c x).map s.cells ++
          List.replicate (size - (registersOf c x).length) (extension c s x)
      else ((registersOf c x).take size).map s.cells := by
  simp only [bytesOf]
  split
  · rename_i hlt
    rw [List.take_append, List.take_of_length_le (by simpa using hlt.le), List.take_replicate]
    simp
  · rename_i hge
    rw [List.take_append_of_le_length (by simpa using hge), List.map_take]

theorem supplies_constant {value : Int64} {size n : ℕ} {d : Draft} :
    Supplies c n (.constant value) size d d (constBytes value size) where
  length := by simp [constBytes]
  simple loc h := by
    obtain ⟨i, -, rfl⟩ := List.mem_map.mp h
    exact Or.inl ⟨_, rfl⟩
  emits k := by
    refine (Emits.refl fun s _ _ => ⟨Same.refl s, ?_⟩).imp (Nat.zero_le 2) (fun _ h => h)
      fun _ _ _ _ h => h
    simp only [constBytes, bytesOf, List.map_map]
    rfl

/-- A temporary that is wide enough. -/
theorem supplies_wide {x : Temp} {size n : ℕ} {d : Draft} (hp : Pointed c n)
    (hn : n ≤ d.nextVReg.toNat) (hge : size ≤ (registersOf c x).length) :
    Supplies c n (.temp x) size d d (((registersOf c x).take size).map .vreg) where
  length := by simpa using hge
  simple loc h := by
    obtain ⟨v, hv, rfl⟩ := List.mem_map.mp h
    have hv := List.mem_of_mem_take hv
    exact Or.inr ⟨v, rfl, (hp.temps x v hv).trans_le hn, Or.inl ⟨x, rfl, hv⟩⟩
  emits k := by
    refine (Emits.refl fun s _ _ => ⟨Same.refl s, ?_⟩).imp (Nat.zero_le 2) (fun _ h => h)
      fun _ _ _ _ h => h
    rw [bytesOf_temp, if_neg (by omega), List.map_map]
    rfl

/-- A temporary that is extended. -/
theorem supplies_narrow {x : Temp} {size n : ℕ} {d d' : Draft} {fill : ByteLoc} (hp : Pointed c n)
    (hlt : (registersOf c x).length < size) (hgrows : n ≤ d'.nextVReg.toNat)
    (hfill : (∃ byte, fill = .byte byte) ∨
      ∃ v, fill = .vreg v ∧ n ≤ v.index.toNat ∧ v.index.toNat < d'.nextVReg.toNat)
    (hemits : ∀ k, Emits k 2 d d' (fun _ => True) fun s t =>
      Same d.pointerCell n s t ∧ get t (spotOf k t fill) = extension c s x) :
    Supplies c n (.temp x) size d d' ((registersOf c x).map .vreg ++
      List.replicate (size - (registersOf c x).length) fill) where
  length := by
    simp only [List.length_append, List.length_map, List.length_replicate]
    omega
  simple loc h := by
    rcases List.mem_append.mp h with hmem | hmem
    · obtain ⟨v, hv, rfl⟩ := List.mem_map.mp hmem
      exact Or.inr ⟨v, rfl, (hp.temps x v hv).trans_le hgrows, Or.inl ⟨x, rfl, hv⟩⟩
    · obtain rfl := (List.mem_replicate.mp hmem).2
      exact hfill.imp id fun ⟨v, hv, hle, hlt⟩ => ⟨v, hv, hlt, Or.inr hle⟩
  emits k := by
    refine (hemits k).imp le_rfl (fun _ h => h) ?_
    rintro s t - - ⟨hsame, hext⟩
    refine ⟨hsame, ?_⟩
    rw [bytesOf_temp, if_pos hlt, List.map_append, List.map_map, List.map_replicate, hext]
    congr 1
    exact List.map_congr_left fun v hv => hsame.get (.cell v) (hp.temps x v hv)

/-- **The bytes of a constant or a temporary.** -/
theorem valueBytes_spec {value : Value} {type : ValueType} {locs : List ByteLoc} {n : ℕ}
    (h : valueBytes value type c st = .ok (locs, st')) (hvalue : ∀ place, value ≠ .memory place)
    (hp : Pointed c n) (hn : n ≤ st.draft.nextVReg.toNat)
    (hroom : st.draft.nextVReg.toNat + 2 < everything) :
    Supplies c n value type.size.toNat st.draft st'.draft locs := by
  cases value with
  | memory place => exact absurd rfl (hvalue place)
  | constant value =>
    obtain ⟨u, st₁, hcheck, hrest⟩ := bind_ok.mp h
    have hst : st₁ = st := by
      obtain ⟨c', st₂, hread, hcheck⟩ := bind_ok.mp hcheck
      cases hread
      split at hcheck
      · cases hcheck
      · cases hcheck
        rfl
    obtain ⟨rfl, rfl⟩ := pure_ok.mp hrest
    rw [hst]
    exact supplies_constant
  | temp x =>
    obtain ⟨info, st₁, hinfo, hrest⟩ := bind_ok.mp h
    obtain ⟨rfl, hget⟩ := tempInfo_ok hinfo
    have hregs : info.vregs = registersOf c x := by simp [registersOf, hget]
    simp only [hregs] at hrest
    split at hrest
    · rename_i hshort
      have hlt : (registersOf c x).length < type.size.toNat := by simpa using hshort
      simp only [List.take_of_length_le hlt.le, List.length_map] at hrest
      split at hrest
      · rename_i hsigned
        cases hlast : (registersOf c x).getLast? with
        | none =>
          simp only [hlast] at hrest
          cases hrest
        | some top =>
          simp only [hlast] at hrest
          obtain ⟨fill, st₂, hfill, hpure⟩ := bind_ok.mp hrest
          obtain ⟨rfl, rfl⟩ := pure_ok.mp hpure
          obtain ⟨rfl, hgrown, -⟩ := signByte_spec (k := ⟨fun _ => 0, 0⟩) hfill hn hroom
          refine supplies_narrow hp hlt (by omega) (Or.inr ⟨_, rfl, hn, hgrown⟩) fun k => ?_
          refine (signByte_spec hfill hn hroom).2.2.imp le_rfl (fun _ h => h) ?_
          rintro s t - - ⟨hsame, hsign⟩
          refine ⟨hsame, hsign.trans ?_⟩
          rw [extension_eq hget, hregs, hlast]
          simp only [hsigned, true_and]
      · rename_i hunsigned
        obtain ⟨fill, st₂, hfill, hpure⟩ := bind_ok.mp hrest
        obtain ⟨rfl, rfl⟩ := pure_ok.mp hfill
        obtain ⟨rfl, rfl⟩ := pure_ok.mp hpure
        refine supplies_narrow hp hlt hn (Or.inl ⟨0, rfl⟩) fun k => ?_
        refine (Emits.refl fun s _ _ => ⟨Same.refl s, ?_⟩).imp (Nat.zero_le 2) (fun _ h => h)
          fun _ _ _ _ h => h
        rw [extension_eq hget]
        cases info.vregs.getLast? <;> simp [hunsigned] <;> rfl
    · rename_i hlong
      obtain ⟨rfl, rfl⟩ := pure_ok.mp hrest
      exact supplies_wide hp hn (by simpa using hlong)

end Codegen6502.Proofs.Selecting.Places
