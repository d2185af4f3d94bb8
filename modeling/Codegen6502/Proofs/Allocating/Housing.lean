import Codegen6502.Allocation.Location
import Codegen6502.Proofs.Processor.Agreement

/-!
# Values in their locations

Before allocation every virtual register and every frame byte is a byte of its own; afterwards it
lives in a register, a cell of the zero page or a byte of the frame on the stack.  `Housed` relates
the two: what is live is held in its location, and memory agrees outside the places that only
allocated code uses (`Private`).

Each of the other theorems is about one instruction of the allocated code: `Housed.execute` and
`Housed.push`, `Housed.pull` for one that stands in the selected code as well, `Housed.access` for
one that replaces an access to a byte, `Housed.tsx` and `Housed.saving` for what loads X before it,
and `Housed.load_held`, `Housed.store_held`, `Housed.load_index`, `Housed.store_index` for accesses
to a value in a register.
-/

namespace Codegen6502.Proofs.Allocating.Housing

open Processor.Memory Processor.LineRun Processor.Straight Processor.Agreement

/-! ### Places -/

/-- Where the values and frame bytes of a function are. -/
structure House where
  locations : Locations
  /-- The number of frame bytes that are locals. -/
  locals : UInt8
  frameBytes : UInt8
  /-- The stack pointer as the entry sequence left it. -/
  base : UInt8

namespace House

variable {h : House}

/-- The address of a frame byte. -/
def frameAddress (h : House) (o : UInt8) : UInt16 := 0x0101 + h.base.toUInt16 + o.toUInt16

/-- The address of a location in memory. -/
def address? (h : House) : Location → Option UInt16
  | .reg _ => none
  | .zeroPage cell => some cell.toUInt16
  | .stack o => some (h.frameAddress o)

/-- What a location holds. -/
def held (h : House) (m : Machine) : Location → UInt8
  | .reg r => regValue m.regs r
  | .zeroPage cell => m.bus.read cell.toUInt16
  | .stack o => m.bus.read (h.frameAddress o)

/-- The cells of the zero page in which values live. -/
def IsCell (h : House) (a : UInt16) : Prop :=
  ∃ (v : VReg) (cell : UInt8), h.locations[v.index]? = some (.zeroPage cell) ∧ a = cell.toUInt16

/-- The bytes of the frame. -/
def IsFrame (h : House) (a : UInt16) : Prop := ∃ o, o < h.frameBytes ∧ a = h.frameAddress o

/-- The bytes of the stack that are free. -/
def IsFree (sp : UInt8) (a : UInt16) : Prop := 0x0100 ≤ a.toNat ∧ a.toNat ≤ 0x0100 + sp.toNat

/-- The addresses that only allocated code uses. -/
def Private (h : House) (sp : UInt8) (a : UInt16) : Prop := h.IsCell a ∨ h.IsFrame a ∨ IsFree sp a

/-- What allocation promises about locations. -/
structure Fits (h : House) : Prop where
  frame : h.base.toNat + h.frameBytes.toNat ≤ 0xFF
  locals : h.locals ≤ h.frameBytes
  stack : ∀ (v : VReg) (o : UInt8), h.locations[v.index]? = some (.stack o) →
    h.locals ≤ o ∧ o < h.frameBytes

theorem toNat_frameAddress (hfits : h.Fits) {o : UInt8} (ho : o < h.frameBytes) :
    (h.frameAddress o).toNat = 0x0101 + h.base.toNat + o.toNat := by
  have hframe := hfits.frame
  have ho' : o.toNat < h.frameBytes.toNat := UInt8.lt_iff_toNat_lt.mp ho
  simp only [frameAddress, UInt16.toNat_add, UInt8.toNat_toUInt16, UInt16.reduceToNat]
  omega

theorem frameAddress_inj (hfits : h.Fits) {o o' : UInt8} (ho : o < h.frameBytes)
    (ho' : o' < h.frameBytes) (heq : h.frameAddress o = h.frameAddress o') : o = o' := by
  have := congrArg UInt16.toNat heq
  rw [toNat_frameAddress hfits ho, toNat_frameAddress hfits ho'] at this
  exact UInt8.toNat_inj.mp (by omega)

theorem held_eq {m : Machine} {location : Location} {a : UInt16}
    (ha : h.address? location = some a) : h.held m location = m.bus.read a := by
  cases location with
  | reg r => cases ha
  | zeroPage cell => cases ha; rfl
  | stack o => cases ha; rfl

/-- A location in memory is private. -/
theorem private_of_address (hfits : h.Fits) {v : VReg} {location : Location} {a : UInt16}
    (hv : h.locations[v.index]? = some location) (ha : h.address? location = some a) :
    h.IsCell a ∨ h.IsFrame a := by
  cases location with
  | reg r => cases ha
  | zeroPage cell => cases ha; exact .inl ⟨v, cell, hv, rfl⟩
  | stack o => cases ha; exact .inr ⟨o, (hfits.stack v o hv).2, rfl⟩

/-- Private places are in the first two pages of memory. -/
theorem low_of_private (hfits : h.Fits) {a : UInt16} (ha : h.IsCell a ∨ h.IsFrame a) :
    a.toNat < 0x200 := by
  rcases ha with ⟨v, cell, -, rfl⟩ | ⟨o, ho, rfl⟩
  · have := cell.toNat_lt
    rw [UInt8.toNat_toUInt16]
    omega
  · have hframe := hfits.frame
    have ho' : o.toNat < h.frameBytes.toNat := UInt8.lt_iff_toNat_lt.mp ho
    rw [toNat_frameAddress hfits ho]
    omega

theorem low_of_mem (hfits : h.Fits) {sp : UInt8} {a : UInt16} (ha : h.Private sp a) :
    a.toNat < 0x200 := by
  rcases ha with ha | ha | ha
  · exact low_of_private hfits (.inl ha)
  · exact low_of_private hfits (.inr ha)
  · have := sp.toNat_lt
    have := ha.2
    omega

/-- The free bytes of the stack are below the frame. -/
theorem not_free_of_private (hfits : h.Fits) {a : UInt16} (ha : h.IsCell a ∨ h.IsFrame a) {sp : UInt8}
    (hsp : sp ≤ h.base) : ¬ IsFree sp a := by
  have hsp' : sp.toNat ≤ h.base.toNat := UInt8.le_iff_toNat_le.mp hsp
  unfold IsFree
  rcases ha with ⟨v, cell, -, rfl⟩ | ⟨o, ho, rfl⟩
  · have := cell.toNat_lt
    rw [UInt8.toNat_toUInt16]
    omega
  · rw [toNat_frameAddress hfits ho]
    omega

/-- Different locations in memory have different addresses. -/
theorem address_inj (hfits : h.Fits) {v w : VReg} {l l' : Location} {a : UInt16}
    (hv : h.locations[v.index]? = some l) (hw : h.locations[w.index]? = some l')
    (ha : h.address? l = some a) (ha' : h.address? l' = some a) : l = l' := by
  cases l with
  | reg r => cases ha
  | zeroPage cell =>
    cases ha
    cases l' with
    | reg r => cases ha'
    | zeroPage cell' =>
      have := congrArg UInt16.toNat (Option.some.inj ha')
      rw [UInt8.toNat_toUInt16, UInt8.toNat_toUInt16] at this
      rw [UInt8.toNat_inj.mp this]
    | stack o =>
      have := congrArg UInt16.toNat (Option.some.inj ha')
      have hcell := cell.toNat_lt
      rw [toNat_frameAddress hfits (hfits.stack w o hw).2, UInt8.toNat_toUInt16] at this
      omega
  | stack o =>
    cases ha
    cases l' with
    | reg r => cases ha'
    | zeroPage cell' =>
      have := congrArg UInt16.toNat (Option.some.inj ha')
      have hcell := cell'.toNat_lt
      rw [toNat_frameAddress hfits (hfits.stack v o hv).2, UInt8.toNat_toUInt16] at this
      omega
    | stack o' =>
      rw [frameAddress_inj hfits (hfits.stack v o hv).2 (hfits.stack w o' hw).2
        (Option.some.inj ha').symm]

end House

/-! ### The relation -/

/-- **What is live is held in its location**, and memory agrees outside the private places. -/
structure Housed (h : House) (live : Item → Prop) (s : Store) (m : Machine) : Prop where
  regs : Agree live s.regs m.regs
  bus : SameBus (h.Private s.regs.sp) s.machine.bus m.bus
  low : ∀ a : UInt16, a.toNat < 0x200 → Plain m.bus a
  sp : s.regs.sp ≤ h.base
  cells : ∀ (v : VReg) (location : Location), live (.vreg v) →
    h.locations[v.index]? = some location → s.cells v = h.held m location
  frame : ∀ o, o < h.locals → s.frame o = m.bus.read (h.frameAddress o)

variable {h : House} {live wanted : Item → Prop} {s s' : Store} {m : Machine} {op : Opcode}
  {operand : Operand} {t : EffectiveOperand}

/-- The store that a machine houses: what it holds in the locations and in the frame. -/
def House.storeOf (h : House) (m : Machine) : Store where
  machine := m
  cells v := (h.locations[v.index]?.map (h.held m)).getD 0
  frame o := m.bus.read (h.frameAddress o)

/-- **Every machine houses a store.** -/
theorem housed_storeOf (hlow : ∀ a : UInt16, a.toNat < 0x200 → Plain m.bus a)
    (hsp : m.regs.sp ≤ h.base) : Housed h live (h.storeOf m) m where
  regs := ⟨rfl, rfl, fun _ => rfl, fun _ => rfl, rfl, rfl, rfl, rfl, fun _ => rfl, fun _ => rfl⟩
  bus := ⟨rfl, rfl, rfl, rfl, rfl, rfl, fun _ _ => rfl⟩
  low := hlow
  sp := hsp
  cells v location _ hlocation := by simp [House.storeOf, hlocation]
  frame _ _ := rfl

theorem Housed.mono (hs : Housed h live s m) (hsub : ∀ item, wanted item → live item) :
    Housed h wanted s m :=
  { hs with
    regs := hs.regs.weaken (hsub _) (hsub _) (hsub _)
    cells := fun v location hv => hs.cells v location (hsub _ hv) }

/-- New registers on the same memory. -/
theorem Housed.update {m' : Machine} (hs : Housed h live s m)
    (hregs : Agree wanted s'.regs m'.regs) (hsp : s'.regs.sp = s.regs.sp)
    (hbus : s'.machine.bus = s.machine.bus) (hbus' : m'.bus = m.bus) (hframe : s'.frame = s.frame)
    (hcells : ∀ (v : VReg) (location : Location), wanted (.vreg v) →
      h.locations[v.index]? = some location → s'.cells v = h.held m' location) :
    Housed h wanted s' m' where
  regs := hregs
  bus := by rw [hsp, hbus, hbus']; exact hs.bus
  low := by rw [hbus']; exact hs.low
  sp := by rw [hsp]; exact hs.sp
  cells := hcells
  frame := by rw [hframe, hbus']; exact hs.frame

/-! ### Instructions in both codes -/

/-- What a location in memory holds depends on memory only. -/
theorem held_congr {m' : Machine} {location : Location}
    (hreg : ∀ r, location = .reg r → regValue m'.regs r = regValue m.regs r)
    (hmemory : ∀ a, h.address? location = some a → m'.bus.read a = m.bus.read a) :
    h.held m' location = h.held m location := by
  cases location with
  | reg r => exact hreg r rfl
  | zeroPage cell => exact hmemory _ rfl
  | stack o => exact hmemory _ rfl

/-- **An instruction that stands in both codes** and does not touch private places. -/
theorem Housed.execute (hfits : h.Fits) (hs : Housed h live s m) (hcalm : IsCalm op)
    (hread : s.machine.readOperand t = m.readOperand t)
    (hwrite : op.writesMemory = true → ∀ a, t = .address a → ¬ h.Private s.regs.sp a)
    (hfollows : Follows live wanted (op.effects operand))
    (hcells : ∀ (v : VReg) (location : Location), wanted (.vreg v) →
      h.locations[v.index]? = some location → live (.vreg v) ∧
        ∀ r, location = .reg r → regValue (m.execute op t).regs r = regValue m.regs r) :
    Housed h wanted { s with machine := s.machine.execute op t } (m.execute op t) := by
  have hbus : SameBus (h.Private s.regs.sp) (s.machine.execute op t).bus (m.execute op t).bus ∧
      (∀ a, Plain (m.execute op t).bus a ↔ Plain m.bus a) ∧
      ∀ a, h.IsCell a ∨ h.IsFrame a → (m.execute op t).bus.read a = m.bus.read a := by
    by_cases hstores : op.writesMemory = true ∧ ∃ a, t = .address a
    · obtain ⟨hop, a, rfl⟩ := hstores
      have hoff := hwrite hop a rfl
      have hstored : (cellOp op s.machine.regs (s.machine.bus.read a)).2 =
          (cellOp op m.regs (m.bus.read a)).2 := by
        rw [show s.machine.bus.read a = m.bus.read a from hread]
        exact agree_stored operand hop hs.regs hfollows.readsX hfollows.readsY _
      rw [cellOp_stored hop, cellOp_stored hop, hstored]
      refine ⟨hs.bus.write a _, fun c => by simp [Plain], fun c hc => ?_⟩
      refine read_write_of_ne (hs.low c (House.low_of_private hfits hc)) (fun heq => hoff ?_) _
      rw [heq]
      exact hc.elim .inl fun hframe => .inr (.inl hframe)
    · have hnone : op.writesMemory = false ∨ ∀ a, t ≠ .address a := by
        rw [not_and_or, not_exists, Bool.not_eq_true] at hstores
        exact hstores
      rw [execute_bus hcalm _ hnone, execute_bus hcalm _ hnone]
      exact ⟨hs.bus, fun _ => Iff.rfl, fun _ _ => rfl⟩
  obtain ⟨hsame, hplain, hprivate⟩ := hbus
  have hsp : (s.machine.execute op t).regs.sp = s.regs.sp := execute_sp hcalm ..
  refine ⟨agree_execute operand hcalm hs.regs hread Iff.rfl hfollows, ?_, fun a ha => ?_, ?_,
    fun v location hv hlocation => ?_, fun o ho => ?_⟩
  · change SameBus (h.Private (s.machine.execute op t).regs.sp) _ _
    rw [hsp]
    exact hsame
  · exact (hplain a).mpr (hs.low a ha)
  · change (s.machine.execute op t).regs.sp ≤ h.base
    rw [hsp]
    exact hs.sp
  · obtain ⟨hlive, hreg⟩ := hcells v location hv hlocation
    rw [held_congr hreg fun a ha => hprivate a (House.private_of_address hfits hlocation ha)]
    exact hs.cells v location hlive hlocation
  · rw [hprivate _ (.inr ⟨o, UInt8.lt_of_lt_of_le ho hfits.locals, rfl⟩)]
    exact hs.frame o ho

theorem toNat_stackAddress (sp : UInt8) : (Machine.stackAddress sp).toNat = 0x0100 + sp.toNat := by
  have hor := Nat.two_pow_add_eq_or_of_lt sp.toNat_lt 1
  unfold Machine.stackAddress
  rw [UInt16.toNat_or, UInt8.toNat_toUInt16]
  exact hor.symm

theorem low_stackAddress (sp : UInt8) : (Machine.stackAddress sp).toNat < 0x200 := by
  have := sp.toNat_lt
  rw [toNat_stackAddress]
  omega

/-- A write to a free byte of the stack does not change what is held elsewhere. -/
theorem read_write_free (hfits : h.Fits) (hs : Housed h live s m) {sp : UInt8} (hsp : sp ≤ h.base)
    {a : UInt16} (ha : h.IsCell a ∨ h.IsFrame a) (byte : UInt8) :
    (m.bus.write (Machine.stackAddress sp) byte).read a = m.bus.read a := by
  refine read_write_of_ne (hs.low a (House.low_of_private hfits ha)) (fun heq => ?_) byte
  refine House.not_free_of_private hfits ha hsp ?_
  unfold House.IsFree
  rw [← heq, toNat_stackAddress]
  omega

/-- **The same byte is pushed** in both codes. -/
theorem Housed.push (hfits : h.Fits) (hs : Housed h live s m) (hsp : 0 < s.regs.sp) (byte : UInt8) :
    Housed h live { s with machine := s.machine.push byte } (m.push byte) := by
  have hequal : m.regs.sp = s.regs.sp := hs.regs.sp.symm
  have hpos : 0 < s.regs.sp.toNat := UInt8.lt_iff_toNat_lt.mp hsp
  have hbase : s.regs.sp.toNat ≤ h.base.toNat := UInt8.le_iff_toNat_le.mp hs.sp
  have hnext : (s.regs.sp - 1).toNat = s.regs.sp.toNat - 1 := by
    have hone : (1 : UInt8) ≤ s.regs.sp := UInt8.le_iff_toNat_le.mpr hpos
    rw [UInt8.toNat_sub_of_le _ _ hone, UInt8.toNat_one]
  refine ⟨{ hs.regs with sp := ?_ }, ?_, fun a ha => ?_, ?_, fun v location hv hlocation => ?_,
    fun o ho => ?_⟩
  · change s.regs.sp - 1 = m.regs.sp - 1
    rw [hequal]
  · change SameBus (h.Private (s.regs.sp - 1)) (s.machine.bus.write (Machine.stackAddress s.regs.sp) byte)
      (m.bus.write (Machine.stackAddress m.regs.sp) byte)
    rw [hequal]
    refine hs.bus.write_shared (hs.low _ (low_stackAddress _)) byte fun d hd hne => ?_
    refine hd.imp_right fun hd => hd.imp_right fun hfree => ⟨hfree.1, ?_⟩
    have hne' : d.toNat ≠ 0x0100 + s.regs.sp.toNat := fun heq =>
      hne (UInt16.toNat_inj.mp (by rw [heq, toNat_stackAddress]))
    have := hfree.2
    omega
  · simpa [Machine.push, Plain] using hs.low a ha
  · refine UInt8.le_iff_toNat_le.mpr ?_
    change (s.regs.sp - 1).toNat ≤ _
    omega
  · rw [hs.cells v location hv hlocation]
    symm
    refine held_congr (fun r _ => by cases r <;> rfl) fun a ha => ?_
    refine read_write_free hfits hs ?_ (House.private_of_address hfits hlocation ha) byte
    rw [hequal]
    exact hs.sp
  · rw [hs.frame o ho]
    symm
    refine read_write_free hfits hs ?_ (.inr ⟨o, UInt8.lt_of_lt_of_le ho hfits.locals, rfl⟩) byte
    rw [hequal]
    exact hs.sp

/-- **The same byte is pulled** in both codes. -/
theorem Housed.pull (hfits : h.Fits) (hs : Housed h live s m) (hsp : s.regs.sp < h.base) :
    s.machine.pull.1 = m.pull.1 ∧
      Housed h live { s with machine := s.machine.pull.2 } m.pull.2 := by
  have hequal : m.regs.sp = s.regs.sp := hs.regs.sp.symm
  have hlt : s.regs.sp.toNat < h.base.toNat := UInt8.lt_iff_toNat_lt.mp hsp
  have hnext : (s.regs.sp + 1).toNat = s.regs.sp.toNat + 1 := by
    have := h.base.toNat_lt
    rw [UInt8.toNat_add, UInt8.toNat_one]
    omega
  constructor
  · change s.machine.bus.read (Machine.stackAddress (s.regs.sp + 1)) =
      m.bus.read (Machine.stackAddress (m.regs.sp + 1))
    rw [hequal]
    refine hs.bus.read ?_
    have haddress := toNat_stackAddress (s.regs.sp + 1)
    rintro (⟨v, cell, -, heq⟩ | ⟨o, ho, heq⟩ | hfree)
    · have := cell.toNat_lt
      rw [heq, UInt8.toNat_toUInt16] at haddress
      omega
    · rw [heq, House.toNat_frameAddress hfits ho] at haddress
      omega
    · have := hfree.2
      omega
  · refine ⟨{ hs.regs with sp := ?_ }, ?_, hs.low, ?_, fun v location hv hlocation => ?_, hs.frame⟩
    · change s.regs.sp + 1 = m.regs.sp + 1
      rw [hequal]
    · refine hs.bus.mono fun d hd => ?_
      refine hd.imp_right fun hd => hd.imp_right fun hfree => ⟨hfree.1, ?_⟩
      have := hfree.2
      change d.toNat ≤ 0x0100 + (s.regs.sp + 1).toNat
      omega
    · refine UInt8.le_iff_toNat_le.mpr ?_
      change (s.regs.sp + 1).toNat ≤ _
      omega
    · rw [hs.cells v location hv hlocation]
      exact (held_congr (fun r _ => by cases r <;> rfl) fun _ _ => rfl).symm

theorem Housed.pha (hfits : h.Fits) (hs : Housed h live s m) (hsp : 0 < s.regs.sp) :
    Housed h live { s with machine := s.machine.execute .pha .none } (m.execute .pha .none) := by
  have hpush := hs.push hfits hsp s.regs.a
  rw [show (m.push s.regs.a) = m.push m.regs.a by rw [hs.regs.a]] at hpush
  exact hpush

theorem Housed.php (hfits : h.Fits) (hs : Housed h live s m) (hsp : 0 < s.regs.sp)
    (hnz : live .nz) :
    Housed h live { s with machine := s.machine.execute .php .none } (m.execute .php .none) := by
  have hstatus : s.regs.pushedStatus = m.regs.pushedStatus := by
    refine pushedStatus_eq fun f hf => ?_
    cases f
    case n => exact hs.regs.negative hnz
    case v => exact hs.regs.overflow
    case unused => exact absurd rfl hf.2
    case brk => exact absurd rfl hf.1
    case d => exact hs.regs.decimal
    case i => exact hs.regs.interrupt
    case z => exact hs.regs.zero hnz
    case c => exact hs.regs.carry
  have hpush := hs.push hfits hsp s.regs.pushedStatus
  rw [show m.push s.regs.pushedStatus = m.push m.regs.pushedStatus by rw [hstatus]] at hpush
  exact hpush

theorem Housed.pla (hfits : h.Fits) (hs : Housed h live s m) (hsp : s.regs.sp < h.base)
    (hwanted : ∀ item, wanted item → live item ∨ item = .reg .a ∨ item = .nz)
    (hcells : ∀ v : VReg, wanted (.vreg v) → h.locations[v.index]? ≠ some (.reg .a)) :
    Housed h wanted { s with machine := s.machine.execute .pla .none } (m.execute .pla .none) := by
  obtain ⟨hbyte, hpulled⟩ := hs.pull hfits hsp
  refine hpulled.update ?_ rfl rfl rfl rfl
    fun v location hv hlocation => ?_
  · change Agree wanted (s.machine.pull.2.regs.loadA s.machine.pull.1)
      (m.pull.2.regs.loadA m.pull.1)
    rw [hbyte]
    exact (hpulled.regs.loadA _).weaken (fun hw => .inl ((hwanted _ hw).resolve_right (by simp)))
      (fun hw => .inl ((hwanted _ hw).resolve_right (by simp))) fun _ => .inr rfl
  · have hlive : live (.vreg v) := (hwanted _ hv).resolve_right (by simp)
    refine (hpulled.cells v location hlive hlocation).trans ?_
    symm
    refine held_congr (fun r hr => ?_) fun _ _ => rfl
    cases r with
    | a => exact absurd (hr ▸ hlocation) (hcells v hv)
    | x => rfl
    | y => rfl

theorem Housed.plp (hfits : h.Fits) (hs : Housed h live s m) (hsp : s.regs.sp < h.base)
    (hwanted : ∀ item, wanted item → live item ∨ item = .nz ∨ item = .carry) :
    Housed h wanted { s with machine := s.machine.execute .plp .none } (m.execute .plp .none) := by
  obtain ⟨hbyte, hpulled⟩ := hs.pull hfits hsp
  refine hpulled.update ?_ rfl rfl rfl rfl
    fun v location hv hlocation => ?_
  · change Agree wanted
      { s.machine.pull.2.regs with p := Registers.pulledStatus s.machine.pull.1 }
      { m.pull.2.regs with p := Registers.pulledStatus m.pull.1 }
    rw [hbyte]
    exact { hpulled.regs with
      x := fun hw => hpulled.regs.x ((hwanted _ hw).resolve_right (by simp))
      y := fun hw => hpulled.regs.y ((hwanted _ hw).resolve_right (by simp))
      carry := rfl
      overflow := rfl
      decimal := rfl
      interrupt := rfl
      negative := fun _ => rfl
      zero := fun _ => rfl }
  · have hlive : live (.vreg v) := (hwanted _ hv).resolve_right (by simp)
    refine (hpulled.cells v location hlive hlocation).trans ?_
    symm
    exact held_congr (fun r _ => by cases r <;> rfl) fun _ _ => rfl

/-! ### Accesses to private bytes -/

/-- What memory holds after an instruction on a private byte. -/
theorem Housed.read_access (hfits : h.Fits) (hs : Housed h live s m) (hcalm : IsCalm op)
    {a : UInt16} (ha : h.IsCell a ∨ h.IsFrame a)
    (hx : (op.effects operand).reads.x = true → live (.reg .x))
    (hy : (op.effects operand).reads.y = true → live (.reg .y)) (c : UInt16) :
    (m.execute op (.address a)).bus.read c =
      if a = c then (cellOp op s.regs (m.bus.read a)).2 else m.bus.read c := by
  have hplain := hs.low a (House.low_of_private hfits ha)
  cases hwrites : op.writesMemory with
  | true =>
    rw [cellOp_stored hwrites, read_write hplain,
      agree_stored operand hwrites hs.regs hx hy (m.bus.read a)]
  | false =>
    rw [execute_bus hcalm _ (.inl hwrites), cellOp_kept hcalm hwrites]
    split_ifs with hac
    · rw [hac]
    · rfl

/-- **An access to a private byte** becomes the same instruction on its address. -/
theorem Housed.access (hfits : h.Fits) (hs : Housed h live s m) (hcalm : IsCalm op) {a : UInt16}
    (ha : h.IsCell a ∨ h.IsFrame a) (hfollows : Follows live wanted (op.effects operand))
    (hregs : s'.regs = (cellOp op s.regs (m.bus.read a)).1)
    (hbus : s'.machine.bus = s.machine.bus)
    (hcells : ∀ (v : VReg) (location : Location), wanted (.vreg v) →
      h.locations[v.index]? = some location →
      s'.cells v = (cellOp op s.regs (m.bus.read a)).2 ∧ h.address? location = some a ∨
      s'.cells v = s.cells v ∧ live (.vreg v) ∧ h.address? location ≠ some a ∧
        ∀ r, location = .reg r → (op.effects operand).writes.contains r = false)
    (hframe : ∀ o, o < h.locals →
      s'.frame o = (cellOp op s.regs (m.bus.read a)).2 ∧ h.frameAddress o = a ∨
      s'.frame o = s.frame o ∧ h.frameAddress o ≠ a) :
    Housed h wanted s' (m.execute op (.address a)) := by
  have hread := hs.read_access hfits hcalm ha hfollows.readsX hfollows.readsY
  have hplain := hs.low a (House.low_of_private hfits ha)
  have hsp : s'.regs.sp = s.regs.sp := by
    rw [hregs]
    exact execute_sp hcalm (alone s.regs (m.bus.read a)) _
  refine ⟨?_, ?_, fun c hc => ?_, by rw [hsp]; exact hs.sp, fun v location hv hlocation => ?_,
    fun o ho => ?_⟩
  · rw [hregs]
    exact agree_execute (m := alone s.regs (m.bus.read a)) operand hcalm hs.regs
      (read_alone ..) (by simp) hfollows
  · rw [hsp, hbus]
    cases hwrites : op.writesMemory with
    | true =>
      rw [cellOp_stored hwrites]
      exact hs.bus.write_right (ha.imp_right .inl) hplain _
    | false =>
      rw [execute_bus hcalm _ (.inl hwrites)]
      exact hs.bus
  · cases hwrites : op.writesMemory with
    | true => rw [cellOp_stored hwrites]; simpa [Plain] using hs.low c hc
    | false => rw [execute_bus hcalm _ (.inl hwrites)]; exact hs.low c hc
  · rcases hcells v location hv hlocation with ⟨hcell, haddress⟩ | ⟨hcell, hlive, hother, hkeep⟩
    · rw [hcell, House.held_eq haddress, hread, if_pos rfl]
    · rw [hcell, hs.cells v location hlive hlocation]
      symm
      refine held_congr (fun r hr => ?_) fun c hc => ?_
      · exact execute_keeps operand hcalm.1 m (by simp) (hkeep r hr)
      · rw [hread, if_neg]
        rintro rfl
        exact hother hc
  · rcases hframe o ho with ⟨hbyte, haddress⟩ | ⟨hbyte, hother⟩
    · rw [hbyte, hread, if_pos haddress.symm]
    · rw [hbyte, hread, if_neg (Ne.symm hother)]
      exact hs.frame o ho

/-- X is loaded from the stack pointer. -/
theorem Housed.tsx (hs : Housed h live s m)
    (hx : ∀ v : VReg, h.locations[v.index]? ≠ some (.reg .x)) :
    Housed h (fun item => (live item ∧ item ≠ .reg .x) ∧ item ≠ .nz) s (m.execute .tsx .none) := by
  refine hs.update (hs.regs.loadX_right m.regs.sp) rfl rfl rfl rfl fun v location hv hlocation => ?_
  rw [hs.cells v location hv.1.1 hlocation]
  symm
  refine held_congr (fun r hr => ?_) fun _ _ => rfl
  cases r with
  | a => rfl
  | x => exact absurd (hr ▸ hlocation) (hx v)
  | y => rfl

/-- A write to the free byte of the stack that is next. -/
theorem Housed.write_free (hfits : h.Fits) (hs : Housed h live s m) (byte : UInt8) :
    Housed h live s { m with bus := m.bus.write (Machine.stackAddress s.regs.sp) byte } := by
  have hlow := hs.low _ (low_stackAddress s.regs.sp)
  have hfree : House.IsFree s.regs.sp (Machine.stackAddress s.regs.sp) := by
    unfold House.IsFree
    rw [toNat_stackAddress]
    omega
  refine ⟨hs.regs, hs.bus.write_right (.inr (.inr hfree)) hlow byte, fun a ha => ?_, hs.sp,
    fun v location hv hlocation => ?_, fun o ho => ?_⟩
  · simpa [Plain] using hs.low a ha
  · rw [hs.cells v location hv hlocation]
    symm
    exact held_congr (fun _ _ => rfl) fun a ha =>
      read_write_free hfits hs hs.sp (House.private_of_address hfits hlocation ha) byte
  · rw [hs.frame o ho]
    symm
    exact read_write_free hfits hs hs.sp (.inr ⟨o, UInt8.lt_of_lt_of_le ho hfits.locals, rfl⟩) byte

/-- The machine after a store with the flags saved around it. -/
def saved (m : Machine) (a : UInt16) : Machine :=
  (((m.execute .php .none).execute .tsx .none).execute .sta (.address a)).execute .plp .none

/-- The registers after a store with the flags saved: X has changed, and the real flags are those
from before. -/
theorem regs_saved (hfits : h.Fits) (hs : Housed h live s m) {a : UInt16}
    (ha : h.IsCell a ∨ h.IsFrame a) :
    (saved m a).regs = { m.regs with
      x := m.regs.sp - 1
      p := Registers.pulledStatus m.regs.pushedStatus } := by
  have hsp : m.regs.sp - 1 + 1 = m.regs.sp := UInt8.sub_add_cancel ..
  have hbase : m.regs.sp ≤ h.base := hs.regs.sp ▸ hs.sp
  have hfree : Plain m.bus (Machine.stackAddress m.regs.sp) := hs.low _ (low_stackAddress _)
  have hne : a ≠ Machine.stackAddress m.regs.sp := by
    rintro rfl
    refine House.not_free_of_private hfits ha hbase ?_
    unfold House.IsFree
    rw [toNat_stackAddress]
    omega
  have hbyte : ((m.bus.write (Machine.stackAddress m.regs.sp) m.regs.pushedStatus).write a
      m.regs.a).read (Machine.stackAddress m.regs.sp) = m.regs.pushedStatus := by
    rw [read_write_of_ne (by simpa [Plain] using hfree) hne, read_write hfree, if_pos rfl]
  change ({ m.regs with
    x := m.regs.sp - 1
    sp := m.regs.sp - 1 + 1
    p := Registers.pulledStatus (((m.bus.write (Machine.stackAddress m.regs.sp)
      m.regs.pushedStatus).write a m.regs.a).read
        (Machine.stackAddress (m.regs.sp - 1 + 1))) } : Registers) = _
  rw [hsp, hbyte]

/-- **A store with the flags saved around it** does what the store does, X and its flags apart. -/
theorem Housed.saving (hfits : h.Fits) (hs : Housed h live s m)
    (hx : ∀ v : VReg, h.locations[v.index]? ≠ some (.reg .x)) {a : UInt16}
    (ha : h.IsCell a ∨ h.IsFrame a)
    (hstored : ∀ m' : Machine, m'.regs = m.regs → m'.bus.read a = m.bus.read a →
      Housed h live s m' → Housed h wanted s' (m'.execute .sta (.address a))) :
    Housed h (fun item => wanted item ∧ item ≠ .reg .x) s' (saved m a) := by
  have hregs := regs_saved hfits hs ha
  have hread := read_write_free hfits hs hs.sp ha m.regs.pushedStatus
  have hplain := hstored { m with
    bus := m.bus.write (Machine.stackAddress s.regs.sp) m.regs.pushedStatus } rfl hread
    (hs.write_free hfits _)
  have hflag : ∀ f, IsReal f → (saved m a).regs.flag f = m.regs.flag f := fun f hf => by
    rw [hregs]
    exact flag_pulled_pushed m.regs { m.regs with x := m.regs.sp - 1 } hf
  have hagree : Agree wanted s'.regs m.regs := hplain.regs
  refine hplain.update ?_ rfl rfl ?_ rfl fun v location hv hlocation => ?_
  · refine { hagree with
      a := by rw [hregs]; exact hagree.a
      sp := by rw [hregs]; exact hagree.sp
      x := fun hx => absurd rfl hx.2
      y := fun hy => by rw [hregs]; exact hagree.y hy.1
      carry := by rw [hflag .c (by decide)]; exact hagree.carry
      overflow := by rw [hflag .v (by decide)]; exact hagree.overflow
      decimal := by rw [hflag .d (by decide)]; exact hagree.decimal
      interrupt := by rw [hflag .i (by decide)]; exact hagree.interrupt
      negative := fun hnz => by rw [hflag .n (by decide)]; exact hagree.negative hnz.1
      zero := fun hnz => by rw [hflag .z (by decide)]; exact hagree.zero hnz.1 }
  · rw [show s.regs.sp = m.regs.sp from hs.regs.sp]
    rfl
  · rw [hplain.cells v location hv.1 hlocation]
    symm
    refine held_congr (fun r hr => ?_) fun c _ => ?_
    · rw [hregs]
      cases r with
      | a => rfl
      | x => exact absurd (hr ▸ hlocation) (hx v)
      | y => rfl
    · rw [show s.regs.sp = m.regs.sp from hs.regs.sp]
      rfl

/-! ### Values in registers -/

variable {v : VReg} {r : Register}

/-- The transfer to an index register. -/
def toIndex : Register → Opcode
  | .y => .tay
  | _ => .tax

/-- The transfer from an index register. -/
def fromIndex : Register → Opcode
  | .y => .tya
  | _ => .txa

/-- **A load of a value that is in the accumulator** disappears. -/
theorem Housed.load_held (hs : Housed h live s m) (hv : s.cells v = m.regs.a)
    (hwanted : ∀ item, wanted item → live item ∨ item = .reg .a) (hnz : ¬ wanted .nz) :
    Housed h wanted (s.setRegs (s.regs.loadA (s.cells v))) m := by
  refine hs.update ⟨hv, hs.regs.sp, fun hw => hs.regs.x ((hwanted _ hw).resolve_right (by simp)),
    fun hw => hs.regs.y ((hwanted _ hw).resolve_right (by simp)), ?_, ?_, ?_, ?_,
    fun hw => absurd hw hnz, fun hw => absurd hw hnz⟩ rfl rfl rfl rfl fun w location hw hlocation => ?_
  · exact (flag_setNZ ..).trans hs.regs.carry
  · exact (flag_setNZ ..).trans hs.regs.overflow
  · exact (flag_setNZ ..).trans hs.regs.decimal
  · exact (flag_setNZ ..).trans hs.regs.interrupt
  · exact hs.cells w location ((hwanted _ hw).resolve_right (by simp)) hlocation

/-- **A store of a value that is in the accumulator** disappears. -/
theorem Housed.store_held (hs : Housed h live s m) (hv : h.locations[v.index]? = some (.reg .a))
    (hwanted : ∀ item, wanted item → live item ∨ item = .vreg v) :
    Housed h wanted (s.setCell v s.regs.a) m := by
  refine hs.update (hs.regs.weaken (fun hw => (hwanted _ hw).resolve_right (by simp))
    (fun hw => (hwanted _ hw).resolve_right (by simp))
    fun hw => (hwanted _ hw).resolve_right (by simp)) rfl rfl rfl rfl fun w location hw hlocation => ?_
  by_cases hvw : w = v
  · subst hvw
    rw [hv] at hlocation
    cases hlocation
    exact (Function.update_self ..).trans hs.regs.a
  · refine (Function.update_of_ne hvw ..).trans (hs.cells w location ?_ hlocation)
    exact (hwanted _ hw).resolve_right (by simpa using hvw)

/-- **A load of a value in an index register** becomes a transfer. -/
theorem Housed.load_index (hs : Housed h live s m) (hr : r ≠ .a) (hv : s.cells v = regValue m.regs r)
    (hwanted : ∀ item, wanted item → live item ∨ item = .reg .a ∨ item = .nz)
    (hcells : ∀ w : VReg, wanted (.vreg w) → h.locations[w.index]? ≠ some (.reg .a)) :
    Housed h wanted (s.setRegs (s.regs.loadA (s.cells v))) (m.execute (fromIndex r) .none) := by
  have hregs : (m.execute (fromIndex r) .none).regs = m.regs.loadA (regValue m.regs r) := by
    cases r <;> first | exact absurd rfl hr | rfl
  have hbus : (m.execute (fromIndex r) .none).bus = m.bus := by cases r <;> rfl
  refine hs.update ?_ rfl rfl hbus rfl fun w location hw hlocation => ?_
  · rw [hregs, hv]
    exact (hs.regs.loadA _).weaken (fun hw => .inl ((hwanted _ hw).resolve_right (by simp)))
      (fun hw => .inl ((hwanted _ hw).resolve_right (by simp))) fun _ => .inr rfl
  · refine (hs.cells w location ((hwanted _ hw).resolve_right (by simp)) hlocation).trans ?_
    symm
    refine held_congr (fun q hq => ?_) fun c _ => by rw [hbus]
    rw [hregs]
    cases q with
    | a => exact absurd (hq ▸ hlocation) (hcells w hw)
    | x => rfl
    | y => rfl

/-- **A store of a value in an index register** becomes a transfer. -/
theorem Housed.store_index (hs : Housed h live s m) (hr : r ≠ .a)
    (hv : h.locations[v.index]? = some (.reg r))
    (hwanted : ∀ item, wanted item → live item ∨ item = .vreg v) (hnz : ¬ wanted .nz)
    (hindex : ¬ wanted (.reg r))
    (hcells : ∀ w : VReg, wanted (.vreg w) → w ≠ v → h.locations[w.index]? ≠ some (.reg r)) :
    Housed h wanted (s.setCell v s.regs.a) (m.execute (toIndex r) .none) := by
  have hbus : (m.execute (toIndex r) .none).bus = m.bus := by cases r <;> rfl
  have hagree : Agree wanted s.regs (m.execute (toIndex r) .none).regs := by
    cases r with
    | a => exact absurd rfl hr
    | x =>
      exact (hs.regs.loadX_right m.regs.a).weaken (fun hw => absurd hw hindex)
        (fun hw => ⟨⟨(hwanted _ hw).resolve_right (by simp), by simp⟩, by simp⟩)
        fun hw => absurd hw hnz
    | y =>
      exact (hs.regs.loadY_right m.regs.a).weaken
        (fun hw => ⟨⟨(hwanted _ hw).resolve_right (by simp), by simp⟩, by simp⟩)
        (fun hw => absurd hw hindex) fun hw => absurd hw hnz
  refine hs.update hagree rfl rfl hbus rfl fun w location hw hlocation => ?_
  by_cases hvw : w = v
  · subst hvw
    rw [hv] at hlocation
    cases hlocation
    refine (Function.update_self ..).trans (hs.regs.a.trans ?_)
    cases r <;> first | exact absurd rfl hr | rfl
  · refine (Function.update_of_ne hvw ..).trans ((hs.cells w location
      ((hwanted _ hw).resolve_right (by simpa using hvw)) hlocation).trans ?_)
    symm
    refine held_congr (fun q hq => ?_) fun c _ => by rw [hbus]
    have hqr : q ≠ r := fun heq => hcells w hw hvw (by rw [hlocation, hq, heq])
    cases r <;> cases q <;> first | exact absurd rfl hr | exact absurd rfl hqr | rfl

/-! ### Calls -/

/-- The memory after a call; its bytes are spelled out as a property only. -/
theorem bus_answered (ans : Answer) (m : Machine) : ∃ ram : Ram,
    (ans.apply m).bus = { m.bus with ram, selected := ans.bank } ∧
      ∀ a, ram.get a = (ans.memory a).getD (m.bus.ram.get a) :=
  ⟨_, rfl, fun a => get_ofFn _ a.toFin⟩

theorem regs_answered (ans : Answer) (m : Machine) : (ans.apply m).regs =
    { m.regs with a := ans.a, x := ans.x, y := ans.y, p := ans.p } := rfl

theorem plain_answered (ans : Answer) (m : Machine) (a : UInt16) :
    Plain (ans.apply m).bus a ↔ Plain m.bus a := by
  obtain ⟨ram, hbus, -⟩ := bus_answered ans m
  rw [hbus]
  exact Iff.rfl

theorem read_answered {ans : Answer} {m : Machine} {a : UInt16} (hplain : Plain m.bus a)
    (ha : ans.memory a = none) : (ans.apply m).bus.read a = m.bus.read a := by
  obtain ⟨ram, hbus, hram⟩ := bus_answered ans m
  rw [read_plain ((plain_answered ..).mpr hplain), read_plain hplain, hbus]
  dsimp only
  rw [hram, ha]
  rfl

theorem sameBus_answered {apart : UInt16 → Prop} {m m' : Machine} (ans : Answer)
    (hbus : SameBus apart m.bus m'.bus) : SameBus apart (ans.apply m).bus (ans.apply m').bus := by
  obtain ⟨ram, hram, hget⟩ := bus_answered ans m
  obtain ⟨ram', hram', hget'⟩ := bus_answered ans m'
  rw [hram, hram']
  refine { hbus with selected := rfl, ram := fun a ha => ?_ }
  dsimp only
  rw [hget, hget', hbus.ram a ha]

/-- **A call does the same in both codes** if it leaves the frame and the cells of live values alone
and no live value is in a register. -/
theorem Housed.answer (hfits : h.Fits) (hs : Housed h live s m) (ans : Answer)
    (hcells : ∀ (v : VReg) (location : Location), wanted (.vreg v) →
      h.locations[v.index]? = some location → live (.vreg v) ∧ (∀ r, location ≠ .reg r) ∧
        ∀ a, h.address? location = some a → ans.memory a = none)
    (hframe : ∀ a, h.IsFrame a → ans.memory a = none) :
    Housed h wanted { s with machine := ans.apply s.machine } (ans.apply m) := by
  have hsp : (ans.apply s.machine).regs.sp = s.regs.sp := by rw [regs_answered]; rfl
  refine ⟨?_, ?_, fun a ha => (plain_answered ..).mpr (hs.low a ha), ?_,
    fun v location hv hlocation => ?_, fun o ho => ?_⟩
  · change Agree wanted (ans.apply s.machine).regs (ans.apply m).regs
    rw [regs_answered, regs_answered]
    exact ⟨rfl, hs.regs.sp, fun _ => rfl, fun _ => rfl, rfl, rfl, rfl, rfl, fun _ => rfl,
      fun _ => rfl⟩
  · change SameBus (h.Private (ans.apply s.machine).regs.sp) (ans.apply s.machine).bus _
    rw [hsp]
    exact sameBus_answered ans hs.bus
  · change (ans.apply s.machine).regs.sp ≤ h.base
    rw [hsp]
    exact hs.sp
  · obtain ⟨hlive, hreg, hkept⟩ := hcells v location hv hlocation
    refine (hs.cells v location hlive hlocation).trans ?_
    symm
    refine held_congr (fun r hr => absurd hr (hreg r)) fun a ha => ?_
    exact read_answered
      (hs.low a (House.low_of_private hfits (House.private_of_address hfits hlocation ha)))
      (hkept a ha)
  · have hprivate : h.IsFrame (h.frameAddress o) :=
      ⟨o, UInt8.lt_of_lt_of_le ho hfits.locals, rfl⟩
    rw [read_answered (hs.low _ (House.low_of_private hfits (.inr hprivate))) (hframe _ hprivate)]
    exact hs.frame o ho

/-- **The stack is released** in both codes, up to the frame at most. -/
theorem Housed.release (hs : Housed h live s m) {sp : UInt8} (hle : s.regs.sp ≤ sp)
    (hbase : sp ≤ h.base) :
    Housed h live (s.setRegs { s.regs with sp }) { m with regs := { m.regs with sp } } := by
  have hle' : s.regs.sp.toNat ≤ sp.toNat := UInt8.le_iff_toNat_le.mp hle
  refine ⟨{ hs.regs with sp := rfl }, hs.bus.mono fun c hc => ?_, hs.low, hbase,
    fun v location hv hlocation => ?_, hs.frame⟩
  · refine hc.imp_right fun hc => hc.imp_right fun hfree => ⟨hfree.1, ?_⟩
    have := hfree.2
    change c.toNat ≤ 0x0100 + sp.toNat
    omega
  · refine (hs.cells v location hv hlocation).trans ?_
    symm
    exact held_congr (fun r _ => by cases r <;> rfl) fun _ _ => rfl

end Codegen6502.Proofs.Allocating.Housing
