import Codegen6502.Convention.Entry
import Codegen6502.Proofs.Selecting.Returning
import Codegen6502.Proofs.Routines.Trampolines

/-!
# From a caller to its callee and back

The code in front of a call hands arguments over in slots and on the stack, the call itself gets to
the callee with or without a switch of the bank, and the first lines of the callee take the
arguments in: `takes_in` puts the three together.  `gives_back` does the same for the way back, from
the code of a return and the exit sequence to the code behind the call.
-/

namespace Codegen6502.Proofs.Routines.Handover

open Selection Convention
open Processor.Memory Processor.LineRun Processor.Straight Processor.Fetching Processor.Stack
open Selecting.Tracking Selecting.Places Selecting.Moves Selecting.Reading Selecting.Numbering
open Selecting.Stacking Selecting.Bodies Selecting.Passing Selecting.Addresses Selecting.Handing
open Selecting.Incoming Selecting.Returning
open Switching Trampolines

variable {k : Linkage} {z : ZeroPage} {m m₁ m₂ m₃ : Machine} {callee : String} {kind : CallKind}

/-! ### The stack under other bytes -/

/-- What is on the stack under other bytes has not changed. -/
theorem above_of_append {b c : Bus} {sp sp' : UInt8} : ∀ {bytes : List UInt8},
    above c sp' = bytes ++ above b sp → above c sp = above b sp
  | [], h => by
    have hlength := congrArg List.length h
    rw [List.nil_append, length_above, length_above] at hlength
    obtain rfl : sp' = sp := by
      have := sp.toNat_lt
      have := sp'.toNat_lt
      exact UInt8.toNat_inj.mp (by omega)
    exact h
  | byte :: rest, h => by
    have hlt : sp' < 0xFF := by
      have hlength := congrArg List.length h
      rw [length_above, List.length_append, List.length_cons] at hlength
      exact UInt8.lt_iff_toNat_lt.mpr (by
        have : (0xFF : UInt8).toNat = 0xFF := rfl
        omega)
    rw [above_succ c hlt, List.cons_append] at h
    exact above_of_append (List.cons_eq_cons.mp h).2

/-- The same bytes above an offset. -/
theorem read_of_above {b c : Bus} {sp i : UInt8} (h : above c sp = above b sp) (hi : sp < i) :
    c.read (Machine.stackAddress i) = b.read (Machine.stackAddress i) := by
  have hmem : i.toNat ∈ List.range' (sp.toNat + 1) (0xFF - sp.toNat) := by
    have := UInt8.lt_iff_toNat_lt.mp hi
    have := i.toNat_lt
    exact List.mem_range'_1.mpr (by omega)
  have hread := List.map_inj_left.mp h i.toNat hmem
  rwa [UInt8.ofNat_toNat] at hread

/-! ### The call -/

/-- The bytes of the stack that it takes to get to a callee. -/
def callRoom : CallKind → ℕ
  | .direct => 2
  | .trampoline _ => 7

/-- A machine is about to make a call that stands in memory. -/
structure Calling (k : Linkage) (z : ZeroPage) (callee : String) (kind : CallKind) (m : Machine) :
    Prop where
  code : Lies k anywhere m.bus.read m.regs.pc (callCode callee kind)
  room : callRoom kind ≤ m.regs.sp.toNat
  /-- The trampoline of a bank stands in memory, and the copy of the bank register is right. -/
  support : ∀ bank, kind = .trampoline bank →
    Present k z (.trampoline bank) m.bus ∧ m.bus.read z.bankShadow.toUInt16 = m.bus.selected

/-- The state at the entry of the callee: the way back is on the stack. -/
structure Arrived (k : Linkage) (z : ZeroPage) (callee : String) (kind : CallKind) (m m₁ : Machine) :
    Prop where
  pc : m₁.regs.pc = k.symbol callee
  way : ∃ bytes, stack m₁ = bytes ++ stack m
  cells : ∀ cell ≠ z.bankShadow, m₁.bus.read cell.toUInt16 = m.bus.read cell.toUInt16
  kept : Kept (Low m.bus) m.bus m₁.bus

/-- A machine stands before the return of a function, with the bank of the function selected. -/
structure AtReturn (k : Linkage) (z : ZeroPage) (kind : CallKind) (m₂ : Machine) : Prop where
  rts : Lies k anywhere m₂.bus.read m₂.regs.pc [.bare .rts]
  support : ∀ bank, kind = .trampoline bank → m₂.bus.selected = bank ∧
    m₂.bus.read z.bankShadow.toUInt16 = bank ∧ Present k z .trampolineReturn m₂.bus

/-- A callee that was entered in a state stands before its return, with the stack as on entry. -/
structure Leaving (k : Linkage) (z : ZeroPage) (kind : CallKind) (m₁ m₂ : Machine) : Prop
    extends AtReturn k z kind m₂ where
  stack : stack m₂ = stack m₁
  sound : Sound m₂.bus

/-- The state behind a call: the stack is the caller's, the result registers are the callee's. -/
structure CameBack (callee : String) (kind : CallKind) (m m₂ m₃ : Machine) : Prop where
  pc : m₃.regs.pc = m.regs.pc + extent (callCode callee kind)
  stack : stack m₃ = stack m
  a : m₃.regs.a = m₂.regs.a
  x : m₃.regs.x = m₂.regs.x
  kept : Kept (Low m₂.bus) m₂.bus m₃.bus

theorem CameBack.sp (h : CameBack callee kind m m₂ m₃) : m₃.regs.sp = m.regs.sp :=
  sp_of_stack h.stack

/-- **A call, direct or through a trampoline,** gets to its callee, and a callee that leaves gets
back behind it. -/
theorem call_and_return (hsound : Sound m.bus) (hcall : Calling k z callee kind m) :
    ∃ n m₁, after n m = some m₁ ∧ Arrived k z callee kind m m₁ ∧
      ∀ m₂, Leaving k z kind m₁ m₂ →
        ∃ n' m₃, after n' m₂ = some m₃ ∧ CameBack callee kind m m₂ m₃ := by
  cases kind with
  | direct =>
    obtain ⟨m₁, hafter, hregs, hbus, hstack⟩ := after_jsr hsound hcall.room hcall.code
    refine ⟨1, m₁, hafter, ⟨by rw [hregs], ⟨_, hstack⟩, fun cell _ => ?_, ?_⟩, fun m₂ hleave => ?_⟩
    · rw [hbus]
      exact read_cell_pushWord hsound cell
    · rw [hbus]
      exact kept_pushWord
    · obtain ⟨m₃, hback, hregs₃, hbus₃, hstack₃⟩ := after_rts hleave.rts (hleave.stack.trans hstack)
      refine ⟨1, m₃, hback, ?_, hstack₃, by rw [hregs₃], by rw [hregs₃], hbus₃ ▸ .refl _⟩
      rw [hregs₃]
      change word (lowByte _) (highByte _) + 1 = m.regs.pc + 3
      rw [word_bytes, UInt16.add_assoc]
      rfl
  | trampoline bank =>
    obtain ⟨hpresent, hagree⟩ := hcall.support bank rfl
    have hcode : Lies k anywhere m.bus.read m.regs.pc (callLines callee bank ++ []) := hcall.code
    obtain ⟨m₁, hafter, hentered, hcells⟩ := enters_sparing hsound hpresent hcode hcall.room
    refine ⟨21, m₁, hafter, ⟨hentered.pc, ⟨_, hentered.stack⟩, hcells, hentered.kept⟩,
      fun m₂ hleave => ?_⟩
    obtain ⟨hselected, hshadow, hreturn⟩ := hleave.support bank rfl
    obtain ⟨m₃, hback, hresumed⟩ := resumes hentered
      ⟨hleave.rts, hleave.stack, hselected, hshadow, hleave.sound, hreturn⟩ hagree
    exact ⟨10, m₃, hback, hresumed.pc, hresumed.stack, hresumed.a, hresumed.x, hresumed.kept⟩

/-! ### Into the callee -/

section Entering

variable {c c' : Context} {s t u : Store} {st st' st₀ : State} {hidden : Hidden} {b : Binding}
  {args : List Argument} {buffer : Option Place}

/-- A function with a body: it has been bound, its temporaries have registers, and its code begins
with the lines that take in what comes. -/
structure Entry (c : Context) (hidden : Hidden) (st : State) : Prop where
  defined : c.function.isExternal = false
  bound : c.convention.bind c.function = .ok c.binding
  numbered : ∃ numbering, numberTemps c.convention c.function c.binding = .ok numbering ∧
    c.temps = numbering.temps ∧ copyIncoming c
      ⟨.create c.convention.zeroPage.pointerLo numbering.nextVReg, 0⟩ = .ok (hidden, st)
  room : demand c.function c.binding + 5 < 2 ^ 32

/-- A function with a body has a temporary for each parameter. -/
theorem length_params {conv : Convention} {f : FunctionDef} (h : conv.bind f = .ok b)
    (hdefined : f.isExternal = false) : f.params.length = b.params.length := by
  obtain ⟨b', hb', hrest⟩ := Computations.bind_eq_ok.mp h
  obtain ⟨first, base, hl⟩ := bindSignature_layout hb'
  simp only at hrest
  split at hrest
  · cases hrest
  · rename_i hsame
    cases hrest
    rw [hl.params, length_paramSlots]
    simpa [hdefined] using hsame

theorem Entry.facts (h : Entry c hidden st) : ∃ next, Numbered c.temps next ∧
    next + 5 < 2 ^ 32 ∧ ∀ pair ∈ c.function.params.zip (c.binding.params.map (·.type)),
      Defined c.temps pair.1 pair.2 := by
  obtain ⟨numbering, hnumber, htemps, -⟩ := h.numbered
  have hroom := h.room
  obtain ⟨hnumbered, hle, -⟩ := numberTemps_spec hnumber (by omega)
  rw [htemps]
  exact ⟨_, hnumbered, by omega, numberTemps_params hnumber⟩

/-- **The first lines of a function** take in what is in the slots. -/
theorem Entry.receives (h : Entry c hidden st) : Asked c.function.body hidden ∧
    ∀ t : Store, PlainScratch c.convention.zeroPage.pointerLo t →
      (execAll k st.draft.code t).machine.bus = t.machine.bus ∧
        (execAll k st.draft.code t).regs.sp = t.regs.sp ∧
        Received c hidden t (execAll k st.draft.code t) := by
  obtain ⟨numbering, hnumber, htemps, hcopy⟩ := h.numbered
  have hroom := h.room
  obtain ⟨hnumbered, hle, -⟩ := numberTemps_spec hnumber (by omega)
  rw [← htemps] at hnumbered
  have hlt : numbering.nextVReg.toNat + 5 < everything := by
    have : everything = 2 ^ 32 := rfl
    omega
  obtain ⟨hasked, hpasses⟩ := passes_copyIncoming (k := k) hcopy hnumbered hlt
  refine ⟨hasked, fun t ht => ?_⟩
  obtain ⟨lines, hcode, -, hrun⟩ := (Hands.of_passes hpasses).lines
  obtain rfl : st.draft.code = lines := hcode
  obtain ⟨-, ⟨hbus, -, hreceived⟩, hsp⟩ := hrun t ⟨knows_nothing, ht⟩ trivial
  exact ⟨hbus, hsp, hreceived⟩

/-- What a callee has taken in is what its caller has handed over. -/
structure TakenIn (c c' : Context) (k : Linkage) (args : List Argument) (buffer : Option Place)
    (hidden : Hidden) (s t : Store) : Prop where
  /-- A parameter that is used holds its argument, if no later parameter has the same temporary. -/
  params : ∀ (i : ℕ) (x : Temp), c'.function.params[i]? = some x → usesOf c'.function x ≠ 0 →
    (∀ j, i < j → c'.function.params[j]? ≠ some x) → ∃ arg, args[i]? = some arg ∧
      (registersOf c' x).map t.cells = readOf c k s arg.type.size.toNat arg.value
  /-- The result pointer holds the address of the buffer. -/
  result : ∀ lo hi, hidden.resultPointer = some (lo, hi) → ∃ place, buffer = some place ∧
    word (t.cells lo) (t.cells hi) = addressOf c k s place
  /-- The size of the block of variadic arguments and the address of its first byte. -/
  count : ∀ v, hidden.vaCount = some v → t.cells v = UInt8.ofNat (blockSize c'.binding args)
  pointer : ∀ lo hi, hidden.vaPointer = some (lo, hi) → word (t.cells lo) (t.cells hi) =
    Machine.stackAddress (s.regs.sp - UInt8.ofNat (blockSize c'.binding args) + 1)

theorem word_of_bytes {lo hi : UInt8} {a : UInt16} (h : [lo, hi] = bytesOfAddress a) :
    word lo hi = a := by
  obtain ⟨rfl, hhi⟩ := List.cons_eq_cons.mp h
  obtain ⟨rfl, -⟩ := List.cons_eq_cons.mp hhi
  exact word_bytes a

theorem word_stack (sp : UInt8) : word sp 1 = Machine.stackAddress sp := by
  refine UInt16.toNat_inj.mp ?_
  rw [toNat_word, toNat_stackAddress]
  rfl

/-- A zip around one of its elements. -/
theorem zip_around {α β : Type} {as : List α} {bs : List β} {i : ℕ} {a : α} {b : β}
    (ha : as[i]? = some a) (hb : bs[i]? = some b) :
    ∃ back, as.zip bs = (as.zip bs).take i ++ (a, b) :: back ∧
      ∀ q ∈ back, ∃ j, i < j ∧ as[j]? = some q.1 := by
  obtain ⟨hi, rfl⟩ := List.getElem?_eq_some_iff.mp ha
  obtain ⟨hi', rfl⟩ := List.getElem?_eq_some_iff.mp hb
  have hlt : i < (as.zip bs).length := by
    rw [List.length_zip]
    omega
  refine ⟨(as.zip bs).drop (i + 1), ?_, fun q hq => ?_⟩
  · conv_lhs => rw [← List.take_append_drop i (as.zip bs), List.drop_eq_getElem_cons hlt,
      List.getElem_zip]
  · obtain ⟨j, hj, rfl⟩ := List.getElem_of_mem hq
    rw [List.getElem_drop, List.getElem_zip]
    exact ⟨i + 1 + j, by omega, List.getElem?_eq_getElem _⟩

section TakingIn

variable (hentry : Entry c' hidden st₀) (hconv : c'.convention = c.convention)
  (hchecked : Checked c'.binding args buffer)
  (hdelivered : Delivered c k c'.binding args buffer s t) (hreceived : Received c' hidden t u)

include hentry hconv hchecked hdelivered hreceived

/-- A parameter gets the bytes of its argument. -/
theorem param_taken {i : ℕ} {x : Temp} (hx : c'.function.params[i]? = some x)
    (hused : usesOf c'.function x ≠ 0)
    (hlater : ∀ j, i < j → c'.function.params[j]? ≠ some x) :
    ∃ arg, args[i]? = some arg ∧
      (registersOf c' x).map u.cells = readOf c k s arg.type.size.toNat arg.value := by
  obtain ⟨hfit, -⟩ := bind_slots hentry.bound
  obtain ⟨next, hnumbered, -, hdefined⟩ := hentry.facts
  have hparams := hreceived.params
  rw [hconv] at hparams
  have hi : i < c'.binding.params.length :=
    length_params hentry.bound hentry.defined ▸ (List.getElem?_eq_some_iff.mp hx).1
  obtain ⟨slot, hslot⟩ : ∃ slot, c'.binding.params[i]? = some slot :=
    ⟨_, List.getElem?_eq_getElem hi⟩
  obtain ⟨arg, harg⟩ : ∃ arg, args[i]? = some arg :=
    ⟨_, List.getElem?_eq_getElem (lt_of_lt_of_le hi hchecked.enough)⟩
  obtain ⟨back, hzip, hback⟩ := zip_around hx hslot
  have hbytes := hparams _ (x, slot) back hzip hused fun q hq heq => by
    obtain ⟨j, hj, hfound⟩ := hback q hq
    exact hlater j hj (hfound.trans (congrArg some heq))
  -- The registers are as many as the slot has bytes.
  obtain ⟨info, hinfo, htype⟩ := hdefined (x, slot.type) (by
    rw [List.zip_map_right]
    exact List.mem_map.mpr ⟨(x, slot), hzip ▸ by simp, rfl⟩)
  have hwidth : (registersOf c' x).length = slot.type.size.toNat := by
    rw [registersOf_eq hinfo, hnumbered.width x info hinfo, htype]
  have hmem : (arg, slot) ∈ args.zip c'.binding.params := by
    obtain ⟨back', hzip', -⟩ := zip_around harg hslot
    rw [hzip']
    simp
  refine ⟨arg, harg, ?_⟩
  rw [hbytes, hwidth, hdelivered.arguments _ hmem, size_slot hfit hchecked.sizes _ hmem]

/-- **The callee takes in what has been delivered.** -/
theorem taken_in : TakenIn c c' k args buffer hidden s u := by
  obtain ⟨first, base, hl⟩ := bind_layout hentry.bound
  have hresult := hreceived.result
  have hcount := hreceived.count
  have hpointer := hreceived.pointer
  rw [hconv] at hresult hcount hpointer
  -- The slots for variadic arguments belong to variadic functions.
  have hvariadic : ∀ {slot : Option UInt8} {i : UInt8}, slot = some i →
      (c'.binding.variadic = false → slot = none) → c'.binding.variadic = true := by
    intro slot i hslot hplain
    by_contra hv
    rw [hplain (by simpa using hv)] at hslot
    cases hslot
  have hsize : c'.binding.variadic = true →
      blockSize c'.binding args = Selecting.Bodies.sizeOf (extra c'.binding args) := fun hv => if_pos hv
  refine ⟨fun i x hx hused hlater =>
      param_taken hentry hconv hchecked hdelivered hreceived hx hused hlater,
    fun lo hi hhidden => ?_, fun v hv => ?_, fun lo hi hhidden => ?_⟩
  · obtain ⟨slot, hslot, hbytes⟩ := hresult lo hi hhidden
    obtain ⟨place, hplace⟩ : ∃ place, buffer = some place :=
      Option.isSome_iff_exists.mp (hchecked.buffer ▸ by rw [hslot]; rfl)
    rw [hdelivered.buffer slot place hslot hplace] at hbytes
    exact ⟨place, hplace, word_of_bytes hbytes⟩
  · obtain ⟨i, hi, hbyte⟩ := hcount v hv
    have hva := hvariadic hi fun h => (hl.plain h).1
    obtain ⟨-, hpointers⟩ := hdelivered.block hva
    simp only [pointerSpots, hi, Option.getD_some, List.map_cons, List.map_nil, List.cons.injEq,
      and_true] at hpointers
    rw [hbyte, hpointers.2.2, hsize hva]
  · obtain ⟨i, hi, hbytes⟩ := hpointer lo hi hhidden
    have hva := hvariadic hi fun h => (hl.plain h).2
    obtain ⟨-, hpointers⟩ := hdelivered.block hva
    simp only [pointerSpots, hi, Option.getD_some, List.map_cons, List.map_nil, List.cons.injEq,
      and_true] at hpointers
    simp only [slotSpots, List.range', List.map_cons, List.map_nil, List.cons.injEq, and_true]
      at hbytes
    rw [hbytes.1, hbytes.2, hpointers.1, hpointers.2.1, hsize hva]
    exact word_stack _

end TakingIn

/-! ### Call sites -/

/-- The bytes that the code in front of a call writes to: the scratch pointer, the argument slots,
and those that variadic arguments are pushed to. -/
def Written (z : ZeroPage) (b : Binding) (args : List Argument) (sp : UInt8) (a : UInt16) : Prop :=
  IsScratch z.pointerLo a ∨ (∃ i < z.argSlots.toNat, a = (z.arg (UInt8.ofNat i)).toUInt16) ∨
    .memory a ∈ pushedSpots b args sp

/-- All of this is in the zero page or the stack page. -/
theorem Written.low {sp : UInt8} {a : UInt16} (h : Written z b args sp a) : a.toNat < 0x200 := by
  have hcell : ∀ cell : UInt8, cell.toUInt16.toNat < 0x200 := fun cell => by
    have := cell.toNat_lt
    rw [UInt8.toNat_toUInt16]
    omega
  rcases h with (rfl | rfl) | ⟨i, -, rfl⟩ | hpushed
  · exact hcell _
  · exact hcell _
  · exact hcell _
  · unfold pushedSpots at hpushed
    split at hpushed
    · obtain ⟨i, -, heq⟩ := List.mem_map.mp hpushed
      rw [← Spot.memory.inj heq, toNat_stackAddress]
      have := (sp - UInt8.ofNat i).toNat_lt
      omega
    · cases hpushed

/-- A call of a function with a body, as it is lowered, and a store in front of it. -/
structure CallSite (c c' : Context) (k : Linkage) (node : Node) (result : Option Temp) (callee : String)
    (args : List Argument) (type : ValueType) (buffer : Option Place) (hidden : Hidden)
    (st st' st₀ : State) (s : Store) : Prop where
  lowered : lowerCall node result callee args type buffer c st = .ok ((), st')
  prepared : Prepared c st
  enough : st.draft.nextVReg.toNat + 4 * args.length + 6 < 2 ^ 32
  ready : Ready k st.draft s
  cell : st.draft.pointerCell = c.convention.zeroPage.pointerLo
  sound : Sound s.machine.bus
  /-- The regions of the zero page are disjoint. -/
  apart : SlotsApart c.convention.zeroPage
  shared : c'.convention = c.convention
  known : c.bindings[callee]? = some c'.binding
  entry : Entry c' hidden st₀
  /-- The stack has room for the variadic arguments. -/
  room : blockSize c'.binding args ≤ s.regs.sp.toNat
  misses : ∀ arg ∈ args, Misses c k (Written c.convention.zeroPage c'.binding args s.regs.sp) s
    arg.type.size.toNat arg.value

/-- The store behind the code in front of a call. -/
structure Offered (z : ZeroPage) (b : Binding) (args : List Argument) (s u : Store) : Prop where
  sp : u.regs.sp = s.regs.sp - UInt8.ofNat (blockSize b args)
  sound : Sound u.machine.bus
  plain : ∀ a, Plain u.machine.bus a ↔ Plain s.machine.bus a
  others : ∀ a, ¬Written z b args s.regs.sp a → u.machine.bus.read a = s.machine.bus.read a

/-- The machine of a store at an address of the code. -/
def standing (s : Store) (pc : UInt16) : Machine := moved s.machine pc s.machine.steps

section Sites

variable {node : Node} {result : Option Temp} {type : ValueType} {first base : ℕ}
  {types : List ValueType} {front back : List Line}

/-- Everything that is handed over is written. -/
theorem inside_written (hl : Selecting.Incoming.Layout z b first base types)
    (henough : b.params.length ≤ args.length) (sp : UInt8) :
    Inside (Written z b args sp) (handedSpots z b args buffer sp) := by
  intro spot hspot
  rw [handedSpots_eq hl henough] at hspot
  rcases List.mem_append.mp hspot with hspot | hspot
  · obtain ⟨a, rfl⟩ : ∃ a, spot = .memory a := by
      unfold pushedSpots at hspot
      split at hspot
      · obtain ⟨i, -, rfl⟩ := List.mem_map.mp hspot
        exact ⟨_, rfl⟩
      · cases hspot
    exact ⟨a, rfl, Or.inr (Or.inr hspot)⟩
  · obtain ⟨i, hi, rfl⟩ := List.mem_map.mp hspot
    exact ⟨_, rfl, Or.inr (Or.inl ⟨i, handedSlots_lt hl i hi, rfl⟩)⟩

/-- **What has been handed over is still there on entry.** -/
theorem Arrived.get_handed {pc : UInt16} (h : Arrived k z callee kind (standing u pc) m₁)
    (hl : Selecting.Incoming.Layout z b first base types) (henough : b.params.length ≤ args.length)
    (hapart : SlotsApart z) (hroom : blockSize b args ≤ s.regs.sp.toNat)
    (hsp : u.regs.sp = s.regs.sp - UInt8.ofNat (blockSize b args)) (ht : t.machine.bus = m₁.bus) :
    ∀ spot ∈ handedSpots z b args buffer s.regs.sp, get t spot = get u spot := by
  intro spot hspot
  rw [handedSpots_eq hl henough] at hspot
  have hread : ∀ a, m₁.bus.read a = u.machine.bus.read a → get t (.memory a) = get u (.memory a) := by
    intro a ha
    change t.machine.bus.read a = u.machine.bus.read a
    rw [ht, ha]
  rcases List.mem_append.mp hspot with hspot | hspot
  · unfold pushedSpots at hspot
    split at hspot
    · rename_i hv
      obtain ⟨i, hi, rfl⟩ := List.mem_map.mp hspot
      obtain ⟨bytes, hway⟩ := h.way
      refine hread _ (read_of_above (above_of_append hway) ?_)
      -- The block is above the stack pointer.
      have hlt := List.mem_range.mp hi
      have hsize : blockSize b args = Selecting.Bodies.sizeOf (extra b args) := if_pos hv
      have hbound := s.regs.sp.toNat_lt
      change u.regs.sp < _
      rw [hsp, UInt8.lt_iff_toNat_lt, UInt8.toNat_sub, UInt8.toNat_sub, UInt8.toNat_ofNat',
        UInt8.toNat_ofNat']
      omega
    · cases hspot
  · obtain ⟨i, hi, rfl⟩ := List.mem_map.mp hspot
    refine hread _ (h.cells _ fun heq => hapart i (handedSlots_lt hl i hi) ?_)
    rw [heq]
    simp

variable (h : CallSite c c' k node result callee args type buffer hidden st st' st₀ s)

theorem CallSite.nodup (h : CallSite c c' k node result callee args type buffer hidden st st' st₀ s)
    (x : Temp) : (registersOf c x).Nodup := by
  cases hinfo : c.temps[x]? with
  | none =>
    rw [registersOf, hinfo]
    exact List.nodup_nil
  | some info =>
    rw [registersOf_eq hinfo]
    exact h.prepared.facts.1.nodup x info hinfo

include h

/-- **The code of the call.** -/
theorem CallSite.lines : Checked c'.binding args buffer ∧ ∃ kind front back,
    c.convention.callKind c.binding c'.binding = .ok kind ∧
      Lines c k (Written c.convention.zeroPage c'.binding args s.regs.sp) st.draft.nextVReg.toNat st st'
        callee kind c'.binding result args buffer front back := by
  have hbound := h.entry.bound
  rw [h.shared] at hbound
  obtain ⟨first, base, hl⟩ := bind_layout hbound
  have hshape : shapeOf c callee args type = .ok c'.binding := by rw [shapeOf, h.known]
  refine lowerCall_lines ⟨fun a ha => Or.inl (h.cell ▸ ha), h.prepared.facts.2.1, le_rfl,
    fun operand hmem => (h.ready.1.a operand hmem).1⟩ hshape (bind_slots hbound).1
    (fun x _ => h.nodup x) (fun hchecked => ?_) h.enough h.lowered
  have hin : Inside _ (handedSpots c.convention.zeroPage c'.binding args buffer s.regs.sp) :=
    inside_written hl hchecked.enough s.regs.sp
  exact ⟨fun spot hspot => hin spot (List.mem_append_right _ (List.mem_append_left _ hspot)),
    fun spot hspot => hin spot (List.mem_append_right _ (List.mem_append_right _ hspot))⟩

theorem CallSite.callable (hchecked : Checked c'.binding args buffer) :
    Callable c k (Written c.convention.zeroPage c'.binding args s.regs.sp) c'.binding args buffer s := by
  have hbound := h.entry.bound
  rw [h.shared] at hbound
  obtain ⟨first, base, hl⟩ := bind_layout hbound
  exact ⟨h.sound.low, inside_written hl hchecked.enough s.regs.sp, h.misses⟩

theorem CallSite.offered (hchecked : Checked c'.binding args buffer)
    (hlines : Lines c k (Written c.convention.zeroPage c'.binding args s.regs.sp)
      st.draft.nextVReg.toNat st st' callee kind c'.binding result args buffer front back) :
    Offered c.convention.zeroPage c'.binding args s (execAll k front s) := by
  obtain ⟨-, hsame, hsp⟩ := hlines.front s h.ready (h.callable hchecked)
  refine ⟨hsp, sound_execAll hlines.front_straight s h.sound, fun a => (hsame.plain a).trans ?_,
    fun a ha => ?_⟩
  · exact @Selecting.Computing.keeps_fill (.memory a) _ _ s
  have hvisible : Visible st.draft.pointerCell st.draft.nextVReg.toNat (.memory a) := fun hscratch =>
    ha (Or.inl (h.cell ▸ hscratch))
  refine get_of_fill hsame (keeps_handed h.sound.low _) hvisible fun hmem => ?_
  obtain ⟨a', heq, hwritten⟩ := (h.callable hchecked).inside _ hmem
  cases heq
  exact ha hwritten

omit h

/-- The prologue of a function that can be called. -/
theorem prologue_eq (hkind : c.convention.callKind c.binding b = .ok kind) (frame : UInt8)
    (saves : Clobbers) :
    (prologue b frame saves).code = .label b.name :: (Sequence.reserve frame).code ∧
      (epilogue b frame saves).code = releaseLines frame b.returnKind ++ [Line.bare .rts] := by
  have hentry : b.entry = .subroutine := by
    unfold Convention.callKind at hkind
    split at hkind
    · cases hkind
    · rename_i hinterrupt
      cases hentry : b.entry <;>
        first | rfl | exact absurd (by rw [Binding.isInterrupt, hentry]; rfl) hinterrupt
  unfold prologue epilogue
  rw [hentry]
  exact ⟨rfl, releaseAndReturn_eq frame b.returnKind⟩

/-- The callee after its prologue and the lines that take in what comes. -/
structure Started (c c' : Context) (k : Linkage) (args : List Argument) (buffer : Option Place)
    (hidden : Hidden) (s : Store) (m₁ : Machine) (frame : UInt8) (t : Store) : Prop where
  taken : TakenIn c c' k args buffer hidden s t
  sp : t.regs.sp = m₁.regs.sp - frame
  bus : t.machine.bus = m₁.bus

include h

/-- **On entry of the callee** everything stands where it looks for it. -/
theorem CallSite.delivers {pc : UInt16} (hchecked : Checked c'.binding args buffer)
    (hlines : Lines c k (Written c.convention.zeroPage c'.binding args s.regs.sp)
      st.draft.nextVReg.toNat st st' callee kind c'.binding result args buffer front back)
    (harrived : Arrived k c.convention.zeroPage callee kind (standing (execAll k front s) pc) m₁)
    (ht : t.machine.bus = m₁.bus) : Delivered c k c'.binding args buffer s t := by
  have hbound := h.entry.bound
  rw [h.shared] at hbound
  obtain ⟨first, base, hl⟩ := bind_layout hbound
  obtain ⟨-, hsame, hsp⟩ := hlines.front s h.ready (h.callable hchecked)
  rw [h.cell] at hsame
  have hroom : blockSize c'.binding args ≤ 256 := h.room.trans s.regs.sp.toNat_lt.le
  refine delivered ?_
  rw [← map_handedSpots hl hchecked.enough h.apart hroom h.sound.low hsame]
  exact List.map_congr_left (harrived.get_handed hl hchecked.enough h.apart h.room hsp ht)

/-- **From the caller to the callee**, and back behind the call. -/
theorem CallSite.takes_in : Asked c'.function.body hidden ∧ ∃ kind front back,
    c.convention.callKind c.binding c'.binding = .ok kind ∧
      Lines c k (Written c.convention.zeroPage c'.binding args s.regs.sp) st.draft.nextVReg.toNat st st'
        callee kind c'.binding result args buffer front back ∧
      Offered c.convention.zeroPage c'.binding args s (execAll k front s) ∧
      ∀ pc, Calling k c.convention.zeroPage callee kind (standing (execAll k front s) pc) →
        ∃ n m₁, after n (standing (execAll k front s) pc) = some m₁ ∧
          Arrived k c.convention.zeroPage callee kind (standing (execAll k front s) pc) m₁ ∧
          (∀ frame saves (t : Store), t.machine = m₁ → Started c c' k args buffer hidden s m₁ frame
            (execAll k ((prologue c'.binding frame saves).code ++ st₀.draft.code) t)) ∧
          ∀ m₂, Leaving k c.convention.zeroPage kind m₁ m₂ → ∃ n' m₃, after n' m₂ = some m₃ ∧
            CameBack callee kind (standing (execAll k front s) pc) m₂ m₃ := by
  obtain ⟨hchecked, kind, front, back, hkind, hlines⟩ := h.lines
  obtain ⟨hasked, hreceives⟩ := h.entry.receives (k := k)
  have hoffered := h.offered hchecked hlines
  refine ⟨hasked, kind, front, back, hkind, hlines, hoffered, fun pc hcalling => ?_⟩
  have hsound : Sound (standing (execAll k front s) pc).bus := hoffered.sound
  obtain ⟨n, m₁, hafter, harrived, hback⟩ := call_and_return hsound hcalling
  refine ⟨n, m₁, hafter, harrived, fun frame saves t ht => ?_, hback⟩
  obtain ⟨hprologue, -⟩ := prologue_eq hkind frame saves
  obtain ⟨r, hreserve, hrsp⟩ := exec_reserve (k := k) frame t
  have hexec : execAll k ((prologue c'.binding frame saves).code ++ st₀.draft.code) t =
      execAll k st₀.draft.code (t.setRegs r) := by
    rw [execAll_append, hprologue, execAll_cons]
    exact congrArg _ hreserve
  have hbus : (t.setRegs r).machine.bus = m₁.bus := by rw [← ht]; rfl
  have hplain : PlainScratch c'.convention.zeroPage.pointerLo (t.setRegs r) := by
    have hm₁ := harrived.kept.sound hsound
    rw [← hbus] at hm₁
    exact ⟨hm₁.plain_cell _, hm₁.plain_cell _⟩
  obtain ⟨hsame', hsp', hreceived⟩ := hreceives _ hplain
  rw [hexec]
  refine ⟨taken_in h.entry h.shared hchecked (h.delivers hchecked hlines harrived hbus) hreceived, ?_,
    hsame'.trans hbus⟩
  rw [hsp', ← ht]
  exact hrsp

end Sites

/-! ### Out of the callee -/

/-- The bytes that the code of a return writes to: the scratch pointer and the free byte under the
stack. -/
def Spare (z : ZeroPage) (sp : UInt8) (a : UInt16) : Prop :=
  IsScratch z.pointerLo a ∨ a = Machine.stackAddress sp

/-- A function that was entered in a state is in front of the code of a return, with its frame
reserved under what was on the stack on entry. -/
structure Finishing (c : Context) (k : Linkage) (value : Option Value) (isLast : Bool) (st st' : State)
    (frame : UInt8) (m₁ : Machine) (u : Store) : Prop where
  lowered : lowerReturn value isLast c st = .ok ((), st')
  prepared : Prepared c st
  cell : st.draft.pointerCell = c.convention.zeroPage.pointerLo
  ready : Ready k st.draft u
  sound : Sound u.machine.bus
  sp : u.regs.sp = m₁.regs.sp - frame
  room : frame ≤ m₁.regs.sp
  above : above u.machine.bus m₁.regs.sp = stack m₁
  misses : ∀ v, value = some v → Misses c k (Spare c.convention.zeroPage u.regs.sp) u
    c.binding.returnType.size.toNat v

/-- A function is in front of its return: the stack is as on entry, and the result is in its
registers. -/
structure Finished (c : Context) (k : Linkage) (value : Option Value) (m₁ : Machine) (u w : Store) :
    Prop where
  stack : stack w.machine = stack m₁
  sound : Sound w.machine.bus
  result : returned c.binding.returnKind w.regs = resultOf c k u value

section Finishing

variable {value : Option Value} {isLast : Bool} {frame : UInt8} {w : Store}

/-- Loading a result does not touch the stack above the free byte. -/
theorem above_loaded {cell : UInt8} {n : ℕ} {rk : ReturnKind} {bytes : List UInt8} {sp : UInt8}
    (h : Loaded cell n rk bytes s t) (hlow : LowPlain s) (hsp : s.regs.sp ≤ sp) :
    above t.machine.bus sp = above s.machine.bus sp := by
  obtain ⟨byte, hsame⟩ := h.same
  refine above_congr fun i hi => ?_
  have hvisible : Visible cell n (.memory (Machine.stackAddress i)) := by
    rintro (heq | heq) <;> exact cell_ne_stack _ _ heq.symm
  have hne : top s ≠ .memory (Machine.stackAddress i) := fun heq =>
    UInt8.ne_of_lt (UInt8.lt_of_le_of_lt hsp hi) (stackAddress_inj.mp (Spot.memory.inj heq))
  have hget := hsame.get _ hvisible
  rwa [get_put (keeps_top hlow), if_neg hne] at hget

/-- Giving the frame back does not touch what is above it. -/
theorem above_released {rk : ReturnKind} (h : Released frame rk s t) (hsound : Sound s.machine.bus)
    {sp : UInt8} (hsp : s.regs.sp + frame = sp) :
    above t.machine.bus sp = above s.machine.bus sp ∧ Sound t.machine.bus := by
  obtain hbus | ⟨byte, hbus⟩ := h.bus
  · rw [hbus]
    exact ⟨rfl, hsound⟩
  · rw [hbus, hsp]
    exact ⟨above_write hsound (fun i hi heq => UInt8.ne_of_lt hi (stackAddress_inj.mp heq)) byte,
      hsound.write _ _⟩

/-- **A function finishes**: its return and its exit sequence leave the result in its registers and
the stack as it was on entry. -/
theorem Finishing.finishes {st st' : State}
    (hkind : returnKind? c.binding.returnType = some c.binding.returnKind)
    (h : Finishing c k value isLast st st' frame m₁ u) :
    ∃ lines, st'.draft.code = st.draft.code ++ (lines ++ exitJump c isLast) ∧
      Finished c k value m₁ u (execAll k (lines ++ releaseLines frame c.binding.returnKind) u) := by
  have hroom := h.prepared.room
  have hbase : u.regs.sp + frame = m₁.regs.sp := by
    rw [h.sp]
    exact UInt8.sub_add_cancel _ _
  have hle := UInt8.le_iff_toNat_le.mp h.room
  have hsum := congrArg UInt8.toNat hbase
  have hunder : u.regs.sp.toNat + frame.toNat ≤ 0xFF := by
    have := m₁.regs.sp.toNat_lt
    have hsp := congrArg UInt8.toNat h.sp
    rw [UInt8.toNat_sub_of_le _ _ h.room] at hsp
    omega
  have hbelow : u.regs.sp ≤ m₁.regs.sp := by
    rw [UInt8.toNat_add] at hsum
    exact UInt8.le_iff_toNat_le.mpr (by omega)
  have hd : Setting c (Spare c.convention.zeroPage u.regs.sp) st.draft.nextVReg.toNat st.draft :=
    ⟨fun a ha => Or.inl (h.cell ▸ ha), h.prepared.facts.2.1, le_rfl,
      fun operand hmem => (h.ready.1.a operand hmem).1⟩
  have heverything : everything = 2 ^ 32 := rfl
  obtain ⟨lines, hcode, hstraight, hrun⟩ :=
    lowerReturn_lines (k := k) hd (Or.inr rfl) hkind h.lowered (by omega)
  have hloaded := hrun u h.ready ⟨h.sound.low, rfl, h.misses⟩
  have hsound := sound_execAll (k := k) hstraight u h.sound
  have hreleased : Released frame c.binding.returnKind (execAll k lines u)
      (execAll k (releaseLines frame c.binding.returnKind) (execAll k lines u)) :=
    exec_releaseLines _ (fun _ => hsound.plain_stack _) (hloaded.sp ▸ hunder)
  have hlast : (execAll k lines u).regs.sp + frame = m₁.regs.sp := by rw [hloaded.sp, hbase]
  obtain ⟨habove, hsound'⟩ := above_released hreleased hsound hlast
  refine ⟨lines, hcode, ?_⟩
  rw [execAll_append]
  refine ⟨?_, hsound', hreleased.result.trans hloaded.bytes⟩
  change Processor.Stack.above _ (execAll k _ _).regs.sp = _
  rw [hreleased.sp, hlast, habove, above_loaded hloaded h.sound.low hbelow, h.above]

end Finishing

/-- The caller behind the call: the result is in its registers, no other register in use has
changed, and the stack pointer is what it was. -/
structure GaveBack (c : Context) (n : ℕ) (result : Option Temp) (bytes : List UInt8) (s v : Store) :
    Prop where
  sp : v.regs.sp = s.regs.sp
  stored : ∀ x, result = some x → (registersOf c x).map v.cells = bytes
  others : ∀ r : VReg, r.index.toNat < n → (∀ x, result = some x → r ∉ registersOf c x) →
    v.cells r = s.cells r

section Back

variable {node : Node} {result : Option Temp} {type : ValueType} {front back : List Line}

/-- The same bytes in A and X are the same result. -/
theorem returned_congr {r r' : Registers} (rk : ReturnKind) (ha : r'.a = r.a) (hx : r'.x = r.x) :
    returned rk r' = returned rk r := by
  cases rk <;> simp [returned, ha, hx]

/-- **Behind the call** the result is stored and the stack pointer is what it was. -/
theorem CallSite.gives_back {pc : UInt16}
    (h : CallSite c c' k node result callee args type buffer hidden st st' st₀ s)
    (hlines : Lines c k (Written c.convention.zeroPage c'.binding args s.regs.sp)
      st.draft.nextVReg.toNat st st' callee kind c'.binding result args buffer front back)
    (hchecked : Checked c'.binding args buffer)
    (hback : CameBack callee kind (standing (execAll k front s) pc) m₂ m₃) (hsound : Sound m₂.bus) :
    GaveBack c st.draft.nextVReg.toNat result (returned c'.binding.returnKind m₂.regs) s
      (execAll k back { execAll k front s with machine := m₃ }) := by
  obtain ⟨-, hsame, hsp⟩ := hlines.front s h.ready (h.callable hchecked)
  have hplain : PlainScratch st.draft.pointerCell { execAll k front s with machine := m₃ } := by
    have hm₃ := hback.kept.sound hsound
    exact ⟨hm₃.plain_cell _, hm₃.plain_cell _⟩
  obtain ⟨hsame', hsp'⟩ := hlines.back _ hplain
  have hbytes : returned c'.binding.returnKind m₃.regs = returned c'.binding.returnKind m₂.regs :=
    returned_congr _ hback.a hback.x
  have hregs : ({ execAll k front s with machine := m₃ } : Store).regs = m₃.regs := rfl
  rw [hregs, hbytes] at hsame'
  have hkeeps : ∀ spot ∈ resultSpots c result,
      Keeps ({ execAll k front s with machine := m₃ } : Store) spot ∧
        Visible st.draft.pointerCell everything spot ∧
        ∃ x v, result = some x ∧ v ∈ registersOf c x ∧ spot = .cell v := by
    intro spot hspot
    unfold resultSpots at hspot
    split at hspot
    · obtain ⟨v, hv, rfl⟩ := List.mem_map.mp hspot
      exact ⟨trivial, v.index.toNat_lt, _, v, rfl, hv, rfl⟩
    · cases hspot
  refine ⟨?_, fun x hx => ?_, fun r hr hother => ?_⟩
  · have hm₃ : m₃.regs.sp = (execAll k front s).regs.sp := hback.sp
    rw [hsp', hregs, hm₃, hsp]
    exact UInt8.sub_add_cancel _ _
  · have hspots : resultSpots c result = (registersOf c x).map .cell := by rw [hx, resultSpots]
    have hall := map_get_of_fill (hspots ▸ (h.nodup x).map fun _ _ heq => Spot.cell.inj heq) hsame'
      (fun spot hspot => (hkeeps spot hspot).1) (fun spot hspot => (hkeeps spot hspot).2.1)
      (by rw [hspots, List.length_map, hlines.fits x hx])
    rw [hspots, List.map_map] at hall
    exact hall
  · have hcell := get_of_fill hsame' (fun spot hspot => (hkeeps spot hspot).1)
      (show Visible _ _ (.cell r) from r.index.toNat_lt) fun hmem => by
        obtain ⟨-, -, x, v, hx, hv, heq⟩ := hkeeps _ hmem
        exact hother x hx (Spot.cell.inj heq ▸ hv)
    exact hcell.trans (cells_of_fill hsame (keeps_handed h.sound.low _)
      (h.callable hchecked).inside hr)

/-- **The way back**: a callee that finishes gets back behind its call with what it returns. -/
theorem CallSite.returns {pc : UInt16}
    (h : CallSite c c' k node result callee args type buffer hidden st st' st₀ s)
    (hkind : c.convention.callKind c.binding c'.binding = .ok kind)
    (hlines : Lines c k (Written c.convention.zeroPage c'.binding args s.regs.sp)
      st.draft.nextVReg.toNat st st' callee kind c'.binding result args buffer front back)
    (hchecked : Checked c'.binding args buffer)
    (hback : ∀ m₂, Leaving k c.convention.zeroPage kind m₁ m₂ → ∃ n' m₃, after n' m₂ = some m₃ ∧
      CameBack callee kind (standing (execAll k front s) pc) m₂ m₃)
    {value : Option Value} {isLast : Bool} {r r' : State} {frame : UInt8} {u : Store}
    (hfinishing : Finishing { c' with hidden } k value isLast r r' frame m₁ u) (saves : Clobbers) :
    ∃ lines exit, r'.draft.code = r.draft.code ++ (lines ++ exitJump c' isLast) ∧
      (epilogue c'.binding frame saves).code = exit ++ [Line.bare .rts] ∧
      ∀ pc', AtReturn k c.convention.zeroPage kind (standing (execAll k (lines ++ exit) u) pc') →
        ∃ n' m₃, after n' (standing (execAll k (lines ++ exit) u) pc') = some m₃ ∧
          m₃.regs.pc = pc + extent (callCode callee kind) ∧
          GaveBack c st.draft.nextVReg.toNat result (resultOf { c' with hidden } k u value) s
            (execAll k back { execAll k front s with machine := m₃ }) := by
  obtain ⟨lines, hcode, hfinished⟩ := Finishing.finishes (c := { c' with hidden })
    (bind_slots h.entry.bound).2 hfinishing
  obtain ⟨-, hepilogue⟩ := prologue_eq hkind frame saves
  refine ⟨lines, _, hcode, hepilogue, fun pc' hreturn => ?_⟩
  obtain ⟨n', m₃, hafter', hcame⟩ := hback _ ⟨hreturn, hfinished.stack, hfinished.sound⟩
  refine ⟨n', m₃, hafter', hcame.pc, ?_⟩
  have hgave := h.gives_back hlines hchecked hcame hfinished.sound
  rwa [← hfinished.result]

/-- **Caller and callee agree on the convention.**  Whatever the frame of the callee and whether or
not the call goes through a trampoline: the callee takes in the arguments as the code reads them in
front of the call, and behind the call the result is what the code reads of it in front of the
return.  What is read is the value, if no offset wraps. -/
theorem conventions_agree
    (h : CallSite c c' k node result callee args type buffer hidden st st' st₀ s) :
    Asked c'.function.body hidden ∧
    (∃ kind front back, c.convention.callKind c.binding c'.binding = .ok kind ∧
      st'.draft.code = st.draft.code ++ (front ++ callCode callee kind ++ back) ∧
      Offered c.convention.zeroPage c'.binding args s (execAll k front s) ∧
      ∀ pc, Calling k c.convention.zeroPage callee kind (standing (execAll k front s) pc) →
        ∃ n m₁, after n (standing (execAll k front s) pc) = some m₁ ∧
          Arrived k c.convention.zeroPage callee kind (standing (execAll k front s) pc) m₁ ∧
          (∀ frame saves (t : Store), t.machine = m₁ → Started c c' k args buffer hidden s m₁ frame
            (execAll k ((prologue c'.binding frame saves).code ++ st₀.draft.code) t)) ∧
          ∀ value isLast r r' frame saves u,
            Finishing { c' with hidden } k value isLast r r' frame m₁ u →
            ∃ lines exit, r'.draft.code = r.draft.code ++ (lines ++ exitJump c' isLast) ∧
              (epilogue c'.binding frame saves).code = exit ++ [.bare .rts] ∧
              ∀ pc', AtReturn k c.convention.zeroPage kind (standing (execAll k (lines ++ exit) u) pc') →
                ∃ n' m₃, after n' (standing (execAll k (lines ++ exit) u) pc') = some m₃ ∧
                  m₃.regs.pc = pc + extent (callCode callee kind) ∧
                  GaveBack c st.draft.nextVReg.toNat result (resultOf { c' with hidden } k u value) s
                    (execAll k back { execAll k front s with machine := m₃ })) ∧
    ∀ (d : Context) (u : Store) (size : ℕ) (value : Value), ¬Wraps size value →
      readOf d k u size value = bytesOf d k u size value := by
  obtain ⟨hchecked, -⟩ := h.lines
  obtain ⟨hasked, kind, front, back, hkind, hlines, hoffered, htakes⟩ := h.takes_in
  refine ⟨hasked, ⟨kind, front, back, hkind, hlines.code, hoffered, fun pc hcalling => ?_⟩,
    fun d u size value => readOf_eq⟩
  obtain ⟨n, m₁, hafter, harrived, hstarted, hback⟩ := htakes pc hcalling
  exact ⟨n, m₁, hafter, harrived, hstarted, fun value isLast r r' frame saves u hfinishing =>
    h.returns hkind hlines hchecked hback hfinishing saves⟩

end Back

end Entering

/-! ### An argument behind offset 255 -/

/-- A call that passes the word at offset 255 behind a pointer. -/
def farCall : Node := .call (some 1) "g" [⟨farWord, .u16⟩] .u16 none

/-- The callee uses its parameter and returns a constant. -/
def farCallee : FunctionDef where
  signature := { name := "g", params := [.u16], returnType := .u16 }
  params := [0]
  body := [.store (.temp 0) (.absolute 0x0500) .u16, .ret (some (.constant 7))]

def farBinding : Binding where
  name := "g"
  entry := .subroutine
  bank := .common
  placement := .common
  variadic := false
  params := [⟨0, 2, .u16⟩]
  returnKind := .word
  returnType := .u16
  visible := true
  declaredClobbers := none
  resultSlot := none
  vaCountSlot := none
  vaPtrSlot := none

def farCaller : Context :=
  { farContext [farCall] with
    bindings := (∅ : Std.TreeMap String Binding).insert "g" farBinding
    temps := followContext.temps.insert 1 ⟨[⟨2⟩, ⟨3⟩], .u16⟩ }

def farEntered : Context :=
  { farCaller with
    function := farCallee
    binding := farBinding
    temps := (∅ : Std.TreeMap Temp TempInfo).insert 0 ⟨[⟨0⟩, ⟨1⟩], .u16⟩ }

/-- The call stands at `$0600`, the callee's return at `$0700`. -/
def farLinkage : Linkage := ⟨fun _ => 0x0700, 0⟩

def farMemory (a : UInt16) : UInt8 :=
  if a = 0x30FF ∨ a = 0x3100 then 5
  else if a = 0x0600 then 0x20
  else if a = 0x0602 then 0x07
  else if a = 0x0700 then 0x60 else 0

def farStart : Store :=
  { farStore with
    machine := { Machine.create 0xA000 0x2000 0xD500 with bus := filled farMemory ∅ } }

def farFresh (next : UInt32) : State := ⟨.create 0x90 next, 0⟩

theorem read_farStart {a : UInt16} (ha : a.toNat < 0xA000) :
    farStart.machine.bus.read a = farMemory a := read_filled (plain_filled ha).1

/-- Whatever is called. -/
theorem far_prepared (bindings : Std.TreeMap String Binding) :
    Prepared { farCaller with bindings } (farFresh 4) := by
  refine ⟨⟨⟨farCaller.temps, 4⟩, rfl, rfl, by decide⟩, fun v hv => ?_,
    show demand farCaller.function farCaller.binding < 2 ^ 32 by decide, by decide⟩
  cases hv

/-- The two bytes that are read are not written by any call. -/
theorem far_misses (bindings : Std.TreeMap String Binding) (b : Binding) :
    ∀ arg ∈ [(⟨farWord, .u16⟩ : Argument)], Misses { farCaller with bindings } farLinkage
      (Written farCaller.convention.zeroPage b [⟨farWord, .u16⟩] farStart.regs.sp) farStart
      arg.type.size.toNat arg.value := by
  intro arg harg place hplace i hi a ha hwritten
  -- They are at `$30FF` and `$3000`.
  obtain rfl := List.mem_singleton.mp harg
  obtain rfl : place = .indirect 0 0xFF := (Value.memory.inj hplace).symm
  have hfirst : addressIn farStart (registersOf farCaller 0) + (0xFF + UInt8.ofNat 0).toUInt16 =
    0x30FF := by decide
  have hsecond : addressIn farStart (registersOf farCaller 0) + (0xFF + UInt8.ofNat 1).toUInt16 =
    0x3000 := by decide
  have hfound : a = 0x30FF ∨ a = 0x3000 := by
    have hi : i < 2 := hi
    interval_cases i <;> cases ha
    · exact Or.inl hfirst
    · exact Or.inr hsecond
  rcases hfound with rfl | rfl <;> exact absurd hwritten.low (by decide)

theorem far_ready (next : UInt32) : Ready farLinkage (farFresh next).draft farStart :=
  ⟨knows_nothing, sound_filled.plain_cell _, sound_filled.plain_cell _⟩

theorem farSite : ∃ st' st₀, CallSite farCaller farEntered farLinkage farCall (some 1) "g"
    [⟨farWord, .u16⟩] .u16 none {} (farFresh 4) st' st₀ farStart := by
  obtain ⟨st₀, hentry⟩ : ∃ st, Entry farEntered {} st :=
    ⟨_, rfl, rfl, ⟨⟨farEntered.temps, 2⟩, rfl, rfl, rfl⟩, by decide⟩
  obtain ⟨st', hlowered⟩ : ∃ st', lowerCall farCall (some 1) "g" [⟨farWord, .u16⟩] .u16 none farCaller
    (farFresh 4) = .ok ((), st') := ⟨_, rfl⟩
  exact ⟨st', st₀, hlowered, far_prepared _, by decide, far_ready 4, rfl, sound_filled, by decide, rfl,
    rfl, hentry, by decide, far_misses _ _⟩

/-- Code behind the stack page, where no call writes. -/
theorem lies_far {b : Bus} (h : ∀ a : UInt16, 0x200 ≤ a.toNat → a.toNat < 0xA000 → b.read a = farMemory a)
    {pc : UInt16} {lines : List Line}
    (hlies : Lies farLinkage (fun a => 0x200 ≤ a.toNat ∧ a.toNat < 0xA000) farMemory pc lines) :
    Lies farLinkage anywhere b.read pc lines := hlies.congr fun a ha => ⟨trivial, h a ha.1 ha.2⟩

/-- The call stands where no call writes. -/
theorem far_calling {b : Binding} {args : List Argument} {u : Store}
    (hoffered : Offered farCaller.convention.zeroPage b args farStart u) (hroom : 2 ≤ u.regs.sp.toNat) :
    Calling farLinkage farCaller.convention.zeroPage "g" .direct (standing u 0x0600) := by
  have hread : ∀ a : UInt16, 0x200 ≤ a.toNat → a.toNat < 0xA000 →
      u.machine.bus.read a = farMemory a := fun a hlow ha =>
    (hoffered.others a fun hwritten => absurd hwritten.low (not_lt.mpr hlow)).trans (read_farStart ha)
  have hjsr : Lies farLinkage (fun a => 0x200 ≤ a.toNat ∧ a.toNat < 0xA000) farMemory 0x0600
      (callCode "g" .direct) := by decide +kernel
  exact ⟨lies_far hread hjsr, hroom, fun bank hbank => by cases hbank⟩

/-- The return of the callee stands there as well. -/
theorem far_at_return {b : Binding} {args : List Argument} {u w : Store} {pc : UInt16}
    (hoffered : Offered farCaller.convention.zeroPage b args farStart u)
    (harrived : Arrived farLinkage farCaller.convention.zeroPage "g" .direct (standing u pc) m₁)
    (hbus : w.machine.bus = m₁.bus) :
    AtReturn farLinkage farCaller.convention.zeroPage .direct (standing w 0x0700) := by
  have hread : ∀ a : UInt16, 0x200 ≤ a.toNat → a.toNat < 0xA000 →
      w.machine.bus.read a = farMemory a := by
    intro a hlow ha
    have hplain := (hoffered.plain a).mpr (plain_filled ha)
    rw [hbus, harrived.kept.read (not_or.mpr ⟨not_lt.mpr hlow, hplain.2⟩) hplain.1]
    exact (hoffered.others a fun hwritten => absurd hwritten.low (not_lt.mpr hlow)).trans
      (read_farStart ha)
  have hrts : Lies farLinkage (fun a => 0x200 ≤ a.toNat ∧ a.toNat < 0xA000) farMemory 0x0700
      [.bare .rts] := by decide +kernel
  exact ⟨lies_far hread hrts, fun bank hbank => by cases hbank⟩

/-- A callee that returns a constant at once. -/
theorem far_finishing {d : Context} {next : UInt32} {r' : State} {u : Store}
    (hlowered : lowerReturn (some (.constant 7)) true d (farFresh next) = .ok ((), r'))
    (hprepared : Prepared d (farFresh next)) (hcell : d.convention.zeroPage.pointerLo = 0x90)
    (hsound : Sound u.machine.bus) (hsp : u.regs.sp = m₁.regs.sp - 0) (hbus : u.machine.bus = m₁.bus) :
    Finishing d farLinkage (some (.constant 7)) true (farFresh next) r' 0 m₁ u :=
  ⟨hlowered, hprepared, hcell.symm, ⟨knows_nothing, hsound.plain_cell _, hsound.plain_cell _⟩, hsound,
    hsp, UInt8.le_iff_toNat_le.mpr (Nat.zero_le _), by rw [hbus]; rfl,
    fun v hv place hplace => by cases hv; cases hplace⟩

/-- **The argument is `$0505` and what arrives is `$0005`**: the second byte is taken from the start
of the page.  The constant that the callee returns gets back. -/
theorem far_argument_lost : bytesOf farCaller farLinkage farStart 2 farWord = [5, 5] ∧
    ∃ (front back incoming : List Line) (n n' : ℕ) (m₁ m₂ m₃ : Machine),
      after n (standing (execAll farLinkage front farStart) 0x0600) = some m₁ ∧ m₁.regs.pc = 0x0700 ∧
      (∀ t : Store, t.machine = m₁ → [⟨0⟩, ⟨1⟩].map
        (execAll farLinkage ((prologue farBinding 0 {}).code ++ incoming) t).cells = [5, 0]) ∧
      after n' m₂ = some m₃ ∧ m₃.regs.pc = 0x0603 ∧
      (execAll farLinkage back { execAll farLinkage front farStart with machine := m₃ }).regs.sp =
        farStart.regs.sp ∧
      [⟨2⟩, ⟨3⟩].map (execAll farLinkage back
        { execAll farLinkage front farStart with machine := m₃ }).cells = [7, 0] := by
  obtain ⟨st', st₀, hsite⟩ := farSite
  obtain ⟨-, ⟨kind, front, back, hkind, -, hoffered, hall⟩, hvalue⟩ := conventions_agree hsite
  obtain rfl : CallKind.direct = kind := Except.ok.inj hkind
  have hcalling := far_calling hoffered (show 2 ≤ (execAll farLinkage front farStart).regs.sp.toNat by
    rw [hoffered.sp]
    decide)
  obtain ⟨n, m₁, hafter, harrived, hstarted, hfinishes⟩ := hall 0x0600 hcalling
  -- The parameter has the two bytes that are read.
  have hparam : ∀ t : Store, t.machine = m₁ → [⟨0⟩, ⟨1⟩].map
      (execAll farLinkage ((prologue farBinding 0 {}).code ++ st₀.draft.code) t).cells = [5, 0] := by
    intro t ht
    obtain ⟨arg, harg, hbytes⟩ :=
        (hstarted 0 {} t ht).taken.params 0 0 rfl (by decide) fun j hj hfound => by
      have hlt := (List.getElem?_eq_some_iff.mp hfound).1
      have hlength : farEntered.function.params.length = 1 := rfl
      omega
    obtain rfl : arg = ⟨farWord, .u16⟩ := (Option.some.inj harg).symm
    refine hbytes.trans ?_
    change [farStart.machine.bus.read 0x30FF, farStart.machine.bus.read 0x3000] = _
    rw [read_farStart (by decide), read_farStart (by decide)]
    decide
  -- The callee returns at once.
  obtain ⟨r', hlowered, hcode'⟩ : ∃ r', lowerReturn (some (.constant 7)) true farEntered (farFresh 2) =
      .ok ((), r') ∧ r'.draft.code = [.op .lda (.byte 7), .op .ldx (.byte 0)] := ⟨_, rfl, rfl⟩
  have hstart := hstarted 0 {} { execAll farLinkage front farStart with machine := m₁ } rfl
  generalize execAll farLinkage ((prologue farEntered.binding 0 {}).code ++ st₀.draft.code)
    { execAll farLinkage front farStart with machine := m₁ } = u at hstart
  have hsound : Sound u.machine.bus := by
    rw [hstart.bus]
    exact harrived.kept.sound hoffered.sound
  have hprepared : Prepared farEntered (farFresh 2) :=
    ⟨⟨⟨farEntered.temps, 2⟩, rfl, rfl, by decide⟩, fun v hv => (List.not_mem_nil hv).elim, by decide,
      by decide⟩
  have hfinishing := far_finishing hlowered hprepared rfl hsound hstart.sp hstart.bus
  obtain ⟨lines, exit, hlines, hexit, hback⟩ := hfinishes _ true _ r' 0 {} u hfinishing
  obtain rfl : lines = [.op .lda (.byte 7), .op .ldx (.byte 0)] := by
    rw [hcode'] at hlines
    exact (hlines.trans (List.append_nil lines)).symm
  obtain rfl : exit = [] := (List.append_cancel_right (show [] ++ [Line.bare .rts] = _ from hexit)).symm
  obtain ⟨n', m₃, hafter', hpc, hgave⟩ := hback 0x0700 (far_at_return hoffered harrived hstart.bus)
  refine ⟨?_, front, back, st₀.draft.code, n, n', m₁, _, m₃, hafter, harrived.pc, hparam, hafter', hpc,
    hgave.sp, hgave.stored 1 rfl⟩
  change [farStart.machine.bus.read 0x30FF, farStart.machine.bus.read 0x3100] = _
  rw [read_farStart (by decide), read_farStart (by decide)]
  decide

end Codegen6502.Proofs.Routines.Handover
