import Codegen6502.Proofs.Selecting.Cursors
import Codegen6502.Proofs.Selecting.Operations
import Codegen6502.Proofs.Routines.Handover

/-!
# Variadic arguments

A caller pushes its variadic arguments in one block, and its callee reads them back through a
cursor.  `Reads` is what a callee reads on its way from one store to another, with anything in
between that leaves the cursor and the stack above the callee's own part alone, as calls do
(`call_untouched`).  `fetch_step` is about one access and `Reads.isPrefix` about all of them.
-/

namespace Codegen6502.Proofs.Routines.Variadics

open Selection Convention
open Processor.Memory Processor.LineRun Processor.Straight Processor.Fetching Processor.Stack
open Selecting.Tracking Selecting.Places Selecting.Moves Selecting.Reading Selecting.Numbering
open Selecting.Growth Selecting.Stacking Selecting.Bodies Selecting.Passing Selecting.Addresses
open Selecting.Handing Selecting.Incoming Selecting.Returning Selecting.Computing Selecting.Cursors
open Selecting.Operations
open Switching Trampolines Handover

variable {c c' : Context} {k : Linkage} {s t u w : Store} {b b' : Bus} {sp : UInt8} {a : UInt16}
  {bytes more : List UInt8} {lines : List Line} {cursor result : Temp} {type : ValueType}
  {vs : List VReg}

/-! ### Bytes on the stack -/

/-- Bytes that stand one after the other in the stack page, above an offset. -/
structure Stored (b : Bus) (sp : UInt8) (a : UInt16) (bytes : List UInt8) : Prop where
  beyond : bytes ≠ [] → 0x100 + sp.toNat < a.toNat
  inside : bytes ≠ [] → a.toNat + bytes.length ≤ 0x200
  bytes : bytesFrom b a bytes.length = bytes

theorem Stored.address (h : Stored b sp a bytes) {i : ℕ} (hi : i < bytes.length) :
    ∃ j, sp < j ∧ a + UInt16.ofNat i = Machine.stackAddress j := by
  have hne : bytes ≠ [] := fun hnil => by
    rw [hnil] at hi
    exact Nat.not_lt_zero _ hi
  have habove := h.beyond hne
  have hinside := h.inside hne
  have hbyte : (UInt8.ofNat (a.toNat + i - 0x100)).toNat = a.toNat + i - 0x100 :=
    UInt8.toNat_ofNat_of_lt' (show a.toNat + i - 0x100 < 256 by omega)
  refine ⟨UInt8.ofNat (a.toNat + i - 0x100), ?_, UInt16.toNat_inj.mp ?_⟩
  · rw [UInt8.lt_iff_toNat_lt, hbyte]
    omega
  · rw [toNat_stackAddress, hbyte, UInt16.toNat_add, UInt16.toNat_ofNat']
    omega

/-- What is on the stack stays there as long as the stack does. -/
theorem Stored.congr (h : Stored b sp a bytes) (habove : above b' sp = above b sp) :
    Stored b' sp a bytes := by
  refine ⟨h.beyond, h.inside, ?_⟩
  refine (bytesFrom_congr fun i hi => ?_).trans h.bytes
  obtain ⟨j, hj, haddress⟩ := h.address hi
  rw [haddress]
  exact read_of_above habove hj

theorem Stored.not_scratch (h : Stored b sp a bytes) {i : ℕ} (hi : i < bytes.length) (cell : UInt8) :
    ¬IsScratch cell (a + UInt16.ofNat i) := by
  obtain ⟨j, -, haddress⟩ := h.address hi
  rw [haddress]
  rintro (heq | heq) <;> exact cell_ne_stack _ _ heq.symm

/-- The first bytes, and those behind them. -/
theorem Stored.split (h : Stored b sp a (bytes ++ more)) :
    bytesFrom b a bytes.length = bytes ∧ Stored b sp (a + UInt16.ofNat bytes.length) more := by
  have hall := h.bytes
  rw [List.length_append, bytesFrom_add] at hall
  obtain ⟨hfront, hback⟩ := List.append_inj hall length_bytesFrom
  have hadd : more ≠ [] →
      (a + UInt16.ofNat bytes.length).toNat = a.toNat + bytes.length := fun hne => by
    have hinside := h.inside (List.append_ne_nil_of_right_ne_nil _ hne)
    have hlength := List.length_pos_iff.mpr hne
    rw [List.length_append] at hinside
    rw [UInt16.toNat_add, UInt16.toNat_ofNat']
    omega
  refine ⟨hfront, fun hne => ?_, fun hne => ?_, hback⟩
  · have habove := h.beyond (List.append_ne_nil_of_right_ne_nil _ hne)
    rw [hadd hne]
    omega
  · have hinside := h.inside (List.append_ne_nil_of_right_ne_nil _ hne)
    rw [List.length_append] at hinside
    rw [hadd hne]
    omega

/-- Bytes that have been pushed one after the other, from the last one on. -/
theorem bytesFrom_pushed {n : ℕ} (hn : n ≤ sp.toNat)
    (h : (pushed sp n).map (get t) = bytes.reverse) :
    bytesFrom t.machine.bus (Machine.stackAddress (sp - UInt8.ofNat n + 1)) n = bytes := by
  have hspots : (pushed sp n).reverse.map (get t) = bytes := by
    rw [List.map_reverse, h, List.reverse_reverse]
  rw [← hspots]
  refine List.ext_getElem (by simp [pushed]) fun i hi hi' => ?_
  have hlt : i < n := by simpa using hi
  have hsp := sp.toNat_lt
  simp only [bytesFrom, pushed, List.getElem_map, List.getElem_range, List.getElem_reverse,
    List.length_map, List.length_range]
  refine congrArg t.machine.bus.read (UInt16.toNat_inj.mp ?_)
  rw [UInt16.toNat_add, toNat_stackAddress, toNat_stackAddress, UInt16.toNat_ofNat',
    UInt8.toNat_add, UInt8.toNat_sub, UInt8.toNat_sub, UInt8.toNat_ofNat', UInt8.toNat_ofNat']
  have hone : (1 : UInt8).toNat = 1 := rfl
  omega

/-! ### What leaves them alone -/

/-- Registers, and the stack above an offset, are as they were. -/
structure Untouched (vs : List VReg) (sp : UInt8) (s t : Store) : Prop where
  cells : ∀ v ∈ vs, t.cells v = s.cells v
  above : above t.machine.bus sp = above s.machine.bus sp

theorem Untouched.refl (vs : List VReg) (sp : UInt8) (s : Store) : Untouched vs sp s s :=
  ⟨fun _ _ => rfl, rfl⟩

/-- Filling registers does not touch the stack. -/
theorem above_of_fill {cell : UInt8}
    (h : Same cell everything (fill s (vs.map .cell) bytes) t) :
    above t.machine.bus sp = above s.machine.bus sp := by
  refine above_congr fun i _ => ?_
  refine @get_of_fill s t cell everything _ _ h keeps_cells (.memory (Machine.stackAddress i)) ?_ ?_
  · rintro (heq | heq) <;> exact cell_ne_stack _ _ heq.symm
  · intro hmem
    obtain ⟨v, -, heq⟩ := List.mem_map.mp hmem
    cases heq

/-- Filled registers hold what they have been given. -/
theorem map_cells_of_fill {cell : UInt8} (h : Same cell everything (fill s (vs.map .cell) bytes) t)
    (hnodup : vs.Nodup) (hlength : bytes.length = vs.length) : vs.map t.cells = bytes := by
  have hall := map_get_of_fill (hnodup.map fun _ _ heq => Spot.cell.inj heq) h keeps_cells
    (fun spot hspot => by
      obtain ⟨v, -, rfl⟩ := List.mem_map.mp hspot
      exact v.index.toNat_lt) (by rw [List.length_map, hlength])
  rwa [List.map_map] at hall

/-! ### Accesses -/

/-- The lines of a node of a function are about to run. -/
def Running (c : Context) (k : Linkage) (node : Node) (lines : List Line) (s : Store) : Prop :=
  ∃ next st st' taken, node ∈ c.function.body ∧ Prepared c st ∧
    lowerNode node next c st = .ok (taken, st') ∧ st'.draft.code = st.draft.code ++ lines ∧
    Ready k st.draft s

/-- The address that a cursor holds. -/
def pointee (c : Context) (cursor : Temp) (s : Store) : UInt16 :=
  match registersOf c cursor with
  | [lo, hi] => word (s.cells lo) (s.cells hi)
  | _ => 0

/-- What a function reads through a cursor on its way from a store to another one: the type of each
access, and what is in the registers of its result behind it.  Between two accesses the cursor and
the stack above an offset stay as they are. -/
inductive Reads (c : Context) (k : Linkage) (cursor : Temp) (sp : UInt8) :
    Store → List (ValueType × List UInt8) → Store → Prop
  | pause {s t : Store} (h : Untouched (registersOf c cursor) sp s t) : Reads c k cursor sp s [] t
  | fetch {s t u : Store} {result : Temp} {type : ValueType} {lines : List Line}
      {reads : List (ValueType × List UInt8)} (h : Untouched (registersOf c cursor) sp s t)
      (hrun : Running c k (.vaArg result cursor type) lines t) (hne : result ≠ cursor)
      (hrest : Reads c k cursor sp (execAll k lines t) reads u) :
      Reads c k cursor sp s
        ((type, (registersOf c result).map (execAll k lines t).cells) :: reads) u

theorem Untouched.pointee (h : Untouched (registersOf c cursor) sp s t) :
    pointee c cursor t = pointee c cursor s := by
  unfold Variadics.pointee
  split
  · rename_i lo hi hregisters
    rw [h.cells lo (by simp [hregisters]), h.cells hi (by simp [hregisters])]
  · rfl

/-- **One access** leaves the first bytes of the block in its result and moves the cursor behind
them. -/
theorem fetch_step (hrun : Running c k (.vaArg result cursor type) lines s) (hne : result ≠ cursor)
    (hsize : bytes.length = type.size.toNat)
    (hblock : Stored s.machine.bus sp (pointee c cursor s) (bytes ++ more)) :
    (registersOf c result).map (execAll k lines s).cells = bytes ∧
      Stored (execAll k lines s).machine.bus sp (pointee c cursor (execAll k lines s)) more := by
  obtain ⟨next, st, st', taken, hnode, hprepared, hlower, hcode, hready⟩ := hrun
  obtain ⟨_, st₁, hfetch, hpure⟩ := bind_ok.mp hlower
  obtain ⟨-, rfl⟩ := pure_ok.mp hpure
  obtain ⟨hnumbered, -⟩ := hprepared.facts
  have hhoused := housed_of_prepared hprepared hnode rfl
  have hwidth : (registersOf c result).length = bytes.length := hhoused.length.trans hsize.symm
  obtain ⟨hscalar, lo, hi, hcursor, hadds⟩ := fetch_lines (k := k) hfetch
  have hnodup : (registersOf c cursor).Nodup := by
    cases hother : c.temps[cursor]? with
    | none => simp [registersOf, hother] at hcursor
    | some other => exact registersOf_eq hother ▸ hnumbered.nodup cursor other hother
  rw [hcursor] at hnodup
  have hapart : ∀ v ∈ registersOf c result, v ∉ [lo, hi] := fun v hv hmem =>
    registers_apart hnumbered hne v hv (hcursor ▸ hmem)
  have hpointee : ∀ t : Store, pointee c cursor t = word (t.cells lo) (t.cells hi) := fun t => by
    rw [pointee, hcursor]
  rw [hpointee] at hblock
  obtain ⟨hfront, hback⟩ := hblock.split
  have hsmall := size_cases hscalar
  obtain ⟨lines', hcode', -, hadd⟩ := hadds (by simpa using hnodup) hapart (by omega)
  obtain rfl : lines = lines' := List.append_cancel_left (hcode.symm.trans hcode')
  obtain ⟨hsame, -⟩ := hadd s hready fun i hi => hblock.not_scratch
    (by rw [List.length_append]; omega) _
  rw [hwidth, hfront] at hsame
  have hall := map_cells_of_fill hsame
    (List.nodup_append.mpr ⟨hhoused.nodup, hnodup, fun v hv w hw heq => hapart v hv (heq ▸ hw)⟩)
    (by simp [hwidth, bytesOfAddress])
  rw [List.map_append] at hall
  obtain ⟨hresult, hmoved⟩ := List.append_inj hall (by simp [hwidth])
  have hstep : type.size.toUInt8.toUInt16 = UInt16.ofNat bytes.length := by
    refine UInt16.toNat_inj.mp ?_
    rw [UInt8.toNat_toUInt16, UInt16.toNat_toUInt8, UInt16.toNat_ofNat']
    omega
  refine ⟨hresult, ?_⟩
  rw [hpointee, word_of_bytes hmoved, hstep]
  exact hback.congr (above_of_fill hsame)

/-- **What is read is the block**, access by access, as long as the accesses have its types. -/
theorem Reads.isPrefix {reads : List (ValueType × List UInt8)} (h : Reads c k cursor sp s reads u) :
    ∀ {block : List (ValueType × List UInt8)}, (∀ p ∈ block, p.2.length = p.1.size.toNat) →
      Stored s.machine.bus sp (pointee c cursor s) (block.flatMap Prod.snd) →
      reads.map Prod.fst <+: block.map Prod.fst → reads <+: block := by
  induction h with
  | pause => exact fun _ _ _ => List.nil_prefix
  | fetch hbetween hrun hne hrest ih =>
    intro block hsizes hblock htypes
    cases block with
    | nil =>
      rw [List.map_cons, List.map_nil, List.prefix_nil] at htypes
      cases htypes
    | cons p rest =>
      obtain ⟨htype, hothers⟩ := List.cons_prefix_cons.mp htypes
      rw [← hbetween.pointee, List.flatMap_cons] at hblock
      have hsize := hsizes p (List.mem_cons_self ..)
      rw [← htype] at hsize
      obtain ⟨hbytes, hstored⟩ := fetch_step hrun hne hsize (hblock.congr hbetween.above)
      refine List.cons_prefix_cons.mpr ⟨Prod.ext htype hbytes, ?_⟩
      exact ih (fun q hq => hsizes q (List.mem_cons_of_mem _ hq)) hstored hothers

/-! ### The pointer and the size that have been taken in -/

section Entering

variable {hidden : Hidden} {st₀ : State}

/-- No temporary has the hidden registers of variadic arguments. -/
theorem hidden_apart (h : Entry c hidden st₀) (x : Temp) :
    (∀ lo hi, hidden.vaPointer = some (lo, hi) → ∀ v ∈ registersOf c x, v ∉ [lo, hi]) ∧
      ∀ v, hidden.vaCount = some v → v ∉ registersOf c x := by
  obtain ⟨numbering, hnumber, htemps, hcopy⟩ := h.numbered
  have hroom := h.room
  obtain ⟨hnumbered, hle, -⟩ := numberTemps_spec hnumber (by omega)
  rw [← htemps] at hnumbered
  have heverything : everything = 2 ^ 32 := rfl
  obtain ⟨hpointer, hcount⟩ := hidden_new hcopy hnumbered
    (show numbering.nextVReg.toNat + 5 < everything by omega)
  have hbelow : ∀ v ∈ registersOf c x, v.index.toNat < numbering.nextVReg.toNat :=
    registers_below hnumbered
  exact ⟨fun lo hi hsome v hv hmem => absurd (hbelow v hv) (not_lt.mpr (hpointer lo hi hsome v hmem)),
    fun v hsome hmem => absurd (hbelow v hmem) (not_lt.mpr (hcount v hsome))⟩

/-- A cursor starts at the address that has been taken in. -/
theorem start_step (sp : UInt8) (h : Entry c hidden st₀)
    (hrun : Running { c with hidden } k (.vaStart cursor) lines s) :
    ∃ lo hi, hidden.vaPointer = some (lo, hi) ∧
      pointee { c with hidden } cursor (execAll k lines s) = word (s.cells lo) (s.cells hi) ∧
      above (execAll k lines s).machine.bus sp = above s.machine.bus sp := by
  obtain ⟨next, st, st', taken, hnode, hprepared, hlower, hcode, hready⟩ := hrun
  obtain ⟨_, st₁, hstart, hpure⟩ := bind_ok.mp hlower
  obtain ⟨-, rfl⟩ := pure_ok.mp hpure
  have hhoused := housed_of_prepared hprepared hnode rfl
  obtain ⟨lo, hi, hpointer, hadds⟩ := start_lines (k := k) hstart
  obtain ⟨lines', hcode', -, hadd⟩ := hadds ((hidden_apart h cursor).1 lo hi hpointer)
  obtain rfl : lines = lines' := List.append_cancel_left (hcode.symm.trans hcode')
  obtain ⟨hsame, -⟩ := hadd s hready trivial
  have hcells := map_cells_of_fill hsame hhoused.nodup hhoused.length.symm
  refine ⟨lo, hi, hpointer, ?_, above_of_fill hsame⟩
  obtain ⟨lo', hi', hcursor⟩ := List.length_eq_two.mp hhoused.length
  rw [hcursor] at hcells
  obtain ⟨hlo, hhi⟩ := List.cons_eq_cons.mp hcells
  rw [pointee, hcursor]
  exact congrArg₂ word hlo (List.cons_eq_cons.mp hhi).1

/-- The size that has been taken in is copied. -/
theorem count_step (h : Entry c hidden st₀)
    (hrun : Running { c with hidden } k (.vaCount result) lines s) :
    ∃ v, hidden.vaCount = some v ∧
      (registersOf c result).map (execAll k lines s).cells = [s.cells v] := by
  obtain ⟨next, st, st', taken, hnode, hprepared, hlower, hcode, hready⟩ := hrun
  obtain ⟨_, st₁, hcopy, hpure⟩ := bind_ok.mp hlower
  obtain ⟨-, rfl⟩ := pure_ok.mp hpure
  have hhoused := housed_of_prepared hprepared hnode rfl
  obtain ⟨v, hcount, hadds⟩ := count_lines (k := k) hcopy
  obtain ⟨lines', hcode', -, hadd⟩ := hadds ((hidden_apart h result).2 v hcount)
  obtain rfl : lines = lines' := List.append_cancel_left (hcode.symm.trans hcode')
  obtain ⟨hsame, -⟩ := hadd s hready trivial
  exact ⟨v, hcount, map_cells_of_fill hsame hhoused.nodup hhoused.length.symm⟩

end Entering

/-! ### The block on entry -/

/-- The types of arguments with the bytes that are read for them. -/
def given (c : Context) (k : Linkage) (s : Store) (args : List Argument) :
    List (ValueType × List UInt8) :=
  args.map fun arg => (arg.type, readOf c k s arg.type.size.toNat arg.value)

theorem length_of_given {args : List Argument} :
    ∀ p ∈ given c k s args, p.2.length = p.1.size.toNat := by
  intro p hp
  obtain ⟨arg, -, rfl⟩ := List.mem_map.mp hp
  exact length_readOf ..

theorem flatMap_given (args : List Argument) :
    (given c k s args).flatMap Prod.snd = blockBytes c k s args := by
  rw [given, List.flatMap_map, blockBytes]

section Sites

variable {node : Node} {callee : String} {args : List Argument} {buffer : Option Place}
  {hidden : Hidden} {st st' st₀ : State} {result : Option Temp} {kind : CallKind}
  {front back : List Line} {m₁ m₂ m₃ : Machine} {pc : UInt16}

/-- **On entry of the callee the block stands on the stack**, under what it takes to come back. -/
theorem block_arrives (h : CallSite c c' k node result callee args type buffer hidden st st' st₀ s)
    (hv : c'.binding.variadic = true) (hchecked : Checked c'.binding args buffer)
    (hlines : Lines c k (Written c.convention.zeroPage c'.binding args s.regs.sp)
      st.draft.nextVReg.toNat st st' callee kind c'.binding result args buffer front back)
    (harrived : Arrived k c.convention.zeroPage callee kind (standing (execAll k front s) pc) m₁)
    (ht : t.machine.bus = m₁.bus) :
    Stored t.machine.bus m₁.regs.sp
      (Machine.stackAddress (s.regs.sp - UInt8.ofNat (blockSize c'.binding args) + 1))
      (blockBytes c k s (extra c'.binding args)) := by
  have hsize : blockSize c'.binding args = (blockBytes c k s (extra c'.binding args)).length := by
    rw [length_blockBytes, blockSize, if_pos hv]
  have hroom := h.room
  have hsp := s.regs.sp.toNat_lt
  obtain ⟨hpushed, -⟩ := (h.delivers hchecked hlines harrived ht).block hv
  rw [← length_blockBytes (c := c) (k := k) (s := s), ← hsize] at hpushed
  -- The stack pointer has moved down.
  obtain ⟨bytes, hway⟩ := harrived.way
  have hlength := congrArg List.length hway
  have hdown : (execAll k front s).regs.sp = s.regs.sp - UInt8.ofNat (blockSize c'.binding args) :=
    (h.offered hchecked hlines).sp
  have hlow := congrArg UInt8.toNat hdown
  have hm₁ := m₁.regs.sp.toNat_lt
  rw [List.length_append, stack, stack, length_above, length_above] at hlength
  change _ = bytes.length + (0xFF - (execAll k front s).regs.sp.toNat) at hlength
  rw [UInt8.toNat_sub, UInt8.toNat_ofNat'] at hlow
  have hfirst : bytesFrom t.machine.bus _ (blockSize c'.binding args) = _ :=
    bytesFrom_pushed hroom hpushed
  have hstart : blockSize c'.binding args ≠ 0 →
      (Machine.stackAddress (s.regs.sp - UInt8.ofNat (blockSize c'.binding args) + 1)).toNat =
        0x100 + s.regs.sp.toNat - blockSize c'.binding args + 1 := fun hpos => by
    have hone : (1 : UInt8).toNat = 1 := rfl
    rw [toNat_stackAddress, UInt8.toNat_add, UInt8.toNat_sub, UInt8.toNat_ofNat']
    omega
  refine ⟨fun hne => ?_, fun hne => ?_, ?_⟩
  · have hpos := List.length_pos_iff.mpr hne
    rw [hstart (by omega)]
    omega
  · have hpos := List.length_pos_iff.mpr hne
    rw [hstart (by omega), ← hsize]
    omega
  · rw [← hsize]
    exact hfirst

/-! ### Calls in between -/

/-- The same stack above an offset is the same above a higher one. -/
theorem above_mono {sp' : UInt8} (h : above b' sp = above b sp) (hle : sp ≤ sp') :
    above b' sp' = above b sp' :=
  above_congr fun _ hi => read_of_above h (UInt8.lt_of_le_of_lt hle hi)

/-- What the code in front of a call writes is not above the stack pointer. -/
theorem not_written_above {z : ZeroPage} {binding : Binding} {i : UInt8}
    (hroom : blockSize binding args ≤ sp.toNat) (hi : sp < i) :
    ¬Written z binding args sp (Machine.stackAddress i) := by
  have hcell : ∀ cell : UInt8, Machine.stackAddress i ≠ cell.toUInt16 := fun cell heq =>
    cell_ne_stack _ _ heq.symm
  rintro ((heq | heq) | ⟨j, -, heq⟩ | hpushed)
  · exact hcell _ heq
  · exact hcell _ heq
  · exact hcell _ heq
  · unfold pushedSpots at hpushed
    unfold blockSize at hroom
    split at hpushed
    · rename_i hv
      rw [if_pos hv] at hroom
      obtain ⟨j, hj, heq⟩ := List.mem_map.mp hpushed
      have hlt := List.mem_range.mp hj
      obtain rfl := stackAddress_inj.mp (Spot.memory.inj heq)
      rw [UInt8.lt_iff_toNat_lt, UInt8.toNat_sub, UInt8.toNat_ofNat'] at hi
      have := sp.toNat_lt
      omega
    · cases hpushed

/-- **A call leaves alone** what is above the stack pointer in front of it, and all registers in use
but those of its result. -/
theorem call_untouched (h : CallSite c c' k node result callee args type buffer hidden st st' st₀ s)
    (hchecked : Checked c'.binding args buffer)
    (hlines : Lines c k (Written c.convention.zeroPage c'.binding args s.regs.sp)
      st.draft.nextVReg.toNat st st' callee kind c'.binding result args buffer front back)
    (hback : CameBack callee kind (standing (execAll k front s) pc) m₂ m₃) (hsound : Sound m₂.bus)
    (hsp : s.regs.sp ≤ sp) (hvs : ∀ v ∈ vs, v.index.toNat < st.draft.nextVReg.toNat ∧
      ∀ x, result = some x → v ∉ registersOf c x) :
    Untouched vs sp s (execAll k back { execAll k front s with machine := m₃ }) := by
  have hgave := h.gives_back hlines hchecked hback hsound
  refine ⟨fun v hv => hgave.others v (hvs v hv).1 (hvs v hv).2, ?_⟩
  have hoffered := h.offered hchecked hlines
  have hfront : above (execAll k front s).machine.bus s.regs.sp = above s.machine.bus s.regs.sp :=
    above_congr fun i hi => hoffered.others _ (not_written_above h.room hi)
  -- The stack behind the call is the stack in front of it.
  have hcall : above m₃.bus s.regs.sp = above (execAll k front s).machine.bus s.regs.sp := by
    have hstack : above m₃.bus m₃.regs.sp =
        above (execAll k front s).machine.bus (execAll k front s).regs.sp := hback.stack
    have hm₃ : m₃.regs.sp = (execAll k front s).regs.sp := hback.sp
    rw [hm₃] at hstack
    refine above_mono hstack ?_
    have hroom := h.room
    have hlt := s.regs.sp.toNat_lt
    rw [hoffered.sp, UInt8.le_iff_toNat_le, UInt8.toNat_sub, UInt8.toNat_ofNat']
    omega
  have hplain : PlainScratch st.draft.pointerCell { execAll k front s with machine := m₃ } := by
    have hm₃ := hback.kept.sound hsound
    exact ⟨hm₃.plain_cell _, hm₃.plain_cell _⟩
  obtain ⟨hsame, -⟩ := hlines.back _ hplain
  have hbehind : above (execAll k back { execAll k front s with machine := m₃ }).machine.bus sp =
      above m₃.bus sp := by
    cases result with
    | none => exact @above_of_fill _ _ _ [] [] _ hsame
    | some x => exact above_of_fill hsame
  rw [hbehind, above_mono hcall hsp, above_mono hfront hsp]

/-! ### Reading the block back -/

/-- The registers of the pointer to the block. -/
def pointerRegisters (hidden : Hidden) : List VReg :=
  match hidden.vaPointer with
  | some (lo, hi) => [lo, hi]
  | none => []

/-- What a callee can do with its variadic arguments from the store behind its first lines on. -/
structure ReadsBack (c : Context) (k : Linkage) (sp : UInt8) (block : List (ValueType × List UInt8))
    (v : Store) : Prop where
  /-- Accesses of the types of the arguments, in their order, read the arguments. -/
  values : ∀ {cursor : Temp} {w u : Store} {lines : List Line} {reads : List (ValueType × List UInt8)},
    Untouched (pointerRegisters c.hidden) sp v w → Running c k (.vaStart cursor) lines w →
    Reads c k cursor sp (execAll k lines w) reads u →
    reads.map Prod.fst <+: block.map Prod.fst → reads <+: block
  /-- The count is the number of their bytes. -/
  count : ∀ {result : Temp} {w : Store} {lines : List Line},
    Untouched c.hidden.vaCount.toList sp v w → Running c k (.vaCount result) lines w →
    ∃ byte, (registersOf c result).map (execAll k lines w).cells = [byte] ∧
      byte.toNat = (block.flatMap Prod.snd).length
  /-- A call in between leaves the block alone, and all registers in use but those of its result. -/
  calls : ∀ {d : Context} {node : Node} {result : Option Temp} {callee : String} {args : List Argument}
    {type : ValueType} {buffer : Option Place} {hidden : Hidden} {r r' r₀ : State} {u : Store}
    {vs : List VReg}, CallSite c d k node result callee args type buffer hidden r r' r₀ u →
    u.regs.sp ≤ sp → (∀ v ∈ vs, v.index.toNat < r.draft.nextVReg.toNat ∧
      ∀ x, result = some x → v ∉ registersOf c x) →
    ∃ kind front back, c.convention.callKind c.binding d.binding = .ok kind ∧
      r'.draft.code = r.draft.code ++ (front ++ callCode callee kind ++ back) ∧
      ∀ pc, Calling k c.convention.zeroPage callee kind (standing (execAll k front u) pc) →
        ∃ n m₁, after n (standing (execAll k front u) pc) = some m₁ ∧ m₁.regs.pc = k.symbol callee ∧
          ∀ m₂, Leaving k c.convention.zeroPage kind m₁ m₂ → ∃ n' m₃, after n' m₂ = some m₃ ∧
            m₃.regs.pc = pc + extent (callCode callee kind) ∧
            Untouched vs sp u (execAll k back { execAll k front u with machine := m₃ })

/-- **A callee that has started can read its variadic arguments back.** -/
theorem reads_back (h : CallSite c c' k node result callee args type buffer hidden st st' st₀ s)
    (hv : c'.binding.variadic = true) (hchecked : Checked c'.binding args buffer)
    (hlines : Lines c k (Written c.convention.zeroPage c'.binding args s.regs.sp)
      st.draft.nextVReg.toNat st st' callee kind c'.binding result args buffer front back)
    (harrived : Arrived k c.convention.zeroPage callee kind (standing (execAll k front s) pc) m₁)
    {frame : UInt8} (hstarted : Started c c' k args buffer hidden s m₁ frame t) :
    ReadsBack { c' with hidden } k m₁.regs.sp (given c k s (extra c'.binding args)) t := by
  have hblock := block_arrives h hv hchecked hlines harrived hstarted.bus
  have hlength : (blockBytes c k s (extra c'.binding args)).length = blockSize c'.binding args := by
    rw [length_blockBytes, blockSize, if_pos hv]
  refine ⟨fun hbefore hrun hreads htypes => ?_, fun hbefore hrun => ?_, fun hsite hsp hvs => ?_⟩
  · obtain ⟨lo, hi, hpointer, hstart, habove⟩ := start_step m₁.regs.sp h.entry hrun
    have hregisters : pointerRegisters hidden = [lo, hi] := by rw [pointerRegisters, hpointer]
    have hcells := hbefore.cells
    change ∀ v ∈ pointerRegisters hidden, _ at hcells
    rw [hregisters] at hcells
    refine hreads.isPrefix length_of_given ?_ htypes
    rw [hstart, flatMap_given, hcells lo (by simp), hcells hi (by simp),
      hstarted.taken.pointer lo hi hpointer]
    exact hblock.congr (habove.trans hbefore.above)
  · obtain ⟨v, hcount, hcopied⟩ := count_step h.entry hrun
    have hcell := hbefore.cells v (Option.mem_toList.mpr hcount)
    refine ⟨_, hcopied, ?_⟩
    have hroom := h.room
    have hlt := s.regs.sp.toNat_lt
    rw [hcell, hstarted.taken.count v hcount, flatMap_given, hlength,
      UInt8.toNat_ofNat_of_lt' (show blockSize c'.binding args < 256 by omega)]
  · obtain ⟨hchecked', -⟩ := hsite.lines
    obtain ⟨-, kind', front', back', hkind', hlines', -, htakes⟩ := hsite.takes_in
    refine ⟨kind', front', back', hkind', hlines'.code, fun pc' hcalling => ?_⟩
    obtain ⟨n, m, hafter, harrived', -, hback⟩ := htakes pc' hcalling
    refine ⟨n, m, hafter, harrived'.pc, fun m₂ hleave => ?_⟩
    obtain ⟨n', m₃, hafter', hcame⟩ := hback m₂ hleave
    exact ⟨n', m₃, hafter', hcame.pc,
      call_untouched hsite hchecked' hlines' hcame hleave.sound hsp hvs⟩

/-- **Variadic arguments are read back as they are read in front of the call.**  Whatever the frame
of the callee, what it calls in between and whether or not the call goes through a trampoline:
accesses of their types, in their order, through a cursor that has been started read them one after
the other, and the count is the number of their bytes.  Behind the call the stack pointer is what it
was before the first push, and the result is in its registers.  What is read in front of the call is
the value, if no offset wraps. -/
theorem variadics_read_back
    (h : CallSite c c' k node result callee args type buffer hidden st st' st₀ s)
    (hv : c'.binding.variadic = true) :
    (∃ kind front back, c.convention.callKind c.binding c'.binding = .ok kind ∧
      st'.draft.code = st.draft.code ++ (front ++ callCode callee kind ++ back) ∧
      Offered c.convention.zeroPage c'.binding args s (execAll k front s) ∧
      ∀ pc, Calling k c.convention.zeroPage callee kind (standing (execAll k front s) pc) →
        ∃ n m₁, after n (standing (execAll k front s) pc) = some m₁ ∧
          Arrived k c.convention.zeroPage callee kind (standing (execAll k front s) pc) m₁ ∧
          (∀ frame saves (t v : Store), t.machine = m₁ →
            v = execAll k ((prologue c'.binding frame saves).code ++ st₀.draft.code) t →
            Started c c' k args buffer hidden s m₁ frame v ∧
              ReadsBack { c' with hidden } k m₁.regs.sp (given c k s (extra c'.binding args)) v) ∧
          ∀ value isLast r r' frame saves u,
            Finishing { c' with hidden } k value isLast r r' frame m₁ u →
            ∃ lines exit, r'.draft.code = r.draft.code ++ (lines ++ exitJump c' isLast) ∧
              (epilogue c'.binding frame saves).code = exit ++ [.bare .rts] ∧
              ∀ pc', AtReturn k c.convention.zeroPage kind (standing (execAll k (lines ++ exit) u) pc') →
                ∃ n' m₃, after n' (standing (execAll k (lines ++ exit) u) pc') = some m₃ ∧
                  m₃.regs.pc = pc + extent (callCode callee kind) ∧
                  GaveBack c st.draft.nextVReg.toNat result (resultOf { c' with hidden } k u value) s
                    (execAll k back { execAll k front s with machine := m₃ })) ∧
    ∀ (u : Store) (size : ℕ) (value : Value), ¬Wraps size value →
      readOf c k u size value = bytesOf c k u size value := by
  obtain ⟨hchecked, -⟩ := h.lines
  obtain ⟨-, kind, front, back, hkind, hlines, hoffered, htakes⟩ := h.takes_in
  refine ⟨⟨kind, front, back, hkind, hlines.code, hoffered, fun pc hcalling => ?_⟩,
    fun u size value => readOf_eq⟩
  obtain ⟨n, m₁, hafter, harrived, hstarted, hback⟩ := htakes pc hcalling
  refine ⟨n, m₁, hafter, harrived, fun frame saves t v ht hv' => ?_,
    fun value isLast r r' frame saves u hfinishing =>
      h.returns hkind hlines hchecked hback hfinishing saves⟩
  have hstart := hstarted frame saves t ht
  rw [← hv'] at hstart
  exact ⟨hstart, reads_back h hv hchecked hlines harrived hstart⟩

end Sites

/-! ### A variadic argument behind offset 255 -/

/-- The callee reads one variadic argument and returns a constant. -/
def farReader : FunctionDef where
  signature := { name := "g", params := [], returnType := .u16, variadic := true }
  params := []
  body := [.vaStart 0, .vaArg 1 0 .u16, .store (.temp 1) (.absolute 0x0500) .u16,
    .ret (some (.constant 7))]

def readerBinding : Binding :=
  { farBinding with params := [], variadic := true, vaCountSlot := some 0, vaPtrSlot := some 1 }

def readerCaller : Context :=
  { farCaller with bindings := (∅ : Std.TreeMap String Binding).insert "g" readerBinding }

/-- The callee, before it takes its arguments in. -/
def readerEntered : Context :=
  { readerCaller with
    function := farReader
    binding := readerBinding
    temps := ((∅ : Std.TreeMap Temp TempInfo).insert 0 ⟨[⟨0⟩, ⟨1⟩], .ptr⟩).insert 1
      ⟨[⟨2⟩, ⟨3⟩], .u16⟩ }

/-- What the callee takes in: the pointer to the block. -/
def readerHidden : Hidden := { vaPointer := some (⟨4⟩, ⟨5⟩) }

theorem readerSite : ∃ st' st₀, CallSite readerCaller readerEntered farLinkage farCall (some 1) "g"
    [⟨farWord, .u16⟩] .u16 none readerHidden (farFresh 4) st' st₀ farStart := by
  obtain ⟨st₀, hentry⟩ : ∃ st, Entry readerEntered readerHidden st :=
    ⟨_, rfl, rfl, ⟨⟨readerEntered.temps, 4⟩, rfl, rfl, rfl⟩, by decide⟩
  obtain ⟨st', hlowered⟩ : ∃ st', lowerCall farCall (some 1) "g" [⟨farWord, .u16⟩] .u16 none readerCaller
    (farFresh 4) = .ok ((), st') := ⟨_, rfl⟩
  exact ⟨st', st₀, hlowered, far_prepared _, by decide, far_ready 4, rfl, sound_filled, by decide, rfl,
    rfl, hentry, by decide, far_misses _ _⟩

theorem reader_prepared : Prepared { readerEntered with hidden := readerHidden } (farFresh 6) :=
  ⟨⟨⟨readerEntered.temps, 4⟩, rfl, rfl, by decide⟩, fun v hv => (List.not_mem_nil hv).elim, by decide,
    by decide⟩

/-- A node of the callee whose lines run from any store with a sound memory. -/
theorem reader_running {node : Node} {r : State} (hnode : node ∈ farReader.body)
    (h : lowerNode node none { readerEntered with hidden := readerHidden } (farFresh 6) = .ok (false, r))
    (hs : Sound s.machine.bus) :
    Running { readerEntered with hidden := readerHidden } farLinkage node r.draft.code s :=
  ⟨none, farFresh 6, r, false, hnode, reader_prepared, h, (List.nil_append _).symm, knows_nothing,
    hs.plain_cell _, hs.plain_cell _⟩

/-- **The argument is `$0505` and what is read is `$0005`**: the second byte is taken from the start
of the page before it is pushed.  The stack pointer and the constant that the callee returns get
back. -/
theorem far_variadic_lost : bytesOf readerCaller farLinkage farStart 2 farWord = [5, 5] ∧
    ∃ (front back incoming starting fetching : List Line) (n n' : ℕ) (m₁ m₂ m₃ : Machine),
      after n (standing (execAll farLinkage front farStart) 0x0600) = some m₁ ∧ m₁.regs.pc = 0x0700 ∧
      (∀ t : Store, t.machine = m₁ → [⟨2⟩, ⟨3⟩].map (execAll farLinkage
        ((prologue readerBinding 0 {}).code ++ incoming ++ starting ++ fetching) t).cells = [5, 0]) ∧
      after n' m₂ = some m₃ ∧ m₃.regs.pc = 0x0603 ∧
      (execAll farLinkage back { execAll farLinkage front farStart with machine := m₃ }).regs.sp =
        farStart.regs.sp ∧
      [⟨2⟩, ⟨3⟩].map (execAll farLinkage back
        { execAll farLinkage front farStart with machine := m₃ }).cells = [7, 0] := by
  obtain ⟨st', st₀, hsite⟩ := readerSite
  obtain ⟨⟨kind, front, back, hkind, -, hoffered, hall⟩, -⟩ := variadics_read_back hsite rfl
  obtain rfl : CallKind.direct = kind := Except.ok.inj hkind
  have hcalling := far_calling hoffered (show 2 ≤ (execAll farLinkage front farStart).regs.sp.toNat by
    rw [hoffered.sp]
    decide)
  obtain ⟨n, m₁, hafter, harrived, hreads, hfinishes⟩ := hall 0x0600 hcalling
  have hsound : ∀ {u : Store}, u.machine.bus = m₁.bus → Sound u.machine.bus := fun hbus => by
    rw [hbus]
    exact harrived.kept.sound hoffered.sound
  -- The callee starts its cursor and reads one word.
  obtain ⟨r₁, hstart, hcode₁⟩ : ∃ r, lowerNode (.vaStart 0) none
      { readerEntered with hidden := readerHidden } (farFresh 6) = .ok (false, r) ∧ r.draft.code =
        [.op .lda (.virtual ⟨4⟩), .op .sta (.virtual ⟨0⟩), .op .lda (.virtual ⟨5⟩),
          .op .sta (.virtual ⟨1⟩)] := ⟨_, rfl, rfl⟩
  obtain ⟨r₂, hfetch⟩ : ∃ r, lowerNode (.vaArg 1 0 .u16) none
      { readerEntered with hidden := readerHidden } (farFresh 6) = .ok (false, r) := ⟨_, rfl⟩
  have hstraight : ∀ line ∈ r₁.draft.code, IsStraight line := by
    rw [hcode₁]
    simp only [List.mem_cons, List.not_mem_nil, or_false]
    rintro line (rfl | rfl | rfl | rfl) <;> exact ⟨_, _, rfl, rfl, rfl⟩
  have hvalue : ∀ t : Store, t.machine = m₁ → [⟨2⟩, ⟨3⟩].map (execAll farLinkage
      ((prologue readerBinding 0 {}).code ++ st₀.draft.code ++ r₁.draft.code ++ r₂.draft.code) t).cells =
        [5, 0] := by
    intro t ht
    obtain ⟨hstarted, hback⟩ := hreads 0 {} t
      (execAll farLinkage ((prologue readerBinding 0 {}).code ++ st₀.draft.code) t) ht rfl
    rw [execAll_append, execAll_append]
    generalize execAll farLinkage ((prologue readerBinding 0 {}).code ++ st₀.draft.code) t = v
      at hstarted hback ⊢
    have hv := hsound hstarted.bus
    have hprefix := hback.values (.refl _ _ v) (reader_running (by decide) hstart hv)
      (.fetch (.refl _ _ _)
        (reader_running (by decide) hfetch (sound_execAll (k := farLinkage) hstraight v hv))
        (by decide) (.pause (.refl _ _ _))) (show [ValueType.u16] <+: [.u16] from List.prefix_rfl)
    obtain ⟨hpair, -⟩ := List.cons_prefix_cons.mp hprefix
    refine (Prod.ext_iff.mp hpair).2.trans ?_
    change [farStart.machine.bus.read 0x30FF, farStart.machine.bus.read 0x3000] = _
    rw [read_farStart (by decide), read_farStart (by decide)]
    decide
  -- Its return code gets back from the store it was entered with.
  obtain ⟨r', hlowered, hcode'⟩ : ∃ r', lowerReturn (some (.constant 7)) true
      { readerEntered with hidden := readerHidden } (farFresh 6) = .ok ((), r') ∧
        r'.draft.code = [.op .lda (.byte 7), .op .ldx (.byte 0)] := ⟨_, rfl, rfl⟩
  have hfinishing : Finishing _ farLinkage _ true _ r' 0 m₁
      { execAll farLinkage front farStart with machine := m₁ } :=
    far_finishing hlowered reader_prepared rfl (hsound rfl) (UInt8.sub_zero _).symm rfl
  obtain ⟨lines, exit, hlines, hexit, hback⟩ := hfinishes _ true _ r' 0 {} _ hfinishing
  obtain rfl : lines = [.op .lda (.byte 7), .op .ldx (.byte 0)] := by
    rw [hcode'] at hlines
    exact (hlines.trans (List.append_nil lines)).symm
  obtain rfl : exit = [] := (List.append_cancel_right (show [] ++ [Line.bare .rts] = _ from hexit)).symm
  obtain ⟨n', m₃, hafter', hpc, hgave⟩ := hback 0x0700 (far_at_return hoffered harrived rfl)
  refine ⟨?_, front, back, st₀.draft.code, r₁.draft.code, r₂.draft.code, n, n', m₁, _, m₃, hafter,
    harrived.pc, hvalue, hafter', hpc, hgave.sp, hgave.stored 1 rfl⟩
  change [farStart.machine.bus.read 0x30FF, farStart.machine.bus.read 0x3100] = _
  rw [read_farStart (by decide), read_farStart (by decide)]
  decide

end Codegen6502.Proofs.Routines.Variadics
