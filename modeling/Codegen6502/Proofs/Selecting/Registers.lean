import Codegen6502.Proofs.Selecting.Fields
import Codegen6502.Proofs.Selecting.Returning

/-!
# Arguments in registers

A call of a fixed address takes up to three arguments, in A, X and Y.  Loading one register must not
destroy another: bytes behind pointers are copied to registers of their own first, since reading
them takes A, Y and the scratch pointer (`loads_registerByte`); Y is loaded next, through A
(`loads_loadY`); and A waits on the stack while X is loaded through it (`loads_loadAX`).

`registers_passed` puts them together.  The byte on which A waits is the free one that the stack
pointer stands for, so an argument for X must not be read there: `stacked_argument_lost` is a call
where it is.
-/

namespace Codegen6502.Proofs.Selecting.Registers

open Selection Growth
open Processor.Memory Processor.LineRun Processor.Straight Processor.Passages
open Tracking Places Moves Courses Reading Computing Operations Stacking Passing Returning

variable {c : Context} {k : Linkage} {s t u : Store} {st st' : State} {d d' d'' : Draft}
  {cell : UInt8} {n : ℕ} {operand : Operand}

/-! ### Lines that call nothing -/

/-- What straight lines do that record no call. -/
structure Loads (k : Linkage) (fresh : ℕ) (d d' : Draft) (pre : Store → Prop)
    (post : Store → Store → Prop) : Prop extends Hands k fresh d d' pre post where
  calls : d'.calls = d.calls

namespace Loads

variable {m n : ℕ} {pre pre' : Store → Prop} {post post' : Store → Store → Prop}

theorem refl (h : ∀ s, Ready k d s → pre s → post s s) : Loads k 0 d d pre post := ⟨.refl h, rfl⟩

theorem trans (h : Loads k m d d' pre post) (h' : Loads k n d' d'' pre' post')
    (link : ∀ s t, pre s → post s t → pre' t) :
    Loads k (m + n) d d'' pre fun s u => ∃ t, post s t ∧ post' t u :=
  ⟨h.toHands.trans h'.toHands link, h'.calls.trans h.calls⟩

theorem imp (h : Loads k m d d' pre post) (hmn : m ≤ n) (hpre : ∀ s, pre' s → pre s)
    (hpost : ∀ s t, Ready k d s → pre' s → post s t → post' s t) : Loads k n d d' pre' post' :=
  ⟨h.toHands.imp hmn hpre hpost, h.calls⟩

theorem of_passes (h : Passes k m d d' pre post) :
    Loads k m d d' pre fun s t => post s t ∧ t.regs.sp = s.regs.sp := by
  refine ⟨.of_passes h, ?_⟩
  obtain ⟨es, hgrown, hplain⟩ := h.plain
  have hnone : ∀ e ∈ es, e.2 = none := fun e he => by
    obtain ⟨opcode, operand, rfl, -⟩ := hplain e he
    rfl
  rw [hgrown.calls, callsFrom_none hnone, List.append_nil]

theorem of_op {op : Opcode} {operand : Operand} (h : Emits k m d (d.op op operand) pre post) :
    Loads k m d (d.op op operand) pre post := ⟨.of_op h, rfl⟩

end Loads

/-! ### Single registers -/

/-- A holds a byte, and only flags have changed besides. -/
structure Fetched (byte : UInt8) (s t : Store) : Prop where
  only : t = s.setRegs t.regs
  a : t.regs.a = byte
  x : t.regs.x = s.regs.x
  y : t.regs.y = s.regs.y
  sp : t.regs.sp = s.regs.sp

theorem Fetched.same {byte : UInt8} (h : Fetched byte s t) : Same cell n s t := by
  rw [h.only]
  exact Same.setRegs s _

/-- **A byte in plain memory is loaded** without any other register. -/
theorem loads_direct (d : Draft) (h : IsSimple operand) :
    Loads k 0 d (d.loadA (.direct operand)) (fun _ => True) fun s t =>
      Fetched (get s (operandSpot k operand)) s t := by
  change Loads k 0 d (d.loadOperand operand) _ _
  unfold Draft.loadOperand
  split
  · rename_i hholds
    refine .refl fun s hr _ => ⟨rfl, ?_, rfl, rfl, rfl⟩
    rw [← value_eq h]
    exact (hr.1.a operand (by simpa [Knowledge.aHolds] using hholds)).2.symm
  · refine (Loads.of_op (emits_lda d operand (isSome_encode_lda h))).imp le_rfl (fun _ hs => hs) ?_
    rintro s t - - rfl
    exact ⟨rfl, value_eq h, rfl, rfl, rfl⟩

theorem loads_ldy (d : Draft) (byte : UInt8) :
    Loads k 0 d (d.op .ldy (.byte byte)) (fun _ => True) fun s t =>
      t = s.setRegs (s.regs.loadY byte) := by
  refine .of_op (Emits.op d rfl rfl fun s hr _ => ⟨knows_ldy hr.1 byte, ?_⟩)
  rw [exec_ldy]
  exact ⟨(Same.setRegs (n := 0) s _).plainScratch hr.2, rfl⟩

theorem byte_eq {byte : UInt8} (h : (ByteLoc.direct operand).byte? = some byte) :
    operand = .byte byte := by
  unfold ByteLoc.byte? at h
  split at h
  · rename_i b heq
    rw [← Option.some.inj h]
    exact ByteLoc.direct.inj heq
  · cases h

/-- **Y is loaded**, through A if it is no constant. -/
theorem loads_loadY (h : IsSimple operand) {v : Unit}
    (hload : loadY (.direct operand) c st = .ok (v, st')) :
    Loads k 0 st.draft st'.draft (fun _ => True) fun s t =>
      t = s.setRegs t.regs ∧ t.regs.y = get s (operandSpot k operand) ∧ t.regs.sp = s.regs.sp := by
  unfold loadY at hload
  cases hbyte : (ByteLoc.direct operand).byte? with
  | some byte =>
    obtain rfl := byte_eq hbyte
    simp only [hbyte] at hload
    rw [show st'.draft = st.draft.op .ldy (.byte byte) from modifyDraft_ok hload]
    refine (loads_ldy st.draft byte).imp le_rfl (fun _ hs => hs) ?_
    rintro s t - - rfl
    exact ⟨rfl, rfl, rfl⟩
  | none =>
    simp only [hbyte] at hload
    obtain ⟨_, st₁, hfirst, hsecond⟩ := bind_ok.mp hload
    have hfetch := loads_direct (k := k) st.draft h
    rw [← modifyDraft_ok hfirst] at hfetch
    have htay := Loads.of_op (emits_transfer (k := k) st₁.draft (show isTransfer .tay = true from rfl))
    rw [show st₁.draft.op .tay .implied = st'.draft from (modifyDraft_ok hsecond).symm] at htay
    refine (hfetch.trans htay fun _ _ _ _ => trivial).imp le_rfl (fun _ hs => hs) ?_
    rintro s u - - ⟨t, ht, rfl⟩
    exact ⟨by rw [ht.only]; rfl, ht.a, ht.sp⟩

/-- A and X are loaded, and besides registers only the free byte under the stack may have
changed. -/
structure LoadedAX (k : Linkage) (cell : UInt8) (a x : Option Operand) (s t : Store) : Prop where
  a : ∀ operand, a = some operand → t.regs.a = get s (operandSpot k operand)
  x : ∀ operand, x = some operand → t.regs.x = get s (operandSpot k operand)
  y : t.regs.y = s.regs.y
  sp : t.regs.sp = s.regs.sp
  same : ∃ byte, Same cell everything (put s (top s) byte) t

theorem same_top (hlow : LowPlain s) (h : Same cell n s t) : ∃ byte, Same cell n (put s (top s) byte) t :=
  ⟨_, (Same.put_get (keeps_top hlow)).trans h⟩

/-- A byte can be loaded after a push. -/
structure Lasting (k : Linkage) (cell : UInt8) (s : Store) (operand : Operand) : Prop where
  low : LowPlain s
  outside : Outside cell (operandSpot k operand)
  below : Below everything (.direct operand)
  clear : operandSpot k operand ≠ top s

theorem Lasting.get {byte : UInt8} (hsimple : IsSimple operand) (h : Lasting k cell s operand)
    (hsame : Same cell everything (put s (top s) byte) t) :
    get t (operandSpot k operand) = get s (operandSpot k operand) := by
  have hmoved : IsMoved everything (.direct operand) := ⟨hsimple, h.below⟩
  refine (hsame.get (operandSpot k operand) (visible_of_clear (s := s) hmoved h.outside)).trans ?_
  rw [Processor.Straight.get_put (keeps_top h.low), if_neg h.clear.symm]

/-- **A waits on the stack while X is loaded through it.** -/
theorem loads_stacked (d : Draft) {a x : Operand} (ha : IsSimple a) (hx : IsSimple x) :
    Loads k 0 d ((((((d.loadA (.direct a)).bare .pha).loadA (.direct x)).bare .tax).bare .pla))
      (fun s => Lasting k d.pointerCell s x) (LoadedAX k d.pointerCell (some a) (some x)) := by
  have hfirst := loads_direct (k := k) d ha
  have hpush := Loads.of_op (emits_push (k := k) (n := everything) (d.loadA (.direct a)))
  rw [hfirst.cell] at hpush
  have hsecond := loads_direct (k := k) ((d.loadA (.direct a)).bare .pha) hx
  have htax := Loads.of_op (emits_transfer (k := k)
    (((d.loadA (.direct a)).bare .pha).loadA (.direct x)) (show isTransfer .tax = true from rfl))
  have hpull := Loads.of_op (emits_pull (k := k)
    ((((d.loadA (.direct a)).bare .pha).loadA (.direct x)).bare .tax))
  have hfirst' : Loads k 0 d (d.loadA (.direct a)) (fun s => Lasting k d.pointerCell s x) fun s t =>
      LowPlain t ∧ Fetched (get s (operandSpot k a)) s t :=
    hfirst.imp le_rfl (fun _ _ => trivial) fun s t _ hs ht =>
      ⟨hs.low.same (ht.same : Same d.pointerCell 0 s t), ht⟩
  refine ((((hfirst'.trans hpush fun s t _ ht => ht.1).trans hsecond
    fun _ _ _ _ => trivial).trans htax fun _ _ _ _ => trivial).trans hpull
      fun _ _ _ _ => trivial).imp le_rfl (fun _ hs => hs) ?_
  rintro s w - hs ⟨v, ⟨u, ⟨t, ⟨t', ⟨-, ha'⟩, hpushed, hregs⟩, hx'⟩, rfl⟩, rfl⟩
  have htop : top t' = top s := by rw [top, ha'.sp]; rfl
  rw [htop, ha'.a] at hpushed
  have hput : Same d.pointerCell everything (put s (top s) (get s (operandSpot k a))) t :=
    ((ha'.same).put (keeps_top hs.low) _).trans hpushed
  -- The stack pointer is back where it was, so what is pulled is what was pushed.
  have hback : u.regs.sp + 1 = s.regs.sp := by
    rw [hx'.sp, hregs]
    change t'.regs.sp - 1 + 1 = s.regs.sp
    rw [ha'.sp]
    grind
  have hpulled : get u (top s) = get s (operandSpot k a) := by
    refine ((hput.trans hx'.same).get (top s) (visible_top s)).trans ?_
    rw [Processor.Straight.get_put (keeps_top hs.low), if_pos rfl]
  refine ⟨?_, ?_, ?_, hback, _, (hput.trans hx'.same).trans (Same.setRegs u _)⟩
  · rintro _ ⟨⟩
    refine Eq.trans ?_ hpulled
    rw [top, ← hback]
    rfl
  · rintro _ ⟨⟩
    exact hx'.a.trans (hs.get hx hput)
  · rw [← ha'.y]
    exact hx'.y.trans (by rw [hregs])

/-- A is loaded if it is wanted. -/
def wanted (d : Draft) : Option Operand → Draft
  | some operand => d.loadA (.direct operand)
  | none => d

theorem loads_wanted (d : Draft) {a : Option Operand}
    (ha : ∀ operand, a = some operand → IsSimple operand) :
    Loads k 0 d (wanted d a) LowPlain (LoadedAX k d.pointerCell a none) := by
  cases a with
  | none => exact .refl fun s _ hs => ⟨nofun, nofun, rfl, rfl, same_top hs (Same.refl s)⟩
  | some operand =>
    refine (loads_direct d (ha operand rfl)).imp le_rfl (fun _ _ => trivial) fun s t _ hs ht => ?_
    refine ⟨?_, nofun, ht.y, ht.sp, same_top hs ht.same⟩
    rintro _ ⟨⟩
    exact ht.a

/-- **A and X are loaded**, X last. -/
theorem loads_loadAX {a x : Option Operand} (ha : ∀ operand, a = some operand → IsSimple operand)
    (hx : ∀ operand, x = some operand → IsSimple operand) {v : Unit}
    (h : loadAX (a.map .direct) (x.map .direct) c st = .ok (v, st')) :
    Loads k 0 st.draft st'.draft
      (fun s => LowPlain s ∧ ∀ operand, a.isSome = true → x = some operand →
        Lasting k st.draft.pointerCell s operand) (LoadedAX k st.draft.pointerCell a x) := by
  have hwanted := loads_wanted (k := k) st.draft ha
  cases x with
  | none =>
    have hdraft : st'.draft = wanted st.draft a := by
      cases a with
      | none => exact congrArg State.draft (pure_ok.mp h).2
      | some operand =>
        have h : loadA (.direct operand) c st = .ok (v, st') := h
        exact modifyDraft_ok h
    rw [hdraft]
    exact hwanted.imp le_rfl (fun _ hs => hs.1) fun _ _ _ _ ht => ht
  | some x =>
    cases hbyte : (ByteLoc.direct x).byte? with
    | some byte =>
      obtain rfl := byte_eq hbyte
      have hdraft : st'.draft = (wanted st.draft a).op .ldx (.byte byte) := by
        cases a with
        | none =>
          have h : op .ldx (.byte byte) c st = .ok (v, st') := h
          exact modifyDraft_ok h
        | some operand =>
          obtain ⟨_, st₁, hload, hldx⟩ := bind_ok.mp h
          rw [modifyDraft_ok hldx, modifyDraft_ok hload]
          rfl
      rw [hdraft]
      refine (hwanted.trans (Loads.of_op (emits_ldx _ byte)) fun _ _ _ _ => trivial).imp le_rfl
        (fun _ hs => hs.1) ?_
      rintro s u - - ⟨t, ⟨ha, -, hy, hsp, byte', hsame⟩, rfl⟩
      refine ⟨ha, ?_, hy, hsp, byte', hsame.trans (Same.setRegs t _)⟩
      rintro _ ⟨⟩
      rfl
    | none =>
      cases a with
      | none =>
        simp only [loadAX, Option.map_some, Option.map_none, hbyte] at h
        obtain ⟨_, st₁, hload, htax⟩ := bind_ok.mp h
        rw [modifyDraft_ok htax, modifyDraft_ok hload]
        refine ((loads_direct st.draft (hx x rfl)).trans (Loads.of_op (emits_transfer (k := k) _
          (show isTransfer .tax = true from rfl))) fun _ _ _ _ => trivial).imp le_rfl
          (fun _ _ => trivial) ?_
        rintro s u - ⟨hlow, -⟩ ⟨t, ht, rfl⟩
        refine ⟨nofun, ?_, ht.y, ht.sp, same_top hlow (ht.same.trans (Same.setRegs t _))⟩
        rintro _ ⟨⟩
        exact ht.a
      | some operand =>
        simp only [loadAX, Option.map_some, hbyte] at h
        obtain ⟨_, st₁, hfirst, h⟩ := bind_ok.mp h
        obtain ⟨_, st₂, hpush, h⟩ := bind_ok.mp h
        obtain ⟨_, st₃, hsecond, h⟩ := bind_ok.mp h
        obtain ⟨_, st₄, htax, hpull⟩ := bind_ok.mp h
        rw [modifyDraft_ok hpull, modifyDraft_ok htax, modifyDraft_ok hsecond, modifyDraft_ok hpush,
          modifyDraft_ok hfirst]
        exact (loads_stacked st.draft (ha operand rfl) (hx x rfl)).imp le_rfl
          (fun s hs => hs.2 x rfl rfl) fun _ _ _ _ ht => ht

/-- Lines of which one loads X.  Behind it X is not written any more, and no line names a virtual
register or a frame byte. -/
def SettlesX (lines : List Line) : Prop :=
  ∃ front line back, lines = front ++ line :: back ∧ line.effects.writes.x = true ∧
    ∀ l ∈ back, l.effects.writes.x = false ∧
      ∀ op operand, l = .op op operand → operand.isPreAllocation = false

theorem settlesX_last {line : Line} (h : line.effects.writes.x = true) (front : List Line) :
    SettlesX (front ++ [line]) :=
  ⟨front, line, [], rfl, h, fun _ hl => (List.not_mem_nil hl).elim⟩

theorem settlesX_pulled (front : List Line) :
    SettlesX (front ++ [Line.bare .tax] ++ [Line.bare .pla]) := by
  refine ⟨front, .bare .tax, [.bare .pla], by simp, rfl, fun l hl => ?_⟩
  obtain rfl := List.mem_singleton.mp hl
  refine ⟨rfl, ?_⟩
  rintro op operand ⟨⟩
  rfl

theorem settlesX_loadAX {a : Option ByteLoc} {x : ByteLoc} {v : Unit}
    (h : loadAX a (some x) c st = .ok (v, st')) : SettlesX st'.draft.code := by
  unfold loadAX at h
  cases hbyte : x.byte? with
  | some byte =>
    cases a with
    | none =>
      simp only [hbyte] at h
      rw [modifyDraft_ok h]
      exact settlesX_last rfl _
    | some a =>
      simp only [hbyte] at h
      obtain ⟨_, st₁, -, hldx⟩ := bind_ok.mp h
      rw [modifyDraft_ok hldx]
      exact settlesX_last rfl _
  | none =>
    cases a with
    | none =>
      simp only [hbyte] at h
      obtain ⟨_, st₁, -, htax⟩ := bind_ok.mp h
      rw [modifyDraft_ok htax]
      exact settlesX_last rfl _
    | some a =>
      simp only [hbyte] at h
      obtain ⟨_, st₁, -, h⟩ := bind_ok.mp h
      obtain ⟨_, st₂, -, h⟩ := bind_ok.mp h
      obtain ⟨_, st₃, -, h⟩ := bind_ok.mp h
      obtain ⟨_, st₄, htax, hpull⟩ := bind_ok.mp h
      rw [modifyDraft_ok hpull, modifyDraft_ok htax]
      exact settlesX_pulled _

/-! ### The bytes of the arguments -/

/-- A location serves a value: it holds the low byte, and what is read from memory is read where the
value is. -/
structure Serves (c : Context) (k : Linkage) (cell : UInt8) (s t : Store) (value : Value)
    (loc : ByteLoc) : Prop where
  holds : get t (spotOf k t loc) = lowOf c k s value
  outside : Outside cell (spotOf k t loc)
  place : ∀ a, spotOf k t loc = .memory a →
    ∃ place, value = .memory place ∧ isDirect place = true ∧ found c k s place 0 = .memory a

/-- Locations in plain memory, with registers below a number. -/
def Plainly (n : ℕ) (loc : ByteLoc) : Prop := loc.isIndirect = false ∧ IsMoved n loc

theorem Serves.same {value : Value} {loc : ByteLoc} (h : Serves c k cell s t value loc)
    (hloc : IsMoved n loc) (hsame : Same cell n t u) : Serves c k cell s u value loc := by
  obtain ⟨hholds, houtside⟩ := Same.presented hsame hloc ⟨h.holds, h.outside⟩
  refine ⟨hholds, houtside, fun a ha => h.place a ?_⟩
  rwa [hsame.spotOf hloc.2] at ha

/-- What has been found after lines that change nothing in use has been found before them. -/
theorem Serves.before {value : Value} {loc : ByteLoc} (h : Serves c k cell t u value loc)
    (hsame : Same cell n s t) (hp : Pointed c n) (hr : Readable c k cell s 1 value) :
    Serves c k cell s u value loc := by
  have hread := Same.readOf hsame hp hr
  rw [readOf_low, readOf_low] at hread
  refine ⟨h.holds.trans (List.singleton_inj.mp hread), h.outside, fun a ha => ?_⟩
  obtain ⟨place, hvalue, hdirect, hfound⟩ := h.place a ha
  exact ⟨place, hvalue, hdirect, (Same.found hsame hp place 0).symm.trans hfound⟩

theorem serves_before {values : List (Option Value)} {locs : List (Option ByteLoc)}
    (h : List.Forall₂ (Option.Rel (Serves c k cell t u)) values locs) (hsame : Same cell n s t)
    (hp : Pointed c n) (hr : ∀ value, some value ∈ values → Readable c k cell s 1 value) :
    List.Forall₂ (Option.Rel (Serves c k cell s u)) values locs := by
  induction h with
  | nil => exact .nil
  | cons hfirst _ ih =>
    refine .cons ?_ (ih fun value hvalue => hr value (List.mem_cons_of_mem _ hvalue))
    cases hfirst with
    | none => exact .none
    | some hserves => exact .some (hserves.before hsame hp (hr _ (List.mem_cons_self ..)))

theorem Plainly.mono {m : ℕ} {loc : ByteLoc} (h : Plainly m loc) (hle : m ≤ n) : Plainly n loc :=
  ⟨h.1, h.2.mono hle⟩

theorem registerByte_some {value : Value} {loc? : Option ByteLoc}
    (h : registerByte (some value) c st = .ok (loc?, st')) : ∃ loc, loc? = some loc := by
  obtain ⟨locs, st₁, -, hrest⟩ := bind_ok.mp h
  cases locs with
  | nil => cases hrest
  | cons byte rest =>
    obtain ⟨loc, st₂, -, hpure⟩ := bind_ok.mp hrest
    exact ⟨loc, (pure_ok.mp hpure).1⟩

/-- **The byte of an argument**, copied out if it is behind a pointer. -/
theorem loads_registerByte {value : Value} {loc? : Option ByteLoc}
    (h : registerByte (some value) c st = .ok (loc?, st')) (hp : Pointed c st.draft.nextVReg.toNat)
    (htracks : TracksA st.draft) (hroom : st.draft.nextVReg.toNat + 4 < everything) :
    ∃ loc, loc? = some loc ∧ Plainly st'.draft.nextVReg.toNat loc ∧
      Loads k 3 st.draft st'.draft (fun s => Readable c k st.draft.pointerCell s 1 value) fun s t =>
        Same st.draft.pointerCell st.draft.nextVReg.toNat s t ∧
          Serves c k st.draft.pointerCell s t value loc ∧ t.regs.sp = s.regs.sp := by
  obtain ⟨locs, st₁, hvalue, hrest⟩ := bind_ok.mp h
  have hs := supplied_valueBytes (k := k) hvalue hp htracks (by omega)
  obtain ⟨byte, rfl⟩ := List.length_eq_one_iff.mp hs.length
  obtain ⟨loc, st₂, hcopy, hpure⟩ := bind_ok.mp hrest
  obtain ⟨rfl, rfl⟩ := pure_ok.mp hpure
  obtain ⟨hdraft, -⟩ := materialize_ok hcopy
  have hbounded := hs.passes.bounded
  have hgrows := hs.passes.grows
  obtain ⟨hdirect, hmoved, hcopied, hpasses⟩ := passes_materialize (k := k) hdraft
    (hs.moved byte (List.mem_singleton.mpr rfl)) (by omega)
  rw [show st₁.draft.pointerCell = st.draft.pointerCell from hs.passes.cell] at hpasses
  refine ⟨loc, rfl, ⟨hdirect, hmoved⟩, ?_⟩
  refine ((Loads.of_passes hs.passes).trans (Loads.of_passes hpasses) ?_).imp le_rfl (fun _ hr => hr) ?_
  · rintro s t - ⟨⟨-, hpresents⟩, -⟩
    exact hpresents.outside byte (List.mem_singleton.mpr rfl)
  · rintro s u - hr ⟨t, ⟨⟨hsame, hpresents⟩, hsp⟩, ⟨hsame', hget, hout⟩, hsp'⟩
    have hwhole := hsame.trans (hsame'.mono hgrows)
    have hbyte : get t (spotOf k t byte) = lowOf c k s value := by
      have hmap := hpresents.map_eq
      rw [show readOf c k s ValueType.u8.size.toNat value = [lowOf c k s value] from
        readOf_low s value] at hmap
      exact List.singleton_inj.mp hmap
    refine ⟨hwhole, ⟨hget.trans hbyte, hout, fun a ha => ?_⟩, hsp'.trans hsp⟩
    -- A byte of memory has been left where it is.
    rcases hcopied with rfl | rfl
    · rw [hsame'.spotOf (hs.moved loc (List.mem_singleton.mpr rfl)).2] at ha
      obtain ⟨place, rfl, i, hi, hfound⟩ := spots_valueBytes hvalue hp (by omega) t loc
        (List.mem_singleton.mpr rfl) a ha
      obtain rfl : i = 0 := Nat.lt_one_iff.mp hi
      refine ⟨place, rfl, isDirect_of_placeBytes hp hvalue (by decide) (by simp [hdirect]), ?_⟩
      rw [← Same.found hsame hp]
      exact hfound
    · cases ha

/-- The bytes of optional arguments, each in plain memory. -/
structure Gathered (c : Context) (k : Linkage) (values : List (Option Value)) (st st' : State)
    (locs : List (Option ByteLoc)) : Prop where
  plain : ∀ loc, some loc ∈ locs → Plainly st'.draft.nextVReg.toNat loc
  loads : Loads k (3 * values.length) st.draft st'.draft
    (fun s => ∀ value, some value ∈ values → Readable c k st.draft.pointerCell s 1 value) fun s t =>
      Same st.draft.pointerCell st.draft.nextVReg.toNat s t ∧
        List.Forall₂ (Option.Rel (Serves c k st.draft.pointerCell s t)) values locs ∧
        t.regs.sp = s.regs.sp

/-- **The bytes of the arguments**: what is copied out for one leaves the bytes of the others
alone. -/
theorem gathered_mapM : ∀ {values : List (Option Value)} {locs : List (Option ByteLoc)} {st st' : State},
    values.mapM registerByte c st = .ok (locs, st') → Pointed c st.draft.nextVReg.toNat →
    TracksA st.draft → st.draft.nextVReg.toNat + 4 * (values.length + 1) < everything →
    Gathered c k values st st' locs
  | [], locs, st, st', h, _, _, _ => by
    obtain ⟨rfl, rfl⟩ := pure_ok.mp h
    exact ⟨fun _ hl => (List.not_mem_nil hl).elim, .refl fun s _ _ => ⟨Same.refl s, .nil, rfl⟩⟩
  | none :: rest, locs, st, st', h, hp, htracks, hroom => by
    rw [List.mapM_cons] at h
    obtain ⟨first, st₁, hfirst, h1⟩ := bind_ok.mp h
    obtain ⟨rfl, rfl⟩ := pure_ok.mp hfirst
    obtain ⟨others, st₂, hothers, hpure⟩ := bind_ok.mp h1
    obtain ⟨rfl, rfl⟩ := pure_ok.mp hpure
    have ih := gathered_mapM hothers hp htracks (by simp only [List.length_cons] at hroom; omega)
    refine ⟨fun loc hloc => ih.plain loc (by simpa using hloc), ih.loads.imp (by simp) ?_ ?_⟩
    · exact fun s hs value hvalue => hs value (List.mem_cons_of_mem _ hvalue)
    · exact fun s t _ _ ht => ⟨ht.1, .cons .none ht.2.1, ht.2.2⟩
  | some value :: rest, locs, st, st', h, hp, htracks, hroom => by
    rw [List.mapM_cons] at h
    obtain ⟨first, st₁, hfirst, h1⟩ := bind_ok.mp h
    obtain ⟨others, st₂, hothers, hpure⟩ := bind_ok.mp h1
    obtain ⟨rfl, rfl⟩ := pure_ok.mp hpure
    simp only [List.length_cons] at hroom
    obtain ⟨loc, rfl, hplain, hloads⟩ := loads_registerByte (k := k) hfirst hp htracks (by omega)
    have hgrows := hloads.grows
    have hbounded := hloads.bounded
    have ih := gathered_mapM hothers (pointed_mono hp hgrows) (hloads.tracks htracks) (by omega)
    have hrest := ih.loads
    rw [hloads.cell] at hrest
    have hfirst' : Loads k 3 st.draft st₁.draft
        (fun s => ∀ v, some v ∈ some value :: rest → Readable c k st.draft.pointerCell s 1 v) _ :=
      hloads.imp le_rfl (fun s hs => hs value (List.mem_cons_self ..)) fun s t _ hs ht => And.intro hs ht
    refine ⟨fun l hl => ?_, (hfirst'.trans hrest ?_).imp (by simp only [List.length_cons]; omega)
      (fun _ hs => hs) ?_⟩
    · rcases List.mem_cons.mp hl with heq | hl
      · exact Option.some.inj heq ▸ hplain.mono ih.loads.grows
      · exact ih.plain l hl
    · rintro s t - ⟨hs, hsame, -⟩ v hv
      exact (hs v (List.mem_cons_of_mem _ hv)).same hsame hp
    · rintro s u - - ⟨t, ⟨hs, hsame, hserves, hsp⟩, hsame', hall, hsp'⟩
      refine ⟨hsame.trans (hsame'.mono hgrows), .cons (.some (hserves.same hplain.2 hsame')) ?_,
        hsp'.trans hsp⟩
      exact serves_before hall hsame hp fun v hv => hs v (List.mem_cons_of_mem _ hv)

/-! ### The call -/

section Call

variable {a x y : Option Value} {result : Option Temp} {address : UInt16} {clobbers : DeclaredClobbers}

/-- The arguments can be read: none is in the scratch pointer, and if A is to wait on the stack, the
one for X is not read from the free byte on which it waits. -/
structure Passable (c : Context) (k : Linkage) (cell : UInt8) (a x y : Option Value) (s : Store) :
    Prop where
  low : LowPlain s
  readable : ∀ value, some value ∈ [a, x, y] → Readable c k cell s 1 value
  clear : ∀ place, a.isSome = true → x = some (.memory place) → isDirect place = true →
    found c k s place 0 ≠ top s

/-- A call has got its arguments: each in its register, and nothing else in use has changed, but
perhaps the free byte under the stack. -/
structure Passed (c : Context) (k : Linkage) (cell : UInt8) (n : ℕ) (a x y : Option Value) (s t : Store) :
    Prop where
  a : ∀ value, a = some value → t.regs.a = lowOf c k s value
  x : ∀ value, x = some value → t.regs.x = lowOf c k s value
  y : ∀ value, y = some value → t.regs.y = lowOf c k s value
  sp : t.regs.sp = s.regs.sp
  same : ∃ byte, Same cell n (put s (top s) byte) t

/-- The result of a call has been taken from A. -/
def Received (c : Context) (result : Option Temp) (s t : Store) : Prop :=
  match result with
  | none => t = s
  | some r => ∃ v, registersOf c r = [v] ∧ t = put s (.cell v) s.regs.a

/-- Loads Y if it is wanted. -/
def loadWantedY : Option ByteLoc → Lower Unit
  | some y => loadY y
  | none => pure ()

/-- Takes the result of a call from A. -/
def receive : Option Temp → Lower Unit
  | some r => do
    match ← destination r with
    | dst :: _ => storeA dst
    | [] => internal "temporary without registers"
  | none => pure ()

theorem lowerAsmCall_eq : lowerAsmCall address a x y clobbers result = commitOnly (do
    let a ← registerByte a
    let x ← registerByte x
    let y ← registerByte y
    loadWantedY y
    loadAX a x
    modifyDraft (·.callAddress address (.fixed address clobbers.toClobbers))
    receive result) := by
  unfold lowerAsmCall
  congr 1
  refine bind_congr fun a => bind_congr fun x => bind_congr fun y => ?_
  cases y <;> cases result <;> rfl

theorem loads_loadWantedY {y : Option Operand} (hy : ∀ operand, y = some operand → IsSimple operand)
    {v : Unit} (h : loadWantedY (y.map .direct) c st = .ok (v, st')) :
    Loads k 0 st.draft st'.draft (fun _ => True) fun s t => t = s.setRegs t.regs ∧
      (∀ operand, y = some operand → t.regs.y = get s (operandSpot k operand)) ∧
      t.regs.sp = s.regs.sp := by
  cases y with
  | none =>
    obtain ⟨-, rfl⟩ := pure_ok.mp h
    exact .refl fun s _ _ => ⟨rfl, nofun, rfl⟩
  | some operand =>
    refine (loads_loadY (hy operand rfl) h).imp le_rfl (fun _ hs => hs) ?_
    rintro s t - - ⟨ht, hy, hsp⟩
    refine ⟨ht, ?_, hsp⟩
    rintro _ ⟨⟩
    exact hy

/-- The locations of arguments are operands. -/
theorem operand_of_plainly {loc? : Option ByteLoc} (h : ∀ loc, loc? = some loc → Plainly n loc) :
    ∃ operand? : Option Operand, loc? = operand?.map .direct ∧
      ∀ operand, operand? = some operand → IsMoved n (.direct operand) := by
  cases loc? with
  | none => exact ⟨none, rfl, nofun⟩
  | some loc =>
    obtain ⟨hdirect, hmoved⟩ := h loc rfl
    cases loc with
    | indirect pointer offset => cases hdirect
    | direct operand =>
      refine ⟨some operand, rfl, ?_⟩
      rintro _ ⟨⟩
      exact hmoved

/-- The operand that serves a value that is given. -/
theorem served {value? : Option Value} {operand? : Option Operand}
    (h : Option.Rel (Serves c k cell s t) value? (operand?.map .direct)) :
    ∀ value, value? = some value → ∃ operand, operand? = some operand ∧
      get t (operandSpot k operand) = lowOf c k s value := by
  rintro value rfl
  cases operand? with
  | none => cases h
  | some operand =>
    cases h with
    | some hserves => exact ⟨operand, rfl, hserves.holds⟩

/-- An argument for X is still there when A has been pushed. -/
theorem lasting_of_serves {a' x' : Option Operand} (hpass : Passable c k cell a x y s)
    (ha : Option.Rel (Serves c k cell s t) a (a'.map .direct))
    (hx : Option.Rel (Serves c k cell s t) x (x'.map .direct)) (hlow : LowPlain u)
    (hsp : u.regs.sp = s.regs.sp) {operand : Operand} (hmoved : IsMoved everything (.direct operand))
    (hgiven : a'.isSome = true) (hoperand : x' = some operand) : Lasting k cell u operand := by
  subst hoperand
  cases hx with
  | some hserves =>
    refine ⟨hlow, hserves.outside, hmoved.2, fun heq => ?_⟩
    obtain ⟨place, rfl, hdirect, hfound⟩ := hserves.place _ heq
    have ha : a.isSome = true := by
      cases a' with
      | none => cases hgiven
      | some operand' =>
        cases ha
        rfl
    refine hpass.clear place ha rfl hdirect (hfound.trans ?_)
    rw [top, hsp]

/-- **All arguments are loaded** from where they have been found. -/
theorem loads_arguments {la lx ly : Option ByteLoc} {st₁ st₂ : State} {v w : Unit}
    (hst : Settled c st.draft)
    (hgather : [a, x, y].mapM registerByte c st = .ok ([la, lx, ly], st₁))
    (hfirst : loadWantedY ly c st₁ = .ok (v, st₂)) (hlast : loadAX la lx c st₂ = .ok (w, st')) :
    Loads k 9 st.draft st'.draft (Passable c k st.draft.pointerCell a x y)
      (Passed c k st.draft.pointerCell st.draft.nextVReg.toNat a x y) := by
  obtain ⟨hplain, hgathered⟩ := gathered_mapM (k := k) hgather hst.pointed hst.tracks hst.room
  obtain ⟨a', rfl, ha'⟩ := @operand_of_plainly _ la fun loc hloc => hplain loc (by simp [hloc])
  obtain ⟨x', rfl, hx'⟩ := @operand_of_plainly _ lx fun loc hloc => hplain loc (by simp [hloc])
  obtain ⟨y', rfl, hy'⟩ := @operand_of_plainly _ ly fun loc hloc => hplain loc (by simp [hloc])
  have hloadY := loads_loadWantedY (k := k) (fun o ho => (hy' o ho).1) hfirst
  have hloadAX := loads_loadAX (k := k) (fun o ho => (ha' o ho).1) (fun o ho => (hx' o ho).1) hlast
  rw [hloadY.cell, hgathered.cell] at hloadAX
  have hgathered' : Loads k 9 st.draft st₁.draft (Passable c k st.draft.pointerCell a x y) _ :=
    hgathered.imp le_rfl (fun s hs => hs.readable) fun s t _ hs ht => And.intro hs ht
  refine ((hgathered'.trans hloadY fun _ _ _ _ => trivial).trans hloadAX ?_).imp le_rfl
    (fun _ hs => hs) ?_
  · rintro s u - ⟨t, ⟨hs, hsame, hserves, hsp⟩, hu, -, hsp'⟩
    simp only [List.forall₂_cons] at hserves
    obtain ⟨ha, hx, -⟩ := hserves
    have hlow : LowPlain u := by
      rw [hu]
      exact (hs.low.same hsame : LowPlain t)
    refine ⟨hlow, fun operand hgiven hoperand => ?_⟩
    have hmoved := (hx' operand hoperand).mono st₁.draft.nextVReg.toNat_lt.le
    exact lasting_of_serves hs ha hx hlow (hsp'.trans hsp) hmoved hgiven hoperand
  · rintro s w - - ⟨u, ⟨t, ⟨hs, hsame, hserves, hsp⟩, hu, hyreg, hsp'⟩, hw⟩
    simp only [List.forall₂_cons] at hserves
    obtain ⟨ha, hx, hy, -⟩ := hserves
    have hget (operand : Operand) : get u (operandSpot k operand) = get t (operandSpot k operand) := by
      rw [hu, get_setRegs]
    refine ⟨fun value hvalue => ?_, fun value hvalue => ?_, fun value hvalue => ?_,
      hw.sp.trans (hsp'.trans hsp), ?_⟩
    · obtain ⟨operand, hoperand, hholds⟩ := served ha value hvalue
      exact (hw.a operand hoperand).trans ((hget operand).trans hholds)
    · obtain ⟨operand, hoperand, hholds⟩ := served hx value hvalue
      exact (hw.x operand hoperand).trans ((hget operand).trans hholds)
    · obtain ⟨operand, hoperand, hholds⟩ := served hy value hvalue
      exact hw.y.trans ((hyreg operand hoperand).trans hholds)
    · obtain ⟨byte, hbyte⟩ := hw.same
      have htop : top u = top s := by rw [top, hsp', hsp]; rfl
      rw [htop] at hbyte
      refine ⟨byte, ((hsame.trans ?_).put (keeps_top hs.low) byte).trans
        (hbyte.mono st.draft.nextVReg.toNat_lt.le)⟩
      rw [hu]
      exact Same.setRegs t _

/-- Code that takes the result of a call from A. -/
theorem receive_ok (hhoused : ∀ r, result = some r → Housed c n r .u8) {v : Unit}
    (h : receive result c st = .ok (v, st')) :
    ∃ back, st'.draft.code = st.draft.code ++ back ∧ st'.draft.calls = st.draft.calls ∧
      (∀ line ∈ back, IsStraight line) ∧
      ∀ (k : Linkage) (s : Store), Received c result s (execAll k back s) := by
  cases result with
  | none =>
    obtain ⟨-, rfl⟩ := pure_ok.mp h
    exact ⟨[], (List.append_nil _).symm, rfl, fun _ hl => (List.not_mem_nil hl).elim, fun k s => rfl⟩
  | some r =>
    obtain ⟨dsts, st₁, hdsts, hstore⟩ := bind_ok.mp h
    obtain ⟨rfl, rfl⟩ := destination_ok hdsts
    obtain ⟨w, hw⟩ := List.length_eq_one_iff.mp (hhoused r rfl).length
    rw [hw] at hstore
    have hdraft : st₁.draft.op .sta (.virtual w) = st'.draft := Except.ok.inj (storeA_ok hstore)
    refine ⟨[.op .sta (.virtual w)], by rw [← hdraft]; rfl, by rw [← hdraft]; rfl, fun line hline => ?_,
      fun k s => ⟨w, hw, ?_⟩⟩
    · obtain rfl := List.mem_singleton.mp hline
      exact ⟨.sta, .virtual w, rfl, rfl, rfl⟩
    · exact exec_sta (k := k) (show IsSimple (.virtual w) from trivial)

/-- The bytes of the arguments are found one after the other. -/
theorem mapM_registerByte {values : List (Option Value)} {value : Option Value} {loc : Option ByteLoc}
    {locs : List (Option ByteLoc)} {st₁ : State} (h : registerByte value c st = .ok (loc, st₁))
    (hrest : values.mapM registerByte c st₁ = .ok (locs, st')) :
    (value :: values).mapM registerByte c st = .ok (loc :: locs, st') := by
  rw [List.mapM_cons]
  exact bind_ok.mpr ⟨loc, st₁, h, bind_ok.mpr ⟨locs, st', hrest, rfl⟩⟩

/-- **The code of a call**: lines that load the registers, the call, and lines that take its
result. -/
theorem lowerNode_asmCall {next : Option Node} {taken : Bool} (hst : Prepared c st)
    (htracks : TracksA st.draft) (hroom : st.draft.nextVReg.toNat + 16 < 2 ^ 32)
    (hnode : .asmCall address a x y clobbers result ∈ c.function.body)
    (h : lowerNode (.asmCall address a x y clobbers result) next c st = .ok (taken, st')) :
    taken = false ∧ ∃ d₁ d back, st'.draft = st.draft.commit d ∧
      (x.isSome = true → SettlesX d₁.code) ∧
      (∀ k, Loads k 9 st.draft.fork d₁ (Passable c k st.draft.pointerCell a x y)
        (Passed c k st.draft.pointerCell st.draft.nextVReg.toNat a x y)) ∧
      d.code = d₁.code ++ .op .jsr (.fixed address) :: back ∧
      d.calls = [(d₁.code.length, .fixed address clobbers.toClobbers)] ∧
      (∀ line ∈ back, IsStraight line) ∧ ∀ k s, Received c result s (execAll k back s) := by
  obtain ⟨_, st₁, hlower, hpure⟩ := bind_ok.mp h
  obtain ⟨rfl, rfl⟩ := pure_ok.mp hpure
  rw [lowerAsmCall_eq] at hlower
  obtain ⟨st₂, hbuild, hdraft⟩ := commitOnly_ok hlower
  obtain ⟨la, sa, ha, h1⟩ := bind_ok.mp hbuild
  obtain ⟨lx, sx, hx, h2⟩ := bind_ok.mp h1
  obtain ⟨ly, sy, hy, h3⟩ := bind_ok.mp h2
  obtain ⟨_, s₁, hloadY, h4⟩ := bind_ok.mp h3
  obtain ⟨_, s₂, hloadAX, h5⟩ := bind_ok.mp h4
  obtain ⟨_, s₃, hcall, hreceive⟩ := bind_ok.mp h5
  have hgather : [a, x, y].mapM registerByte c { st with draft := st.draft.fork } =
      .ok ([la, lx, ly], sy) :=
    mapM_registerByte ha (mapM_registerByte hx (mapM_registerByte hy rfl))
  have hhoused : ∀ r, result = some r → Housed c st.draft.nextVReg.toNat r .u8 := fun r hr =>
    housed_of_prepared hst hnode (by rw [hr]; rfl)
  have hsettled : Settled c st.draft := ⟨hst.facts.2.1, htracks, hroom⟩
  have hloads := fun k => loads_arguments (k := k) hsettled.fork hgather hloadY hloadAX
  obtain ⟨back, hcode, hcalls, hstraight, hreceived⟩ := receive_ok hhoused hreceive
  have hjsr := modifyDraft_ok hcall
  refine ⟨rfl, s₂.draft, st₂.draft, back, hdraft, fun hgiven => ?_, hloads, ?_, ?_, hstraight, hreceived⟩
  · obtain ⟨value, rfl⟩ := Option.isSome_iff_exists.mp hgiven
    obtain ⟨loc, rfl⟩ := registerByte_some hx
    exact settlesX_loadAX hloadAX
  · rw [hcode, hjsr]
    simp [Draft.callAddress, Draft.push]
  · rw [hcalls, hjsr]
    simp [Draft.callAddress, Draft.push, (hloads ⟨fun _ => 0, 0⟩).calls, Draft.fork]

/-- A call of a fixed address comes back behind its line. -/
theorem step_fixed {e : Environment} {code : List Line} {calls : Std.TreeMap ℕ CallTarget} {q : Config}
    {declared : Clobbers} (hline : code[q.line]? = some (.op .jsr (.fixed address)))
    (hcall : calls[q.line]? = some (.fixed address declared)) :
    ∃ z, step e code calls q = some z ∧ z.line = q.line + 1 ∧
      z.store = (q.answered e (q.callEvent (.fixed address) (some (.fixed address declared)))).store := by
  have hstep : step e code calls q = q.call e (.fixed address) calls[q.line]?
      ((Line.op .jsr (.fixed address)).mayResume calls[q.line]?) := by
    unfold step
    rw [hline]
    rfl
  rw [hstep, hcall]
  exact ⟨_, rfl, rfl, rfl⟩

/-- **A call of a fixed address gets its arguments.**  The code of such a node is lines up to the
call, the call itself, for which the address and what it overwrites are recorded, and lines behind
it.  The lines up to the call leave the low byte of each argument, as the argument was before, in
its register and the stack pointer where it was; the lines behind the call store A in the result.
Between the line that loads X and the call no virtual register and no frame byte is named. -/
theorem registers_passed {next : Option Node} {taken : Bool} (hst : Prepared c st)
    (htracks : TracksA st.draft) (hroom : st.draft.nextVReg.toNat + 16 < 2 ^ 32)
    (hnode : .asmCall address a x y clobbers result ∈ c.function.body)
    (h : lowerNode (.asmCall address a x y clobbers result) next c st = .ok (taken, st')) :
    taken = false ∧ ∃ d front back, st'.draft = st.draft.commit d ∧
      d.code = front ++ .op .jsr (.fixed address) :: back ∧
      d.calls = [(front.length, .fixed address clobbers.toClobbers)] ∧
      (x.isSome = true → SettlesX front) ∧
      ∀ (e : Environment) (calls : Std.TreeMap ℕ CallTarget) (before after : List Line) (p : Config),
        p.line = before.length → Ready e.linkage st.draft p.store →
        Passable c e.linkage st.draft.pointerCell a x y p.store →
        ∃ q, Reaches e (before ++ d.code ++ after) calls p q ∧ q.line = before.length + front.length ∧
          Passed c e.linkage st.draft.pointerCell st.draft.nextVReg.toNat a x y p.store q.store ∧
          (calls[q.line]? = some (.fixed address clobbers.toClobbers) →
            ∃ z, Reaches e (before ++ d.code ++ after) calls q z ∧
              z.line = before.length + d.code.length ∧ Received c result
                (q.answered e (q.callEvent (.fixed address)
                  (some (.fixed address clobbers.toClobbers)))).store z.store) := by
  obtain ⟨htaken, d₁, d, back, hdraft, hsettles, hloads, hcode, hcalls, hstraight, hreceived⟩ :=
    lowerNode_asmCall hst htracks hroom hnode h
  refine ⟨htaken, d, d₁.code, back, hdraft, hcode, hcalls, hsettles,
    fun e calls before after p hp hready hpass => ?_⟩
  have hloading : before ++ d.code ++ after =
      before ++ d₁.code ++ (.op .jsr (.fixed address) :: back ++ after) := by simp [hcode]
  have hbehind : before ++ d.code ++ after =
      (before ++ d₁.code ++ [Line.op .jsr (.fixed address)]) ++ back ++ after := by simp [hcode]
  obtain ⟨q, hq, hqline, hpassed⟩ := (hloads e.linkage).run calls hp hready hpass
  rw [← hloading] at hq
  refine ⟨q, ⟨_, hq⟩, hqline, hpassed, fun hcall => ?_⟩
  have hjsr : (before ++ d.code ++ after)[q.line]? = some (.op .jsr (.fixed address)) := by
    rw [hloading, hqline, ← List.length_append]
    exact (List.getElem?_append_right le_rfl).trans (by simp)
  obtain ⟨z, hz, hzline, hzstore⟩ := step_fixed (e := e) hjsr hcall
  obtain ⟨trace, hlast⟩ := run_straight e calls back _ after z hstraight
    (show z.line = (before ++ d₁.code ++ [Line.op .jsr (.fixed address)]).length by
      simp [hzline, hqline, Nat.add_assoc])
  rw [← hbehind] at hlast
  refine ⟨_, Reaches.trans (.single hz) ⟨_, hlast⟩, ?_, ?_⟩
  · simp [hcode]
    omega
  · rw [← hzstore]
    exact hreceived e.linkage z.store

end Call

/-! #### Three registers at once, and an argument under the stack -/

/-- A call that takes a byte behind a pointer, a byte of memory and a constant. -/
def busyCall : Node :=
  .asmCall 0x0700 (some (.memory (.indirect 0 0xFF))) (some (.memory (.absolute 0x3000)))
    (some (.constant 7)) {} none

/-- A call that takes a constant and the free byte under the stack. -/
def stackedCall : Node :=
  .asmCall 0x0700 (some (.constant 5)) (some (.memory (.absolute 0x01FF))) none {} none

theorem lowPlain_farStore : LowPlain farStore := fun a ha =>
  plain_farStore fun heq => by
    rw [heq] at ha
    exact absurd ha (by decide)

theorem ready_farStore : Ready plainLinkage followState.draft farStore :=
  ⟨knows_nothing, plain_farStore (by decide), plain_farStore (by decide)⟩

theorem prepared_busyCall : Prepared (farContext [busyCall]) followState :=
  ⟨⟨⟨(farContext [busyCall]).temps, 2⟩, rfl, rfl, by decide⟩, nofun, by decide, by decide⟩

theorem prepared_stackedCall : Prepared (farContext [stackedCall]) followState :=
  ⟨⟨⟨(farContext [stackedCall]).temps, 2⟩, rfl, rfl, by decide⟩, nofun, by decide, by decide⟩

theorem passable_busyCall : Passable (farContext [busyCall]) plainLinkage 0x90
    (some (.memory (.indirect 0 0xFF))) (some (.memory (.absolute 0x3000))) (some (.constant 7))
    farStore := by
  refine ⟨lowPlain_farStore, fun value hvalue => ?_, ?_⟩
  · rintro place rfl i hi a ha
    obtain rfl : i = 0 := Nat.lt_one_iff.mp hi
    simp only [List.mem_cons, Option.some.injEq, Value.memory.injEq, reduceCtorEq, List.not_mem_nil,
      or_false] at hvalue
    obtain rfl | rfl := hvalue
    · obtain rfl : (0x30FF : UInt16) = a := Spot.memory.inj ha
      decide
    · obtain rfl : (0x3000 : UInt16) = a := Spot.memory.inj ha
      decide
  · rintro place - hplace - heq
    obtain rfl : Place.absolute 0x3000 = place := Value.memory.inj (Option.some.inj hplace)
    exact absurd heq (by decide)

/-- **Three arguments in three registers.** -/
theorem busyCall_passes : ∃ st' d front back,
    lowerNode busyCall none (farContext [busyCall]) followState = .ok (false, st') ∧
      st'.draft = followState.draft.commit d ∧ d.code = front ++ .op .jsr (.fixed 0x0700) :: back ∧
      ∀ (e : Environment) (calls : Std.TreeMap ℕ CallTarget), e.linkage = plainLinkage →
        ∃ q, Reaches e d.code calls { line := 0, store := farStore } q ∧ q.line = front.length ∧
          q.store.regs.a = 5 ∧ q.store.regs.x = 0 ∧ q.store.regs.y = 7 := by
  obtain ⟨st', hok⟩ : ∃ st', lowerNode busyCall none (farContext [busyCall]) followState =
      .ok (false, st') := ⟨_, rfl⟩
  obtain ⟨-, d, front, back, hdraft, hcode, -, -, hall⟩ := registers_passed prepared_busyCall
    (fun _ h => (List.not_mem_nil h).elim) (by decide)
    (List.mem_cons_of_mem _ (List.mem_singleton.mpr rfl)) hok
  refine ⟨st', d, front, back, hok, hdraft, hcode, fun e calls he => ?_⟩
  obtain ⟨q, hq, hline, hpassed, -⟩ := hall e calls [] [] { line := 0, store := farStore } rfl
    (he ▸ ready_farStore) (he ▸ passable_busyCall)
  rw [List.nil_append, List.append_nil] at hq
  rw [he] at hpassed
  refine ⟨q, hq, by simpa using hline, ?_, ?_, ?_⟩
  · have hfound : found (farContext [busyCall]) plainLinkage farStore (.indirect 0 0xFF) 0 =
        .memory 0x30FF := rfl
    rw [hpassed.a _ rfl, lowOf_memory, hfound]
    exact read_farStore 0x30FF
  · have hfound : found (farContext [busyCall]) plainLinkage farStore (.absolute 0x3000) 0 =
        .memory 0x3000 := rfl
    rw [hpassed.x _ rfl, lowOf_memory, hfound]
    exact read_farStore 0x3000
  · exact hpassed.y _ rfl

/-- The lines that load the registers for the second call. -/
def stackedLines : List Line :=
  [.op .lda (.byte 5), .bare .pha, .op .lda (.fixed 0x01FF), .bare .tax, .bare .pla]

theorem straight_stackedLines : ∀ line ∈ stackedLines, IsStraight line := by
  intro line hline
  simp only [stackedLines, List.mem_cons, List.not_mem_nil, or_false] at hline
  rcases hline with rfl | rfl | rfl | rfl | rfl <;> exact ⟨_, _, rfl, rfl, rfl⟩

/-- X is read after A has been put on the stack. -/
theorem x_stackedLines (s : Store) :
    (execAll plainLinkage stackedLines s).regs.x = get (put s (top s) 5) (.memory 0x01FF) := rfl

/-- **An argument under the stack is lost**: X gets the byte that waits there for A. -/
theorem stacked_argument_lost : ∃ st' d,
    lowerNode stackedCall none (farContext [stackedCall]) followState = .ok (false, st') ∧
      st'.draft = followState.draft.commit d ∧ d.code = stackedLines ++ [.op .jsr (.fixed 0x0700)] ∧
      Prepared (farContext [stackedCall]) followState ∧ Ready plainLinkage followState.draft farStore ∧
      lowOf (farContext [stackedCall]) plainLinkage farStore (.memory (.absolute 0x01FF)) = 0 ∧
      ∀ (e : Environment) (calls : Std.TreeMap ℕ CallTarget), e.linkage = plainLinkage →
        ∃ q, Reaches e d.code calls { line := 0, store := farStore } q ∧
          q.line = stackedLines.length ∧ q.store.regs.x = 5 := by
  obtain ⟨st', d, hok, hdraft, hcode⟩ : ∃ st' d,
      lowerNode stackedCall none (farContext [stackedCall]) followState = .ok (false, st') ∧
        st'.draft = followState.draft.commit d ∧ d.code = stackedLines ++ [.op .jsr (.fixed 0x0700)] :=
    ⟨_, (((((followState.draft.fork.loadA (.byte 5)).bare .pha).loadA (.direct (.fixed 0x01FF))).bare
      .tax).bare .pla).callAddress 0x0700 (.fixed 0x0700 (DeclaredClobbers.toClobbers {})), rfl, rfl, rfl⟩
  have htop : top farStore = .memory 0x01FF := rfl
  have hread : get farStore (.memory 0x01FF) = 0 := read_farStore 0x01FF
  refine ⟨st', d, hok, hdraft, hcode, prepared_stackedCall, ready_farStore, ?_, fun e calls he => ?_⟩
  · rw [lowOf_memory]
    exact hread
  · obtain ⟨trace, hrun⟩ := run_straight e calls stackedLines [] [.op .jsr (.fixed 0x0700)]
      { line := 0, store := farStore } straight_stackedLines rfl
    refine ⟨_, ⟨_, hcode ▸ hrun⟩, by simp, ?_⟩
    rw [he]
    refine (x_stackedLines farStore).trans ?_
    rw [← htop, Processor.Straight.get_put (keeps_top lowPlain_farStore), if_pos rfl]

end Codegen6502.Proofs.Selecting.Registers
