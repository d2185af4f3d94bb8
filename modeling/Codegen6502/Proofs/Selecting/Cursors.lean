import Codegen6502.Proofs.Selecting.Incoming

/-!
# Cursors over variadic arguments

A cursor is a temporary that holds an address.  `start_lines` says that it starts as the pointer
that the function has taken in, `fetch_lines` that an access reads the bytes behind it and moves it
on by their number, and `count_lines` that the size of the block is copied.  None of them changes
anything else.
-/

namespace Codegen6502.Proofs.Selecting.Cursors

open Selection Growth Selecting.Numbering
open Processor.Memory Processor.LineRun Processor.Straight Processor.Fetching
open Tracking Places Moves Courses Reading Deciding Computing Bodies Passing Addresses Incoming

variable {c : Context} {k : Linkage} {s t : Store} {st st' : State} {cell : UInt8} {vs : List VReg}

/-! ### Bytes that are put into registers -/

/-- The virtual registers that a byte is in or is reached through. -/
def registersIn : ByteLoc → List VReg
  | .direct (.virtual v) => [v]
  | .direct _ => []
  | .indirect (lo, hi) _ => [lo, hi]

/-- A byte that is loaded before a register is written and can be loaded behind that. -/
theorem held_keep {src : ByteLoc} {v : VReg} {byte : UInt8} (hsrc : IsByte src) (hv : v ∉ registersIn src)
    (hout : Outside cell (spotOf k s src)) (hsame : Same cell everything (put s (.cell v) byte) t) :
    spotOf k t src = spotOf k s src ∧ held k t src = held k s src := by
  have hcells : ∀ w : VReg, v ≠ w → t.cells w = s.cells w := fun w hw =>
    (hsame.get (.cell w) w.index.toNat_lt).trans (Function.update_of_ne hw.symm _ _)
  have hspot : spotOf k t src = spotOf k s src := by
    cases src with
    | direct operand => rfl
    | indirect pointer offset =>
      obtain ⟨hlo, hhi⟩ := not_or.mp (List.mem_cons.not.mp hv)
      have hhi : v ≠ pointer.2 := fun heq => hhi (heq ▸ List.mem_singleton_self _)
      rw [spotOf, hcells _ hlo, hcells _ hhi, spotOf]
  refine ⟨hspot, ?_⟩
  have hvisible := visible_of_clear ⟨hsrc, below_everything src⟩ hout
  rw [held, hspot, hsame.get _ hvisible, get_put (show Keeps s (.cell v) from trivial), if_neg]
  intro heq
  cases src with
  | indirect pointer offset => cases heq
  | direct operand =>
    obtain rfl := operandSpot_eq_cell heq.symm
    exact hv (List.mem_singleton_self v)

/-- **Bytes are loaded one after the other** into registers that none of them depends on. -/
theorem passes_keepBytes : ∀ {srcs : List ByteLoc} {vs : List VReg} {st st' : State} {x : Unit},
    copyBytes srcs (vs.map .vreg) c st = .ok (x, st') →
    (∀ src ∈ srcs, IsByte src ∧ ∀ v ∈ vs, v ∉ registersIn src) →
    Passes k 0 st.draft st'.draft (fun s => Away k st.draft.pointerCell s srcs) fun s t =>
      Same st.draft.pointerCell everything (fill s (vs.map .cell) (heldAll k s srcs)) t
  | [], vs, st, st', x, h, _ => by
    obtain ⟨-, rfl⟩ := pure_ok.mp h
    exact Passes.refl fun s _ _ => by cases vs <;> exact Same.refl s
  | src :: srcs, [], st, st', x, h, _ => by
    obtain ⟨-, rfl⟩ := pure_ok.mp h
    exact Passes.refl fun s _ _ => Same.refl s
  | src :: srcs, v :: vs, st, st', x, h, hsrcs => by
    obtain ⟨hsrc, hapart⟩ := hsrcs src (List.mem_cons_self ..)
    have hv := hapart v (List.mem_cons_self ..)
    have hne : src ≠ .vreg v := fun heq => hv (heq ▸ List.mem_singleton_self v)
    have hrest : ∀ l ∈ srcs, IsByte l ∧ ∀ w ∈ vs, w ∉ registersIn l := fun l hl =>
      ⟨(hsrcs l (List.mem_cons_of_mem _ hl)).1, fun w hw =>
        (hsrcs l (List.mem_cons_of_mem _ hl)).2 w (List.mem_cons_of_mem _ hw)⟩
    rw [List.map_cons, copyBytes, if_pos hne] at h
    obtain ⟨_, st₁, hload, h₁⟩ := bind_ok.mp h
    obtain ⟨_, st₂, hstore, h₂⟩ := bind_ok.mp h₁
    have hdraft : st₂.draft = (st.draft.loadA src).op .sta (.virtual v) := by
      rw [← Except.ok.inj (storeA_ok hstore), modifyDraft_ok hload]
    have hsta := passes_keep (k := k) (st.draft.loadA src) v
    rw [← hdraft] at hsta
    have hone : Passes k 0 st.draft st₂.draft
        (fun s => Away k st.draft.pointerCell s (src :: srcs)) fun s t =>
        Same st.draft.pointerCell everything (put s (.cell v) (held k s src)) t := by
      refine ((passes_loadA (k := k) st.draft hsrc).trans hsta fun _ _ _ _ => trivial).imp le_rfl
        (fun s hs => hs src (List.mem_cons_self ..)) ?_
      rintro s u - - ⟨t, ⟨⟨hsame, ha⟩, -⟩, rfl⟩
      rw [ha]
      exact hsame.put (show Keeps s (.cell v) from trivial) _
    have ih := passes_keepBytes h₂ hrest
    rw [hone.cell] at ih
    -- The bytes that are still to come are as before.
    have hkept : ∀ {s t : Store}, Away k st.draft.pointerCell s (src :: srcs) →
        Same st.draft.pointerCell everything (put s (.cell v) (held k s src)) t → ∀ l ∈ srcs,
        spotOf k t l = spotOf k s l ∧ held k t l = held k s l := fun haway hsame l hl =>
      held_keep (hrest l hl).1 ((hsrcs l (List.mem_cons_of_mem _ hl)).2 v (List.mem_cons_self ..))
        (haway l (List.mem_cons_of_mem _ hl)) hsame
    refine (hone.trans ih fun s t haway hsame l hl => ?_).imp le_rfl (fun _ hs => hs) ?_
    · rw [(hkept haway hsame l hl).1]
      exact haway l (List.mem_cons_of_mem _ hl)
    · rintro s u - haway ⟨t, hsame, hfill⟩
      rw [heldAll, List.map_congr_left fun l hl => (hkept haway hsame l hl).2] at hfill
      exact (same_fill hsame keeps_cells).trans hfill

/-! ### Bytes from an address on -/

/-- The bytes of memory from an address on. -/
def bytesFrom (b : Bus) (a : UInt16) (size : ℕ) : List UInt8 :=
  (List.range size).map fun i => b.read (a + UInt16.ofNat i)

section Bytes

variable {b b' : Bus} {a : UInt16} {m n : ℕ}

@[simp] theorem length_bytesFrom : (bytesFrom b a n).length = n := by simp [bytesFrom]

theorem bytesFrom_add (b : Bus) (a : UInt16) (m n : ℕ) :
    bytesFrom b a (m + n) = bytesFrom b a m ++ bytesFrom b (a + UInt16.ofNat m) n := by
  unfold bytesFrom
  rw [List.range_add, List.map_append, List.map_map]
  refine congrArg _ (List.map_congr_left fun i _ => ?_)
  rw [Function.comp_apply, UInt16.ofNat_add, UInt16.add_assoc]

theorem bytesFrom_congr (h : ∀ i < n, b'.read (a + UInt16.ofNat i) = b.read (a + UInt16.ofNat i)) :
    bytesFrom b' a n = bytesFrom b a n :=
  List.map_congr_left fun i hi => h i (List.mem_range.mp hi)

end Bytes

/-- The bytes behind a pointer, from an offset on. -/
def behind (pointer : PointerPair) (i size : ℕ) : List ByteLoc :=
  (List.range' i size).map fun j => .indirect pointer (UInt8.ofNat j)

/-- Loading bytes behind a pointer is copying them. -/
theorem loadBehind_eq (pointer : PointerPair) : ∀ (vs : List VReg) (i : ℕ),
    loadBehind pointer (UInt8.ofNat i) (vs.map .vreg) =
      copyBytes (behind pointer i vs.length) (vs.map .vreg)
  | [], i => rfl
  | v :: vs, i => by
    have hne : ByteLoc.indirect pointer (UInt8.ofNat i) ≠ .vreg v := fun heq => by cases heq
    have hbehind : behind pointer i (v :: vs).length =
        .indirect pointer (UInt8.ofNat i) :: behind pointer (i + 1) vs.length := by
      simp [behind, List.range'_succ]
    rw [hbehind, List.map_cons, loadBehind, copyBytes, if_pos hne, ← loadBehind_eq pointer vs (i + 1),
      UInt8.ofNat_add]
    rfl

theorem spotOf_behind {lo hi : VReg} {i : ℕ} (h : i < 256) :
    spotOf k s (.indirect (lo, hi) (UInt8.ofNat i)) =
      .memory (word (s.cells lo) (s.cells hi) + UInt16.ofNat i) := by
  have hoffset : (UInt8.ofNat i).toUInt16 = UInt16.ofNat i := by
    refine UInt16.toNat_inj.mp ?_
    rw [UInt8.toNat_toUInt16, UInt8.toNat_ofNat_of_lt' (show i < 256 from h),
      UInt16.toNat_ofNat_of_lt' (show i < 65536 by omega)]
  rw [spotOf, hoffset]

/-- What is behind a pointer. -/
theorem heldAll_behind {lo hi : VReg} {n : ℕ} (hn : n ≤ 256) : heldAll k s (behind (lo, hi) 0 n) =
    bytesFrom s.machine.bus (word (s.cells lo) (s.cells hi)) n := by
  unfold heldAll behind bytesFrom
  rw [List.map_map, ← List.range_eq_range']
  refine List.map_congr_left fun i hi => ?_
  have hlt := List.mem_range.mp hi
  rw [Function.comp_apply, held, spotOf_behind (by omega)]
  rfl

/-! ### The steps of a cursor -/

/-- The lines that a node adds to the code so far, and what they do from a store that it goes on
from. -/
def Adds (k : Linkage) (st st' : State) (pre : Store → Prop) (post : Store → Store → Prop) : Prop :=
  ∃ lines, st'.draft.code = st.draft.code ++ lines ∧ (∀ line ∈ lines, IsStraight line) ∧
    ∀ s, Ready k st.draft s → pre s → post s (execAll k lines s)

/-- A candidate that is the only one adds its lines. -/
theorem adds_of_passes {build : Lower Unit} {x : Unit} {pre : Store → Prop}
    {post : Store → Store → Prop} (h : commitOnly build c st = .ok (x, st'))
    (hpasses : ∀ st₀ st₁ : State, st₀.draft = st.draft.fork → build c st₀ = .ok ((), st₁) →
      Passes k 0 st₀.draft st₁.draft pre post) :
    Adds k st st' pre fun s t => post s t ∧ t.regs.sp = s.regs.sp := by
  obtain ⟨st₁, hbuild, hdraft⟩ := commitOnly_ok h
  obtain ⟨lines, hcode, hstraight, hrun⟩ := (Hands.of_passes (hpasses _ st₁ rfl hbuild)).lines
  refine ⟨lines, ?_, hstraight, fun s hs hpre => (hrun s hs hpre).2⟩
  have hcommitted : st'.draft.code = st.draft.code ++ st₁.draft.code := by rw [hdraft]; rfl
  have hfork : st.draft.fork.code = [] := rfl
  rw [hcommitted, hcode, hfork, List.nil_append]

/-- The code of a copy of registers to the registers of a temporary. -/
theorem copy_lines {ws : List VReg} {y : Temp} {x : Unit}
    (h : (do commitOnly (copyBytes (ws.map .vreg) (← destination y)) : Lower Unit) c st = .ok (x, st'))
    (hapart : ∀ v ∈ registersOf c y, v ∉ ws) :
    Adds k st st' (fun _ => True) fun s t => Same st.draft.pointerCell everything
      (fill s ((registersOf c y).map .cell) (ws.map s.cells)) t ∧ t.regs.sp = s.regs.sp := by
  obtain ⟨dst, st₁, hdst, hcommit⟩ := bind_ok.mp h
  obtain ⟨rfl, rfl⟩ := destination_ok hdst
  refine adds_of_passes hcommit fun st₀ st₂ hfork hbuild => ?_
  have hpasses := passes_keepBytes (k := k) hbuild fun src hsrc => by
    obtain ⟨w, hw, rfl⟩ := List.mem_map.mp hsrc
    exact ⟨trivial, fun v hv hmem => hapart v hv (List.mem_singleton.mp hmem ▸ hw)⟩
  rw [hfork] at hpasses ⊢
  refine hpasses.imp le_rfl (fun s _ l hl a ha => ?_) fun s t _ _ hsame => ?_
  · obtain ⟨w, -, rfl⟩ := List.mem_map.mp hl
    cases ha
  · rw [heldAll, List.map_map] at hsame
    exact hsame

/-- **A cursor starts** as the pointer that has been taken in. -/
theorem start_lines {cursor : Temp} {x : Unit} (h : lowerVaStart cursor c st = .ok (x, st')) :
    ∃ lo hi, c.hidden.vaPointer = some (lo, hi) ∧
      ((∀ v ∈ registersOf c cursor, v ∉ [lo, hi]) →
        Adds k st st' (fun _ => True) fun s t => Same st.draft.pointerCell everything
          (fill s ((registersOf c cursor).map .cell) ([lo, hi].map s.cells)) t ∧
          t.regs.sp = s.regs.sp) := by
  obtain ⟨c', st₁, hread, h₁⟩ := bind_ok.mp h
  cases hread
  cases hpointer : c.hidden.vaPointer with
  | none =>
    simp only [hpointer] at h₁
    cases h₁
  | some pointer =>
    obtain ⟨lo, hi⟩ := pointer
    simp only [hpointer] at h₁
    exact ⟨lo, hi, rfl, copy_lines h₁⟩

/-- **The size of the block** is copied. -/
theorem count_lines {result : Temp} {x : Unit} (h : lowerVaCount result c st = .ok (x, st')) :
    ∃ v, c.hidden.vaCount = some v ∧ (v ∉ registersOf c result →
      Adds k st st' (fun _ => True) fun s t => Same st.draft.pointerCell everything
        (fill s ((registersOf c result).map .cell) [s.cells v]) t ∧ t.regs.sp = s.regs.sp) := by
  obtain ⟨c', st₁, hread, h₁⟩ := bind_ok.mp h
  cases hread
  cases hcount : c.hidden.vaCount with
  | none =>
    simp only [hcount] at h₁
    cases h₁
  | some v =>
    simp only [hcount] at h₁
    refine ⟨v, rfl, fun hv => @copy_lines c k st st' [v] result x h₁ fun w hw hmem => ?_⟩
    exact hv (List.mem_singleton.mp hmem ▸ hw)

/-- **An access through a cursor** reads the bytes behind it and moves it on. -/
theorem fetch_lines {node : Node} {result cursor : Temp} {type : ValueType} {x : Unit}
    (h : lowerVaArg node result cursor type c st = .ok (x, st')) :
    type.isScalar = true ∧ ∃ lo hi, registersOf c cursor = [lo, hi] ∧
      (lo ≠ hi → (∀ v ∈ registersOf c result, v ∉ [lo, hi]) → (registersOf c result).length ≤ 256 →
        Adds k st st'
          (fun s => ∀ i < (registersOf c result).length, ¬IsScratch st.draft.pointerCell
            (word (s.cells lo) (s.cells hi) + UInt16.ofNat i))
          fun s t => Same st.draft.pointerCell everything
            (fill s ((registersOf c result ++ [lo, hi]).map .cell)
              (bytesFrom s.machine.bus (word (s.cells lo) (s.cells hi)) (registersOf c result).length ++
                bytesOfAddress (word (s.cells lo) (s.cells hi) + type.size.toUInt8.toUInt16))) t ∧
            t.regs.sp = s.regs.sp) := by
  obtain ⟨_, st₁, hcheck, h₁⟩ := bind_ok.mp h
  obtain ⟨hscalar, rfl⟩ := checkScalar_ok hcheck
  obtain ⟨info, st₂, hinfo, h₂⟩ := bind_ok.mp h₁
  obtain ⟨rfl, hget⟩ := tempInfo_ok hinfo
  have hregisters := registersOf_eq hget
  rcases hvregs : info.vregs with _ | ⟨lo, _ | ⟨hi, _ | ⟨_, _⟩⟩⟩ <;> simp only [hvregs] at h₂
  case cons.cons.nil =>
    obtain ⟨dst, st₃, hdst, hcommit⟩ := bind_ok.mp h₂
    obtain ⟨rfl, rfl⟩ := destination_ok hdst
    refine ⟨hscalar, lo, hi, hregisters.trans hvregs, fun hne hapart hsize =>
      adds_of_passes hcommit fun st₀ st₄ hfork hbuild => ?_⟩
    obtain ⟨_, st₅, hload, hmove⟩ := bind_ok.mp hbuild
    obtain ⟨st₆, hadvance, hstore⟩ := @advance_ok c st₅ st₄ Unit () (lo, hi) type.size.toUInt8 lo
      (storeA (.vreg hi)) hmove
    have hdraft : st₄.draft = advance st₅.draft (lo, hi) type.size.toUInt8 lo hi := by
      rw [← Except.ok.inj (storeA_ok hstore), hadvance]
      rfl
    have hbehind : loadBehind (lo, hi) 0 ((registersOf c result).map .vreg) = _ :=
      loadBehind_eq (lo, hi) (registersOf c result) 0
    rw [hbehind] at hload
    have hfirst := passes_keepBytes (k := k) hload fun src hsrc => by
      obtain ⟨j, -, rfl⟩ := List.mem_map.mp hsrc
      exact ⟨trivial, hapart⟩
    have hsecond := @passes_advance k st₅.draft (lo, hi) type.size.toUInt8 lo hi hne
    rw [hfirst.cell, ← hdraft] at hsecond
    rw [hfork] at hfirst hsecond ⊢
    refine (hfirst.trans hsecond fun _ _ _ _ => trivial).imp le_rfl (fun s hs l hl a ha => ?_) ?_
    · obtain ⟨j, hj, rfl⟩ := List.mem_map.mp hl
      have hlt := List.mem_range'_1.mp hj
      rw [spotOf_behind (by omega)] at ha
      cases ha
      exact hs j (by omega)
    · rintro s u - hpre ⟨t, hsame, hmoved⟩
      rw [heldAll_behind hsize] at hsame
      have hcell : ∀ w ∈ [lo, hi], t.cells w = s.cells w := fun w hw =>
        @get_of_fill s t _ everything _ _ hsame keeps_cells (.cell w) w.index.toNat_lt fun hmem => by
          obtain ⟨v, hv, heq⟩ := List.mem_map.mp hmem
          exact hapart v hv (Spot.cell.inj heq ▸ hw)
      rw [hcell lo (List.mem_cons_self ..), hcell hi (List.mem_cons_of_mem _ (List.mem_cons_self ..))]
        at hmoved
      rw [List.map_append, fill_append (by simp)]
      exact (same_fill hsame (@keeps_cells _ [lo, hi])).trans hmoved
  all_goals cases h₂

/-! ### What is taken in is in new registers -/

theorem takeCursor_new {wants : Bool} {slot : UInt8} {pointer : Option PointerPair}
    (h : takeCursor wants slot c st = .ok (pointer, st'))
    (hroom : st.draft.nextVReg.toNat + 2 < everything) {lo hi : VReg}
    (hpointer : pointer = some (lo, hi)) :
    ∀ v ∈ [lo, hi], st.draft.nextVReg.toNat ≤ v.index.toNat := by
  unfold takeCursor at h
  split at h
  · obtain ⟨⟨lo', hi'⟩, st₁, hpair, h₁⟩ := bind_ok.mp h
    obtain ⟨_, st₂, -, hpure⟩ := bind_ok.mp h₁
    obtain ⟨rfl, -⟩ := pure_ok.mp hpure
    obtain ⟨rfl, rfl⟩ := Prod.mk.inj (Option.some.inj hpointer)
    obtain ⟨hlo, hhi, -⟩ : lo'.index.toNat = _ ∧ hi'.index.toNat = _ ∧ _ :=
      newPair_ok (k := plainLinkage) hpair hroom
    intro v hv
    simp only [List.mem_cons, List.not_mem_nil, or_false] at hv
    rcases hv with rfl | rfl <;> omega
  · obtain ⟨rfl, -⟩ := pure_ok.mp h
    cases hpointer

theorem takeCount_new {wants : Bool} {slot : UInt8} {count : Option VReg}
    (h : takeCount wants slot c st = .ok (count, st')) {v : VReg} (hv : count = some v) :
    st.draft.nextVReg.toNat ≤ v.index.toNat := by
  unfold takeCount at h
  split at h
  · obtain ⟨w, st₁, hnew, h₁⟩ := bind_ok.mp h
    obtain ⟨_, st₂, -, hpure⟩ := bind_ok.mp h₁
    obtain ⟨rfl, rfl⟩ := pure_ok.mp hpure
    cases hv
    obtain ⟨rfl, -⟩ := newVReg_ok hnew
    exact le_rfl
  · obtain ⟨rfl, -⟩ := pure_ok.mp h
    cases hv

/-- **The hidden registers of variadic arguments are new.** -/
theorem hidden_new {hidden : Hidden} (h : copyIncoming c st = .ok (hidden, st'))
    (hnum : Numbered c.temps st.draft.nextVReg.toNat)
    (hroom : st.draft.nextVReg.toNat + 5 < everything) :
    (∀ lo hi, hidden.vaPointer = some (lo, hi) →
      ∀ v ∈ [lo, hi], st.draft.nextVReg.toNat ≤ v.index.toNat) ∧
    ∀ v, hidden.vaCount = some v → st.draft.nextVReg.toNat ≤ v.index.toNat := by
  obtain ⟨c', st₀, hread, h₀⟩ := bind_ok.mp h
  cases hread
  obtain ⟨_, st₁, hparams, h₁⟩ := bind_ok.mp h₀
  obtain ⟨result, st₂, hresult, h₂⟩ := bind_ok.mp h₁
  obtain ⟨⟨count, pointer⟩, st₃, hvariadic, hpure⟩ := bind_ok.mp h₂
  obtain ⟨rfl, rfl⟩ := pure_ok.mp hpure
  have hone := passes_copyParams (k := plainLinkage) hnum hparams
  have hgrows₁ := hone.toEmits.grows
  have hbounded₁ := hone.toEmits.bounded
  obtain ⟨-, -, htwo⟩ := passes_copyResultPointer (k := plainLinkage) hresult (by omega)
  have hgrows₂ := htwo.toEmits.grows
  have hbounded₂ := htwo.toEmits.bounded
  rw [copyVariadic_eq] at hvariadic
  split at hvariadic
  · obtain ⟨c', st₄, hread, hvariadic⟩ := bind_ok.mp hvariadic
    cases hread
    obtain ⟨c', st₄, hread, hvariadic⟩ := bind_ok.mp hvariadic
    cases hread
    cases hcount : c.binding.vaCountSlot <;> cases hpointer : c.binding.vaPtrSlot <;>
      simp only [hcount, hpointer] at hvariadic
    case some.some =>
      obtain ⟨_, st₄, htake, hvariadic⟩ := bind_ok.mp hvariadic
      obtain ⟨_, st₅, htake', hpure⟩ := bind_ok.mp hvariadic
      obtain ⟨hpair, -⟩ := pure_ok.mp hpure
      obtain ⟨rfl, rfl⟩ := Prod.mk.inj hpair
      obtain ⟨-, -, hthree⟩ := passes_takeCount (k := plainLinkage) htake (by omega)
      have hgrows₃ := hthree.toEmits.grows
      have hbounded₃ := hthree.toEmits.bounded
      refine ⟨fun lo hi hsome v hv => ?_, fun v hv => ?_⟩
      · exact le_trans (by omega) (takeCursor_new htake' (by omega) hsome v hv)
      · exact le_trans (by omega) (takeCount_new htake hv)
    all_goals cases hvariadic
  · obtain ⟨hpair, -⟩ := pure_ok.mp hvariadic
    obtain ⟨rfl, rfl⟩ := Prod.mk.inj hpair
    exact ⟨nofun, nofun⟩

end Codegen6502.Proofs.Selecting.Cursors
