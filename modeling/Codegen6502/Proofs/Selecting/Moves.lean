import Codegen6502.Proofs.Selecting.Places

/-!
# Moves

The code of a copy or a store moves one byte after the other, and reads the second byte of its
source only when the first byte of its destination has been written.  `moved_iff` says exactly when
the destination is left with the value that the source had: if the second byte is still what it was,
and is where it should be (`Undisturbed`).
-/

namespace Codegen6502.Proofs.Selecting.Moves

open Selection Processor.Memory Processor.LineRun Processor.Straight Tracking Places
open Selecting.Numbering

variable {c : Context} {k : Linkage} {s t : Store} {st st' : State}

/-! ### Bytes one after the other -/

/-- The store after bytes have been moved one after the other. -/
def transfer (k : Linkage) (s : Store) : List (ByteLoc × ByteLoc) → Store
  | [] => s
  | (src, dst) :: rest => transfer k (put s (spotOf k s dst) (get s (spotOf k s src))) rest

/-- No byte that is moved is in the scratch pointer, and every byte that is written keeps it. -/
def Clear (cell : UInt8) (k : Linkage) (s : Store) : List (ByteLoc × ByteLoc) → Prop
  | [] => True
  | (src, dst) :: rest =>
    (∀ a, spotOf k s src = .memory a → ¬IsScratch cell a) ∧
      (∀ a, spotOf k s dst = .memory a → ¬IsScratch cell a) ∧ Keeps s (spotOf k s dst) ∧
      Clear cell k (put s (spotOf k s dst) (get s (spotOf k s src))) rest

/-- A byte of a move: its registers are below a bound. -/
def IsMoved (n : ℕ) (loc : ByteLoc) : Prop := IsByte loc ∧ Below n loc

theorem visible_of_clear {cell : UInt8} {n : ℕ} {loc : ByteLoc} (h : IsMoved n loc)
    (hclear : ∀ a, spotOf k s loc = .memory a → ¬IsScratch cell a) :
    Visible cell n (spotOf k s loc) := by
  cases hspot : spotOf k s loc with
  | memory a => exact hclear a hspot
  | cell v =>
    cases loc with
    | direct operand =>
      cases operand with
      | virtual w =>
        cases hspot
        exact h.2
      | immediate i => cases i <;> cases hspot
      | _ => cases hspot
    | indirect pointer offset => cases hspot
  | _ => trivial

/-- Stores that look the same look the same after the moves. -/
theorem same_transfer {cell : UInt8} {n : ℕ} : ∀ (pairs : List (ByteLoc × ByteLoc)) (s t : Store),
    Same cell n s t → (∀ p ∈ pairs, IsMoved n p.1 ∧ IsMoved n p.2) → Clear cell k s pairs →
      Clear cell k t pairs ∧ Same cell n (transfer k s pairs) (transfer k t pairs)
  | [], _, _, hsame, _, _ => ⟨trivial, hsame⟩
  | (src, dst) :: rest, s, t, hsame, hmoved, ⟨hsrc, hdst, hkeeps, hclear⟩ => by
    obtain ⟨hm, hm'⟩ := hmoved (src, dst) (List.mem_cons_self ..)
    have hspot : spotOf k t src = spotOf k s src := hsame.spotOf hm.2
    have hspot' : spotOf k t dst = spotOf k s dst := hsame.spotOf hm'.2
    have hget : get t (spotOf k t src) = get s (spotOf k s src) := by
      rw [hspot]
      exact hsame.get _ (visible_of_clear hm hsrc)
    have hput := hsame.put hkeeps (get s (spotOf k s src))
    obtain ⟨hclear', hsame'⟩ := same_transfer rest _ _ hput
      (fun p hp => hmoved p (List.mem_cons_of_mem _ hp)) hclear
    refine ⟨⟨?_, ?_, ?_, ?_⟩, ?_⟩
    · rw [hspot]
      exact hsrc
    · rw [hspot']
      exact hdst
    · rw [hspot']
      exact (hsame.keeps _).mpr hkeeps
    · rw [hspot', hget]
      exact hclear'
    · simp only [transfer]
      rw [hspot', hget]
      exact hsame'

/-- The code of a move of one byte. -/
theorem emits_moveByte {n : ℕ} {src dst : ByteLoc} {d d' : Draft} (hsrc : IsMoved n src)
    (hdst : IsMoved n dst) (hn : n ≤ d.nextVReg.toNat) (hroom : d.nextVReg.toNat + 1 < everything)
    (h : (d.loadA src).storeA dst = .ok d') :
    Emits k 1 d d' (fun s => (∀ a, spotOf k s src = .memory a → ¬IsScratch d.pointerCell a) ∧
        (∀ a, spotOf k s dst = .memory a → ¬IsScratch d.pointerCell a) ∧
        Keeps s (spotOf k s dst)) fun s t =>
      Same d.pointerCell n (put s (spotOf k s dst) (get s (spotOf k s src))) t := by
  have hload := emits_loadA (k := k) d hsrc.1
  have hnext : (d.loadA src).nextVReg.toNat = d.nextVReg.toNat := by
    have := hload.grows
    have := hload.bounded
    omega
  have hstore := emits_storeA (k := k) hdst.1 (by omega : n ≤ (d.loadA src).nextVReg.toNat)
    (by omega) hdst.2 h
  have hle : n ≤ everything := hn.trans d.nextVReg.toNat_lt.le
  rw [hload.cell] at hstore
  have hfirst : Emits k 0 d (d.loadA src)
      (fun s => (∀ a, spotOf k s src = .memory a → ¬IsScratch d.pointerCell a) ∧
        (∀ a, spotOf k s dst = .memory a → ¬IsScratch d.pointerCell a) ∧
        Keeps s (spotOf k s dst)) fun s t =>
      Same d.pointerCell n s t ∧ t.regs.a = get s (spotOf k s src) :=
    hload.imp le_rfl (fun _ h => h.1) fun s t _ _ h => ⟨h.1.mono hle, h.2⟩
  refine (hfirst.trans hstore ?_).imp le_rfl (fun _ h => h) ?_
  · rintro s t ⟨-, hclear, hkeeps⟩ ⟨hsame, -⟩
    rw [hsame.spotOf hdst.2]
    exact ⟨(hsame.keeps _).mpr hkeeps, hclear⟩
  · rintro s u - ⟨-, -, hkeeps⟩ ⟨t, ⟨hsame, ha⟩, hu⟩
    rw [hsame.spotOf hdst.2, ha] at hu
    exact (hsame.put hkeeps _).trans hu

/-- **The code of a move of several bytes** does what moving them one after the other does. -/
theorem emits_copyBytes {n : ℕ} : ∀ (srcs dsts : List ByteLoc) {st st' : State} {u : Unit},
    copyBytes srcs dsts c st = .ok (u, st') → (∀ loc ∈ srcs, IsMoved n loc) →
    (∀ loc ∈ dsts, IsMoved n loc) → n ≤ st.draft.nextVReg.toNat →
    st.draft.nextVReg.toNat + dsts.length < everything →
    Emits k dsts.length st.draft st'.draft
      (fun s => Clear st.draft.pointerCell k s (srcs.zip dsts)) fun s t =>
      Same st.draft.pointerCell n (transfer k s (srcs.zip dsts)) t := by
  intro srcs
  induction srcs with
  | nil =>
    intro dsts st st' u h _ _ _ _
    obtain ⟨-, rfl⟩ := pure_ok.mp h
    exact (Emits.refl fun s _ _ => Same.refl s).imp (Nat.zero_le _) (fun _ h => h)
      fun _ _ _ _ h => h
  | cons src srcs ih =>
    intro dsts st st' u h hsrcs hdsts hn hroom
    cases dsts with
    | nil =>
      obtain ⟨-, rfl⟩ := pure_ok.mp h
      exact Emits.refl fun s _ _ => Same.refl s
    | cons dst dsts =>
      have hsrc := hsrcs src (List.mem_cons_self ..)
      have hdst := hdsts dst (List.mem_cons_self ..)
      have hsrcs' : ∀ loc ∈ srcs, IsMoved n loc := fun l hl => hsrcs l (List.mem_cons_of_mem _ hl)
      have hdsts' : ∀ loc ∈ dsts, IsMoved n loc := fun l hl => hdsts l (List.mem_cons_of_mem _ hl)
      have hpairs : ∀ p ∈ srcs.zip dsts, IsMoved n p.1 ∧ IsMoved n p.2 := fun p hp =>
        ⟨hsrcs' p.1 (List.of_mem_zip hp).1, hdsts' p.2 (List.of_mem_zip hp).2⟩
      simp only [List.length_cons] at hroom ⊢
      -- The move of the first byte, whether it is left out or not.
      obtain ⟨st₁, hfirst, hrest⟩ : ∃ st₁ : State, Emits k 1 st.draft st₁.draft
          (fun s => Clear st.draft.pointerCell k s ((src, dst) :: srcs.zip dsts)) (fun s t =>
            Same st.draft.pointerCell n (put s (spotOf k s dst) (get s (spotOf k s src))) t) ∧
          copyBytes srcs dsts c st₁ = .ok (u, st') := by
        unfold copyBytes at h
        split at h
        · obtain ⟨u₁, st₁, hload, h1⟩ := bind_ok.mp h
          obtain ⟨u₂, st₂, hstore, h2⟩ := bind_ok.mp h1
          have hstored := storeA_ok hstore
          rw [modifyDraft_ok hload] at hstored
          refine ⟨st₂, (emits_moveByte hsrc hdst hn (by omega) hstored).imp le_rfl ?_ ?_, h2⟩
          · exact fun s hs => ⟨hs.1, hs.2.1, hs.2.2.1⟩
          · exact fun _ _ _ _ h => h
        · rename_i heq
          refine ⟨st, (Emits.refl fun s _ hs => ?_).imp (Nat.zero_le 1) (fun _ h => h)
            fun _ _ _ _ h => h, h⟩
          rw [not_not.mp heq]
          exact Same.put_get hs.2.2.1
      have hgrown := hfirst.grows
      have hbounded := hfirst.bounded
      have hsecond := ih dsts hrest hsrcs' hdsts' (by omega) (by omega)
      rw [hfirst.cell] at hsecond
      refine (hfirst.trans hsecond ?_).imp (by omega) (fun _ h => h) ?_
      · intro s t hclear hsame
        exact (same_transfer _ _ _ hsame hpairs hclear.2.2.2).1
      · rintro s w - hclear ⟨t, hsame, hw⟩
        exact (same_transfer _ _ _ hsame hpairs hclear.2.2.2).2.trans hw

/-! ### Moves and what they should do -/

/-- Where a move goes to. -/
inductive Target where
  | temp (x : Temp)
  | place (place : Place)

structure Move where
  value : Value
  target : Target
  type : ValueType

def Move.node (m : Move) : Node :=
  match m.target with
  | .temp x => .copy x m.value m.type
  | .place place => .store m.value place m.type

/-- The number of bytes that are moved. -/
def Move.size (m : Move) : ℕ := m.type.size.toNat

/-- The bytes of the destination. -/
def Move.spots (m : Move) (c : Context) (k : Linkage) (s : Store) : List Spot :=
  match m.target with
  | .temp x => (registersOf c x).map .cell
  | .place place => (List.range m.size).map (plus (start c k s place))

/-- The destination has the value that the source had, and nothing else has changed but the scratch
pointer and registers that were not in use. -/
structure Moved (m : Move) (c : Context) (k : Linkage) (cell : UInt8) (n : ℕ) (s t : Store) :
    Prop where
  holds : (m.spots c k s).map (get t) = bytesOf c k s m.size m.value
  others : ∀ spot, Visible cell n spot → spot ∉ m.spots c k s → get t spot = get s spot

/-- What the code takes for the second byte of the source, after the first byte of the destination
has been written. -/
def Move.reread (m : Move) (c : Context) (k : Linkage) (s : Store) (second : UInt8) : UInt8 :=
  match m.value with
  | .memory place => get s (start c k s (place.displaced 1))
  | _ => second

/-- Where the code puts the second byte. -/
def Move.hit (m : Move) (c : Context) (k : Linkage) (s : Store) (second : Spot) : Spot :=
  match m.target with
  | .temp _ => second
  | .place place => start c k s (place.displaced 1)

/-- **The condition for a move to be right**: the second byte is put where it belongs and is still
what it was.  An offset that wraps puts it elsewhere; then the move is right only if nothing had to
change. -/
def Undisturbed (m : Move) (c : Context) (k : Linkage) (s : Store) : Prop :=
  match m.spots c k s, bytesOf c k s m.size m.value with
  | [first, second], [lo, hi] =>
    let read := m.reread c k (put s first lo) hi
    let hit := m.hit c k s second
    if hit = second then read = hi else read = get s hit ∧ get s second = hi
  | _, _ => True

/-- The places that the code of a move reads. -/
def Move.reads (m : Move) (c : Context) (k : Linkage) (s : Store) : List Spot :=
  match m.value with
  | .memory place =>
    start c k s place :: match m.spots c k s, bytesOf c k s m.size m.value with
      | [first, _], [lo, _] => [start c k (put s first lo) (place.displaced 1)]
      | _, _ => []
  | _ => []

/-- The places that the code of a move writes, and those that it should write. -/
def Move.writes (m : Move) (c : Context) (k : Linkage) (s : Store) : List Spot :=
  match m.spots c k s with
  | [first, second] => [first, second, m.hit c k s second]
  | spots => spots

/-- No byte of the move is in the scratch pointer, and memory keeps what is written to it. -/
structure Apart (m : Move) (c : Context) (k : Linkage) (cell : UInt8) (s : Store) : Prop where
  scratch : PlainScratch cell s
  reads : ∀ a, .memory a ∈ m.reads c k s → ¬IsScratch cell a
  writes : ∀ a, .memory a ∈ m.writes c k s → ¬IsScratch cell a ∧ Plain s.machine.bus a

/-! ### One byte and two bytes -/

/-- The second of two writes decides. -/
theorem moved_two_iff {cell : UInt8} {n : ℕ} {first second hit : Spot} {lo read : UInt8}
    {u : Store} (hi : UInt8) (hu : Same cell n (put (put s first lo) hit read) u) (hkeeps : Keeps s first)
    (hkeeps' : Keeps s hit) (hfirst : Visible cell n first) (hsecond : Visible cell n second)
    (hhit : Visible cell n hit) (hne : first ≠ second) (hne' : first ≠ hit) :
    ([first, second].map (get u) = [lo, hi] ∧
      ∀ spot, Visible cell n spot → spot ∉ [first, second] → get u spot = get s spot) ↔
    if hit = second then read = hi else read = get s hit ∧ get s second = hi := by
  have hget : ∀ spot, Visible cell n spot →
      get u spot = if hit = spot then read else if first = spot then lo else get s spot := by
    intro spot hv
    rw [hu.get spot hv, get_put ((keeps_put _ _ _).mpr hkeeps'), get_put hkeeps]
  have hlo : get u first = lo := by rw [hget first hfirst, if_neg hne'.symm, if_pos rfl]
  simp only [List.map_cons, List.map_nil, List.cons.injEq, and_true, hlo, true_and,
    List.mem_cons, List.not_mem_nil, or_false, not_or]
  rw [hget second hsecond]
  by_cases hs : hit = second
  · simp only [if_pos hs]
    refine ⟨fun h => h.1, fun h => ⟨h, fun spot hv hspot => ?_⟩⟩
    rw [hget spot hv, if_neg (fun heq : hit = spot => hspot.2 (heq.symm.trans hs)),
      if_neg (Ne.symm hspot.1)]
  · simp only [if_neg hs, if_neg hne]
    constructor
    · rintro ⟨hsec, hothers⟩
      refine ⟨?_, hsec⟩
      rw [← hothers hit hhit ⟨hne'.symm, hs⟩, hget hit hhit, if_pos rfl]
    · rintro ⟨hread, hsec⟩
      refine ⟨hsec, fun spot hv hspot => ?_⟩
      rw [hget spot hv]
      split_ifs with heq heq'
      · rw [hread, heq]
      · exact absurd heq'.symm hspot.1
      · rfl

theorem moved_one {cell : UInt8} {n : ℕ} {first : Spot} {lo : UInt8} {u : Store}
    (hu : Same cell n (put s first lo) u) (hkeeps : Keeps s first) (hfirst : Visible cell n first) :
    [first].map (get u) = [lo] ∧
      ∀ spot, Visible cell n spot → spot ∉ [first] → get u spot = get s spot := by
  have hget : ∀ spot, Visible cell n spot → get u spot = if first = spot then lo else get s spot :=
    fun spot hv => by rw [hu.get spot hv, get_put hkeeps]
  refine ⟨by simp [hget first hfirst], fun spot hv hspot => ?_⟩
  rw [hget spot hv, if_neg]
  rintro rfl
  exact hspot (List.mem_singleton.mpr rfl)

/-- A spot outside the scratch pointer. -/
def Outside (cell : UInt8) (spot : Spot) : Prop := ∀ a, spot = .memory a → ¬IsScratch cell a

theorem IsMoved.mono {m n : ℕ} {loc : ByteLoc} (h : IsMoved m loc) (hle : m ≤ n) :
    IsMoved n loc := by
  refine ⟨h.1, ?_⟩
  cases loc with
  | direct operand =>
    cases operand with
    | virtual v => exact lt_of_lt_of_le h.2 hle
    | _ => trivial
  | indirect pointer offset => exact ⟨lt_of_lt_of_le h.2.1 hle, lt_of_lt_of_le h.2.2 hle⟩

section Emission

variable {n : ℕ} {d : Draft} {pre : Store → Prop} {lo read : Store → UInt8} {s₀ s₁ d₀ d₁ : ByteLoc}
  {u : Unit}

/-- The code of a move of one byte, after what the source needs. -/
theorem emits_one (hvalue : Emits k 2 d st.draft pre fun s t => Same d.pointerCell n s t ∧
      get t (spotOf k t s₀) = lo s ∧ Outside d.pointerCell (spotOf k t s₀))
    (hcopy : copyBytes [s₀] [d₀] c st = .ok (u, st')) (hs₀ : IsMoved st.draft.nextVReg.toNat s₀)
    (hd₀ : IsMoved n d₀) (hn : n ≤ d.nextVReg.toNat) (hroom : d.nextVReg.toNat + 4 < everything)
    (hpre : ∀ s, pre s → Outside d.pointerCell (spotOf k s d₀) ∧ Keeps s (spotOf k s d₀)) :
    Emits k 4 d st'.draft pre fun s t =>
      Same d.pointerCell n (put s (spotOf k s d₀) (lo s)) t := by
  have hgrows := hvalue.grows
  have hbounded := hvalue.bounded
  have hle : n ≤ st.draft.nextVReg.toNat := by omega
  have hmove := emits_copyBytes (k := k) [s₀] [d₀] hcopy (by simpa using hs₀)
    (by simpa using hd₀.mono hle) le_rfl (by simp only [List.length_singleton]; omega)
  rw [hvalue.cell] at hmove
  refine (hvalue.trans hmove ?_).imp (by simp) (fun _ h => h) ?_
  · rintro s t hp ⟨hsame, -, hout⟩
    obtain ⟨hout', hkeeps⟩ := hpre s hp
    have hspot := hsame.spotOf (k := k) hd₀.2
    refine ⟨hout, ?_, ?_, trivial⟩
    · rw [hspot]
      exact hout'
    · rw [hspot]
      exact (hsame.keeps _).mpr hkeeps
  · rintro s w - hp ⟨t, ⟨hsame, hlo, -⟩, hw⟩
    simp only [List.zip_cons_cons, List.zip_nil_right, transfer] at hw
    rw [hsame.spotOf hd₀.2, hlo] at hw
    exact (hsame.put (hpre s hp).2 _).trans (hw.mono hle)

/-- The code of a move of two bytes, after what the source needs. -/
theorem emits_two (hvalue : Emits k 2 d st.draft pre fun s t => Same d.pointerCell n s t ∧
      get t (spotOf k t s₀) = lo s ∧ Outside d.pointerCell (spotOf k t s₀) ∧
      ∀ w, w = put t (spotOf k s d₀) (lo s) →
        get w (spotOf k w s₁) = read s ∧ Outside d.pointerCell (spotOf k w s₁))
    (hcopy : copyBytes [s₀, s₁] [d₀, d₁] c st = .ok (u, st'))
    (hs₀ : IsMoved st.draft.nextVReg.toNat s₀) (hs₁ : IsMoved st.draft.nextVReg.toNat s₁)
    (hd₀ : IsMoved n d₀) (hd₁ : IsMoved n d₁) (hn : n ≤ d.nextVReg.toNat)
    (hroom : d.nextVReg.toNat + 4 < everything)
    (hstable : ∀ s byte, spotOf k (put s (spotOf k s d₀) byte) d₁ = spotOf k s d₁)
    (hpre : ∀ s, pre s → Outside d.pointerCell (spotOf k s d₀) ∧ Keeps s (spotOf k s d₀) ∧
      Outside d.pointerCell (spotOf k s d₁) ∧ Keeps s (spotOf k s d₁)) :
    Emits k 4 d st'.draft pre fun s t =>
      Same d.pointerCell n (put (put s (spotOf k s d₀) (lo s)) (spotOf k s d₁) (read s)) t := by
  have hgrows := hvalue.grows
  have hbounded := hvalue.bounded
  have hle : n ≤ st.draft.nextVReg.toNat := by omega
  have hmove := emits_copyBytes (k := k) [s₀, s₁] [d₀, d₁] hcopy
    (by simpa using ⟨hs₀, hs₁⟩) (by simpa using ⟨hd₀.mono hle, hd₁.mono hle⟩) le_rfl
    (by simp only [List.length_cons, List.length_nil]; omega)
  rw [hvalue.cell] at hmove
  refine (hvalue.trans hmove ?_).imp (by simp) (fun _ h => h) ?_
  · rintro s t hp ⟨hsame, hlo, hout, hsecond⟩
    obtain ⟨hout₀, hkeeps₀, hout₁, hkeeps₁⟩ := hpre s hp
    have hspot₀ := hsame.spotOf (k := k) hd₀.2
    have hspot₁ := hsame.spotOf (k := k) hd₁.2
    obtain ⟨-, hread⟩ := hsecond _ rfl
    refine ⟨hout, ?_, ?_, ?_, ?_, ?_, trivial⟩
    · rw [hspot₀]
      exact hout₀
    · rw [hspot₀]
      exact (hsame.keeps _).mpr hkeeps₀
    · rw [hspot₀, hlo]
      exact hread
    · rw [hlo, hstable, hspot₁]
      exact hout₁
    · rw [hlo, hstable, hspot₁, keeps_put]
      exact (hsame.keeps _).mpr hkeeps₁
  · rintro s w - hp ⟨t, ⟨hsame, hlo, -, hsecond⟩, hw⟩
    obtain ⟨hout₀, hkeeps₀, hout₁, hkeeps₁⟩ := hpre s hp
    simp only [List.zip_cons_cons, List.zip_nil_right, transfer] at hw
    rw [hlo, hstable, hsame.spotOf hd₀.2, hsame.spotOf hd₁.2, (hsecond _ rfl).1] at hw
    exact ((hsame.put hkeeps₀ _).put ((keeps_put _ _ _).mpr hkeeps₁) _).trans (hw.mono hle)

end Emission

/-! ### Destinations -/

/-- The bytes that the code of a move writes to. -/
structure Destines (m : Move) (c : Context) (n : ℕ) (dsts : List ByteLoc) : Prop where
  length : dsts.length = m.size
  moved : ∀ loc ∈ dsts, IsMoved n loc
  one : ∀ d₀, dsts = [d₀] → ∀ k s, m.spots c k s = [spotOf k s d₀]
  two : ∀ d₀ d₁, dsts = [d₀, d₁] → ∀ k s, ∃ second, m.spots c k s = [spotOf k s d₀, second] ∧
    m.hit c k s second = spotOf k s d₁ ∧ spotOf k s d₀ ≠ second ∧ spotOf k s d₀ ≠ spotOf k s d₁
  stable : ∀ d₀ d₁, dsts = [d₀, d₁] → ∀ k s byte,
    spotOf k (put s (spotOf k s d₀) byte) d₁ = spotOf k s d₁
  own : ∀ k s v, .cell v ∈ m.writes c k s →
    v.index.toNat < n ∧ ∀ x, m.value = .temp x → v ∉ registersOf c x
  writable : ∀ k s byte, .constant byte ∉ m.writes c k s

/-- The registers of a temporary as a destination. -/
theorem destines_temp {m : Move} {x : Temp} {n : ℕ} (htarget : m.target = .temp x)
    (hp : Pointed c n) (hlength : (registersOf c x).length = m.size)
    (hnodup : (registersOf c x).Nodup)
    (hapart : ∀ y, m.value = .temp y → ∀ v ∈ registersOf c x, v ∉ registersOf c y) :
    Destines m c n ((registersOf c x).map .vreg) := by
  have hspots : ∀ k s, m.spots c k s = (registersOf c x).map .cell := fun k s => by
    simp [Move.spots, htarget]
  have hhit : ∀ k s second, m.hit c k s second = second := fun k s second => by
    simp [Move.hit, htarget]
  have hwrites : ∀ k s spot, spot ∈ m.writes c k s → ∃ v ∈ registersOf c x, spot = .cell v := by
    intro k s spot hspot
    have hsub : spot ∈ m.spots c k s := by
      unfold Move.writes at hspot
      split at hspot
      · rename_i first second heq
        rw [hhit] at hspot
        rw [heq]
        simpa using hspot
      · exact hspot
    rw [hspots] at hsub
    obtain ⟨v, hv, rfl⟩ := List.mem_map.mp hsub
    exact ⟨v, hv, rfl⟩
  refine ⟨by simpa using hlength, fun loc hloc => ?_, fun d₀ hd k s => ?_, fun d₀ d₁ hd k s => ?_,
    fun d₀ d₁ hd k s byte => ?_, fun k s v hv => ?_, fun k s byte hbyte => ?_⟩
  · obtain ⟨v, hv, rfl⟩ := List.mem_map.mp hloc
    exact ⟨trivial, hp.temps x v hv⟩
  · obtain ⟨v, hregs, rfl⟩ := List.map_eq_singleton_iff.mp hd
    rw [hspots, hregs]
    rfl
  · obtain ⟨v, w, hregs, rfl, rfl⟩ : ∃ v w, registersOf c x = [v, w] ∧ ByteLoc.vreg v = d₀ ∧
        ByteLoc.vreg w = d₁ := by
      rcases hregs : registersOf c x with _ | ⟨v, _ | ⟨w, _ | ⟨z, rest⟩⟩⟩ <;>
        rw [hregs] at hd <;> simp at hd
      exact ⟨v, w, rfl, hd⟩
    rw [hspots, hregs]
    rw [hregs] at hnodup
    have hne : v ≠ w := by simpa using hnodup
    have hcell : Spot.cell v ≠ .cell w := fun heq => hne (by injection heq)
    exact ⟨.cell w, rfl, hhit k s _, hcell, hcell⟩
  · have hd₁ : d₁ ∈ (registersOf c x).map ByteLoc.vreg := by rw [hd]; simp
    obtain ⟨v, -, rfl⟩ := List.mem_map.mp hd₁
    rfl
  · obtain ⟨w, hw, heq⟩ := hwrites k s _ hv
    injection heq with heq
    subst heq
    exact ⟨hp.temps x v hw, fun y hy => hapart y hy v hw⟩
  · obtain ⟨w, -, heq⟩ := hwrites k s _ hbyte
    cases heq

/-- A place is in memory or in the frame. -/
theorem start_cases (place : Place) : (∃ a, start c k s place = .memory a) ∨
    ∃ o, start c k s place = .frame o := by
  cases place with
  | frameByte offset => exact Or.inr ⟨_, rfl⟩
  | _ => exact Or.inl ⟨_, rfl⟩

/-- A write to memory or the frame moves no byte that is reached through registers. -/
theorem spotOf_put {spot : Spot} (h : ∀ v, spot ≠ .cell v) (byte : UInt8) (loc : ByteLoc) :
    spotOf k (put s spot byte) loc = spotOf k s loc := by
  cases loc with
  | direct operand => rfl
  | indirect pointer offset =>
    cases spot with
    | cell v => exact absurd rfl (h v)
    | _ => rfl

/-- The bytes of a place are one or two. -/
theorem locates_cases {place : Place} {n size : ℕ} {locs : List ByteLoc}
    (hsize : size = 1 ∨ size = 2)
    (h : List.Forall₂ (fun i loc => Locates c n (place.displaced (UInt16.ofNat i)) loc)
      (List.range size) locs) :
    (size = 1 ∧ ∃ l₀, locs = [l₀] ∧ Locates c n (place.displaced 0) l₀) ∨
      (size = 2 ∧ ∃ l₀ l₁, locs = [l₀, l₁] ∧ Locates c n (place.displaced 0) l₀ ∧
        Locates c n (place.displaced 1) l₁) := by
  rcases hsize with rfl | rfl
  · cases h with
    | cons h₀ hrest =>
      cases hrest
      exact Or.inl ⟨rfl, _, rfl, h₀⟩
  · cases h with
    | cons h₀ hrest =>
      cases hrest with
      | cons h₁ hnil =>
        cases hnil
        exact Or.inr ⟨rfl, _, _, rfl, h₀, h₁⟩

theorem isMoved_of_locates {place : Place} {n : ℕ} {loc : ByteLoc} (h : Locates c n place loc) :
    IsMoved n loc := ⟨h.isByte, h.below⟩

/-- The control block field of a place that has been found exists. -/
theorem field_of_locates {place : Place} {n : ℕ} {loc : ByteLoc}
    (h : Locates c n (place.displaced 0) loc) (channel : UInt8) (field : IocbField)
    (hplace : place = .iocb channel field) : (field.address? channel).isSome := by
  subst hplace
  cases haddress : field.address? channel with
  | some address => rfl
  | none =>
    have := h.addressed channel field (by simp [Place.displaced, haddress])
    rwa [haddress] at this

section Places

variable {m : Move} {place : Place}

theorem spots_place (htarget : m.target = .place place) (k : Linkage) (s : Store) :
    m.spots c k s = (List.range m.size).map (plus (start c k s place)) := by
  simp [Move.spots, htarget]

theorem hit_place (htarget : m.target = .place place) (k : Linkage) (s : Store) (second : Spot) :
    m.hit c k s second = start c k s (place.displaced 1) := by
  simp [Move.hit, htarget]

/-- A place is not written in registers or constants. -/
theorem writes_place (htarget : m.target = .place place) {spot : Spot} (h : spot ∈ m.writes c k s) :
    (∃ a, spot = .memory a) ∨ ∃ o, spot = .frame o := by
  have hin : ∀ x ∈ m.spots c k s, (∃ a, x = .memory a) ∨ ∃ o, x = .frame o := by
    intro x hx
    rw [spots_place htarget] at hx
    obtain ⟨i, -, rfl⟩ := List.mem_map.mp hx
    rcases start_cases (c := c) (k := k) (s := s) place with ⟨a, ha⟩ | ⟨o, ho⟩
    · exact Or.inl ⟨_, by rw [ha]; rfl⟩
    · exact Or.inr ⟨_, by rw [ho]; rfl⟩
  unfold Move.writes at h
  split at h
  · rename_i first second heq
    rw [hit_place htarget] at h
    rw [heq] at hin
    simp only [List.mem_cons, List.not_mem_nil, or_false] at h
    rcases h with rfl | rfl | rfl
    · exact hin _ (by simp)
    · exact hin _ (by simp)
    · exact start_cases _
  · exact hin spot h

/-- The bytes of a place as a destination. -/
theorem destines_place {n : ℕ} (htarget : m.target = .place place)
    {dsts : List ByteLoc} (hsize : m.size = 1 ∨ m.size = 2)
    (hlocs : List.Forall₂ (fun i loc => Locates c n (place.displaced (UInt16.ofNat i)) loc)
      (List.range m.size) dsts) : Destines m c n dsts := by
  have hown : ∀ k s v, .cell v ∈ m.writes c k s →
      v.index.toNat < n ∧ ∀ x, m.value = .temp x → v ∉ registersOf c x := by
    intro k s v hv
    rcases writes_place htarget hv with ⟨a, ha⟩ | ⟨o, ho⟩
    · cases ha
    · cases ho
  have hwritable : ∀ k s byte, .constant byte ∉ m.writes c k s := by
    intro k s byte hbyte
    rcases writes_place htarget hbyte with ⟨a, ha⟩ | ⟨o, ho⟩
    · cases ha
    · cases ho
  have hspot₀ : ∀ l₀, Locates c n (place.displaced 0) l₀ → ∀ k s,
      spotOf k s l₀ = start c k s place := fun l₀ h₀ k s =>
    (h₀.spot k s).trans (start_displaced_zero place)
  have hrange : List.range 2 = [0, 1] := rfl
  rcases locates_cases hsize hlocs with ⟨hone, l₀, rfl, h₀⟩ | ⟨htwo, l₀, l₁, rfl, h₀, h₁⟩
  · refine ⟨hone.symm, by simpa using isMoved_of_locates h₀, fun d₀ hd k s => ?_,
      fun d₀ d₁ hd => by simp at hd, fun d₀ d₁ hd => by simp at hd, hown, hwritable⟩
    obtain rfl : l₀ = d₀ := by simpa using hd
    rw [spots_place htarget, hone, hspot₀ l₀ h₀]
    simp [plus_zero]
  · refine ⟨htwo.symm, by simpa using ⟨isMoved_of_locates h₀, isMoved_of_locates h₁⟩,
      fun d₀ hd => by simp at hd, fun d₀ d₁ hd k s => ?_, fun d₀ d₁ hd k s byte => ?_, hown,
      hwritable⟩
    · obtain ⟨rfl, rfl⟩ : l₀ = d₀ ∧ l₁ = d₁ := by simpa using hd
      rw [spots_place htarget, htwo, hspot₀ l₀ h₀, hrange, h₁.spot k s]
      refine ⟨plus (start c k s place) 1, by simp [plus_zero], hit_place htarget k s _,
        start_ne_plus place, ?_⟩
      exact start_ne_displaced (field_of_locates h₀)
    · obtain ⟨rfl, rfl⟩ : l₀ = d₀ ∧ l₁ = d₁ := by simpa using hd
      refine spotOf_put (fun v hv => ?_) byte l₁
      rw [hspot₀ l₀ h₀] at hv
      rcases start_cases (c := c) (k := k) (s := s) place with ⟨a, ha⟩ | ⟨o, ho⟩
      · rw [ha] at hv
        cases hv
      · rw [ho] at hv
        cases hv

end Places

/-! ### Sources -/

theorem Destines.keeps {m : Move} {n : ℕ} {dsts : List ByteLoc} {cell : UInt8}
    (h : Destines m c n dsts) (hapart : Apart m c k cell s) {spot : Spot}
    (hspot : spot ∈ m.writes c k s) : Outside cell spot ∧ Keeps s spot ∧ Visible cell n spot := by
  cases spot with
  | constant byte => exact absurd hspot (h.writable k s byte)
  | cell v => exact ⟨fun a ha => (by cases ha), trivial, (h.own k s v hspot).1⟩
  | frame o => exact ⟨fun a ha => (by cases ha), trivial, trivial⟩
  | memory a =>
    obtain ⟨hscratch, hplain⟩ := hapart.writes a hspot
    exact ⟨fun b hb => by cases hb; exact hscratch, hplain, hscratch⟩

/-- The byte of a register source after a write to the destination. -/
theorem get_put_source {m : Move} {n size : ℕ} {d d' : Draft} {srcs dsts : List ByteLoc}
    (hs : Supplies c n m.value size d d' srcs) (hd : Destines m c n dsts) {spot : Spot}
    (hspot : spot ∈ m.writes c k s) {loc : ByteLoc} (hloc : loc ∈ srcs) (byte : UInt8)
    (hkeeps : Keeps t spot) :
    get (put t spot byte) (spotOf k (put t spot byte) loc) = get t (spotOf k t loc) ∧
      ∀ cell, Outside cell (spotOf k (put t spot byte) loc) := by
  rcases hs.simple loc hloc with ⟨b, rfl⟩ | ⟨v, rfl, -, hv⟩
  · exact ⟨rfl, fun cell a ha => by cases ha⟩
  · refine ⟨?_, fun cell a ha => by cases ha⟩
    change get (put t spot byte) (.cell v) = get t (.cell v)
    rw [get_put hkeeps, if_neg]
    rintro rfl
    obtain ⟨hlt, hother⟩ := hd.own k s v hspot
    rcases hv with ⟨x, hx, hmem⟩ | hge
    · exact hother x hx hmem
    · omega

theorem isMoved_of_supplies {value : Value} {n size : ℕ} {d d' : Draft} {srcs : List ByteLoc}
    (hs : Supplies c n value size d d' srcs) {loc : ByteLoc} (hloc : loc ∈ srcs) :
    IsMoved d'.nextVReg.toNat loc := by
  rcases hs.simple loc hloc with ⟨b, rfl⟩ | ⟨v, rfl, hlt, -⟩
  · exact ⟨trivial, trivial⟩
  · exact ⟨trivial, hlt⟩

/-! ### The moves of one and of two bytes -/

section Finish

variable {m : Move} {n : ℕ} {dsts : List ByteLoc} {cell : UInt8} {first second : Spot} {lo hi : UInt8}

theorem moved_iff_one (hd : Destines m c n dsts) (hapart : Apart m c k cell s)
    (hspots : m.spots c k s = [first]) (hbytes : bytesOf c k s m.size m.value = [lo])
    (ht : Same cell n (put s first lo) t) : Moved m c k cell n s t ↔ Undisturbed m c k s := by
  have hwrites : m.writes c k s = [first] := by simp [Move.writes, hspots]
  obtain ⟨-, hkeeps, hvisible⟩ := hd.keeps hapart (hwrites ▸ List.mem_singleton.mpr rfl)
  obtain ⟨hholds, hothers⟩ := moved_one ht hkeeps hvisible
  have hundisturbed : Undisturbed m c k s := by simp [Undisturbed, hspots]
  refine ⟨fun _ => hundisturbed, fun _ => ⟨?_, ?_⟩⟩
  · rw [hspots, hbytes]
    exact hholds
  · rw [hspots]
    exact hothers

theorem moved_iff_two (hd : Destines m c n dsts) (hapart : Apart m c k cell s)
    (hspots : m.spots c k s = [first, second]) (hbytes : bytesOf c k s m.size m.value = [lo, hi])
    (hne : first ≠ second) (hne' : first ≠ m.hit c k s second)
    (ht : Same cell n (put (put s first lo) (m.hit c k s second)
      (m.reread c k (put s first lo) hi)) t) :
    Moved m c k cell n s t ↔ Undisturbed m c k s := by
  have hwrites : m.writes c k s = [first, second, m.hit c k s second] := by
    simp [Move.writes, hspots]
  obtain ⟨-, hkeeps, hfirst⟩ := hd.keeps hapart (hwrites ▸ by simp : first ∈ m.writes c k s)
  obtain ⟨-, -, hsecond⟩ := hd.keeps hapart (hwrites ▸ by simp : second ∈ m.writes c k s)
  obtain ⟨-, hkeeps', hhit⟩ :=
    hd.keeps hapart (hwrites ▸ by simp : m.hit c k s second ∈ m.writes c k s)
  have key := moved_two_iff hi ht hkeeps hkeeps' hfirst hsecond hhit hne hne'
  constructor
  · intro h
    have hholds := h.holds
    have hothers := h.others
    rw [hspots, hbytes] at hholds
    rw [hspots] at hothers
    unfold Undisturbed
    rw [hspots, hbytes]
    exact key.mp ⟨hholds, hothers⟩
  · intro h
    unfold Undisturbed at h
    rw [hspots, hbytes] at h
    obtain ⟨hholds, hothers⟩ := key.mpr h
    exact ⟨by rw [hspots, hbytes]; exact hholds, by rw [hspots]; exact hothers⟩

end Finish

/-- The first and the second byte of the source. -/
def Move.lo (m : Move) (c : Context) (k : Linkage) (s : Store) : UInt8 :=
  (bytesOf c k s m.size m.value).getD 0 0

def Move.hi (m : Move) (c : Context) (k : Linkage) (s : Store) : UInt8 :=
  (bytesOf c k s m.size m.value).getD 1 0

theorem length_bytesOf (size : ℕ) (value : Value) : (bytesOf c k s size value).length = size := by
  cases value with
  | temp x => simp [bytesOf]
  | _ => simp [bytesOf]

theorem bytesOf_one {m : Move} (h : m.size = 1) :
    bytesOf c k s m.size m.value = [m.lo c k s] := by
  obtain ⟨a, ha⟩ := List.length_eq_one_iff.mp ((length_bytesOf (c := c) (k := k) (s := s) m.size
    m.value).trans h)
  simp [Move.lo, ha]

theorem bytesOf_two {m : Move} (h : m.size = 2) :
    bytesOf c k s m.size m.value = [m.lo c k s, m.hi c k s] := by
  obtain ⟨a, b, hab⟩ := List.length_eq_two.mp ((length_bytesOf (c := c) (k := k) (s := s) m.size
    m.value).trans h)
  simp [Move.lo, Move.hi, hab]

/-- The bytes that the code of a move reads from, after what it does to have them. -/
structure Feeds (m : Move) (c : Context) (k : Linkage) (n : ℕ) (d d' : Draft)
    (srcs : List ByteLoc) : Prop where
  length : srcs.length = m.size
  moved : ∀ loc ∈ srcs, IsMoved d'.nextVReg.toNat loc
  emits : Emits k 2 d d' (fun s => Apart m c k d.pointerCell s) fun s t =>
    Same d.pointerCell n s t ∧
      (∀ s₀ ∈ srcs.head?, get t (spotOf k t s₀) = m.lo c k s ∧
        Outside d.pointerCell (spotOf k t s₀)) ∧
      ∀ s₀ s₁ first second, srcs = [s₀, s₁] → m.spots c k s = [first, second] →
        ∀ w, w = put t first (m.lo c k s) →
          get w (spotOf k w s₁) = m.reread c k (put s first (m.lo c k s)) (m.hi c k s) ∧
            Outside d.pointerCell (spotOf k w s₁)

/-- **The code of a move**, from its bytes to their destination. -/
theorem emits_move {m : Move} {n : ℕ} {srcs dsts : List ByteLoc} {d : Draft} {u : Unit}
    (hsize : m.size = 1 ∨ m.size = 2) (hs : Feeds m c k n d st.draft srcs)
    (hd : Destines m c n dsts) (hcopy : copyBytes srcs dsts c st = .ok (u, st'))
    (hn : n ≤ d.nextVReg.toNat) (hroom : d.nextVReg.toNat + 4 < everything) :
    Emits k 4 d st'.draft (fun s => Apart m c k d.pointerCell s) fun s t =>
      (Moved m c k d.pointerCell n s t ↔ Undisturbed m c k s) := by
  have hlength := hd.length
  have hlength' := hs.length
  rcases hsize with hone | htwo
  · obtain ⟨s₀, rfl⟩ := List.length_eq_one_iff.mp (hlength'.trans hone)
    obtain ⟨d₀, rfl⟩ := List.length_eq_one_iff.mp (hlength.trans hone)
    have hspots := hd.one d₀ rfl
    have hwrites : ∀ s, m.writes c k s = [spotOf k s d₀] := fun s => by simp [Move.writes, hspots]
    have hfeed := hs.emits.imp le_rfl (fun _ h => h) fun s t _ _ h =>
      (⟨h.1, h.2.1 s₀ rfl⟩ : Same d.pointerCell n s t ∧ get t (spotOf k t s₀) = m.lo c k s ∧
        Outside d.pointerCell (spotOf k t s₀))
    have hemits := emits_one hfeed hcopy (hs.moved s₀ (by simp)) (hd.moved d₀ (by simp)) hn hroom
      fun s hapart => by
        have hkeeps := hd.keeps hapart (hwrites s ▸ List.mem_singleton.mpr rfl)
        exact ⟨hkeeps.1, hkeeps.2.1⟩
    exact hemits.imp le_rfl (fun _ h => h) fun s t _ hapart ht =>
      moved_iff_one hd hapart (hspots k s) (bytesOf_one hone) ht
  · obtain ⟨s₀, s₁, rfl⟩ := List.length_eq_two.mp (hlength'.trans htwo)
    obtain ⟨d₀, d₁, rfl⟩ := List.length_eq_two.mp (hlength.trans htwo)
    have htwo' := hd.two d₀ d₁ rfl k
    have hfeed := hs.emits.imp le_rfl (fun _ h => h) fun s t _ _ h => by
      obtain ⟨second, hspots, -⟩ := htwo' s
      exact (⟨h.1, (h.2.1 s₀ rfl).1, (h.2.1 s₀ rfl).2, h.2.2 s₀ s₁ _ second rfl hspots⟩ :
        Same d.pointerCell n s t ∧ get t (spotOf k t s₀) = m.lo c k s ∧
        Outside d.pointerCell (spotOf k t s₀) ∧ ∀ w, w = put t (spotOf k s d₀) (m.lo c k s) →
          get w (spotOf k w s₁) =
              m.reread c k (put s (spotOf k s d₀) (m.lo c k s)) (m.hi c k s) ∧
            Outside d.pointerCell (spotOf k w s₁))
    have hemits := emits_two hfeed hcopy (hs.moved s₀ (by simp)) (hs.moved s₁ (by simp))
      (hd.moved d₀ (by simp)) (hd.moved d₁ (by simp)) hn hroom (hd.stable d₀ d₁ rfl k)
      fun s hapart => by
        obtain ⟨second, hspots, hhit, -⟩ := htwo' s
        have hwrites : m.writes c k s = [spotOf k s d₀, second, spotOf k s d₁] := by
          simp [Move.writes, hspots, hhit]
        have hkeeps₀ := hd.keeps hapart (hwrites ▸ by simp : spotOf k s d₀ ∈ m.writes c k s)
        have hkeeps₁ := hd.keeps hapart (hwrites ▸ by simp : spotOf k s d₁ ∈ m.writes c k s)
        exact ⟨hkeeps₀.1, hkeeps₀.2.1, hkeeps₁.1, hkeeps₁.2.1⟩
    refine hemits.imp le_rfl (fun _ h => h) fun s t _ hapart ht => ?_
    obtain ⟨second, hspots, hhit, hne, hne'⟩ := htwo' s
    rw [← hhit] at ht hne'
    exact moved_iff_two hd hapart hspots (bytesOf_two htwo) hne hne' ht

/-- The bytes of a place as a source. -/
theorem feeds_memory {m : Move} {place : Place} (hvalue : m.value = .memory place) {n : ℕ}
    {srcs : List ByteLoc} {d : Draft} (hsize : m.size = 1 ∨ m.size = 2)
    (hsrcs : List.Forall₂ (fun i loc => Locates c n (place.displaced (UInt16.ofNat i)) loc)
      (List.range m.size) srcs) (hn : n ≤ d.nextVReg.toNat) : Feeds m c k n d d srcs := by
  have hspot₀ : ∀ l₀, Locates c n (place.displaced 0) l₀ → ∀ s,
      spotOf k s l₀ = start c k s place := fun l₀ h₀ s =>
    (h₀.spot k s).trans (start_displaced_zero place)
  have hlo : 0 < m.size → ∀ s, m.lo c k s = get s (start c k s place) := by
    intro hpos s
    unfold Move.lo
    rw [hvalue]
    simp [bytesOf, List.getD_eq_getElem?_getD, hpos, plus_zero]
  have hread : ∀ s, Apart m c k d.pointerCell s → Outside d.pointerCell (start c k s place) := by
    intro s hapart a ha
    exact hapart.reads a (by simp [Move.reads, hvalue, ha])
  have hfirst : ∀ l₀, Locates c n (place.displaced 0) l₀ → 0 < m.size → ∀ s,
      Apart m c k d.pointerCell s → get s (spotOf k s l₀) = m.lo c k s ∧
        Outside d.pointerCell (spotOf k s l₀) := by
    intro l₀ h₀ hpos s hapart
    rw [hspot₀ l₀ h₀, hlo hpos]
    exact ⟨rfl, hread s hapart⟩
  rcases locates_cases hsize hsrcs with ⟨hone, s₀, rfl, h₀⟩ | ⟨htwo, s₀, s₁, rfl, h₀, h₁⟩
  · refine ⟨hone.symm, by simpa using (isMoved_of_locates h₀).mono hn, ?_⟩
    refine (Emits.refl fun s _ hapart => ⟨Same.refl s, fun l hl => ?_, fun _ _ _ _ h => ?_⟩).imp
      (Nat.zero_le 2) (fun _ h => h) fun _ _ _ _ h => h
    · obtain rfl : s₀ = l := by simpa using hl
      exact hfirst s₀ h₀ (by omega) s hapart
    · simp at h
  · refine ⟨htwo.symm, by simpa using ⟨(isMoved_of_locates h₀).mono hn,
      (isMoved_of_locates h₁).mono hn⟩, ?_⟩
    refine (Emits.refl fun s _ hapart => ⟨Same.refl s, fun l hl => ?_,
      fun l₀ l₁ first second h hspots w hw => ?_⟩).imp (Nat.zero_le 2) (fun _ h => h)
      fun _ _ _ _ h => h
    · obtain rfl : s₀ = l := by simpa using hl
      exact hfirst s₀ h₀ (by omega) s hapart
    · obtain ⟨rfl, rfl⟩ : s₀ = l₀ ∧ s₁ = l₁ := by simpa using h
      subst hw
      rw [h₁.spot]
      refine ⟨by simp [Move.reread, hvalue], fun a ha => hapart.reads a ?_⟩
      have hbytes := bytesOf_two (c := c) (k := k) (s := s) htwo
      rw [hvalue] at hbytes
      simp [Move.reads, hvalue, hspots, hbytes, ha]

/-- The registers of a value as a source. -/
theorem feeds_registers {m : Move} (hvalue : ∀ place, m.value ≠ .memory place) {n : ℕ}
    {srcs dsts : List ByteLoc} {d d' : Draft} (hd : Destines m c n dsts)
    (hs : Supplies c n m.value m.size d d' srcs) : Feeds m c k n d d' srcs := by
  refine ⟨hs.length, fun loc hloc => isMoved_of_supplies hs hloc, ?_⟩
  refine (hs.emits k).imp le_rfl (fun _ _ => trivial) ?_
  rintro s t - hapart ⟨hsame, hbytes⟩
  refine ⟨hsame, fun s₀ hs₀ => ?_, fun s₀ s₁ first second hsrcs hspots w hw => ?_⟩
  · obtain ⟨rest, rfl⟩ : ∃ rest, srcs = s₀ :: rest := by
      cases srcs with
      | nil => cases hs₀
      | cons a rest => exact ⟨rest, by simpa using hs₀⟩
    refine ⟨?_, ?_⟩
    · unfold Move.lo
      rw [← hbytes]
      rfl
    · rcases hs.simple s₀ (List.mem_cons_self ..) with ⟨b, rfl⟩ | ⟨v, rfl, -⟩ <;>
        exact fun a ha => by cases ha
  · subst hw
    have hread : m.reread c k (put s first (m.lo c k s)) (m.hi c k s) = m.hi c k s := by
      unfold Move.reread
      split
      · rename_i place heq
        exact absurd heq (hvalue place)
      · rfl
    have hmem : first ∈ m.writes c k s := by simp [Move.writes, hspots]
    obtain ⟨-, hkeeps, -⟩ := hd.keeps hapart hmem
    have hs₁ : s₁ ∈ srcs := by simp [hsrcs]
    obtain ⟨hget, hout⟩ := get_put_source (k := k) hs hd hmem hs₁ (m.lo c k s)
      ((hsame.keeps first).mpr hkeeps)
    refine ⟨?_, hout _⟩
    rw [hget, hread]
    unfold Move.hi
    rw [← hbytes, hsrcs]
    rfl

/-! ### Nodes -/

theorem checkScalar_ok {type : ValueType} {node : Node} {u : Unit}
    (h : checkScalar type node c st = .ok (u, st')) : type.isScalar = true ∧ st' = st := by
  unfold checkScalar at h
  split at h
  · cases h
  · rename_i hscalar
    cases h
    exact ⟨by simpa using hscalar, rfl⟩

theorem commitOnly_ok {build : Lower Unit} {u : Unit} (h : commitOnly build c st = .ok (u, st')) :
    ∃ st₁, build c { st with draft := st.draft.fork } = .ok ((), st₁) ∧
      st'.draft = st.draft.commit st₁.draft := by
  obtain ⟨d, st₂, hcandidate, hcommit⟩ := bind_ok.mp h
  obtain ⟨old, st₃, hget, h1⟩ := bind_ok.mp hcandidate
  cases hget
  obtain ⟨u₁, st₄, hset, h2⟩ := bind_ok.mp h1
  cases hset
  obtain ⟨u₂, st₅, hbuild, h3⟩ := bind_ok.mp h2
  obtain ⟨new, st₆, hget', h4⟩ := bind_ok.mp h3
  cases hget'
  obtain ⟨u₃, st₇, hset', h5⟩ := bind_ok.mp h4
  cases hset'
  cases h5
  have hdraft := modifyDraft_ok (c := c) hcommit
  exact ⟨st₅, hbuild, hdraft⟩

/-- The code of a candidate stands behind the code so far. -/
theorem Emits.of_fork {d d' : Draft} {m : ℕ} {pre : Store → Prop} {post : Store → Store → Prop}
    (h : Emits k m d.fork d' pre post) (hs : Ready k d s) (hp : pre s) :
    ∃ lines, (d.commit d').code = d.code ++ lines ∧ (∀ line ∈ lines, IsStraight line) ∧
      post s (execAll k lines s) := by
  obtain ⟨lines, hcode, hstraight, hrun⟩ := h.lines
  refine ⟨lines, ?_, hstraight, (hrun s hs hp).2⟩
  change d.code ++ d'.code = d.code ++ lines
  rw [hcode]
  rfl

/-- The context and the state of the lowering of a node: temporaries have been numbered by
`numberTemps`, and numbers for new registers have not run out. -/
structure Prepared (c : Context) (st : State) : Prop where
  numbered : ∃ numbering, numberTemps c.convention c.function c.binding = .ok numbering ∧
    c.temps = numbering.temps ∧ numbering.nextVReg ≤ st.draft.nextVReg
  hidden : ∀ v ∈ resultRegisters c, v.index < st.draft.nextVReg
  enough : demand c.function c.binding < 2 ^ 32
  room : st.draft.nextVReg.toNat + 4 < 2 ^ 32

theorem Prepared.facts (h : Prepared c st) :
    Numbered c.temps st.draft.nextVReg.toNat ∧ Pointed c st.draft.nextVReg.toNat ∧
      ∀ node ∈ c.function.body, ∀ x type, defines? node = some (x, type) →
        Defined c.temps x type := by
  obtain ⟨numbering, hok, htemps, hle⟩ := h.numbered
  obtain ⟨hnumbered, -, hdefined⟩ := numberTemps_spec hok h.enough
  rw [← htemps] at hnumbered hdefined
  have hmono := hnumbered.mono hle
  refine ⟨hmono, ⟨fun x v hv => ?_, h.hidden⟩, hdefined⟩
  unfold registersOf at hv
  split at hv
  · rename_i info hinfo
    exact hmono.below x info hinfo v hv
  · cases hv

/-- The sizes of the types that can be computed with. -/
theorem size_cases {type : ValueType} (h : type.isScalar = true) :
    type.size.toNat = 1 ∨ type.size.toNat = 2 := by
  cases type <;> first | exact Or.inl rfl | exact Or.inr rfl | cases h

/-- The bytes of the value of a move, however it is given. -/
theorem feeds_of_valueBytes {m : Move} {n : ℕ} {srcs dsts : List ByteLoc}
    (h : valueBytes m.value m.type c st = .ok (srcs, st')) (hsize : m.size = 1 ∨ m.size = 2)
    (hd : Destines m c n dsts) (hp : Pointed c n) (hn : n ≤ st.draft.nextVReg.toNat)
    (hroom : st.draft.nextVReg.toNat + 4 < everything) :
    Feeds m c k n st.draft st'.draft srcs := by
  by_cases hmemory : ∃ place, m.value = .memory place
  · obtain ⟨place, hvalue⟩ := hmemory
    rw [hvalue] at h
    obtain ⟨rfl, hlocs⟩ := placeBytes_spec hp h
    exact feeds_memory hvalue hsize hlocs hn
  · have hvalue : ∀ place, m.value ≠ .memory place := fun place hplace => hmemory ⟨place, hplace⟩
    exact feeds_registers hvalue hd (valueBytes_spec h hvalue hp hn (by omega))

/-- A temporary that is copied to itself. -/
theorem moved_self {m : Move} {x : Temp} {n : ℕ} {cell : UInt8} (htarget : m.target = .temp x)
    (hvalue : m.value = .temp x) (hlength : (registersOf c x).length = m.size) :
    Moved m c k cell n s s ↔ Undisturbed m c k s := by
  have hspots : m.spots c k s = (registersOf c x).map .cell := by simp [Move.spots, htarget]
  have hmoved : Moved m c k cell n s s := by
    refine ⟨?_, fun _ _ _ => rfl⟩
    rw [hspots, hvalue, bytesOf_temp, if_neg (by omega), ← hlength, List.take_length, List.map_map]
    rfl
  refine ⟨fun _ => ?_, fun _ => hmoved⟩
  unfold Undisturbed
  split
  · simp [Move.hit, htarget, Move.reread, hvalue]
  · trivial

/-- The code of a copy, behind the code so far. -/
theorem lowered_copy {m : Move} {x : Temp} {next : Option Node} {taken : Bool}
    (htarget : m.target = .temp x) (hnode : m.node ∈ c.function.body) (hst : Prepared c st)
    (h : lowerNode m.node next c st = .ok (taken, st'))
    (hknows : Knows k st.draft.pointerCell st.draft.known s)
    (hapart : Apart m c k st.draft.pointerCell s) :
    ∃ lines, st'.draft.code = st.draft.code ++ lines ∧ (∀ line ∈ lines, IsStraight line) ∧
      (Moved m c k st.draft.pointerCell st.draft.nextVReg.toNat s (execAll k lines s) ↔
        Undisturbed m c k s) := by
  obtain ⟨hnumbered, hpointed, hdefined⟩ := hst.facts
  have hready : Ready k st.draft s := ⟨hknows, hapart.scratch⟩
  have hroom := hst.room
  have hm : m.node = .copy x m.value m.type := by simp [Move.node, htarget]
  rw [hm] at hnode h
  obtain ⟨info, hinfo, hwidth⟩ := hdefined _ hnode x m.type rfl
  have hregs : registersOf c x = info.vregs := by simp [registersOf, hinfo]
  have hlength : (registersOf c x).length = m.size := by
    rw [hregs, hnumbered.width x info hinfo, hwidth]
    rfl
  obtain ⟨u, st₁, hcopy, hpure⟩ := bind_ok.mp h
  obtain ⟨-, rfl⟩ := pure_ok.mp hpure
  obtain ⟨u₁, st₂, hscalar, hrest⟩ := bind_ok.mp hcopy
  obtain ⟨htype, rfl⟩ := checkScalar_ok hscalar
  have hsize : m.size = 1 ∨ m.size = 2 := size_cases htype
  split at hrest
  · rename_i hne
    obtain ⟨st₃, hbuild, hdraft⟩ := commitOnly_ok hrest
    obtain ⟨srcs, st₄, hvalue, hbuild₁⟩ := bind_ok.mp hbuild
    obtain ⟨dsts, st₅, hdestination, hbuild₂⟩ := bind_ok.mp hbuild₁
    obtain ⟨info', st₆, hinfo', hpure'⟩ := bind_ok.mp hdestination
    obtain ⟨rfl, hinfo''⟩ := tempInfo_ok hinfo'
    obtain ⟨rfl, rfl⟩ := pure_ok.mp hpure'
    have hdsts : info'.vregs = registersOf c x := by simp [registersOf, hinfo'']
    rw [hdsts] at hbuild₂
    have hapartRegs : ∀ y, m.value = .temp y → ∀ v ∈ registersOf c x, v ∉ registersOf c y := by
      intro y hy v hv hv'
      have hyx : y ≠ x := fun heq => hne (by rw [hy, heq])
      unfold registersOf at hv'
      split at hv'
      · rename_i infoY hinfoY
        rw [hregs] at hv
        exact hnumbered.apart x y info infoY hinfo hinfoY hyx.symm v hv hv'
      · cases hv'
    have hd := destines_temp (m := m) htarget hpointed hlength
      (hregs ▸ hnumbered.nodup x info hinfo) hapartRegs
    have hfeeds := feeds_of_valueBytes (k := k) hvalue hsize hd hpointed le_rfl hroom
    have hemits := emits_move hsize hfeeds hd hbuild₂ le_rfl hroom
    rw [hdraft]
    exact Emits.of_fork hemits hready hapart
  · rename_i heq
    obtain ⟨-, rfl⟩ := pure_ok.mp hrest
    exact ⟨[], by simp, by simp, moved_self htarget (not_not.mp heq) hlength⟩

/-- The code of a store, behind the code so far. -/
theorem lowered_store {m : Move} {place : Place} {next : Option Node} {taken : Bool}
    (htarget : m.target = .place place) (hst : Prepared c st)
    (h : lowerNode m.node next c st = .ok (taken, st'))
    (hknows : Knows k st.draft.pointerCell st.draft.known s)
    (hapart : Apart m c k st.draft.pointerCell s) :
    ∃ lines, st'.draft.code = st.draft.code ++ lines ∧ (∀ line ∈ lines, IsStraight line) ∧
      (Moved m c k st.draft.pointerCell st.draft.nextVReg.toNat s (execAll k lines s) ↔
        Undisturbed m c k s) := by
  obtain ⟨hnumbered, hpointed, -⟩ := hst.facts
  have hready : Ready k st.draft s := ⟨hknows, hapart.scratch⟩
  have hroom := hst.room
  have hm : m.node = .store m.value place m.type := by simp [Move.node, htarget]
  rw [hm] at h
  obtain ⟨u, st₁, hstore, hpure⟩ := bind_ok.mp h
  obtain ⟨-, rfl⟩ := pure_ok.mp hpure
  obtain ⟨st₃, hbuild, hdraft⟩ := commitOnly_ok hstore
  obtain ⟨u₁, st₂, hscalar, hbuild₁⟩ := bind_ok.mp hbuild
  obtain ⟨htype, rfl⟩ := checkScalar_ok hscalar
  have hsize : m.size = 1 ∨ m.size = 2 := size_cases htype
  obtain ⟨srcs, st₄, hvalue, hbuild₂⟩ := bind_ok.mp hbuild₁
  obtain ⟨dsts, st₅, hdestination, hbuild₃⟩ := bind_ok.mp hbuild₂
  obtain ⟨rfl, hlocs⟩ := placeBytes_spec hpointed hdestination
  have hd := destines_place htarget hsize hlocs
  have hfeeds := feeds_of_valueBytes (k := k) hvalue hsize hd hpointed le_rfl hroom
  have hemits := emits_move hsize hfeeds hd hbuild₃ le_rfl hroom
  rw [hdraft]
  exact Emits.of_fork hemits hready hapart

/-- **When a copy or a store is right.**  The lines that a node adds to the code lead from any store
of which the knowledge is true to one in which the destination has the value that the source had and
nothing else has changed, if and only if the second byte is undisturbed. -/
theorem moved_iff (m : Move) {next : Option Node} {taken : Bool}
    (hnode : m.node ∈ c.function.body) (hst : Prepared c st)
    (h : lowerNode m.node next c st = .ok (taken, st'))
    (hknows : Knows k st.draft.pointerCell st.draft.known s)
    (hapart : Apart m c k st.draft.pointerCell s) :
    ∃ lines t, st'.draft.code = st.draft.code ++ lines ∧
      (∀ (e : Environment) (back : List Line) (calls : Std.TreeMap ℕ CallTarget)
          (captures : List (ℕ × UInt8)), e.linkage = k →
        ∃ trace, run e (st'.draft.code ++ back) calls lines.length
          { line := st.draft.code.length, store := s, captures } =
          some { line := st'.draft.code.length, store := t, captures, trace }) ∧
      (Moved m c k st.draft.pointerCell st.draft.nextVReg.toNat s t ↔ Undisturbed m c k s) := by
  obtain ⟨lines, hcode, hstraight, hiff⟩ : ∃ lines, st'.draft.code = st.draft.code ++ lines ∧
      (∀ line ∈ lines, IsStraight line) ∧
      (Moved m c k st.draft.pointerCell st.draft.nextVReg.toNat s (execAll k lines s) ↔
        Undisturbed m c k s) := by
    cases htarget : m.target with
    | temp x => exact lowered_copy htarget hnode hst h hknows hapart
    | place place => exact lowered_store htarget hst h hknows hapart
  refine ⟨lines, execAll k lines s, hcode, fun e back calls captures he => ?_, hiff⟩
  obtain ⟨trace, hrun⟩ := run_straight e calls lines st.draft.code back
    { line := st.draft.code.length, store := s, captures } hstraight rfl
  refine ⟨trace, ?_⟩
  rw [hcode, hrun, he, List.length_append]

/-! ### A pointer that is overwritten while it is read through -/

/-- A pointer that gets the word that it points to. -/
def follow : Move := ⟨.memory (.indirect 0 0), .temp 0, .ptr⟩

def followContext : Context where
  convention := { zeroPage := {}, banking := false, target := "null", bankSelect := 0xD301 }
  bindings := ∅
  limits := {}
  function :=
    { signature := { name := "f", params := [], returnType := .void }
      body := [.copy 0 (.constant 0x3001) .ptr, follow.node] }
  binding :=
    { name := "f", entry := .subroutine, bank := .common, placement := .common, variadic := false
      params := [], returnKind := .void, returnType := .void, visible := false
      declaredClobbers := none, resultSlot := none, vaCountSlot := none, vaPtrSlot := none }
  temps := (∅ : Std.TreeMap Temp TempInfo).insert 0 ⟨[⟨0⟩, ⟨1⟩], .ptr⟩

/-- The state in which the node is lowered: two registers are in use. -/
def followState : State := { draft := .create 0x90 2, nextLabel := 0 }

/-- A memory in which only the high byte of the word at `$3001` is not zero, and the pointer to
it. -/
def followStore : Store where
  machine := { Machine.create 0 0 0xD301 with bus := (Bus.create 0 0 0xD301).write 0x3002 5 }
  cells v := if v.index = 0 then 0x01 else if v.index = 1 then 0x30 else 0
  frame _ := 0

theorem read_followStore (a : UInt16) :
    followStore.machine.bus.read a = if 0x3002 = a then 5 else 0 := by
  have hplain : Plain (Bus.create 0 0 0xD301) 0x3002 := ⟨by decide, by decide⟩
  have hzero : (Bus.create 0 0 0xD301).read a = 0 := by
    have hwindow : (Bus.create 0 0 0xD301).inWindow a = false := by simp [Bus.inWindow, Bus.create]
    unfold Bus.read
    rw [hwindow]
    simp [Bus.create, Ram.get, Vector.get]
  unfold followStore
  rw [read_write hplain, hzero]

theorem plain_followStore {a : UInt16} (h : a ≠ 0xD301) : Plain followStore.machine.bus a := by
  unfold followStore Plain
  simp only [inWindow_write, bankSelect_write]
  exact ⟨by simp [Bus.inWindow, Bus.create], h⟩

/-- No symbol and no window matters. -/
def plainLinkage : Linkage := ⟨fun _ => 0, 0⟩

/-- **The second byte of a pointer that is followed is disturbed**: it is read through the new low
byte, and the code leaves another value in the pointer. -/
theorem follow_not_moved :
    ∃ st' lines t, lowerNode follow.node none followContext followState = .ok (false, st') ∧
      st'.draft.code = lines ∧
      (∀ e : Environment, e.linkage = plainLinkage → ∃ trace, run e lines ∅ lines.length
        { line := 0, store := followStore } =
          some { line := lines.length, store := t, trace }) ∧
      ¬Moved follow followContext plainLinkage 0x90 2 followStore t := by
  have hspots : ∀ s, follow.spots followContext plainLinkage s = [.cell ⟨0⟩, .cell ⟨1⟩] :=
    fun s => rfl
  have hwrites : ∀ s, follow.writes followContext plainLinkage s =
      [.cell ⟨0⟩, .cell ⟨1⟩, .cell ⟨1⟩] := fun s => rfl
  have hfirst : get followStore (.memory 0x3001) = 0 := by
    change followStore.machine.bus.read _ = _
    rw [read_followStore]
    rfl
  have hsecond : get followStore (.memory 0x3002) = 5 := by
    change followStore.machine.bus.read _ = _
    rw [read_followStore]
    rfl
  have hbytes : bytesOf followContext plainLinkage followStore follow.size follow.value = [0, 5] := by
    change [get followStore (.memory 0x3001), get followStore (.memory 0x3002)] = _
    rw [hfirst, hsecond]
  have hprepared : Prepared followContext followState := by
    refine ⟨⟨⟨followContext.temps, 2⟩, rfl, rfl, by decide⟩, fun v hv => ?_, by decide, by decide⟩
    cases hv
  have hapart : Apart follow followContext plainLinkage 0x90 followStore := by
    refine ⟨⟨plain_followStore (by decide), plain_followStore (by decide)⟩, fun a ha => ?_,
      fun a ha => ?_⟩
    · have hreads : follow.reads followContext plainLinkage followStore =
          [.memory 0x3001, .memory 0x3001] := by
        have hunfold : follow.reads followContext plainLinkage followStore =
            start followContext plainLinkage followStore (.indirect 0 0) ::
              match follow.spots followContext plainLinkage followStore,
                bytesOf followContext plainLinkage followStore follow.size follow.value with
              | [first, _], [lo, _] => [start followContext plainLinkage (put followStore first lo)
                  (.indirect 0 1)]
              | _, _ => [] := rfl
        rw [hunfold, hspots, hbytes]
        rfl
      rw [hreads] at ha
      obtain rfl : a = 0x3001 := by simpa using ha
      decide
    · rw [hwrites] at ha
      simp at ha
  have hdisturbed : ¬Undisturbed follow followContext plainLinkage followStore := by
    have hread : follow.reread followContext plainLinkage (put followStore (.cell ⟨0⟩) 0) 5 = 0 :=
      hfirst
    unfold Undisturbed
    rw [hspots, hbytes]
    change ¬if Spot.cell ⟨1⟩ = .cell ⟨1⟩ then _ else _
    rw [if_pos rfl, hread]
    decide
  obtain ⟨st', hok⟩ : ∃ st', lowerNode follow.node none followContext followState =
      .ok (false, st') := ⟨_, rfl⟩
  obtain ⟨lines, t, hcode, hrun, hiff⟩ := moved_iff follow (List.mem_cons_of_mem _
    (List.mem_singleton.mpr rfl)) hprepared hok knows_nothing hapart
  refine ⟨st', lines, t, hok, hcode, fun e he => ?_, fun h => hdisturbed (hiff.mp h)⟩
  obtain ⟨trace, htrace⟩ := hrun e [] ∅ [] he
  rw [List.append_nil, hcode] at htrace
  exact ⟨trace, htrace⟩

end Codegen6502.Proofs.Selecting.Moves
