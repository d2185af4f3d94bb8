import Codegen6502.Proofs.Selecting.Passing

/-!
# Addresses in registers

An offset is added to a pointer with a carry from the low to the high byte (`passes_advance`).  The
address of a place is a constant, known to the linker, or such a sum: `located_addressBytes` says
that the two bytes that lowering finds for it are those of where the place starts.
-/

namespace Codegen6502.Proofs.Selecting.Addresses

open Selection Growth
open Processor.Memory Processor.LineRun Processor.Straight Processor.Arithmetic Processor.Fetching
open Processor.Chains
open Tracking Places Moves Courses Reading Computing Stacking Passing

variable {c : Context} {k : Linkage} {s t : Store} {st st' : State} {d : Draft} {cell : UInt8}
  {n : ℕ}

/-! ### Pointers that move on -/

/-- The lines that put the low byte of a pointer plus an offset into a register. -/
def advanceLow (d : Draft) (pointer : PointerPair) (offset : UInt8) (lo : VReg) : Draft :=
  (((d.loadA (.vreg pointer.1)).bare .clc).op .adc (.byte offset)).op .sta (.virtual lo)

/-- The lines that put a pointer plus an offset into two registers. -/
def advance (d : Draft) (pointer : PointerPair) (offset : UInt8) (lo hi : VReg) : Draft :=
  (((advanceLow d pointer offset lo).loadA (.vreg pointer.2)).op .adc (.byte 0)).op .sta (.virtual hi)

/-- The two bytes of an address, low byte first. -/
def bytesOfAddress (a : UInt16) : List UInt8 := [lowByte a, highByte a]

theorem bytes_word (lo hi : UInt8) : bytesOfAddress (word lo hi) = [lo, hi] := by
  have hlo := lo.toNat_lt
  have hfirst : lowByte (word lo hi) = lo := by
    refine UInt8.toNat_inj.mp ?_
    rw [toNat_lowByte, toNat_word]
    omega
  have hsecond : highByte (word lo hi) = hi := by
    refine UInt8.toNat_inj.mp ?_
    rw [toNat_highByte, toNat_word]
    omega
  rw [bytesOfAddress, hfirst, hsecond]

/-- The sum of a word and a byte, byte by byte. -/
theorem bytes_sum {lo hi offset : UInt8} {r r' : Registers} (ha : r.a = lo)
    (hc : r.flag .c = false) (ha' : r'.a = hi) (hc' : r'.flag .c = (r.add offset).flag .c) :
    [(r.add offset).a, (r'.add 0).a] = bytesOfAddress (word lo hi + offset.toUInt16) := by
  have hlow := toNat_add r offset
  have hhigh := toNat_add r' 0
  have hcarry : carry r' = carry (r.add offset) := by rw [carry_eq, carry_eq, hc']
  have hzero : carry r = 0 := by rw [carry_eq, hc]; rfl
  rw [ha, hzero] at hlow
  rw [ha', hcarry, show (0 : UInt8).toNat = 0 from rfl] at hhigh
  have hsum := UInt16.toNat_add (word lo hi) offset.toUInt16
  rw [toNat_word, UInt8.toNat_toUInt16] at hsum
  have hlo := lo.toNat_lt
  have hhi := hi.toNat_lt
  have hoff := offset.toNat_lt
  have hout := (r.add offset).a.toNat_lt
  have hout' := (r'.add 0).a.toNat_lt
  have hone := carry_le (r.add offset)
  have hone' := carry_le (r'.add 0)
  have hfirst : (r.add offset).a = lowByte (word lo hi + offset.toUInt16) := by
    refine UInt8.toNat_inj.mp ?_
    rw [toNat_lowByte, hsum]
    omega
  have hsecond : (r'.add 0).a = highByte (word lo hi + offset.toUInt16) := by
    refine UInt8.toNat_inj.mp ?_
    rw [toNat_highByte, hsum]
    omega
  rw [hfirst, hsecond]
  rfl

/-- Adding a byte to a byte that is loaded. -/
theorem passes_add (d : Draft) (byte : UInt8) :
    Passes k 0 d (d.op .adc (.byte byte)) (fun _ => True) fun s t =>
      t = s.setRegs (s.regs.add byte) :=
  passes_alu d rfl rfl trivial

/-- **A pointer moves on** by an offset. -/
theorem passes_advance (d : Draft) {pointer : PointerPair} (offset : UInt8) {lo hi : VReg}
    (hne : lo ≠ pointer.2) :
    Passes k 0 d (advance d pointer offset lo hi) (fun _ => True) fun s t =>
      Same d.pointerCell everything (fill s [.cell lo, .cell hi] (bytesOfAddress
        (word (s.cells pointer.1) (s.cells pointer.2) + offset.toUInt16))) t := by
  have hload := passes_loadA (k := k) d (show IsByte (.vreg pointer.1) from trivial)
  have hclear := passes_setCarry (k := k) (d.loadA (.vreg pointer.1)) (Or.inl (rfl : Opcode.clc = .clc))
  have hadd := passes_add (k := k) ((d.loadA (.vreg pointer.1)).bare .clc) offset
  have hkeep := passes_keep (k := k)
    (((d.loadA (.vreg pointer.1)).bare .clc).op .adc (.byte offset)) lo
  have hlow : Passes k 0 d (advanceLow d pointer offset lo) (fun _ => True) fun s t => ∃ r : Registers,
      r.a = s.cells pointer.1 ∧ r.flag .c = false ∧
      Same d.pointerCell everything (put s (.cell lo) (r.add offset).a) t ∧
      t.regs = r.add offset := by
    refine (((hload.trans hclear fun _ _ _ _ => trivial).trans hadd fun _ _ _ _ => trivial).trans
      hkeep fun _ _ _ _ => trivial).imp le_rfl (fun _ _ a ha => by cases ha) ?_
    rintro s w - - ⟨v, ⟨u, ⟨t, ⟨⟨hsame, ha⟩, -⟩, rfl⟩, rfl⟩, rfl⟩
    refine ⟨t.regs.setFlag .c false, ha, ?_, ?_, by rw [regs_put]; rfl⟩
    · rw [flag_setFlag, if_pos rfl]
    · exact Same.put ((hsame.trans (Same.setRegs t _)).trans (Same.setRegs _ _))
        (show Keeps s (.cell lo) from trivial) _
  have hload' := passes_loadA (k := k) (advanceLow d pointer offset lo)
    (show IsByte (.vreg pointer.2) from trivial)
  have hadd' := passes_add (k := k) ((advanceLow d pointer offset lo).loadA (.vreg pointer.2)) 0
  have hkeep' := passes_keep (k := k)
    (((advanceLow d pointer offset lo).loadA (.vreg pointer.2)).op .adc (.byte 0)) hi
  rw [hlow.cell] at hload'
  refine (((hlow.trans hload' fun _ _ _ _ a ha => by cases ha).trans hadd'
    fun _ _ _ _ => trivial).trans hkeep' fun _ _ _ _ => trivial).imp le_rfl (fun _ _ => trivial) ?_
  rintro s w - - ⟨v, ⟨u, ⟨t, ⟨r, ha, hc, hsame, hregs⟩, ⟨hsame', ha'⟩, hc'⟩, rfl⟩, rfl⟩
  have hhigh : t.cells pointer.2 = s.cells pointer.2 := by
    have hget := hsame.get (.cell pointer.2) pointer.2.index.toNat_lt
    rw [get_put (show Keeps s (.cell lo) from trivial), if_neg fun heq => hne (by cases heq; rfl)] at hget
    exact hget
  rw [hregs] at hc'
  rw [← bytes_sum ha hc (ha'.trans hhigh) hc']
  exact ((hsame.trans hsame').trans (Same.setRegs u _)).put (show Keeps _ (.cell hi) from trivial) _

/-- The code that moves a pointer on, up to the store of the high byte. -/
theorem advance_ok {α : Type} {x : α} {pointer : PointerPair} {offset : UInt8} {lo : VReg}
    {rest : Lower α} (h : (do
      loadA (.vreg pointer.1)
      bare .clc
      op .adc (.byte offset)
      storeA (.vreg lo)
      loadA (.vreg pointer.2)
      op .adc (.byte 0)
      rest : Lower α) c st = .ok (x, st')) :
    ∃ st₁ : State, st₁.draft = ((advanceLow st.draft pointer offset lo).loadA
      (.vreg pointer.2)).op .adc (.byte 0) ∧ rest c st₁ = .ok (x, st') := by
  obtain ⟨_, st₁, h₁, hrest₁⟩ := bind_ok.mp h
  obtain ⟨_, st₂, h₂, hrest₂⟩ := bind_ok.mp hrest₁
  obtain ⟨_, st₃, h₃, hrest₃⟩ := bind_ok.mp hrest₂
  obtain ⟨_, st₄, h₄, hrest₄⟩ := bind_ok.mp hrest₃
  obtain ⟨_, st₅, h₅, hrest₅⟩ := bind_ok.mp hrest₄
  obtain ⟨_, st₆, h₆, hrest₆⟩ := bind_ok.mp hrest₅
  refine ⟨st₆, ?_, hrest₆⟩
  have hlow : st₄.draft = advanceLow st.draft pointer offset lo := by
    rw [← Except.ok.inj (storeA_ok h₄), modifyDraft_ok h₃, modifyDraft_ok h₂, modifyDraft_ok h₁]
    rfl
  rw [modifyDraft_ok h₆, modifyDraft_ok h₅, hlow]

/-- Two new registers. -/
theorem newPair_ok {pair : PointerPair} (h : newPair c st = .ok (pair, st'))
    (hroom : st.draft.nextVReg.toNat + 2 < everything) :
    pair.1.index.toNat = st.draft.nextVReg.toNat ∧
      pair.2.index.toNat = st.draft.nextVReg.toNat + 1 ∧
      st'.draft.nextVReg.toNat = st.draft.nextVReg.toNat + 2 ∧
      Passes k 2 st.draft st'.draft (fun _ => True) fun s t => t = s := by
  obtain ⟨lo, st₁, hlo, hrest⟩ := bind_ok.mp h
  obtain ⟨hi, st₂, hhi, hpure⟩ := bind_ok.mp hrest
  obtain ⟨rfl, rfl⟩ := pure_ok.mp hpure
  obtain ⟨rfl, hd₁⟩ := newVReg_ok hlo
  obtain ⟨rfl, hd₂⟩ := newVReg_ok hhi
  have hnew := passes_newVReg (k := k) (d := st.draft) (by omega)
  rw [← hd₁] at hnew
  have hnext : st₁.draft.nextVReg.toNat = st.draft.nextVReg.toNat + 1 := by
    rw [hd₁]
    exact nextVReg_newVReg (by omega)
  have hnew' := passes_newVReg (k := k) (d := st₁.draft) (by omega)
  rw [← hd₂] at hnew'
  have hnext' : st'.draft.nextVReg.toNat = st₁.draft.nextVReg.toNat + 1 := by
    rw [hd₂]
    exact nextVReg_newVReg (by omega)
  refine ⟨rfl, hnext, by omega, (hnew.trans hnew' fun _ _ _ _ => trivial).imp le_rfl (fun _ h => h) ?_⟩
  rintro s u - - ⟨t, rfl, rfl⟩
  rfl

/-! ### Addresses of places -/

/-- The address at which a place starts. -/
def addressOf (c : Context) (k : Linkage) (s : Store) (place : Place) : UInt16 :=
  match start c k s place with
  | .memory a => a
  | _ => 0

/-- The two bytes of an address, as lowering has found them. -/
structure Located (c : Context) (k : Linkage) (place : Place) (n : ℕ) (d d' : Draft)
    (pair : ByteLoc × ByteLoc) : Prop where
  loadable : ∀ loc ∈ [pair.1, pair.2], IsLoadable loc
  apart : ∀ loc ∈ [pair.1, pair.2], ∀ t a, spotOf k t loc ≠ .memory a
  hands : Hands k 2 d d' (fun _ => True) fun s t => (Same d.pointerCell n s t ∧
    [pair.1, pair.2].map (worth k t) = bytesOfAddress (addressOf c k s place)) ∧
      t.regs.sp = s.regs.sp

section Places

variable {place : Place} {area : UInt16 → Prop} {pair : ByteLoc × ByteLoc}

theorem located_immediates {lo hi : Immediate}
    (h : ∀ s, [k.byte lo, k.byte hi] = bytesOfAddress (addressOf c k s place)) :
    Located c k place n d d (.direct (.immediate lo), .direct (.immediate hi)) where
  loadable loc hloc := by
    simp only [List.mem_cons, List.not_mem_nil, or_false] at hloc
    rcases hloc with rfl | rfl <;> exact Or.inr ⟨_, rfl⟩
  apart loc hloc t a := by
    simp only [List.mem_cons, List.not_mem_nil, or_false] at hloc
    rcases hloc with rfl | rfl
    · cases lo <;> exact fun ha => by cases ha
    · cases hi <;> exact fun ha => by cases ha
  hands := (Hands.refl fun s _ _ => ⟨⟨Same.refl s, h s⟩, rfl⟩).imp (Nat.zero_le _)
    (fun _ h => h) fun _ _ _ _ h => h

theorem located_registers {lo hi : VReg}
    (h : ∀ s, addressOf c k s place = word (s.cells lo) (s.cells hi)) :
    Located c k place n d d (.vreg lo, .vreg hi) where
  loadable loc hloc := by
    simp only [List.mem_cons, List.not_mem_nil, or_false] at hloc
    rcases hloc with rfl | rfl <;> exact Or.inl trivial
  apart loc hloc := by
    simp only [List.mem_cons, List.not_mem_nil, or_false] at hloc
    rcases hloc with rfl | rfl <;> exact fun t a ha => by cases ha
  hands := by
    refine (Hands.refl fun s _ _ => ⟨⟨Same.refl s, ?_⟩, rfl⟩).imp (Nat.zero_le _) (fun _ h => h)
      fun _ _ _ _ h => h
    rw [h]
    exact (bytes_word _ _).symm

/-- **A pointer plus an offset.** -/
theorem located_pointerPlus {pointer : PointerPair} {offset : UInt8} (hd : Setting c area n st.draft)
    (h : pointerPlus pointer offset c st = .ok (pair, st'))
    (hpointer : pointer.1.index.toNat < n ∧ pointer.2.index.toNat < n)
    (hplace : ∀ s, addressOf c k s place =
      word (s.cells pointer.1) (s.cells pointer.2) + offset.toUInt16)
    (hroom : st.draft.nextVReg.toNat + 2 < everything) :
    Located c k place n st.draft st'.draft pair := by
  unfold pointerPlus at h
  split at h
  · rename_i hzero
    obtain ⟨rfl, rfl⟩ := pure_ok.mp h
    exact located_registers fun s => by rw [hplace, hzero]; exact UInt16.add_zero _
  · obtain ⟨⟨lo, hi⟩, st₁, hpair, h₂⟩ := bind_ok.mp h
    obtain ⟨hlo, hhi, -, hnew⟩ : lo.index.toNat = _ ∧ hi.index.toNat = _ ∧ _ ∧ _ :=
      newPair_ok (k := k) hpair hroom
    obtain ⟨st₂, hdraft, hlast⟩ := advance_ok h₂
    obtain ⟨_, st₃, hstore, hpure⟩ := bind_ok.mp hlast
    obtain ⟨rfl, rfl⟩ := pure_ok.mp hpure
    have hfinal : st'.draft = advance st₁.draft pointer offset lo hi := by
      rw [← Except.ok.inj (storeA_ok hstore), hdraft]
      rfl
    have hfresh := hd.fresh
    have hlow : n ≤ lo.index.toNat := by omega
    have hhigh : n ≤ hi.index.toNat := by omega
    have hne : lo ≠ pointer.2 := fun heq => by
      rw [heq] at hlow
      omega
    have hne' : lo ≠ hi := fun heq => by
      rw [heq] at hlo
      omega
    have hadvance : Passes k 0 st₁.draft st'.draft (fun _ => True) _ :=
      hfinal ▸ passes_advance st₁.draft offset hne
    rw [hnew.cell] at hadvance
    refine ⟨fun loc hloc => ?_, fun loc hloc t a ha => ?_,
      (Hands.of_passes (hnew.trans hadvance fun _ _ _ _ => trivial)).imp le_rfl (fun _ h => h) ?_⟩
    · simp only [List.mem_cons, List.not_mem_nil, or_false] at hloc
      rcases hloc with rfl | rfl <;> exact Or.inl trivial
    · simp only [List.mem_cons, List.not_mem_nil, or_false] at hloc
      rcases hloc with rfl | rfl <;> cases ha
    · rintro s w - - ⟨⟨t, ht, hfill⟩, hsp⟩
      rw [ht, ← hplace] at hfill
      have hkeeps : ∀ spot ∈ [Spot.cell lo, .cell hi], Keeps s spot := by simp [Keeps]
      have hhidden : ∀ spot ∈ [Spot.cell lo, .cell hi], ¬Visible st.draft.pointerCell n spot := by
        simp only [List.mem_cons, List.not_mem_nil, or_false, forall_eq_or_imp, forall_eq]
        exact ⟨not_lt.mpr hlow, not_lt.mpr hhigh⟩
      refine ⟨⟨(same_fill_hidden hkeeps hhidden).trans (hfill.mono hd.bounded), ?_⟩, hsp⟩
      exact map_get_of_fill (by simpa using hne') hfill hkeeps (fun spot hspot => by
        simp only [List.mem_cons, List.not_mem_nil, or_false] at hspot
        rcases hspot with rfl | rfl <;> exact UInt32.toNat_lt _) rfl

/-- **The address of a place.** -/
theorem located_addressBytes {node : Node} (hd : Setting c area n st.draft)
    (h : addressBytes place node c st = .ok (pair, st'))
    (hroom : st.draft.nextVReg.toNat + 2 < everything) :
    Located c k place n st.draft st'.draft pair := by
  cases place with
  | absolute address =>
    obtain ⟨rfl, rfl⟩ := pure_ok.mp h
    exact located_immediates fun s => rfl
  | iocb channel field =>
    obtain ⟨address, st₁, haddress, hpure⟩ := bind_ok.mp h
    obtain ⟨rfl, rfl⟩ := pure_ok.mp hpure
    unfold iocbAddress at haddress
    cases hfield : field.address? channel with
    | none =>
      rw [hfield] at haddress
      cases haddress
    | some found =>
      rw [hfield] at haddress
      obtain ⟨rfl, rfl⟩ := pure_ok.mp haddress
      refine located_immediates fun s => ?_
      simp only [addressOf, start, hfield]
      rfl
  | global name offset =>
    obtain ⟨rfl, rfl⟩ := pure_ok.mp h
    refine located_immediates fun s => ?_
    have haddress : k.address (.symbol name (Int32.ofNat offset.toNat)) = k.symbol name + offset :=
      congrArg (k.symbol name + ·) (addend_eq offset)
    simp only [Linkage.byte, haddress]
    rfl
  | frameByte offset => cases h
  | banked bank offset => cases h
  | indirect base offset =>
    obtain ⟨pointer, st₁, hpointer, hplus⟩ := bind_ok.mp h
    obtain ⟨rfl, hregisters⟩ := pointerOf_ok hpointer
    have hin := hd.pointed.temps base
    rw [hregisters] at hin
    refine located_pointerPlus hd hplus ⟨hin _ (List.mem_cons_self ..),
      hin _ (List.mem_cons_of_mem _ (List.mem_cons_self ..))⟩ (fun s => ?_) hroom
    simp only [addressOf, start, hregisters]
    rfl
  | returnSlot offset =>
    obtain ⟨pointer, st₁, hpointer, hplus⟩ := bind_ok.mp h
    obtain ⟨rfl, hregisters⟩ := resultPointer_ok hpointer
    have hin := hd.pointed.result
    rw [hregisters] at hin
    refine located_pointerPlus hd hplus ⟨hin _ (List.mem_cons_self ..),
      hin _ (List.mem_cons_of_mem _ (List.mem_cons_self ..))⟩ (fun s => ?_) hroom
    simp only [addressOf, start, hregisters]
    rfl

end Places

end Codegen6502.Proofs.Selecting.Addresses
