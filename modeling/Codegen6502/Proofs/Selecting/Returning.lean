import Codegen6502.Proofs.Selecting.Incoming

/-!
# How a callee returns

The code of a return loads the result into A and X (`hands_returnCandidates`): a word by its low
byte, by its high byte if the low one is a constant, or over the stack.  The exit sequence of a
function gives the frame back and keeps A and X (`exec_releaseLines`).
-/

namespace Codegen6502.Proofs.Selecting.Returning

open Selection Growth Shapes
open Processor.Memory Processor.LineRun Processor.Straight Processor.Stack Processor.Arithmetic
open Processor.Chains
open Tracking Places Moves Courses Reading Computing Stacking Bodies Passing Handing

variable {c : Context} {k : Linkage} {s t u : Store} {st st' : State} {d d' : Draft} {cell sp : UInt8}
  {n : ℕ}

/-! ### Bytes in A and X -/

/-- Lines have loaded bytes into A and X and have written to nothing in use, but perhaps to the free
byte under the stack. -/
structure Loaded (cell : UInt8) (n : ℕ) (kind : ReturnKind) (bytes : List UInt8) (s t : Store) :
    Prop where
  bytes : returned kind t.regs = bytes
  sp : t.regs.sp = s.regs.sp
  same : ∃ byte, Same cell n (put s (top s) byte) t

theorem Loaded.of_same {kind : ReturnKind} {bytes : List UInt8} (hlow : LowPlain s)
    (h : Same cell n s t) (hbytes : returned kind t.regs = bytes) (hsp : t.regs.sp = s.regs.sp) :
    Loaded cell n kind bytes s t :=
  ⟨hbytes, hsp, _, (Same.put_get (keeps_top hlow)).trans h⟩

/-- Bytes can be loaded where they are: in plain memory, and not in the scratch pointer or the free
byte under the stack. -/
structure Source (k : Linkage) (cell : UInt8) (locs : List ByteLoc) (s : Store) : Prop where
  low : LowPlain s
  away : Away k cell s locs
  clear : ∀ loc ∈ locs, spotOf k s loc ≠ top s

/-- A constant is worth itself. -/
theorem worth_constant {loc : ByteLoc} {byte : UInt8} (h : loc.byte? = some byte) (s : Store) :
    worth k s loc = byte := by
  unfold ByteLoc.byte? at h
  split at h
  · cases h
    rfl
  · cases h

theorem visible_top (s : Store) : Visible cell n (top s) := by
  rintro (heq | heq) <;> exact cell_ne_stack _ _ heq.symm

section Words

variable {base : Draft} {loc lo hi : ByteLoc} {byte : UInt8}

/-- The first byte of a word is loaded. -/
theorem hands_loadByte (base : Draft) (hloc : IsByte loc) (hmem : loc ∈ [lo, hi]) :
    Hands k 0 base (base.loadA loc) (Source k base.pointerCell [lo, hi]) fun s t =>
      Source k base.pointerCell [lo, hi] s ∧ Same base.pointerCell everything s t ∧
        t.regs.a = worth k s loc ∧ t.regs.sp = s.regs.sp :=
  (Hands.of_passes (passes_load (k := k) base (Or.inl hloc))).imp le_rfl
    (fun _ hs => hs.away _ hmem) fun _ _ _ hs ht => ⟨hs, ht.1.1, ht.1.2, ht.2⟩

/-- A word whose high byte is a constant: the low one goes to A, then the constant to X. -/
theorem hands_constantHigh (hlo : IsByte lo) (hbyte : hi.byte? = some byte) :
    Hands k 0 base ((base.loadA lo).op .ldx (.byte byte)) (Source k base.pointerCell [lo, hi])
      fun s t => Loaded base.pointerCell everything .word [worth k s lo, worth k s hi] s t := by
  have hload := hands_loadByte (k := k) base hlo (show lo ∈ [lo, hi] by simp)
  refine (hload.trans (Hands.of_op (emits_ldx (k := k) (base.loadA lo) byte))
    fun _ _ _ _ => trivial).imp le_rfl (fun _ hs => hs) ?_
  rintro s u - - ⟨t, ⟨hs, hsame, ha, hsp⟩, rfl⟩
  refine Loaded.of_same hs.low (hsame.trans (Same.setRegs t _)) ?_ hsp
  rw [worth_constant hbyte]
  exact congrArg₂ _ ha rfl

/-- A word whose low byte is a constant: the high one goes to X by way of A, then the constant to
A. -/
theorem hands_constantLow (hhi : IsByte hi) (hbyte : lo.byte? = some byte) :
    Hands k 0 base (((base.loadA hi).bare .tax).op .lda (.byte byte))
      (Source k base.pointerCell [lo, hi]) fun s t =>
        Loaded base.pointerCell everything .word [worth k s lo, worth k s hi] s t := by
  have hload := hands_loadByte (k := k) base hhi (show hi ∈ [lo, hi] by simp)
  have htax := Hands.of_op (emits_transfer (k := k) (base.loadA hi)
    (show isTransfer .tax = true from rfl))
  have hlda := Hands.of_passes (passes_lda (k := k) ((base.loadA hi).bare .tax)
    (show IsSimple (.byte byte) from trivial))
  refine ((hload.trans htax fun _ _ _ _ => trivial).trans hlda fun _ _ _ _ => trivial).imp le_rfl
    (fun _ hs => hs) ?_
  rintro s w - - ⟨u, ⟨t, ⟨hs, hsame, ha, hsp⟩, rfl⟩, rfl, -⟩
  refine Loaded.of_same hs.low ((hsame.trans (Same.setRegs t _)).trans (Same.setRegs _ _)) ?_ hsp
  rw [worth_constant hbyte, ← ha]
  rfl

/-- The low byte of a word is pushed. -/
theorem hands_pushLow (base : Draft) (hi : ByteLoc) (hlo : IsByte lo) :
    Hands k 0 base ((base.loadA lo).bare .pha) (Source k base.pointerCell [lo, hi])
      fun s u => Source k base.pointerCell [lo, hi] s ∧
        Same base.pointerCell everything (put s (top s) (worth k s lo)) u ∧
        u.regs.sp = s.regs.sp - 1 := by
  have hload := hands_loadByte (k := k) base hlo (show lo ∈ [lo, hi] by simp)
  have hpha := Hands.of_op (emits_pha (n := everything) (k := k) (base.loadA lo))
  rw [hload.cell] at hpha
  refine (hload.trans hpha ?_).imp le_rfl (fun _ hs => hs) ?_
  · exact fun s t hs ht => hs.low.same ht.2.1
  · rintro s u - - ⟨t, ⟨hs, hsame, ha, hsp⟩, hu, hsp'⟩
    have htop : top t = top s := by rw [top, hsp]; rfl
    rw [htop, ha] at hu
    exact ⟨hs, (hsame.put (keeps_top hs.low) _).trans hu, by rw [hsp', hsp]⟩

/-- A word by way of the stack, on which the low byte waits for the high one to get to X. -/
theorem hands_overStack (hlo : IsByte lo) (hhi : IsByte hi) :
    Hands k 0 base (((((base.loadA lo).bare .pha).loadA hi).bare .tax).bare .pla)
      (Source k base.pointerCell [lo, hi]) fun s t =>
        Loaded base.pointerCell everything .word [worth k s lo, worth k s hi] s t := by
  have hpush := hands_pushLow (k := k) base hi hlo
  have hhigh := Hands.of_passes (passes_load (k := k) ((base.loadA lo).bare .pha) (Or.inl hhi))
  rw [hpush.cell] at hhigh
  have htax := Hands.of_op (emits_transfer (k := k) (((base.loadA lo).bare .pha).loadA hi)
    (show isTransfer .tax = true from rfl))
  have hpla := Hands.of_op (emits_pla (k := k) ((((base.loadA lo).bare .pha).loadA hi).bare .tax))
  -- The push leaves the high byte where it is.
  have hworth : ∀ {s u : Store}, Source k base.pointerCell [lo, hi] s →
      Same base.pointerCell everything (put s (top s) (worth k s lo)) u →
      spotOf k u hi = spotOf k s hi ∧ worth k u hi = worth k s hi := fun hs hu =>
    worth_put (Or.inl hhi) (keeps_top hs.low) hu (hs.away hi (by simp)) (hs.clear hi (by simp))
  refine (((hpush.trans hhigh ?_).trans htax fun _ _ _ _ => trivial).trans hpla
    fun _ _ _ _ => trivial).imp le_rfl (fun _ hs => hs) ?_
  · rintro s u hs ⟨-, hu, -⟩
    rw [(hworth hs hu).1]
    exact hs.away hi (by simp)
  · rintro s z - hs ⟨w, ⟨v, ⟨u, ⟨-, hu, hsp⟩, ⟨hv, ha⟩, hsp'⟩, rfl⟩, hz, hz₁, hz₂, hz₃⟩
    have hback : v.regs.sp + 1 = s.regs.sp := by rw [hsp', hsp]; grind
    have hstack : get (v.setRegs (transferred v.regs .tax)) (top s) = worth k s lo := by
      refine ((hu.trans hv).get (top s) (visible_top s)).trans ?_
      rw [get_put (keeps_top hs.low), if_pos rfl]
    have hlow : z.regs.a = worth k s lo := by
      refine hz₁.trans (Eq.trans ?_ hstack)
      rw [top, ← hback]
      rfl
    have hhigh : z.regs.x = worth k s hi := hz₂.trans (ha.trans (hworth hs hu).2)
    have hlast : Same base.pointerCell everything v z := by
      rw [hz]
      exact Same.setRegs v _
    exact ⟨congrArg₂ (fun a x => [a, x]) hlow hhigh, hz₃.trans hback, _, (hu.trans hv).trans hlast⟩

/-- **A word is loaded** by each of its candidates. -/
theorem hands_wordCandidates (hlo : IsByte lo) (hhi : IsByte hi) :
    ∀ d ∈ returnCandidates.wordCandidates base lo hi,
      Hands k 0 base d (Source k base.pointerCell [lo, hi]) fun s t =>
        Loaded base.pointerCell everything .word [worth k s lo, worth k s hi] s t := by
  intro d hd
  simp only [returnCandidates.wordCandidates] at hd
  rcases List.mem_append.mp hd with hd | hd
  · rcases List.mem_append.mp hd with hd | hd
    · split at hd
      · rename_i byte hbyte
        obtain rfl := List.mem_singleton.mp hd
        exact hands_constantHigh hlo hbyte
      · cases hd
    · split at hd
      · rename_i byte hbyte
        obtain rfl := List.mem_singleton.mp hd
        exact hands_constantLow hhi hbyte
      · cases hd
  · obtain rfl := List.mem_singleton.mp hd
    exact hands_overStack hlo hhi

end Words

/-! ### Results -/

/-- The bytes of a result. -/
def resultOf (c : Context) (k : Linkage) (s : Store) : Option Value → List UInt8
  | some value => readOf c k s c.binding.returnType.size.toNat value
  | none => []

section Results

variable {area : UInt16 → Prop} {value : Option Value}

/-- A result can be returned: no byte of it is read in the area. -/
structure Returnable (c : Context) (k : Linkage) (area : UInt16 → Prop) (sp : UInt8)
    (value : Option Value) (s : Store) : Prop where
  low : LowPlain s
  sp : s.regs.sp = sp
  misses : ∀ v, value = some v → Misses c k area s c.binding.returnType.size.toNat v

theorem size_of_returnKind {type : ValueType} {kind : ReturnKind}
    (h : Convention.returnKind? type = some kind) :
    (kind = .byte → type.size.toNat = 1) ∧ (kind = .word → type.size.toNat = 2) := by
  cases type <;> cases h <;> exact ⟨by simp [ValueType.size], by simp [ValueType.size]⟩

/-- The bytes of a result are found where they can be loaded. -/
theorem hands_resultBytes {v : Value} {locs : List ByteLoc} (hd : Setting c area n st.draft)
    (htop : area (Machine.stackAddress sp))
    (h : valueBytes v c.binding.returnType c st = .ok (locs, st'))
    (hroom : st.draft.nextVReg.toNat + 2 < everything) :
    locs.length = c.binding.returnType.size.toNat ∧ (∀ loc ∈ locs, IsByte loc) ∧
      Hands k 2 st.draft st'.draft (Returnable c k area sp (some v)) fun s t =>
        LowPlain s ∧ Same st.draft.pointerCell n s t ∧ Source k st.draft.pointerCell locs t ∧
          locs.map (worth k t) = resultOf c k s (some v) ∧ t.regs.sp = s.regs.sp := by
  obtain ⟨hlength, hbytes, hands⟩ := hands_valueBytes (k := k) hd h hroom
  refine ⟨hlength, hbytes, hands.imp le_rfl (fun s hs => hs.misses v rfl) ?_⟩
  rintro s t - hs ⟨⟨hsame, haway, hclear, hworth⟩, hsp⟩
  refine ⟨hs.low, hsame, ⟨hs.low.same hsame, haway, fun loc hloc heq => ?_⟩, hworth, hsp⟩
  refine hclear loc hloc _ heq ?_
  rw [hsp, hs.sp]
  exact htop

/-- A word that has been loaded behind the lines that find its bytes. -/
theorem Loaded.after {kind : ReturnKind} {bytes : List UInt8} (hlow : LowPlain s)
    (h : Same cell n s t) (hsp : t.regs.sp = s.regs.sp) (hn : n ≤ everything)
    (h' : Loaded cell everything kind bytes t u) : Loaded cell n kind bytes s u := by
  obtain ⟨byte, hsame⟩ := h'.same
  refine ⟨h'.bytes, h'.sp.trans hsp, byte, ?_⟩
  have htop : top t = top s := by rw [top, hsp]; rfl
  rw [htop] at hsame
  exact (h.put (keeps_top hlow) byte).trans (hsame.mono hn)

/-- One candidate is the draft of what builds it on a fork of the code, which is then set aside. -/
theorem candidates_one {build : Lower Unit} {ds : List Draft}
    (h : (do return [← candidate build] : Lower (List Draft)) c st = .ok (ds, st')) :
    ∃ st₁, build c { st with draft := st.draft.fork } = .ok ((), st₁) ∧ ds = [st₁.draft] ∧
      st'.draft = st.draft := by
  obtain ⟨d, st₁, hcandidate, hpure⟩ := bind_ok.mp h
  obtain ⟨rfl, rfl⟩ := pure_ok.mp hpure
  obtain ⟨st₂, hbuild, rfl, rfl⟩ := candidate_ok hcandidate
  exact ⟨st₂, hbuild, rfl, rfl⟩

/-- The code as it was goes on with each of the drafts, and each of them loads the result. -/
structure LoadsResult (c : Context) (k : Linkage) (area : UInt16 → Prop) (sp : UInt8) (n : ℕ)
    (value : Option Value) (st st' : State) (ds : List Draft) : Prop where
  draft : st'.draft = st.draft
  hands : ∀ d ∈ ds, Hands k 2 st.draft.fork d (Returnable c k area sp value) fun s t =>
    Loaded st.draft.pointerCell n c.binding.returnKind (resultOf c k s value) s t

/-- Nothing is loaded where there is no result in registers. -/
theorem loads_nothing {ds : List Draft} (hnothing : returned c.binding.returnKind = fun _ => [])
    (h : (do return [← candidate (pure ())] : Lower (List Draft)) c st = .ok (ds, st')) :
    LoadsResult c k area sp n none st st' ds := by
  obtain ⟨st₁, hbuild, rfl, hdraft⟩ := candidates_one h
  cases hbuild
  refine ⟨hdraft, fun d hd => ?_⟩
  obtain rfl := List.mem_singleton.mp hd
  refine (Hands.refl fun s _ hs => ?_).imp (Nat.zero_le _) (fun _ h => h) fun _ _ _ _ h => h
  exact Loaded.of_same hs.low (Same.refl s) (by rw [hnothing]; rfl) rfl

/-- A byte is loaded into A. -/
theorem loads_byte {ds : List Draft} {v : Value} (hd : Setting c area n st.draft)
    (htop : area (Machine.stackAddress sp)) (hreturn : c.binding.returnKind = .byte)
    (hsize : c.binding.returnType.size.toNat = 1)
    (h : (do
      return [← candidate do
        match ← valueBytes v c.binding.returnType with
        | byte :: _ => loadA byte
        | [] => internal "value without bytes"] : Lower (List Draft)) c st = .ok (ds, st'))
    (hroom : st.draft.nextVReg.toNat + 2 < everything) :
    LoadsResult c k area sp n (some v) st st' ds := by
  obtain ⟨st₁, hbuild, rfl, hdraft⟩ := candidates_one h
  refine ⟨hdraft, fun d hmem => ?_⟩
  obtain rfl := List.mem_singleton.mp hmem
  obtain ⟨locs, st₂, hvalue, hload⟩ := bind_ok.mp hbuild
  obtain ⟨hlength, hbytes, hands⟩ := hands_resultBytes (k := k) hd.fork htop hvalue hroom
  rw [hsize] at hlength
  obtain ⟨byte, rfl⟩ := List.length_eq_one_iff.mp hlength
  cases hload
  have hload := Hands.of_passes (passes_load (k := k) st₂.draft (Or.inl (hbytes byte (by simp))))
  rw [hands.cell] at hload
  refine (hands.trans hload fun s t _ ht => ht.2.2.1.away byte (by simp)).imp le_rfl
    (fun _ hs => hs) ?_
  rintro s u - hs ⟨t, ⟨hlow, hsame, hsource, hworth, hsp⟩, ⟨hsame', ha⟩, hsp'⟩
  refine Loaded.of_same hlow (hsame.trans (hsame'.mono hd.fork.bounded)) ?_ (hsp'.trans hsp)
  rw [← hworth, hreturn]
  exact congrArg (fun a => [a]) ha

/-- A word is loaded into A and X by its candidates, behind the lines that find its bytes. -/
theorem loads_word {v : Value} {lo hi : ByteLoc}
    (hd : Setting c area n st.draft) (htop : area (Machine.stackAddress sp))
    (hreturn : c.binding.returnKind = .word)
    (hvalue : valueBytes v c.binding.returnType c { st with draft := st.draft.fork } =
      .ok ([lo, hi], st'))
    (hroom : st.draft.nextVReg.toNat + 2 < everything) :
    ∀ d ∈ returnCandidates.wordCandidates st'.draft lo hi,
      Hands k 2 st.draft.fork d (Returnable c k area sp (some v)) fun s t =>
        Loaded st.draft.pointerCell n c.binding.returnKind (resultOf c k s (some v)) s t := by
  intro d hmem
  obtain ⟨-, hbytes, hands⟩ := hands_resultBytes (k := k) hd.fork htop hvalue hroom
  have hcandidate := hands_wordCandidates (k := k) (hbytes lo (by simp)) (hbytes hi (by simp)) d hmem
  rw [hands.cell] at hcandidate
  refine (hands.trans hcandidate fun s t _ ht => ht.2.2.1).imp le_rfl (fun _ hs => hs) ?_
  rintro s u - hs ⟨t, ⟨hlow, hsame, hsource, hworth, hsp⟩, hloaded⟩
  have hafter := hloaded.after hlow hsame hsp hd.fork.bounded
  have hbytes : [worth k t lo, worth k t hi] = resultOf c k s (some v) := hworth
  rw [hreturn]
  rwa [hbytes] at hafter

/-- **The result is loaded** by each candidate. -/
theorem hands_returnCandidates {ds : List Draft} (hd : Setting c area n st.draft)
    (htop : area (Machine.stackAddress sp))
    (hkind : Convention.returnKind? c.binding.returnType = some c.binding.returnKind)
    (h : returnCandidates value c st = .ok (ds, st'))
    (hroom : st.draft.nextVReg.toNat + 2 < everything) :
    LoadsResult c k area sp n value st st' ds := by
  obtain ⟨hbyte, hword⟩ := size_of_returnKind hkind
  obtain ⟨c', st₀, hread, h₀⟩ := bind_ok.mp h
  cases hread
  cases hreturn : c.binding.returnKind with
  | void | struct =>
    cases value with
    | none =>
      simp only [hreturn] at h₀
      exact loads_nothing (by rw [hreturn]; rfl) h₀
    | some v =>
      simp only [hreturn] at h₀
      cases h₀
  | byte =>
    cases value with
    | none =>
      simp only [hreturn] at h₀
      cases h₀
    | some v =>
      simp only [hreturn] at h₀
      exact loads_byte hd htop hreturn (hbyte hreturn) h₀ hroom
  | word =>
    cases value with
    | none =>
      simp only [hreturn] at h₀
      cases h₀
    | some v =>
      simp only [hreturn] at h₀
      -- The bytes are found on a fork of the code, which is then set aside.
      obtain ⟨old, st₁, hget, h₁⟩ := bind_ok.mp h₀
      cases hget
      obtain ⟨_, st₂, hset, h₂⟩ := bind_ok.mp h₁
      cases hset
      obtain ⟨locs, st₃, hvalue, h₃⟩ := bind_ok.mp h₂
      obtain ⟨new, st₄, hget', h₄⟩ := bind_ok.mp h₃
      cases hget'
      obtain ⟨new', st₅, hget'', h₅⟩ := bind_ok.mp h₄
      cases hget''
      obtain ⟨_, st₆, hset', hrest⟩ := bind_ok.mp h₅
      cases hset'
      have hlength := (hands_resultBytes (k := k) hd.fork htop hvalue hroom).1
      rw [hword hreturn] at hlength
      obtain ⟨lo, hi, rfl⟩ := List.length_eq_two.mp hlength
      obtain ⟨rfl, rfl⟩ := pure_ok.mp hrest
      exact ⟨rfl, loads_word hd htop hreturn hvalue hroom⟩

/-- The line behind a return: none at the end of the body, else a jump to the exit. -/
def exitJump (c : Context) (isLast : Bool) : List Line :=
  if isLast then [] else [.jmp (Naming.exitLabel c.function.name)]

/-- **The code of a return** loads the result and goes to the exit. -/
theorem lowerReturn_lines {isLast : Bool} {x : Unit} (hd : Setting c area n st.draft)
    (htop : area (Machine.stackAddress sp))
    (hkind : Convention.returnKind? c.binding.returnType = some c.binding.returnKind)
    (h : lowerReturn value isLast c st = .ok (x, st'))
    (hroom : st.draft.nextVReg.toNat + 2 < everything) :
    ∃ lines, st'.draft.code = st.draft.code ++ (lines ++ exitJump c isLast) ∧
      (∀ line ∈ lines, IsStraight line) ∧
      ∀ s, Ready k st.draft s → Returnable c k area sp value s →
        Loaded st.draft.pointerCell n c.binding.returnKind (resultOf c k s value) s
          (execAll k lines s) := by
  obtain ⟨ds, st₁, hcandidates, h₁⟩ := bind_ok.mp h
  obtain ⟨hdraft, hds⟩ := hands_returnCandidates (k := k) hd htop hkind hcandidates hroom
  have hcommitted : ∃ d ∈ ds, ∃ lines, d.code = lines ∧
      st'.draft.code = st.draft.code ++ (lines ++ exitJump c isLast) := by
    cases isLast with
    | true =>
      obtain ⟨d, hd, rfl⟩ := commitCheapest_ok h₁
      refine ⟨d, hd, _, rfl, ?_⟩
      rw [hdraft]
      exact congrArg _ (List.append_nil _).symm
    | false =>
      obtain ⟨c', st₂, hread, h₂⟩ := bind_ok.mp h₁
      cases hread
      obtain ⟨d', hd', rfl⟩ := commitCheapest_ok h₂
      obtain ⟨d, hd, rfl⟩ := List.mem_map.mp hd'
      refine ⟨d, hd, _, rfl, ?_⟩
      rw [hdraft]
      rfl
  obtain ⟨d, hd, lines, hcode, hall⟩ := hcommitted
  obtain ⟨lines', hcode', hstraight, hrun⟩ := (hds d hd).lines
  have hfork : st.draft.fork.code = [] := rfl
  rw [hfork, List.nil_append, hcode] at hcode'
  subst hcode'
  exact ⟨lines, hall, hstraight, fun s hs hr => (hrun s hs hr).2⟩

end Results

/-! ### Frames -/

section Frames

open Convention

/-- Adding with the carry cleared and subtracting with the carry set. -/
theorem a_add {r : Registers} (byte : UInt8) (hc : r.flag .c = false) : (r.add byte).a = r.a + byte := by
  have h := toNat_add r byte
  have hzero : carry r = 0 := by rw [carry_eq, hc]; rfl
  have hout := (r.add byte).a.toNat_lt
  refine UInt8.toNat_inj.mp ?_
  rw [UInt8.toNat_add]
  omega

theorem a_subtract {r : Registers} (byte : UInt8) (hc : r.flag .c = true) :
    (alu .sbc r byte).a = r.a - byte := by
  have h := toNat_subtract r byte
  have hone : carry r = 1 := by rw [carry_eq, hc]; rfl
  have hout := (alu .sbc r byte).a.toNat_lt
  have hbyte := byte.toNat_lt
  refine UInt8.toNat_inj.mp ?_
  rw [UInt8.toNat_sub]
  omega

/-- Moving the stack pointer changes nothing but registers, and keeps Y. -/
theorem exec_moveDown (n : UInt8) (s : Store) :
    ∃ r, execAll k (Sequence.moveSP .sec .sbc n) s = s.setRegs r ∧ r.sp = s.regs.sp - n ∧
      r.y = s.regs.y :=
  ⟨_, rfl, a_subtract n (flag_setFlag _ .c .c true), rfl⟩

theorem exec_moveUp (n : UInt8) (s : Store) :
    ∃ r, execAll k (Sequence.moveSP .clc .adc n) s = s.setRegs r ∧ r.sp = s.regs.sp + n ∧
      r.y = s.regs.y :=
  ⟨_, rfl, a_add n (flag_setFlag _ .c .c false), rfl⟩

/-- **A frame is reserved** under the stack. -/
theorem exec_reserve (n : UInt8) (s : Store) :
    ∃ r, execAll k (Sequence.reserve n).code s = s.setRegs r ∧ r.sp = s.regs.sp - n := by
  unfold Sequence.reserve
  split
  · rename_i hzero
    exact ⟨s.regs, rfl, by rw [hzero, UInt8.sub_zero]⟩
  · obtain ⟨r, hr, hsp, -⟩ := exec_moveDown (k := k) n s
    exact ⟨r, hr, hsp⟩

theorem exec_release (n : UInt8) (s : Store) :
    ∃ r, execAll k (Sequence.release n).code s = s.setRegs r ∧ r.sp = s.regs.sp + n ∧
      r.y = s.regs.y := by
  unfold Sequence.release
  split
  · rename_i hzero
    exact ⟨s.regs, rfl, by rw [hzero, UInt8.add_zero], rfl⟩
  · exact exec_moveUp n s

/-- The exit sequence up to the return. -/
def releaseLines (n : UInt8) (kind : ReturnKind) : List Line :=
  if n = 0 then []
  else match kind with
    | .void | .struct _ => (Sequence.release n).code
    | .byte => .bare .tay :: (Sequence.release n).code ++ [Line.bare .tya]
    | .word =>
      [Line.bare .tay, .bare .txa, .bare .tsx,
        .op .sta (.absoluteX (.absolute (0x0100 + n.toUInt16)))] ++
      (Sequence.release (n - 1)).code ++ [Line.bare .pla, .bare .tax, .bare .tya]

theorem releaseAndReturn_eq (n : UInt8) (kind : ReturnKind) :
    (Sequence.releaseAndReturn n kind).code = releaseLines n kind ++ [Line.bare .rts] := by
  have happend : ∀ p q : Sequence, (p ++ q).code = p.code ++ q.code := fun _ _ => rfl
  unfold Sequence.releaseAndReturn releaseLines
  split
  · rfl
  · cases kind <;> simp [happend, Sequence.ofLines]

/-- The frame has been given back: the result is still in its registers, and only the topmost byte
of the frame may have been written. -/
structure Released (n : UInt8) (kind : ReturnKind) (s t : Store) : Prop where
  sp : t.regs.sp = s.regs.sp + n
  result : returned kind t.regs = returned kind s.regs
  bus : t.machine.bus = s.machine.bus ∨
    ∃ byte, t.machine.bus = s.machine.bus.write (Machine.stackAddress (s.regs.sp + n)) byte

/-- The topmost byte of a frame. -/
theorem frame_address {n sp : UInt8} (hroom : sp.toNat + n.toNat ≤ 0xFF) :
    0x0100 + n.toUInt16 + sp.toUInt16 = Machine.stackAddress (sp + n) := by
  refine UInt16.toNat_inj.mp ?_
  rw [toNat_stackAddress, UInt16.toNat_add, UInt16.toNat_add, UInt8.toNat_toUInt16, UInt8.toNat_toUInt16,
    UInt8.toNat_add]
  have h : (0x0100 : UInt16).toNat = 0x100 := rfl
  omega

/-- The result waits in Y and in the topmost byte of the frame. -/
def parked (k : Linkage) (n : UInt8) (s : Store) : Store :=
  execAll k [.bare .tay, .bare .txa, .bare .tsx,
    .op .sta (.absoluteX (.absolute (0x0100 + n.toUInt16)))] s

/-- **The exit sequence** gives the frame back and keeps the result. -/
theorem exec_releaseLines {n : UInt8} (kind : ReturnKind) {s : Store}
    (hplain : n ≠ 0 → Plain s.machine.bus (Machine.stackAddress (s.regs.sp + n)))
    (hroom : s.regs.sp.toNat + n.toNat ≤ 0xFF) :
    Released n kind s (execAll k (releaseLines n kind) s) := by
  unfold releaseLines
  split
  · rename_i hzero
    exact ⟨by rw [hzero, UInt8.add_zero]; rfl, rfl, Or.inl rfl⟩
  · rename_i hsome
    cases kind with
    | void =>
      obtain ⟨r, hr, hsp, -⟩ := exec_release (k := k) n s
      simp only [hr]
      exact ⟨hsp, rfl, Or.inl rfl⟩
    | struct size =>
      obtain ⟨r, hr, hsp, -⟩ := exec_release (k := k) n s
      simp only [hr]
      exact ⟨hsp, rfl, Or.inl rfl⟩
    | byte =>
      obtain ⟨r, hr, hsp, hy⟩ := exec_release (k := k) n (s.exec k .tay .implied)
      have hlines : execAll k (.bare .tay :: (Sequence.release n).code ++ [Line.bare .tya]) s =
          (s.setRegs r).exec k .tya .implied := by
        rw [execAll_append]
        exact congrArg (·.exec k .tya .implied) hr
      rw [hlines]
      exact ⟨hsp, congrArg (fun a => [a]) hy, Or.inl rfl⟩
    | word =>
      -- The high byte waits in the topmost byte of the frame, the low byte in Y.
      obtain ⟨r, hr, hsp, hy⟩ := exec_release (k := k) (n - 1) (parked k n s)
      have hlines : execAll k ([Line.bare .tay, .bare .txa, .bare .tsx,
            .op .sta (.absoluteX (.absolute (0x0100 + n.toUInt16)))] ++
            (Sequence.release (n - 1)).code ++ [Line.bare .pla, .bare .tax, .bare .tya]) s =
          execAll k [.bare .pla, .bare .tax, .bare .tya] ((parked k n s).setRegs r) := by
        rw [execAll_append, execAll_append]
        exact congrArg (execAll k _) hr
      have htop : r.sp + 1 = s.regs.sp + n := by
        rw [hsp]
        change s.regs.sp + (n - 1) + 1 = s.regs.sp + n
        grind
      have hbus : (parked k n s).machine.bus =
          s.machine.bus.write (Machine.stackAddress (s.regs.sp + n)) s.regs.x := by
        rw [← frame_address hroom]
        rfl
      have hread : (parked k n s).machine.bus.read (Machine.stackAddress (r.sp + 1)) = s.regs.x := by
        rw [hbus, htop, read_write (hplain hsome), if_pos rfl]
      rw [hlines]
      exact ⟨htop, congrArg₂ (fun a x => [a, x]) hy hread, Or.inr ⟨_, hbus⟩⟩

end Frames

end Codegen6502.Proofs.Selecting.Returning
