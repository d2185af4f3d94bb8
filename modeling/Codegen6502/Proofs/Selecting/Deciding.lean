import Codegen6502.Proofs.Selecting.Constants
import Codegen6502.Proofs.Selecting.Nodes
import Codegen6502.Proofs.Selecting.Reading

/-!
# Code that decides

Lines that go to a label exactly if a condition holds, and change nothing in use (`Decides`):
equality, order by a subtraction, and the tests of a value against zero.  `offers_branch` puts them
together: all candidates for a comparison decide by its outcome on what is read for the operands.
-/

namespace Codegen6502.Proofs.Selecting.Deciding

open Selection Growth Shapes
open Processor.Memory Processor.LineRun Processor.Straight Processor.Arithmetic Processor.Passages
open Tracking Places Moves Courses Reading Constants

variable {c : Context} {k : Linkage} {s t : Store} {st st' : State} {d d' d'' : Draft}
  {target skip : String} {locs : List ByteLoc} {cell : UInt8}

/-! ### Going to a label or not -/

/-- Code that goes to a label exactly if a condition holds. -/
def Tries (k : Linkage) (names : List String) (target : String) (d d' : Draft) (pre : Store → Prop)
    (post : Store → Store → Prop) (cond : Store → Bool) : Prop :=
  Leads k names (target :: names) d d' pre fun s p =>
    post s p.store ∧ p.seeking = if cond s then some target else none

/-- Code that goes to a label exactly if a condition holds, and changes no byte but those of the
scratch pointer. -/
def Turns (k : Linkage) (names : List String) (target : String) (d d' : Draft) (locs : List ByteLoc)
    (cond : Store → Bool) : Prop :=
  Tries k names target d d' (fun s => Away k d.pointerCell s locs) (Same d.pointerCell everything) cond

/-- The bytes at locations. -/
abbrev heldAll (k : Linkage) (s : Store) (locs : List ByteLoc) : List UInt8 := locs.map (held k s)

theorem held_of_same (h : Same cell everything s t) (hlocs : ∀ loc ∈ locs, IsByte loc)
    (haway : Away k cell s locs) : heldAll k t locs = heldAll k s locs :=
  List.map_congr_left fun loc hloc => Same.held h (hlocs loc hloc) (haway loc hloc)

theorem away_mono {locs' : List ByteLoc} (h : Away k cell s locs) (hsub : ∀ loc ∈ locs', loc ∈ locs) :
    Away k cell s locs' := fun loc hloc => h loc (hsub loc hloc)

theorem not_of_staying {b : Bool} (h : none = if b then some target else none) : b = false := by
  cases b with
  | true => cases h
  | false => rfl

theorem of_leaving {b : Bool} {other : String}
    (h : some other = if b then some target else none) : b = true ∧ other = target := by
  cases b with
  | true => exact ⟨rfl, Option.some.inj h⟩
  | false => cases h

namespace Tries

variable {pre pre' : Store → Prop} {mid mid' post : Store → Store → Prop} {f g g' : Store → Bool}

/-- Two chances to go to one label. -/
theorem either (h : Tries k [] target d d' pre mid f) (h' : Tries k [] target d' d'' pre' mid' g)
    (link : ∀ s t, pre s → mid s t → pre' t ∧ g t = g' s) (hfirst : ∀ s t, mid s t → post s t)
    (hsecond : ∀ s t u, mid s t → mid' t u → post s u) :
    Tries k [] target d d'' pre post fun s => f s || g' s := by
  refine ((Leads.trans h h' (by simp) fun s t _ hs ht => (link s t hs ht.1).1).widen (by simp)).imp
    (fun _ hs => hs) ?_
  rintro s p - hs (⟨t, ⟨hmid, hno⟩, hmid', hp⟩ | ⟨t, other, rfl, hmid, hyes⟩)
  · refine ⟨hsecond s t _ hmid hmid', ?_⟩
    simp only [hp, (link s t hs hmid).2, not_of_staying hno, Bool.false_or]
  · obtain ⟨hf, rfl⟩ := of_leaving hyes
    simp only [hf, Bool.true_or, if_true]
    exact ⟨hfirst s t hmid, trivial⟩

/-- A way around. -/
theorem around (h : Tries k [] skip d d' pre mid f) (h' : Tries k [] target d' d'' pre' mid' g)
    (hne : target ≠ skip) (link : ∀ s t, pre s → mid s t → pre' t ∧ g t = g' s)
    (hfirst : ∀ s t, mid s t → post s t) (hsecond : ∀ s t u, mid s t → mid' t u → post s u) :
    Tries k [skip] target d (d''.label skip) pre post fun s => !f s && g' s := by
  refine (((Leads.trans h h' (by simp) fun s t _ hs ht => (link s t hs ht.1).1).landed skip).widen
    (by simp)).imp (fun _ hs => hs) ?_
  rintro s q - hs ⟨p, ⟨t, ⟨hmid, hno⟩, hmid', hp⟩ | ⟨t, other, rfl, hmid, hyes⟩, rfl⟩
  · have hland : land skip p = p := by
      refine if_neg fun heq => hne ?_
      rw [hp] at heq
      exact (of_leaving heq.symm).2.symm
    rw [hland]
    refine ⟨hsecond s t _ hmid hmid', ?_⟩
    simp only [hp, (link s t hs hmid).2, not_of_staying hno, Bool.not_false, Bool.true_and]
  · obtain ⟨hf, rfl⟩ := of_leaving hyes
    simp only [land, if_true, hf]
    exact ⟨hfirst s t hmid, rfl⟩

end Tries

namespace Turns

variable {names : List String} {f g : Store → Bool}

theorem pointerCell (h : Turns k names target d d' locs f) : d'.pointerCell = d.pointerCell :=
  Leads.cell h

theorem mono {locs' : List ByteLoc} (h : Turns k names target d d' locs f)
    (hsub : ∀ loc ∈ locs, loc ∈ locs') : Turns k names target d d' locs' f :=
  Leads.imp h (fun _ hs => away_mono hs hsub) fun _ _ _ _ hp => hp

/-- The condition said in another way. -/
theorem congr (h : Turns k names target d d' locs f) (heq : ∀ s, f s = g s) :
    Turns k names target d d' locs g := by
  obtain rfl : f = g := funext heq
  exact h

theorem either (h : Turns k [] target d d' locs f) (h' : Turns k [] target d' d'' locs g)
    (hstable : ∀ s t, Same d.pointerCell everything s t → Away k d.pointerCell s locs → g t = g s) :
    Turns k [] target d d'' locs fun s => f s || g s := by
  have hcell := h.pointerCell
  unfold Turns at h'
  rw [hcell] at h'
  exact Tries.either h h' (fun s t hs hsame => ⟨hs.same hsame, hstable s t hsame hs⟩)
    (fun _ _ hsame => hsame) fun _ _ _ => Same.trans

theorem around (h : Turns k [] skip d d' locs f) (h' : Turns k [] target d' d'' locs g)
    (hne : target ≠ skip)
    (hstable : ∀ s t, Same d.pointerCell everything s t → Away k d.pointerCell s locs → g t = g s) :
    Turns k [skip] target d (d''.label skip) locs fun s => !f s && g s := by
  have hcell := h.pointerCell
  unfold Turns at h'
  rw [hcell] at h'
  exact Tries.around h h' hne (fun s t hs hsame => ⟨hs.same hsame, hstable s t hsame hs⟩)
    (fun _ _ hsame => hsame) fun _ _ _ => Same.trans

end Turns

/-- Lines that leave flags, and a branch on them. -/
theorem tries_branch {op : Opcode} {cond : Store → Bool} {pre : Store → Prop}
    {post : Store → Store → Prop}
    (h : Leads k [] [] d d' pre fun s p => ∃ t, p = { store := t } ∧ post s t)
    (hop : op.isBranch = true) (htaken : ∀ s t, post s t → isTaken op t.regs = cond s) :
    Tries k [] target d (d'.branch op target) pre post cond := by
  refine (h.trans (leads_branch (k := k) d' hop target) (by simp) fun _ _ _ _ _ => trivial).imp
    (fun _ hs => hs) ?_
  rintro s p - - (⟨t, ⟨u, hu, ht⟩, rfl⟩ | ⟨t, other, rfl, u, hu, -⟩)
  · obtain rfl : t = u := congrArg Passage.store hu
    exact ⟨ht, by rw [htaken s t ht]⟩
  · cases congrArg Passage.seeking hu

theorem turns_branch {op : Opcode} {cond : Store → Bool} {post : Store → Store → Prop}
    (h : Leads k [] [] d d' (fun s => Away k d.pointerCell s locs) fun s p =>
      ∃ t, p = { store := t } ∧ post s t) (hop : op.isBranch = true)
    (hsame : ∀ s t, post s t → Same d.pointerCell everything s t)
    (htaken : ∀ s t, post s t → isTaken op t.regs = cond s) :
    Turns k [] target d (d'.branch op target) locs cond :=
  Leads.imp (tries_branch h hop htaken) (fun _ hs => hs) fun s _ _ _ hp => ⟨hsame s _ hp.1, hp.2⟩

/-- The branch that is taken if Z is set, or if it is not. -/
theorem isBranch_zero (zero : Bool) : (if zero = true then Opcode.beq else .bne).isBranch = true := by
  cases zero <;> rfl

theorem isTaken_zero (zero : Bool) (r : Registers) :
    isTaken (if zero = true then .beq else .bne) r = (r.flag .z == zero) := by
  cases zero <;> cases h : r.flag .z <;> simp [isTaken, h]

/-! ### Equality -/

/-- Comparing two bytes. -/
theorem turns_compare {l r : ByteLoc} (hl : IsByte l) (hr : IsByte r)
    (h : (d.loadA l).compute .cmp r = .ok d') (equal : Bool) (target : String) :
    Turns k [] target d (d'.branch (if equal then .beq else .bne) target) [l, r] fun s =>
      decide (held k s l = held k s r) == equal := by
  refine turns_branch (.of_passes (passes_combine rfl hl hr h)) (isBranch_zero equal)
    (fun _ _ h => h.1) ?_
  rintro s t ⟨-, q, hq, -, hregs⟩
  rw [isTaken_zero, hregs]
  change ((q.compare q.a (held k s r)).flag .z == equal) = _
  rw [flag_compare, hq]
  simp

section Words

variable {l₀ l₁ r₀ r₁ : ByteLoc} {d₁ d₂ : Draft}

theorem turns_unequal (hbytes : ∀ loc ∈ [l₀, l₁, r₀, r₁], IsByte loc)
    (h₁ : (d.loadA l₀).compute .cmp r₀ = .ok d₁)
    (h₂ : ((d₁.branch .bne target).loadA l₁).compute .cmp r₁ = .ok d₂) :
    Turns k [] target d (d₂.branch .bne target) [l₀, l₁, r₀, r₁] fun s =>
      decide (heldAll k s [l₀, l₁] = heldAll k s [r₀, r₁]) == false := by
  have hfirst := turns_compare (k := k) (hbytes l₀ (by simp)) (hbytes r₀ (by simp)) h₁ false target
  have hsecond := turns_compare (k := k) (hbytes l₁ (by simp)) (hbytes r₁ (by simp)) h₂ false target
  refine ((hfirst.mono (by simp)).either (hsecond.mono (by simp)) fun s t hsame haway => ?_).congr
    fun s => ?_
  · rw [Same.held hsame (hbytes l₁ (by simp)) (haway l₁ (by simp)),
      Same.held hsame (hbytes r₁ (by simp)) (haway r₁ (by simp))]
  · by_cases h₀ : held k s l₀ = held k s r₀ <;> simp [h₀]

theorem turns_equal (hbytes : ∀ loc ∈ [l₀, l₁, r₀, r₁], IsByte loc) (hne : target ≠ skip)
    (h₁ : (d.loadA l₀).compute .cmp r₀ = .ok d₁)
    (h₂ : ((d₁.branch .bne skip).loadA l₁).compute .cmp r₁ = .ok d₂) :
    Turns k [skip] target d ((d₂.branch .beq target).label skip) [l₀, l₁, r₀, r₁] fun s =>
      decide (heldAll k s [l₀, l₁] = heldAll k s [r₀, r₁]) == true := by
  have hfirst := turns_compare (k := k) (hbytes l₀ (by simp)) (hbytes r₀ (by simp)) h₁ false skip
  have hsecond := turns_compare (k := k) (hbytes l₁ (by simp)) (hbytes r₁ (by simp)) h₂ true target
  refine ((hfirst.mono (by simp)).around (hsecond.mono (by simp)) hne fun s t hsame haway => ?_).congr
    fun s => ?_
  · rw [Same.held hsame (hbytes l₁ (by simp)) (haway l₁ (by simp)),
      Same.held hsame (hbytes r₁ (by simp)) (haway r₁ (by simp))]
  · by_cases h₀ : held k s l₀ = held k s r₀ <;> simp [h₀]

end Words

/-! ### Order -/

/-- What a subtraction leaves in the flags: the borrow, or the sign of the difference, corrected by
V. -/
def Tally (signed : Bool) (l r : List UInt8) (q : Registers) : Prop :=
  if signed then q.flag .n = isNegative q.a ∧
    (q.flag .n ^^ q.flag .v) = decide (number true l < number true r)
  else q.flag .c = decide (natural r ≤ natural l)

theorem flag_n_sbc (q : Registers) (byte : UInt8) :
    (alu .sbc q byte).flag .n = isNegative (alu .sbc q byte).a := flag_add q _ .n

theorem carry_cmp (q : Registers) (byte : UInt8) :
    carry (alu .cmp q byte) = if byte ≤ q.a then 1 else 0 := by
  change (if (q.compare q.a byte).flag .c then 1 else 0) = _
  rw [flag_compare]
  simp

theorem tally_byte {q : Registers} {l r : UInt8} (hq : q.a = l) (hc : q.flag .c = true) :
    Tally true [l] [r] (alu .sbc q r) := by
  have hcarry : carry q = 1 := if_pos hc
  refine ⟨flag_n_sbc q r, ?_⟩
  rw [sign_subtract, hq, hcarry, number_one, number_one, decide_eq_decide]
  omega

theorem tally_compare {q : Registers} {l r : UInt8} (hq : q.a = l) :
    Tally false [l] [r] (alu .cmp q r) := by
  change (q.compare q.a r).flag .c = _
  rw [flag_compare, hq]
  simp [UInt8.le_iff_toNat_le]

/-- The high bytes, after the low bytes have left their borrow in the carry. -/
theorem tally_word {signed : Bool} {q : Registers} {l₀ l₁ r₀ r₁ : UInt8} (hq : q.a = l₁)
    (hc : carry q = if r₀ ≤ l₀ then 1 else 0) :
    Tally signed [l₀, l₁] [r₀, r₁] (alu .sbc q r₁) := by
  have hl₀ := l₀.toNat_lt
  have hr₀ := r₀.toNat_lt
  simp only [UInt8.le_iff_toNat_le] at hc
  cases signed with
  | true =>
    refine ⟨flag_n_sbc q r₁, ?_⟩
    rw [sign_subtract, hq, number_two, number_two, hc, decide_eq_decide]
    split <;> push_cast <;> omega
  | false =>
    have hsub := toNat_subtract q r₁
    have hle := carry_le (alu .sbc q r₁)
    have ha := (alu .sbc q r₁).a.toNat_lt
    change (alu .sbc q r₁).flag .c = _
    rw [Bool.eq_iff_iff, flag_c_iff, decide_eq_true_eq, natural_two, natural_two]
    rw [hq, hc] at hsub
    split at hsub <;> omega

/-- The difference of two bytes. -/
theorem passes_difference {l r : ByteLoc} (hl : IsByte l) (hr : IsByte r)
    (h : ((d.loadA l).bare .sec).compute .sbc r = .ok d') :
    Passes k 0 d d' (fun s => Away k d.pointerCell s [l, r]) fun s t =>
      Same d.pointerCell everything s t ∧ Tally true [held k s l] [held k s r] t.regs := by
  have hload : Passes k 0 d (d.loadA l) (fun s => Away k d.pointerCell s [l, r]) _ :=
    (passes_loadA d hl).imp le_rfl (fun s hs => hs l (by simp)) fun _ _ _ _ h => h
  have hset := passes_setCarry (k := k) (d.loadA l) (Or.inr (rfl : Opcode.sec = .sec))
  have hsub := passes_compute (k := k) rfl hr h
  rw [hset.cell, hload.cell] at hsub
  refine ((hload.trans hset fun _ _ _ _ => trivial).trans hsub ?_).imp le_rfl (fun _ hs => hs) ?_
  · rintro s u hs ⟨t, ⟨⟨hsame, -⟩, -⟩, rfl⟩
    exact hs.same (hsame.trans (Same.setRegs t _)) r (by simp)
  · rintro s w - hs ⟨u, ⟨t, ⟨⟨hsame, ha⟩, -⟩, rfl⟩, hsame', q, hq, hc, hregs⟩
    have hsu : Same d.pointerCell everything s (t.setRegs (t.regs.setFlag .c (Opcode.sec = .sec))) :=
      hsame.trans (Same.setRegs t _)
    refine ⟨hsu.trans hsame', ?_⟩
    have hheld : get (t.setRegs (t.regs.setFlag .c (Opcode.sec = .sec))) _ = held k s r :=
      Same.held hsu hr (hs r (by simp))
    rw [hregs, hheld]
    refine tally_byte (hq.trans ha) (hc.trans ?_)
    rw [regs_setRegs, flag_setFlag, if_pos rfl]
    rfl

/-- The difference of two words, of which the low bytes leave the borrow. -/
theorem passes_wordDifference (signed : Bool) {l₀ l₁ r₀ r₁ : ByteLoc} {d₁ : Draft}
    (hbytes : ∀ loc ∈ [l₀, l₁, r₀, r₁], IsByte loc)
    (h : (d.loadA l₀).compute .cmp r₀ = .ok d₁) (h' : (d₁.loadA l₁).compute .sbc r₁ = .ok d') :
    Passes k 0 d d' (fun s => Away k d.pointerCell s [l₀, l₁, r₀, r₁]) fun s t =>
      Same d.pointerCell everything s t ∧
        Tally signed [held k s l₀, held k s l₁] [held k s r₀, held k s r₁] t.regs := by
  have hl₁ : IsByte l₁ := hbytes l₁ (by simp)
  have hr₁ : IsByte r₁ := hbytes r₁ (by simp)
  have hlow : Passes k 0 d d₁ (fun s => Away k d.pointerCell s [l₀, l₁, r₀, r₁]) _ :=
    (passes_combine rfl (hbytes l₀ (by simp)) (hbytes r₀ (by simp)) h).imp le_rfl
      (fun s hs => away_mono hs (by simp)) fun _ _ _ _ h => h
  have hhigh := passes_combine (k := k) rfl hl₁ hr₁ h'
  rw [hlow.cell] at hhigh
  refine (hlow.trans hhigh ?_).imp le_rfl (fun _ hs => hs) ?_
  · rintro s t hs ⟨hsame, -⟩
    exact away_mono (hs.same hsame) (by simp)
  · rintro s u - hs ⟨t, ⟨hsame, q, hq, -, hregs⟩, hsame', q', hq', hc', hregs'⟩
    refine ⟨hsame.trans hsame', ?_⟩
    rw [hregs', Same.held hsame hr₁ (hs r₁ (by simp))]
    refine tally_word (hq'.trans (Same.held hsame hl₁ (hs l₁ (by simp)))) ?_
    have hcarry : carry q' = carry t.regs := by rw [carry, hc', carry]
    rw [hcarry, hregs, carry_cmp, hq]

/-- **Subtraction.** -/
theorem passes_subtract {signed : Bool} {lb rb : List ByteLoc} {u : Unit}
    (h : Nodes.subtract signed lb rb c st = .ok (u, st')) (hbytes : ∀ loc ∈ lb ++ rb, IsByte loc) :
    st'.nextLabel = st.nextLabel ∧
    Passes k 0 st.draft st'.draft (fun s => Away k st.draft.pointerCell s (lb ++ rb)) fun s t =>
      Same st.draft.pointerCell everything s t ∧
        Tally signed (heldAll k s lb) (heldAll k s rb) t.regs := by
  unfold Nodes.subtract at h
  split at h
  · rename_i l r
    have hl : IsByte l := hbytes l (by simp)
    have hr : IsByte r := hbytes r (by simp)
    obtain ⟨_, st₁, hload, h⟩ := bind_ok.mp h
    cases hload
    cases signed with
    | true =>
      obtain ⟨_, st₂, hsec, h⟩ := bind_ok.mp h
      cases hsec
      obtain ⟨hsbc, hlabel⟩ := tryDraft_ok h
      exact ⟨hlabel, passes_difference hl hr hsbc⟩
    | false =>
      rw [if_neg Bool.false_ne_true] at h
      obtain ⟨hcmp, hlabel⟩ := tryDraft_ok h
      refine ⟨hlabel, (passes_combine rfl hl hr hcmp).imp le_rfl (fun _ hs => hs) ?_⟩
      rintro s t - - ⟨hsame, q, hq, -, hregs⟩
      exact ⟨hsame, hregs ▸ tally_compare hq⟩
  · obtain ⟨_, st₁, hload, h⟩ := bind_ok.mp h
    cases hload
    obtain ⟨_, st₂, hcmp, h⟩ := bind_ok.mp h
    obtain ⟨hcmp, hlabel⟩ := tryDraft_ok hcmp
    obtain ⟨_, st₃, hload', h⟩ := bind_ok.mp h
    cases hload'
    obtain ⟨hsbc, hlabel'⟩ := tryDraft_ok h
    exact ⟨hlabel'.trans hlabel, passes_wordDifference signed hbytes hcmp hsbc⟩
  · cases h

/-- **The sign of a difference that overflowed is turned around.** -/
theorem leads_correction (d : Draft) (ok : String) :
    Leads k [ok] [ok] d (((d.branch .bvc ok).op .eor (.byte 0x80)).label ok)
      (fun s => s.regs.flag .n = isNegative s.regs.a) fun s p =>
        ∃ t, p = { store := t } ∧ Same d.pointerCell everything s t ∧
          t.regs.flag .n = (s.regs.flag .n ^^ s.regs.flag .v) := by
  have hbranch := leads_branch (k := k) d (rfl : Opcode.bvc.isBranch = true) ok
  have heor : Leads k [] [] (d.branch .bvc ok) ((d.branch .bvc ok).op .eor (.byte 0x80)) _ _ :=
    .of_passes (passes_alu (d.branch .bvc ok) rfl rfl trivial)
  refine ((hbranch.trans heor (by simp) fun _ _ _ _ _ => trivial).landed ok).imp (fun _ _ => trivial) ?_
  rintro s q - hn ⟨p, ⟨t, ht, u, rfl, rfl⟩ | ⟨t, other, rfl, hother⟩, rfl⟩
  · -- V is set: the top bit of A, and with it N, is turned around.
    obtain rfl : t = s := congrArg Passage.store ht
    have hv : t.regs.flag .v = true := by
      have hnot := not_of_staying (congrArg Passage.seeking ht)
      simpa [isTaken] using hnot
    refine ⟨_, rfl, Same.setRegs t _, ?_⟩
    have hflip : isNegative (t.regs.a ^^^ 0x80) = !isNegative t.regs.a := by
      rw [isNegative_eq, isNegative_eq, UInt8.toBitVec_xor, BitVec.getLsbD_xor]
      exact Bool.xor_true _
    rw [regs_setRegs, hv, Bool.xor_true, hn, ← hflip]
    exact (flags_loadA _ _).2
  · have hseek := of_leaving (congrArg Passage.seeking hother)
    obtain rfl : t = s := congrArg Passage.store hother
    have hv : t.regs.flag .v = false := by simpa [isTaken] using hseek.1
    rw [hseek.2]
    exact ⟨t, if_pos rfl, Same.refl t, by rw [hv, Bool.xor_false]⟩

theorem isTaken_sign (negative : Bool) (r : Registers) :
    isTaken (if negative = true then .bmi else .bpl) r = (r.flag .n == negative) := by
  cases negative <;> cases h : r.flag .n <;> simp [isTaken, h]

theorem isTaken_borrow (less : Bool) (r : Registers) :
    isTaken (if less = true then .bcc else .bcs) r = (r.flag .c != less) := by
  cases less <;> cases h : r.flag .c <;> simp [isTaken, h]

/-- Whether bytes stand for a smaller number than others. -/
def isLess (signed : Bool) (l r : List UInt8) : Bool := decide (number signed l < number signed r)

/-- Labels that are numbered from `lo` on and below `hi`. -/
structure Fresh (c : Context) (lo hi : ℕ) (names : List String) : Prop where
  nodup : names.Nodup
  numbered : ∀ name ∈ names, ∃ n, lo ≤ n ∧ n < hi ∧ name = Naming.innerLabel c.function.name n

theorem fresh_nil (lo hi : ℕ) : Fresh c lo hi [] := ⟨List.nodup_nil, by simp⟩

theorem fresh_next (n : ℕ) : Fresh c n (n + 1) [Naming.innerLabel c.function.name n] :=
  ⟨List.nodup_singleton _, fun _ hname =>
    ⟨n, le_rfl, Nat.lt_succ_self n, List.mem_singleton.mp hname⟩⟩

theorem Fresh.mono {lo hi lo' hi' : ℕ} {names : List String} (h : Fresh c lo hi names)
    (hlo : lo' ≤ lo) (hhi : hi ≤ hi') : Fresh c lo' hi' names := by
  refine ⟨h.nodup, fun name hname => ?_⟩
  obtain ⟨n, hle, hlt, rfl⟩ := h.numbered name hname
  exact ⟨n, hlo.trans hle, hlt.trans_le hhi, rfl⟩

/-- Code that goes to a label exactly if a condition holds, by way of new labels. -/
def Chooses (c : Context) (k : Linkage) (target : String) (lo hi : ℕ) (d d' : Draft)
    (locs : List ByteLoc) (cond : Store → Bool) : Prop :=
  ∃ names, Fresh c lo hi names ∧ Turns k names target d d' locs cond

/-- **Deciding an order.** -/
theorem chooses_order {signed less : Bool} {lb rb : List ByteLoc} {st₁ : State} {u : Unit}
    (h : Passes k 0 d st₁.draft (fun s => Away k d.pointerCell s (lb ++ rb)) fun s t =>
      Same d.pointerCell everything s t ∧ Tally signed (heldAll k s lb) (heldAll k s rb) t.regs)
    (hdecide : Nodes.decideOrder signed less target c st₁ = .ok (u, st')) :
    st₁.nextLabel ≤ st'.nextLabel ∧
      Chooses c k target st₁.nextLabel st'.nextLabel d st'.draft (lb ++ rb) fun s =>
        isLess signed (heldAll k s lb) (heldAll k s rb) == less := by
  unfold Nodes.decideOrder at hdecide
  cases signed with
  | true =>
    obtain ⟨ok, st₂, hlabel, hdecide⟩ := bind_ok.mp hdecide
    obtain ⟨rfl, rfl⟩ := newLabel_ok hlabel
    cases hdecide
    refine ⟨Nat.le_succ _, _, fresh_next _, ?_⟩
    have hcorrect := (leads_correction (k := k) st₁.draft
      (Naming.innerLabel c.function.name st₁.nextLabel)).after h fun s t _ _ ht => ht.2.1
    have hbranch := leads_branch (k := k) (((st₁.draft.branch .bvc
      (Naming.innerLabel c.function.name st₁.nextLabel)).op .eor (.byte 0x80)).label
      (Naming.innerLabel c.function.name st₁.nextLabel))
      (show (if less = true then Opcode.bmi else .bpl).isBranch = true by split <;> rfl) target
    refine ((hcorrect.trans hbranch (by simp) fun _ _ _ _ _ => trivial).widen (by simp)).imp
      (fun _ hs => hs) ?_
    rw [h.cell]
    rintro s p - - (⟨u, ⟨t, ⟨hsame, -, hsign⟩, w, hw, hsame', hn⟩, rfl⟩ | ⟨u, other, rfl, t, -, w, hw, -⟩)
    · obtain rfl : u = w := congrArg Passage.store hw
      refine ⟨hsame.trans hsame', ?_⟩
      simp only [isTaken_sign, hn, hsign]
      rfl
    · cases congrArg Passage.seeking hw
  | false =>
    cases hdecide
    refine ⟨le_rfl, [], fresh_nil _ _, turns_branch (.of_passes h) (by split <;> rfl)
      (fun _ _ h => h.1) ?_⟩
    rintro s t ⟨-, htally⟩
    have hc : t.regs.flag .c = !isLess false (heldAll k s lb) (heldAll k s rb) := by
      rw [isLess, number_unsigned, number_unsigned, Bool.eq_iff_iff, show t.regs.flag .c = _ from htally]
      simp
    rw [isTaken_borrow, hc]
    cases less <;> cases isLess false (heldAll k s lb) (heldAll k s rb) <;> rfl

/-! ### Zero and sign -/

/-- The sign of a number is the top bit of its last byte. -/
theorem negative_iff {bytes : List UInt8} {top : UInt8} (hsize : bytes.length = 1 ∨ bytes.length = 2)
    (htop : bytes.getLast? = some top) : number true bytes < 0 ↔ isNegative top = true := by
  have hbyte : ∀ b : UInt8, signedByte b < 0 ↔ isNegative b = true := fun b => by
    have hlt := b.toNat_lt
    unfold signedByte
    split <;> simp_all
  obtain h | h := hsize
  · obtain ⟨b, rfl⟩ := List.length_eq_one_iff.mp h
    obtain rfl : b = top := Option.some.inj htop
    rw [number_one, hbyte]
  · obtain ⟨lo, hi, rfl⟩ := List.length_eq_two.mp h
    obtain rfl : hi = top := Option.some.inj htop
    have := lo.toNat_lt
    rw [number_two, ← hbyte]
    omega

/-- A number is zero if its bytes are. -/
theorem number_eq_zero_iff {signed : Bool} {bytes : List UInt8} :
    number signed bytes = 0 ↔ natural bytes = 0 := by
  have hlt := natural_lt bytes
  have hcast : (256 : ℤ) ^ bytes.length = ((256 ^ bytes.length : ℕ) : ℤ) := by push_cast; rfl
  unfold number
  rw [hcast]
  split <;> omega

theorem natural_pair_eq_zero {lo hi : UInt8} : natural [lo, hi] = 0 ↔ lo ||| hi = 0 := by
  rw [natural_two, UInt8.or_eq_zero_iff, ← UInt8.toNat_inj, ← UInt8.toNat_inj]
  simp

theorem leads_testAway (d : Draft) {loc : ByteLoc} (hloc : IsByte loc) :
    Leads k [] [] d (d.test loc) (fun s => Away k d.pointerCell s [loc]) fun s p =>
      ∃ t, p = { store := t } ∧ Same d.pointerCell everything s t ∧
        t.regs.flag .z = decide (held k s loc = 0) ∧ t.regs.flag .n = isNegative (held k s loc) :=
  (leads_test d hloc).imp (fun _ hs => hs loc (by simp)) fun _ _ _ _ h => h

/-- Testing whether a byte is zero. -/
theorem turns_zeroByte {loc : ByteLoc} (hloc : IsByte loc) (zero : Bool) (target : String) :
    Turns k [] target d ((d.test loc).branch (if zero then .beq else .bne) target) [loc] fun s =>
      decide (natural (heldAll k s [loc]) = 0) == zero := by
  have htest := leads_testAway (k := k) d hloc
  refine turns_branch htest (isBranch_zero zero) (fun _ _ h => h.1) ?_
  rintro s t ⟨-, hz, -⟩
  rw [isTaken_zero, hz]
  simp [← UInt8.toNat_inj]

/-- Testing whether a word is zero, in either order of its bytes. -/
theorem turns_zeroWord {first second : ByteLoc} (hfirst : IsByte first) (hsecond : IsByte second)
    (h : (d.loadA first).compute .ora second = .ok d') (zero : Bool) (target : String) :
    Turns k [] target d (d'.branch (if zero then .beq else .bne) target) [first, second] fun s =>
      decide (natural (heldAll k s [first, second]) = 0) == zero := by
  refine turns_branch (.of_passes (passes_combine rfl hfirst hsecond h)) (isBranch_zero zero)
    (fun _ _ h => h.1) ?_
  rintro s t ⟨-, q, hq, -, hregs⟩
  rw [isTaken_zero, hregs]
  change ((q.loadA (q.a ||| held k s second)).flag .z == zero) = _
  have hzero : natural (heldAll k s [first, second]) = 0 ↔ held k s first ||| held k s second = 0 :=
    natural_pair_eq_zero
  rw [(flags_loadA _ _).1, hq, decide_eq_decide.mpr hzero]

/-- Testing the sign of a byte; Z tells about it too. -/
theorem tries_sign {loc : ByteLoc} (hloc : IsByte loc) (negative : Bool) (target : String) :
    Tries k [] target d ((d.test loc).branch (if negative then .bmi else .bpl) target)
      (fun s => Away k d.pointerCell s [loc])
      (fun s t => Same d.pointerCell everything s t ∧ t.regs.flag .z = decide (held k s loc = 0))
      fun s => isNegative (held k s loc) == negative := by
  have htest := leads_testAway (k := k) d hloc
  have htaken : ∀ s t, (Same d.pointerCell everything s t ∧
      t.regs.flag .z = decide (held k s loc = 0) ∧ t.regs.flag .n = isNegative (held k s loc)) →
      isTaken (if negative then .bmi else .bpl) t.regs = (isNegative (held k s loc) == negative) := by
    rintro s t ⟨-, -, hn⟩
    rw [isTaken_sign, hn]
  refine Leads.imp (tries_branch htest (by split <;> rfl) htaken) (fun _ hs => hs) ?_
  rintro s p - - ⟨⟨hsame, hz, -⟩, hp⟩
  exact ⟨⟨hsame, hz⟩, hp⟩

theorem turns_sign {loc : ByteLoc} (hloc : IsByte loc) (negative : Bool) (target : String) :
    Turns k [] target d ((d.test loc).branch (if negative then .bmi else .bpl) target) [loc] fun s =>
      isNegative (held k s loc) == negative :=
  Leads.imp (tries_sign hloc negative target) (fun _ hs => hs) fun _ _ _ _ hp => ⟨hp.1.1, hp.2⟩

/-- A branch on Z alone. -/
theorem tries_zero (d : Draft) (zero : Bool) (target : String) :
    Tries k [] target d (d.branch (if zero then .beq else .bne) target) (fun _ => True)
      (fun s t => t = s) fun s => s.regs.flag .z == zero := by
  refine (leads_branch (k := k) d (isBranch_zero zero) target).imp (fun _ hs => hs) ?_
  rintro s p - - rfl
  exact ⟨rfl, by rw [isTaken_zero]⟩

/-- Whether bytes stand for a number above zero. -/
def isPositive (bytes : List UInt8) : Bool := decide (0 < number true bytes)

theorem isPositive_eq {bytes : List UInt8} {top : UInt8}
    (hsize : bytes.length = 1 ∨ bytes.length = 2) (htop : bytes.getLast? = some top) :
    isPositive bytes = (!isNegative top && !decide (natural bytes = 0)) := by
  have hneg := negative_iff hsize htop
  have hzero : number true bytes = 0 ↔ natural bytes = 0 := number_eq_zero_iff
  rw [isPositive, Bool.eq_iff_iff]
  simp only [decide_eq_true_eq, Bool.and_eq_true, Bool.not_eq_true', ← Bool.not_eq_true, ← hneg,
    ← hzero]
  omega

section Positive

variable {loc lo hi : ByteLoc}

theorem positive_byte : isPositive (heldAll k s [loc]) =
    (!isNegative (held k s loc) && !decide (natural (heldAll k s [loc]) = 0)) :=
  isPositive_eq (Or.inl rfl) rfl

theorem positive_word : isPositive (heldAll k s [lo, hi]) =
    (!isNegative (held k s hi) && !decide (natural (heldAll k s [lo, hi]) = 0)) :=
  isPositive_eq (Or.inr rfl) rfl

/-- What is left after the sign of a byte has been tested. -/
def Tested (k : Linkage) (d : Draft) (loc : ByteLoc) (s t : Store) : Prop :=
  Same d.pointerCell everything s t ∧ t.regs.flag .z = decide (held k s loc = 0)

theorem Tested.zero {zero : Bool} (h : Tested k d loc s t) :
    (t.regs.flag .z == zero) = (decide (natural (heldAll k s [loc]) = 0) == zero) := by
  rw [h.2]
  simp [← UInt8.toNat_inj]

theorem turns_positiveByte (hloc : IsByte loc) (hne : target ≠ skip) :
    Turns k [skip] target d ((((d.test loc).branch .bmi skip).branch .bne target).label skip) [loc]
      fun s => isPositive (heldAll k s [loc]) == true := by
  refine Turns.congr (Tries.around (tries_sign hloc true skip) (tries_zero _ false target) hne
    (fun s t _ (h : Tested k d loc s t) => ⟨trivial, h.zero⟩) (fun _ _ h => h.1) ?_) fun s => ?_
  · rintro s t u ⟨hsame, -⟩ rfl
    exact hsame
  · rw [positive_byte]
    cases isNegative (held k s loc) <;> simp

theorem turns_nonpositiveByte (hloc : IsByte loc) :
    Turns k [] target d (((d.test loc).branch .bmi target).branch .beq target) [loc]
      fun s => isPositive (heldAll k s [loc]) == false := by
  refine Turns.congr (Tries.either (tries_sign hloc true target) (tries_zero _ true target)
    (fun s t _ (h : Tested k d loc s t) => ⟨trivial, h.zero⟩) (fun _ _ h => h.1) ?_) fun s => ?_
  · rintro s t u ⟨hsame, -⟩ rfl
    exact hsame
  · rw [positive_byte]
    cases isNegative (held k s loc) <;> simp

theorem turns_positiveWord (hlo : IsByte lo) (hhi : IsByte hi) (hne : target ≠ skip)
    (h : (((d.test hi).branch .bmi skip).loadA lo).compute .ora hi = .ok d') :
    Turns k [skip] target d ((d'.branch .bne target).label skip) [lo, hi]
      fun s => isPositive (heldAll k s [lo, hi]) == true := by
  refine (((turns_sign hhi true skip).mono (by simp)).around (turns_zeroWord hlo hhi h false target) hne
    fun s t hsame haway => ?_).congr fun s => ?_
  · rw [held_of_same hsame (by simp [hlo, hhi]) haway]
  · rw [positive_word]
    cases isNegative (held k s hi) <;> simp

theorem turns_nonpositiveWord (hlo : IsByte lo) (hhi : IsByte hi)
    (h : (((d.test hi).branch .bmi target).loadA lo).compute .ora hi = .ok d') :
    Turns k [] target d (d'.branch .beq target) [lo, hi]
      fun s => isPositive (heldAll k s [lo, hi]) == false := by
  refine (((turns_sign hhi true target).mono (by simp)).either (turns_zeroWord hlo hhi h true target)
    fun s t hsame haway => ?_).congr fun s => ?_
  · rw [held_of_same hsame (by simp [hlo, hhi]) haway]
  · rw [positive_word]
    cases isNegative (held k s hi) <;> simp

end Positive

/-! ### Candidates -/

/-- Loading a byte and computing with another one, and what comes then. -/
theorem combine_ok {α : Type} {op : Opcode} {l r : ByteLoc} {m : Lower α} {a : α}
    (h : (do loadA l; compute op r; m : Lower α) c st = .ok (a, st')) :
    ∃ d, (st.draft.loadA l).compute op r = .ok d ∧ m c { st with draft := d } = .ok (a, st') := by
  obtain ⟨_, st₁, hload, hrest⟩ := bind_ok.mp h
  cases hload
  obtain ⟨_, st₂, hcompute, hrest⟩ := bind_ok.mp hrest
  obtain ⟨hd, hlabel⟩ := tryDraft_ok hcompute
  refine ⟨st₂.draft, hd, ?_⟩
  rw [show ({ st with draft := st₂.draft } : State) = st₂ by
    rw [← show st₂.nextLabel = st.nextLabel from hlabel]]
  exact hrest

/-- A candidate that goes to a label exactly if a condition holds, and changes nothing in use. -/
def Decides (c : Context) (k : Linkage) (target : String) (lo hi : ℕ) (base : Draft)
    (pre : Store → Prop) (cond : Store → Bool) (d : Draft) : Prop :=
  ∃ names, Fresh c lo hi names ∧
    Tries k names target base.fork d pre (Same base.pointerCell base.nextVReg.toNat) cond

namespace Decides

variable {lo hi lo' hi' : ℕ} {base : Draft} {pre pre' : Store → Prop} {f g : Store → Bool}

theorem imp (h : Decides c k target lo hi base pre f d) (hlo : lo' ≤ lo) (hhi : hi ≤ hi')
    (hpre : ∀ s, pre' s → pre s) (heq : ∀ s, pre' s → f s = g s) :
    Decides c k target lo' hi' base pre' g d := by
  obtain ⟨names, hfresh, htries⟩ := h
  refine ⟨names, hfresh.mono hlo hhi, Leads.imp htries hpre ?_⟩
  rintro s p - hs ⟨hsame, hp⟩
  exact ⟨hsame, by rw [hp, heq s hs]⟩

end Decides

/-- Building candidates leaves the code as it is. -/
structure Advances (st st' : State) : Prop where
  draft : st'.draft = st.draft
  label : st.nextLabel ≤ st'.nextLabel

theorem Advances.refl (st : State) : Advances st st := ⟨rfl, le_rfl⟩

theorem Advances.trans {st'' : State} (h : Advances st st') (h' : Advances st' st'') :
    Advances st st'' := ⟨h'.draft.trans h.draft, h.label.trans h'.label⟩

section Operands

variable {lhs rhs value : Value} {size lo hi : ℕ} {lb rb : List ByteLoc} {st₁ : State}

/-- Straight lines in front of code that decides. -/
theorem decides_after {m : ℕ} {pre : Store → Prop} {post : Store → Store → Prop}
    {f g : Store → Bool} {base : Draft} (hpasses : Passes k m base.fork d' pre post)
    (h : Chooses c k target lo hi d' d locs f)
    (hpost : ∀ s t, pre s → post s t → Same base.pointerCell base.nextVReg.toNat s t ∧
      Away k base.pointerCell t locs ∧ f t = g s) :
    Decides c k target lo hi base pre g d := by
  obtain ⟨names, hfresh, hturns⟩ := h
  have hcell : d'.pointerCell = base.pointerCell := hpasses.cell
  unfold Turns at hturns
  rw [hcell] at hturns
  refine ⟨names, hfresh, (Leads.after hturns hpasses fun s t _ hs ht => (hpost s t hs ht).2.1).imp
    (fun _ hs => hs) ?_⟩
  rintro s p - hs ⟨t, ht, hsame, hp⟩
  obtain ⟨hbefore, -, heq⟩ := hpost s t hs ht
  refine ⟨hbefore.trans (hsame.mono ?_), by rw [hp, heq]⟩
  exact base.nextVReg.toNat_lt.le

theorem decides_of_paired {f : List UInt8 → List UInt8 → Bool}
    (hp : Paired c k lhs rhs size { st with draft := st.draft.fork } st₁ lb rb)
    (h : Chooses c k target lo hi st₁.draft d (lb ++ rb) fun t => f (heldAll k t lb) (heldAll k t rb)) :
    Decides c k target lo hi st.draft (fun s => Readable c k st.draft.pointerCell s size lhs ∧
        Readable c k st.draft.pointerCell s size rhs)
      (fun s => f (readOf c k s size lhs) (readOf c k s size rhs)) d := by
  refine decides_after hp.passes h ?_
  rintro s t - ⟨hsame, hpresents⟩
  refine ⟨hsame, hpresents.outside, ?_⟩
  obtain ⟨hl, hr⟩ := hpresents.split (by rw [hp.left, length_readOf])
  rw [show heldAll k t lb = _ from hl.map_eq, show heldAll k t rb = _ from hr.map_eq]

theorem decides_of_supplied {f : List UInt8 → Bool} {m : ℕ}
    (hs : Supplied c k value size m { st with draft := st.draft.fork } st₁ lb)
    (h : Chooses c k target lo hi st₁.draft d lb fun t => f (heldAll k t lb)) :
    Decides c k target lo hi st.draft (fun s => Readable c k st.draft.pointerCell s size value)
      (fun s => f (readOf c k s size value)) d := by
  refine decides_after hs.passes h ?_
  rintro s t - ⟨hsame, hpresents⟩
  refine ⟨hsame, hpresents.outside, ?_⟩
  rw [show heldAll k t lb = _ from hpresents.map_eq]

end Operands

/-- What is needed of the state before a comparison. -/
structure Comparing (c : Context) (st : State) (type : ValueType) (target : String) : Prop where
  settled : Settled c st.draft
  scalar : type.isScalar = true
  apart : ∀ n, target ≠ Naming.innerLabel c.function.name n

theorem Comparing.step {type : ValueType} (h : Comparing c st type target) (hst : Advances st st') :
    Comparing c st' type target := ⟨hst.draft ▸ h.settled, h.scalar, h.apart⟩

theorem size_le_two {type : ValueType} (h : type.isScalar = true) : type.size.toNat ≤ 2 := by
  obtain hs | hs := Constants.size_cases h <;> omega

section Comparisons

variable {lhs rhs value : Value} {type : ValueType}

/-- Both operands of a comparison can be read. -/
def Legible (c : Context) (k : Linkage) (d : Draft) (type : ValueType) (lhs rhs : Value) (s : Store) :
    Prop :=
  Readable c k d.pointerCell s type.size.toNat lhs ∧ Readable c k d.pointerCell s type.size.toNat rhs

/-- **Equality.** -/
theorem decides_equality {equal : Bool} (hc : Comparing c st type target)
    (h : equality equal lhs rhs type target c st = .ok (d, st')) :
    Advances st st' ∧ Decides c k target st.nextLabel st'.nextLabel st.draft
      (Legible c k st.draft type lhs rhs) (fun s => decide (readOf c k s type.size.toNat lhs =
        readOf c k s type.size.toNat rhs) == equal) d := by
  obtain ⟨st₁, hbuild, rfl, rfl⟩ := candidate_ok h
  obtain ⟨lb, st₂, hl, hbuild⟩ := bind_ok.mp hbuild
  obtain ⟨rb, st₃, hr, hbuild⟩ := bind_ok.mp hbuild
  have hp := paired_bytes (k := k) hc.settled.fork hl hr (size_le_two hc.scalar)
  have hlabel : st₃.nextLabel = st.nextLabel := hp.label
  have hbyte : ∀ loc ∈ lb ++ rb, IsByte loc := fun loc hloc => (hp.moved loc hloc).1
  suffices hchoose : st₃.nextLabel ≤ st₁.nextLabel ∧
      Chooses c k target st₃.nextLabel st₁.nextLabel st₃.draft st₁.draft (lb ++ rb) fun t =>
        decide (heldAll k t lb = heldAll k t rb) == equal by
    rw [hlabel] at hchoose
    exact ⟨⟨rfl, hchoose.1⟩, decides_of_paired (f := fun l r => decide (l = r) == equal) hp hchoose.2⟩
  split at hbuild
  · obtain ⟨d₁, hcmp, hrest⟩ := combine_ok hbuild
    cases hrest
    refine ⟨le_rfl, [], fresh_nil _ _, (turns_compare (hbyte _ (by simp)) (hbyte _ (by simp)) hcmp equal
      target).congr fun s => ?_⟩
    simp
  · cases equal with
    | true =>
      obtain ⟨skip, st₄, hskip, hrest⟩ := bind_ok.mp hbuild
      obtain ⟨rfl, rfl⟩ := newLabel_ok hskip
      obtain ⟨d₁, hcmp, hrest⟩ := combine_ok hrest
      obtain ⟨_, st₅, hbne, hrest⟩ := bind_ok.mp hrest
      cases hbne
      obtain ⟨d₂, hcmp', hrest⟩ := combine_ok hrest
      cases hrest
      exact ⟨Nat.le_succ _, _, fresh_next st₃.nextLabel, turns_equal hbyte (hc.apart _) hcmp hcmp'⟩
    | false =>
      rw [if_neg Bool.false_ne_true] at hbuild
      obtain ⟨d₁, hcmp, hrest⟩ := combine_ok hbuild
      obtain ⟨_, st₄, hbne, hrest⟩ := bind_ok.mp hrest
      cases hbne
      obtain ⟨d₂, hcmp', hrest⟩ := combine_ok hrest
      cases hrest
      exact ⟨le_rfl, [], fresh_nil _ _, turns_unequal hbyte hcmp hcmp'⟩
  · cases hbuild

/-- **Order.** -/
theorem decides_ordering {less : Bool} (hc : Comparing c st type target)
    (h : ordering less lhs rhs type target c st = .ok (d, st')) :
    Advances st st' ∧ Decides c k target st.nextLabel st'.nextLabel st.draft
      (Legible c k st.draft type lhs rhs) (fun s => isLess type.isSigned
        (readOf c k s type.size.toNat lhs) (readOf c k s type.size.toNat rhs) == less) d := by
  rw [Nodes.ordering_eq] at h
  obtain ⟨st₁, hbuild, rfl, rfl⟩ := candidate_ok h
  obtain ⟨lb, st₂, hl, hbuild⟩ := bind_ok.mp hbuild
  obtain ⟨rb, st₃, hr, hbuild⟩ := bind_ok.mp hbuild
  obtain ⟨_, st₄, hsubtract, hdecide⟩ := bind_ok.mp hbuild
  have hp := paired_bytes (k := k) hc.settled.fork hl hr (size_le_two hc.scalar)
  have hlabel : st₃.nextLabel = st.nextLabel := hp.label
  obtain ⟨hlabel', hpasses⟩ := passes_subtract (k := k) hsubtract fun loc hloc => (hp.moved loc hloc).1
  obtain ⟨hle, hchoose⟩ := chooses_order hpasses hdecide
  rw [hlabel', hlabel] at hle hchoose
  exact ⟨⟨rfl, hle⟩, decides_of_paired (f := fun l r => isLess type.isSigned l r == less) hp hchoose⟩

/-- The bytes of a value that is tested alone. -/
theorem supplied_alone {locs : List ByteLoc} {st₁ : State} (hc : Comparing c st type target)
    (h : valueBytes value type c { st with draft := st.draft.fork } = .ok (locs, st₁)) :
    Supplied c k value type.size.toNat 2 { st with draft := st.draft.fork } st₁ locs := by
  have hsettled := hc.settled.fork
  have hroom := hsettled.room
  exact supplied_valueBytes h hsettled.pointed hsettled.tracks (by simp only; omega)

theorem combine_eq {base d : Draft} {op : Opcode} {first second : ByteLoc} {st st' : State}
    (h : zeroTest.combine target base op first second c st = .ok (d, st')) :
    st' = st ∧ ∃ d₁, (base.fork.loadA first).compute .ora second = .ok d₁ ∧
      d = base.commit (d₁.branch op target) := by
  obtain ⟨d₁, st₁, hlift, hpure⟩ := bind_ok.mp h
  obtain ⟨hd₁, rfl⟩ := Shapes.lift_ok hlift
  obtain ⟨rfl, rfl⟩ := pure_ok.mp hpure
  exact ⟨rfl, d₁, hd₁, rfl⟩

/-- **Whether a value is zero.** -/
theorem decides_zeroTest {zero : Bool} {ds : List Draft} (hc : Comparing c st type target)
    (h : zeroTest zero value type target c st = .ok (ds, st')) :
    Advances st st' ∧ ∀ d ∈ ds, Decides c k target st.nextLabel st'.nextLabel st.draft
      (fun s => Readable c k st.draft.pointerCell s type.size.toNat value)
      (fun s => decide (natural (readOf c k s type.size.toNat value) = 0) == zero) d := by
  obtain ⟨bytes, st₁, st₂, hbytes, hbuild, rfl⟩ := Nodes.fork_ok
    (f := fun bytes base => zeroTest.build target base (if zero then .beq else .bne) bytes) h
  have hs := supplied_alone (k := k) hc hbytes
  have hbyte : ∀ loc ∈ bytes, IsByte loc := fun loc hloc => (hs.moved loc hloc).1
  have hlabel : st₁.nextLabel = st.nextLabel := hs.label
  suffices hdone : st₂ = st₁ ∧ ∀ d ∈ ds, Turns k [] target st₁.draft d bytes fun t =>
      decide (natural (heldAll k t bytes) = 0) == zero by
    obtain ⟨rfl, hturns⟩ := hdone
    refine ⟨⟨rfl, hlabel.ge⟩, fun d hd => ?_⟩
    exact decides_of_supplied (f := fun bytes => decide (natural bytes = 0) == zero) hs
      ⟨[], fresh_nil _ _, hturns d hd⟩
  unfold zeroTest.build at hbuild
  split at hbuild
  · obtain ⟨rfl, rfl⟩ := pure_ok.mp hbuild
    refine ⟨rfl, fun d hd => ?_⟩
    obtain rfl := List.mem_singleton.mp hd
    exact turns_zeroByte (hbyte _ (by simp)) zero target
  · rename_i lo hi
    obtain ⟨first, st₃, hfirst, hrest⟩ := bind_ok.mp hbuild
    obtain ⟨second, st₄, hsecond, hpure⟩ := bind_ok.mp hrest
    obtain ⟨rfl, rfl⟩ := pure_ok.mp hpure
    obtain ⟨rfl, d₁, hd₁, rfl⟩ := combine_eq hfirst
    obtain ⟨rfl, d₂, hd₂, rfl⟩ := combine_eq hsecond
    have hlo : IsByte lo := hbyte lo (by simp)
    have hhi : IsByte hi := hbyte hi (by simp)
    refine ⟨rfl, fun d hd => ?_⟩
    rcases List.mem_pair.mp hd with rfl | rfl
    · exact Leads.commit (turns_zeroWord hlo hhi hd₁ zero target)
    · refine Leads.commit (((turns_zeroWord hhi hlo hd₂ zero target).mono (by simp)).congr fun s => ?_)
      have hiff : natural (heldAll k s [hi, lo]) = 0 ↔ natural (heldAll k s [lo, hi]) = 0 := by
        simp only [List.map_cons, List.map_nil, natural_two]
        omega
      rw [decide_eq_decide.mpr hiff]
  · cases hbuild

/-- **The sign of a value.** -/
theorem decides_signTest {negative : Bool} (hc : Comparing c st type target)
    (h : signTest negative value type target c st = .ok (d, st')) :
    Advances st st' ∧ Decides c k target st.nextLabel st'.nextLabel st.draft
      (fun s => Readable c k st.draft.pointerCell s type.size.toNat value)
      (fun s => decide (number true (readOf c k s type.size.toNat value) < 0) == negative) d := by
  obtain ⟨st₁, hbuild, rfl, rfl⟩ := candidate_ok h
  obtain ⟨bytes, st₂, hbytes, hbuild⟩ := bind_ok.mp hbuild
  have hs := supplied_alone (k := k) hc hbytes
  have hlabel : st₂.nextLabel = st.nextLabel := hs.label
  cases htop : bytes.getLast? with
  | none =>
    simp only [htop] at hbuild
    cases hbuild
  | some top =>
    simp only [htop] at hbuild
    cases hbuild
    have hmem : top ∈ bytes := List.mem_of_getLast? htop
    refine ⟨⟨rfl, hlabel.ge⟩, decides_of_supplied (f := fun bytes => decide (number true bytes < 0) ==
      negative) hs ⟨[], fresh_nil _ _, ((turns_sign (hs.moved top hmem).1 negative target).mono
        (by simp [hmem])).congr fun t => ?_⟩⟩
    have hsize : (heldAll k t bytes).length = 1 ∨ (heldAll k t bytes).length = 2 := by
      rw [List.length_map, hs.length]
      exact Constants.size_cases hc.scalar
    have hlast : (heldAll k t bytes).getLast? = some (held k t top) := by
      rw [List.getLast?_map, htop]
      rfl
    have hnegative : decide (number true (heldAll k t bytes) < 0) = isNegative (held k t top) := by
      rw [Bool.eq_iff_iff, decide_eq_true_eq, negative_iff hsize hlast]
    rw [hnegative]

/-- **Whether a value is positive.** -/
theorem decides_positiveTest {positive : Bool} (hc : Comparing c st type target)
    (h : positiveTest positive value type target c st = .ok (d, st')) :
    Advances st st' ∧ Decides c k target st.nextLabel st'.nextLabel st.draft
      (fun s => Readable c k st.draft.pointerCell s type.size.toNat value)
      (fun s => isPositive (readOf c k s type.size.toNat value) == positive) d := by
  rw [Nodes.positiveTest_eq] at h
  obtain ⟨st₁, hbuild, rfl, rfl⟩ := candidate_ok h
  obtain ⟨bytes, st₂, hbytes, hbuild⟩ := bind_ok.mp hbuild
  have hs := supplied_alone (k := k) hc hbytes
  have hlabel : st₂.nextLabel = st.nextLabel := hs.label
  have hbyte : ∀ loc ∈ bytes, IsByte loc := fun loc hloc => (hs.moved loc hloc).1
  have hsize := Constants.size_cases hc.scalar
  rw [← hs.length] at hsize
  suffices hchoose : st₂.nextLabel ≤ st₁.nextLabel ∧
      Chooses c k target st₂.nextLabel st₁.nextLabel st₂.draft st₁.draft bytes fun t =>
        isPositive (heldAll k t bytes) == positive by
    rw [hlabel] at hchoose
    exact ⟨⟨rfl, hchoose.1⟩, decides_of_supplied (f := fun bytes => isPositive bytes == positive) hs
      hchoose.2⟩
  obtain hone | htwo := hsize
  · obtain ⟨loc, rfl⟩ := List.length_eq_one_iff.mp hone
    obtain ⟨_, st₃, htest, hbuild⟩ := bind_ok.mp hbuild
    cases htest
    obtain ⟨skip, st₄, hskip, hbuild⟩ := bind_ok.mp hbuild
    obtain ⟨rfl, rfl⟩ := newLabel_ok hskip
    cases positive with
    | true =>
      cases hbuild
      exact ⟨Nat.le_succ _, _, fresh_next _, turns_positiveByte (hbyte loc (by simp)) (hc.apart _)⟩
    | false =>
      cases hbuild
      exact ⟨Nat.le_succ _, [], fresh_nil _ _, turns_nonpositiveByte (hbyte loc (by simp))⟩
  · obtain ⟨lo, hi, rfl⟩ := List.length_eq_two.mp htwo
    obtain ⟨_, st₃, htest, hbuild⟩ := bind_ok.mp hbuild
    cases htest
    obtain ⟨skip, st₄, hskip, hbuild⟩ := bind_ok.mp hbuild
    obtain ⟨rfl, rfl⟩ := newLabel_ok hskip
    obtain ⟨_, st₅, hbmi, hbuild⟩ := bind_ok.mp hbuild
    cases hbmi
    obtain ⟨_, st₆, hor, hbuild⟩ := bind_ok.mp hbuild
    obtain ⟨_, st₇, hload, hor⟩ := bind_ok.mp hor
    cases hload
    obtain ⟨hor, hnext⟩ := tryDraft_ok hor
    have hlo : IsByte lo := hbyte lo (by simp)
    have hhi : IsByte hi := hbyte hi (by simp)
    have hnext : st₆.nextLabel = st₂.nextLabel + 1 := hnext
    cases positive with
    | true =>
      cases hbuild
      exact ⟨by simp only [hnext]; omega, _, (fresh_next _).mono le_rfl hnext.ge,
        turns_positiveWord hlo hhi (hc.apart _) hor⟩
    | false =>
      cases hbuild
      exact ⟨by simp only [hnext]; omega, [], fresh_nil _ _, turns_nonpositiveWord hlo hhi hor⟩

/-- What a comparison comes to on what is read for its operands. -/
def outcome (c : Context) (k : Linkage) (op : CompareOp) (lhs rhs : Value) (type : ValueType)
    (s : Store) : Bool :=
  compares op (number type.isSigned (readOf c k s type.size.toNat lhs))
    (number type.isSigned (readOf c k s type.size.toNat rhs))

/-- Candidates all of which decide the same. -/
structure Offers (c : Context) (k : Linkage) (target : String) (pre : Store → Prop)
    (cond : Store → Bool) (st st' : State) (ds : List Draft) : Prop where
  advances : Advances st st'
  decides : ∀ d ∈ ds, Decides c k target st.nextLabel st'.nextLabel st.draft pre cond d

namespace Offers

variable {pre pre' : Store → Prop} {f g : Store → Bool} {st'' : State} {ds ds' : List Draft}

theorem none (st : State) : Offers c k target pre f st st [] := ⟨.refl st, by simp⟩

theorem one (h : Advances st st' ∧ Decides c k target st.nextLabel st'.nextLabel st.draft pre f d) :
    Offers c k target pre f st st' [d] :=
  ⟨h.1, fun d' hd' => by rw [List.mem_singleton.mp hd']; exact h.2⟩

theorem append (h : Offers c k target pre f st st' ds) (h' : Offers c k target pre f st' st'' ds') :
    Offers c k target pre f st st'' (ds ++ ds') := by
  refine ⟨h.advances.trans h'.advances, fun d hd => ?_⟩
  rcases List.mem_append.mp hd with hd | hd
  · exact (h.decides d hd).imp le_rfl h'.advances.label (fun _ hs => hs) fun _ _ => rfl
  · have hdecides := h'.decides d hd
    rw [h.advances.draft] at hdecides
    exact hdecides.imp h.advances.label le_rfl (fun _ hs => hs) fun _ _ => rfl

theorem imp (h : Offers c k target pre f st st' ds) (hpre : ∀ s, pre' s → pre s)
    (heq : ∀ s, pre' s → f s = g s) : Offers c k target pre' g st st' ds :=
  ⟨h.advances, fun d hd => (h.decides d hd).imp le_rfl le_rfl hpre heq⟩

end Offers

variable {op : CompareOp} {ds : List Draft}

theorem outcome_eq (s : Store) : outcome c k .eq lhs rhs type s =
    decide (readOf c k s type.size.toNat lhs = readOf c k s type.size.toNat rhs) := by
  have hlength :
      (readOf c k s type.size.toNat lhs).length = (readOf c k s type.size.toNat rhs).length := by
    rw [length_readOf, length_readOf]
  exact decide_eq_decide.mpr (number_inj hlength)

theorem outcome_negated (op : CompareOp) (s : Store) :
    outcome c k op.negated lhs rhs type s = !outcome c k op lhs rhs type s := compares_negated ..

theorem outcome_swapped (s : Store) :
    outcome c k op.swapped rhs lhs type s = outcome c k op lhs rhs type s := compares_swapped ..

theorem offers_equality (hc : Comparing c st type target)
    (h : equality (op = .eq) lhs rhs type target c st = .ok (d, st')) (hop : op = .eq ∨ op = .ne) :
    Offers c k target (Legible c k st.draft type lhs rhs) (outcome c k op lhs rhs type) st st' [d] := by
  refine (Offers.one (decides_equality hc h)).imp (fun _ hs => hs) fun s _ => ?_
  obtain rfl | rfl := hop
  · rw [outcome_eq]
    simp
  · have hne : outcome c k .ne lhs rhs type s = !outcome c k .eq lhs rhs type s :=
      outcome_negated .eq s
    rw [hne, outcome_eq]
    simp

theorem offers_ordering {less : Bool} (hc : Comparing c st type target)
    (h : ordering less lhs rhs type target c st = .ok (d, st')) :
    Offers c k target (Legible c k st.draft type lhs rhs)
      (outcome c k (if less then .lt else .ge) lhs rhs type) st st' [d] := by
  refine (Offers.one (decides_ordering hc h)).imp (fun _ hs => hs) fun s _ => ?_
  have hlt : isLess type.isSigned (readOf c k s type.size.toNat lhs)
      (readOf c k s type.size.toNat rhs) = outcome c k .lt lhs rhs type s := rfl
  have hge : outcome c k .ge lhs rhs type s = !outcome c k .lt lhs rhs type s := outcome_negated .lt s
  cases less <;> simp [hlt, hge]

theorem Legible.swap (h : Legible c k d type lhs rhs s) : Legible c k d type rhs lhs s := ⟨h.2, h.1⟩

/-- **Two values as they are.** -/
theorem offers_plain (hc : Comparing c st type target)
    (h : plainCandidates op lhs rhs type target c st = .ok (ds, st')) :
    Offers c k target (Legible c k st.draft type lhs rhs) (outcome c k op lhs rhs type) st st' ds := by
  have hequal : (op = .eq ∨ op = .ne) → (do
      let straight ← equality (op = .eq) lhs rhs type target
      if rhs.constant?.isNone then
        return [straight, ← equality (op = .eq) rhs lhs type target]
      else return [straight] : Lower (List Draft)) c st = .ok (ds, st') →
      Offers c k target (Legible c k st.draft type lhs rhs) (outcome c k op lhs rhs type) st st' ds := by
    intro hop h
    obtain ⟨straight, st₁, hstraight, hrest⟩ := bind_ok.mp h
    have hfirst := offers_equality (k := k) hc hstraight hop
    split at hrest
    · obtain ⟨crossed, st₂, hcrossed, hpure⟩ := bind_ok.mp hrest
      obtain ⟨rfl, rfl⟩ := pure_ok.mp hpure
      have hsecond := offers_equality (k := k) (hc.step hfirst.advances) hcrossed hop
      rw [hfirst.advances.draft] at hsecond
      refine hfirst.append (hsecond.imp (fun _ => Legible.swap) fun s _ => ?_)
      rw [← outcome_swapped]
      obtain rfl | rfl := hop <;> rfl
    · obtain ⟨rfl, rfl⟩ := pure_ok.mp hrest
      exact hfirst
  have horder : ∀ {less : Bool} {l r : Value}, (do
      return [← ordering less l r type target] : Lower (List Draft)) c st = .ok (ds, st') →
      Offers c k target (Legible c k st.draft type l r)
        (outcome c k (if less then .lt else .ge) l r type) st st' ds := by
    intro less l r h
    obtain ⟨d, st₁, hd, hpure⟩ := bind_ok.mp h
    obtain ⟨rfl, rfl⟩ := pure_ok.mp hpure
    exact offers_ordering hc hd
  cases op with
  | eq => exact hequal (Or.inl rfl) h
  | ne => exact hequal (Or.inr rfl) h
  | lt | ge => exact horder h
  | gt | le => exact (horder h).imp (fun _ => Legible.swap) fun s _ => (outcome_swapped s).symm

/-- The candidates for a comparison with zero. -/
theorem offers_zero (hc : Comparing c st type target)
    (h : zeroCandidates op value type target c st = .ok (ds, st'))
    (hsettled : type.isSigned = false → op ≠ .lt ∧ op ≠ .ge) :
    Offers c k target (fun s => Readable c k st.draft.pointerCell s type.size.toNat value)
      (fun s => compares op (number type.isSigned (readOf c k s type.size.toNat value)) 0) st st' ds := by
  have hzero : ∀ {zero : Bool}, zeroTest zero value type target c st = .ok (ds, st') →
      Offers c k target (fun s => Readable c k st.draft.pointerCell s type.size.toNat value)
        (fun s => decide (number type.isSigned (readOf c k s type.size.toNat value) = 0) == zero)
        st st' ds := by
    intro zero h
    obtain ⟨hadvances, hdecides⟩ := decides_zeroTest (k := k) hc h
    refine Offers.imp ⟨hadvances, hdecides⟩ (fun _ hs => hs) fun s _ => ?_
    rw [decide_eq_decide.mpr number_eq_zero_iff]
  unfold zeroCandidates at h
  cases hsigned : type.isSigned with
  | false =>
    rw [hsigned, if_pos (by rfl)] at h
    obtain ⟨hlt, hge⟩ := hsettled hsigned
    refine (hzero h).imp (fun _ hs => hs) fun s _ => ?_
    have hnonneg : 0 ≤ number false (readOf c k s type.size.toNat value) := by
      rw [number_unsigned]
      omega
    rw [hsigned, Bool.eq_iff_iff]
    cases op with
    | lt => exact absurd rfl hlt
    | ge => exact absurd rfl hge
    | eq | ne => simp [compares]
    | gt | le => simp [compares]; omega
  | true =>
    rw [hsigned, if_neg (by decide)] at h
    have hsign : ∀ {negative : Bool}, (do
        return [← signTest negative value type target] : Lower (List Draft)) c st = .ok (ds, st') →
        Offers c k target (fun s => Readable c k st.draft.pointerCell s type.size.toNat value)
          (fun s => decide (number true (readOf c k s type.size.toNat value) < 0) == negative)
          st st' ds := by
      intro negative h
      obtain ⟨d, st₁, hd, hpure⟩ := bind_ok.mp h
      obtain ⟨rfl, rfl⟩ := pure_ok.mp hpure
      exact .one (decides_signTest hc hd)
    have hpositive : ∀ {positive : Bool}, (do
        return [← positiveTest positive value type target] : Lower (List Draft)) c st = .ok (ds, st') →
        Offers c k target (fun s => Readable c k st.draft.pointerCell s type.size.toNat value)
          (fun s => isPositive (readOf c k s type.size.toNat value) == positive) st st' ds := by
      intro positive h
      obtain ⟨d, st₁, hd, hpure⟩ := bind_ok.mp h
      obtain ⟨rfl, rfl⟩ := pure_ok.mp hpure
      exact .one (decides_positiveTest hc hd)
    cases op with
    | eq | ne =>
      refine (hzero h).imp (fun _ hs => hs) fun s _ => ?_
      simp [compares, hsigned]
    | lt | ge =>
      refine (hsign h).imp (fun _ hs => hs) fun s _ => ?_
      rw [Bool.eq_iff_iff]
      simp [compares]
    | gt | le =>
      refine (hpositive h).imp (fun _ hs => hs) fun s _ => ?_
      rw [Bool.eq_iff_iff]
      simp [compares, isPositive]

/-- Nothing at all: the label is never gone to. -/
theorem decides_never (d : Draft) (lo hi : ℕ) (pre : Store → Prop) :
    Decides c k target lo hi d pre (fun _ => false) d.fork := by
  refine ⟨[], fresh_nil lo hi, rfl, [], rfl, by simp, rfl, by simp, fun s hs _ => ?_⟩
  exact ⟨hs.1.2, fun _ => hs, Same.refl s, rfl⟩

theorem decides_always (d : Draft) (lo hi : ℕ) (pre : Store → Prop) :
    Decides c k target lo hi d pre (fun _ => true) (d.fork.jmp target) := by
  refine ⟨[], fresh_nil lo hi, (leads_jmp (k := k) d.fork target).imp (fun _ _ => trivial) ?_⟩
  rintro s p - - rfl
  exact ⟨Same.refl s, rfl⟩

theorem number_readOf_constant (hscalar : type.isScalar = true) (v : Int64) (s : Store) :
    number type.isSigned (readOf c k s type.size.toNat (.constant v)) = (wrap v type).toInt :=
  number_constant hscalar v

theorem number_readOf_bounds (hscalar : type.isScalar = true) (value : Value) (s : Store) :
    (typeBounds type).1.toInt ≤ number type.isSigned (readOf c k s type.size.toNat value) ∧
      number type.isSigned (readOf c k s type.size.toNat value) ≤ (typeBounds type).2.toInt :=
  number_bounds hscalar (length_readOf value)

theorem readable_constant (d : Draft) (v : Int64) (s : Store) :
    Readable c k d.pointerCell s type.size.toNat (.constant v) := fun _ h => by cases h

/-- A comparison with the next constant instead. -/
theorem offers_successor {less : Bool} {constant : Int64} (hc : Comparing c st type target)
    (hne : wrap constant type ≠ (typeBounds type).2)
    (h : ordering less lhs (.constant (wrap constant type + 1)) type target c st = .ok (d, st')) :
    Offers c k target (Legible c k st.draft type lhs (.constant constant))
      (outcome c k (if less then .le else .gt) lhs (.constant constant) type) st st' [d] := by
  refine (offers_ordering hc h).imp (fun s hs => ⟨hs.1, readable_constant _ _ s⟩) fun s _ => ?_
  have hnext : number type.isSigned (readOf c k s type.size.toNat
      (.constant (wrap constant type + 1))) = (wrap constant type).toInt + 1 :=
    number_successor hc.scalar hne
  rw [outcome, outcome, hnext, number_readOf_constant hc.scalar, Bool.eq_iff_iff]
  cases less with
  | false | true =>
    simp only [compares, decide_eq_true_eq, if_true, if_false, Bool.false_eq_true]
    omega

/-- A candidate that does nothing or always jumps, where the comparison does not depend on the
value. -/
theorem offers_settled (answer : Bool) {build : Lower Unit} {pre : Store → Prop} {f : Store → Bool}
    (h : (do return [← candidate build] : Lower (List Draft)) c st = .ok (ds, st'))
    (hbuild : build = if answer then jmp target else pure ()) (hf : ∀ s, f s = answer) :
    Offers c k target pre f st st' ds := by
  obtain ⟨d, st₁, hd, hpure⟩ := bind_ok.mp h
  obtain ⟨rfl, rfl⟩ := pure_ok.mp hpure
  obtain ⟨st₂, hok, rfl, rfl⟩ := candidate_ok hd
  rw [hbuild] at hok
  obtain rfl : f = fun _ => answer := funext hf
  cases answer with
  | true =>
    cases hok
    exact .one ⟨.refl st, decides_always _ _ _ _⟩
  | false =>
    cases hok
    exact .one ⟨.refl st, decides_never _ _ _ _⟩

/-- **A value and a constant.** -/
theorem offers_constant {constant : Int64} (hc : Comparing c st type target)
    (h : constantCandidates op lhs constant type target c st = .ok (ds, st')) :
    Offers c k target (Legible c k st.draft type lhs (.constant constant))
      (outcome c k op lhs (.constant constant) type) st st' ds := by
  obtain ⟨_, st₁, hcheck, hrest⟩ := bind_ok.mp h
  obtain ⟨rfl, -⟩ := checkConstant_ok hcheck
  have houtcome : ∀ s, outcome c k op lhs (.constant constant) type s =
      compares op (number type.isSigned (readOf c k s type.size.toNat lhs))
        (wrap constant type).toInt := fun s => by
    rw [outcome, number_readOf_constant hc.scalar]
  have hleast := fun s => (number_readOf_bounds (c := c) (k := k) hc.scalar lhs s).1
  have hgreatest := fun s => (number_readOf_bounds (c := c) (k := k) hc.scalar lhs s).2
  simp only at hrest
  split at hrest
  · rename_i hnever
    simp only [Bool.or_eq_true, Bool.and_eq_true, decide_eq_true_eq] at hnever
    refine offers_settled false hrest rfl fun s => ?_
    rw [houtcome]
    obtain ⟨rfl, heq⟩ | ⟨rfl, heq⟩ := hnever
    · simpa [compares, heq] using hgreatest s
    · simpa [compares, heq] using hleast s
  · rename_i hnever
    simp only [Bool.or_eq_true, Bool.and_eq_true, decide_eq_true_eq, not_or, not_and] at hnever
    split at hrest
    · rename_i halways
      simp only [Bool.or_eq_true, Bool.and_eq_true, decide_eq_true_eq] at halways
      refine offers_settled true hrest rfl fun s => ?_
      rw [houtcome]
      obtain ⟨rfl, heq⟩ | ⟨rfl, heq⟩ := halways
      · simpa [compares, heq] using hgreatest s
      · simpa [compares, heq] using hleast s
    · rename_i halways
      simp only [Bool.or_eq_true, Bool.and_eq_true, decide_eq_true_eq, not_or, not_and] at halways
      split at hrest
      · rename_i hzero
        refine (offers_zero hc hrest fun hsigned => ?_).imp (fun s hs => hs.1) fun s _ => ?_
        · -- The least value of an unsigned type is zero.
          have hbound : (typeBounds type).1 = 0 := by simp [typeBounds, hsigned]
          rw [hbound, hzero] at hnever halways
          exact ⟨fun hop => hnever.2 hop rfl, fun hop => halways.2 hop rfl⟩
        · rw [houtcome, hzero]
          rfl
      · have hplain : ∀ {shifted : List Draft} {st₂ : State},
            Offers c k target (Legible c k st₁.draft type lhs (.constant constant))
              (outcome c k op lhs (.constant constant) type) st₁ st₂ shifted →
            (do return shifted ++ (← plainCandidates op lhs (.constant constant) type target) :
              Lower (List Draft)) c st₂ = .ok (ds, st') →
            Offers c k target (Legible c k st₁.draft type lhs (.constant constant))
              (outcome c k op lhs (.constant constant) type) st₁ st' ds := by
          intro shifted st₂ hshifted hrest
          obtain ⟨plain, st₃, hplain, hpure⟩ := bind_ok.mp hrest
          obtain ⟨rfl, rfl⟩ := pure_ok.mp hpure
          have hsecond := offers_plain (k := k) (hc.step hshifted.advances) hplain
          rw [hshifted.advances.draft] at hsecond
          exact hshifted.append hsecond
        cases op with
        | gt =>
          obtain ⟨d, st₂, hd, hrest⟩ := bind_ok.mp hrest
          exact hplain (offers_successor hc (hnever.1 rfl) hd) hrest
        | le =>
          obtain ⟨d, st₂, hd, hrest⟩ := bind_ok.mp hrest
          exact hplain (offers_successor hc (halways.1 rfl) hd) hrest
        | _ => exact hplain (.none st₁) hrest

theorem offers_side {l r : Value} (hc : Comparing c st type target)
    (h : (match r.constant? with
      | some v => constantCandidates op l v type target
      | none => plainCandidates op l r type target) c st = .ok (ds, st')) :
    Offers c k target (Legible c k st.draft type l r) (outcome c k op l r type) st st' ds := by
  cases r with
  | constant v => exact offers_constant hc h
  | temp x => exact offers_plain hc h
  | memory place => exact offers_plain hc h

/-- **All candidates for a comparison.** -/
theorem offers_branch (hc : Comparing c st type target)
    (h : branchCandidates op lhs rhs type target c st = .ok (ds, st')) :
    Offers c k target (Legible c k st.draft type lhs rhs) (outcome c k op lhs rhs type) st st' ds := by
  unfold branchCandidates at h
  by_cases hconstant : lhs.constant?.isSome = true
  · simp only [if_pos hconstant] at h
    exact (offers_side hc h).imp (fun _ => Legible.swap) fun s _ => outcome_swapped s
  · simp only [if_neg hconstant] at h
    exact offers_side hc h

end Comparisons

end Codegen6502.Proofs.Selecting.Deciding
