import Mathlib.Data.Int.Notation
import Mathlib.Data.Set.Basic
import Codegen6502.Proofs.Calls.Emitted
import Codegen6502.Proofs.Emitting.Placing

/-!
# The least set of long branches

The passes that make branches long end, and the branches they make long are the fewest: every layout
of the emission whose short branches reach their symbols has them long too.

* `Passes`: the passes, repeated until one marks no branch, without a bound on their number;
* `Stands`, `Reaches`: where a symbol stands, and whether a short branch reaches it there.  Offsets
  count without a bound here, and 16 bits hold them in segments that are small enough
  (`isOutOfReach_iff`);
* `Reaches.of_longer`: with more branches long, a symbol is at least as far away;
* `passes_least`: the passes end, and with the least set of long branches.
-/

namespace Codegen6502.Proofs.Emitting.Relaxing

open Computations Placing Calls.Emitted

variable {e : Emission} {l l' : Layout}

/-! ### Passes -/

/-- **The passes**: a layout with the marked branches long marks those out of reach, until no mark
is new.  The number counts the layouts. -/
inductive Passes (e : Emission) : List Bool → ℕ → Layout → Prop where
  | last {long : List Bool} {l : Layout} : Layout.make Layout.banked e long = .ok l →
    Relaxation.extend l = long → Passes e long 1 l
  | again {long : List Bool} {n : ℕ} {l final : Layout} :
    Layout.make Layout.banked e long = .ok l → Relaxation.extend l ≠ long →
    Passes e (Relaxation.extend l) n final → Passes e long (n + 1) final

/-- Marks by which no branch is long. -/
def unmarked (e : Emission) : List Bool := e.lines.map fun _ => false

/-- The number of conditional branches. -/
def branchCount (e : Emission) : ℕ := e.lines.countP fun l => Relaxation.isBranch l.2

/-- The long branches of a layout, each as the index of its line. -/
def longLines (l : Layout) : Set ℕ := {i | ∃ p, l.lines[i]? = some p ∧ p.isLong = true}

/-! ### What a branch reaches -/

/-- A label or an object of this name stands at an offset of a segment. -/
def Stands (l : Layout) (name : String) (s : Segment) (offset : ℕ) : Prop :=
  (∃ p ∈ l.lines, p.line = .label name ∧ p.segment = s ∧ p.offset = offset) ∨
    ∃ p ∈ l.data, p.object.name = name ∧ p.segment = s ∧ p.offset = offset

/-- How far an offset is from the end of a short branch. -/
def displacement (p : PlacedLine) (offset : ℕ) : ℤ := offset - (p.offset + 2)

/-- A short branch reaches a symbol in its own segment. -/
def Reaches (l : Layout) (p : PlacedLine) (name : String) : Prop :=
  ∃ offset, Stands l name p.segment offset ∧
    -128 ≤ displacement p offset ∧ displacement p offset ≤ 127

/-- Every short branch to a symbol that the emission defines reaches it. -/
def Sound (e : Emission) (l : Layout) : Prop :=
  ∀ p ∈ l.lines, ∀ opcode name, p.line = .op opcode (.relative name) → opcode.isBranch = true →
    p.isLong = false → name ∈ symbols e → Reaches l p name

/-! ### Offsets -/

/-- The room in a segment before the line of this index. -/
def start (l : Layout) (s : Segment) (i : ℕ) : ℕ := lineRoom s (l.lines.take i)

theorem lineRoom_append (s : Segment) (front back : List PlacedLine) :
    lineRoom s (front ++ back) = lineRoom s front + lineRoom s back := totalOf_append _ _ _

theorem start_succ (l : Layout) (s : Segment) (i : ℕ) :
    start l s (i + 1) = start l s i + lineRoom s l.lines[i]?.toList := by
  unfold start
  rw [List.take_add_one, lineRoom_append]

theorem start_length (l : Layout) (s : Segment) : start l s l.lines.length = lineRoom s l.lines := by
  rw [start, List.take_length]

theorem start_mono (l : Layout) (s : Segment) : Monotone (start l s) := by
  refine monotone_nat_of_le_succ fun i => ?_
  rw [start_succ]
  exact Nat.le_add_right _ _

theorem split_of_get {α : Type} {as : List α} {i : ℕ} {a : α} (h : as[i]? = some a) :
    as = as.take i ++ a :: as.drop (i + 1) := by
  obtain ⟨hi, rfl⟩ := List.getElem?_eq_some_iff.mp h
  rw [← List.drop_eq_getElem_cons hi, List.take_append_drop]

section Offsets

variable {areas : Layout.Areas} (hl : Placed areas e l)
include hl

theorem offset_of_get {i : ℕ} {p : PlacedLine} (hp : l.lines[i]? = some p) :
    p.segment = areas.code p.owner.placement ∧ p.offset = start l p.segment i :=
  hl.line _ p _ (split_of_get hp)

theorem data_offset_of_get {k : ℕ} {p : PlacedData} (hp : l.data[k]? = some p) :
    p.segment = areas.data p.object.bank ∧
      p.offset = start l p.segment l.lines.length + dataRoom p.segment (l.data.take k) := by
  rw [start_length]
  exact hl.object _ p _ (split_of_get hp)

/-- A line stands within its segment. -/
theorem offset_le_ends {p : PlacedLine} (hp : p ∈ l.lines) : p.offset ≤ l.ends.offset p.segment := by
  obtain ⟨front, back, hsplit⟩ := List.append_of_mem hp
  rw [(hl.line front p back hsplit).2, hl.ends, hsplit, lineRoom_append]
  omega

/-- An object stands within its segment. -/
theorem data_offset_le_ends {p : PlacedData} (hp : p ∈ l.data) :
    p.offset ≤ l.ends.offset p.segment := by
  obtain ⟨front, back, hsplit⟩ := List.append_of_mem hp
  rw [(hl.object front p back hsplit).2, hl.ends, hsplit, dataRoom, dataRoom, totalOf_append]
  omega

end Offsets

/-! ### Reach by the symbol table -/

theorem map_fst_entries {areas : Layout.Areas} (hl : Placed areas e l) :
    (entries e l).map (·.1) = symbols e := by
  have hline : ∀ p, (lineEntryOf p).map (·.1) = label? p.line := by
    intro p
    unfold lineEntryOf label?
    cases p.line <;> rfl
  have hlabels : l.lines.filterMap (fun p => label? p.line) = labels e := by
    unfold labels
    rw [← hl.owners, List.filterMap_map]
    rfl
  have hdata : l.data.map (fun p => (dataEntry p).1) = e.data.map (·.name) := by
    rw [← hl.objects, List.map_map]
    rfl
  unfold entries symbols
  rw [List.map_append, List.map_append, List.map_filterMap, List.map_map, List.map_map,
    ← Std.TreeMap.map_fst_toList_eq_keys, ← hlabels, ← hdata]
  simp only [hline]
  rfl

/-- The table has the symbols of the emission. -/
theorem mem_symbols_iff {areas : Layout.Areas} (hl : Placed areas e l) (name : String) :
    name ∈ symbols e ↔ ∃ d, l.table.get? name = some d := by
  rw [← map_fst_entries hl, List.mem_map]
  simp only [hl.table]
  constructor
  · rintro ⟨⟨_, d⟩, hmem, rfl⟩
    exact ⟨d, hmem⟩
  · rintro ⟨d, hmem⟩
    exact ⟨_, hmem, rfl⟩

theorem code_ne_absolute (b : Bank) : Layout.banked.code b ≠ .absolute := by
  cases b <;> exact Segment.noConfusion

theorem branch_of_isOutOfReach {t : SymbolTable} {p : PlacedLine}
    (h : Relaxation.isOutOfReach t p = true) :
    ∃ opcode name, p.line = .op opcode (.relative name) ∧ opcode.isBranch = true := by
  unfold Relaxation.isOutOfReach at h
  split at h
  · rename_i opcode name hline
    exact ⟨opcode, name, hline, (Bool.and_eq_true_iff.mp h).1⟩
  · cases h

section Small

variable (hl : Placed Layout.banked e l) (hsmall : ∀ s, l.ends.offset s ≤ 0xFFFF)
include hl

theorem segment_ne_absolute {p : PlacedLine} (hp : p ∈ l.lines) : p.segment ≠ .absolute := by
  obtain ⟨front, back, hsplit⟩ := List.append_of_mem hp
  rw [(hl.line front p back hsplit).1]
  exact code_ne_absolute _

include hsmall

/-- The table says where a symbol stands. -/
theorem stands_iff {name : String} {s : Segment} (hs : s ≠ .absolute) {offset : ℕ} :
    Stands l name s offset ↔
      ∃ d, l.table.get? name = some d ∧ d.segment = s ∧ d.offset.toNat = offset := by
  have hhold : ∀ n s, n ≤ l.ends.offset s → (UInt16.ofNat n).toNat = n := fun n s hn =>
    UInt16.toNat_ofNat_of_lt' (Nat.lt_succ_of_le (Nat.le_trans hn (hsmall s)))
  simp only [hl.table, entries, List.mem_append, List.mem_filterMap, List.mem_map]
  constructor
  · rintro (⟨p, hp, hline, rfl, rfl⟩ | ⟨p, hp, rfl, rfl, rfl⟩)
    · exact ⟨_, .inl (.inl ⟨p, hp, by simp only [lineEntryOf, hline]; rfl⟩), rfl,
        hhold _ _ (offset_le_ends hl hp)⟩
    · exact ⟨_, .inl (.inr ⟨p, hp, rfl⟩), rfl, hhold _ _ (data_offset_le_ends hl hp)⟩
  · rintro ⟨d, (⟨p, hp, hentry⟩ | ⟨p, hp, hentry⟩) | ⟨x, -, hentry⟩, rfl, rfl⟩
    · unfold lineEntryOf at hentry
      split at hentry
      · rename_i label hline
        cases hentry
        exact .inl ⟨p, hp, hline, rfl, (hhold _ _ (offset_le_ends hl hp)).symm⟩
      · cases hentry
    · cases hentry
      exact .inr ⟨p, hp, rfl, rfl, (hhold _ _ (data_offset_le_ends hl hp)).symm⟩
    · cases hentry
      exact absurd rfl hs

/-- **A pass marks the branches to symbols that they do not reach.** -/
theorem isOutOfReach_iff {p : PlacedLine} (hp : p ∈ l.lines) {opcode : Opcode} {name : String}
    (hline : p.line = .op opcode (.relative name)) (hbranch : opcode.isBranch = true) :
    Relaxation.isOutOfReach l.table p = true ↔ name ∈ symbols e ∧ ¬ Reaches l p name := by
  have hstands : ∀ offset, Stands l name p.segment offset ↔
      ∃ d, l.table.get? name = some d ∧ d.segment = p.segment ∧ d.offset.toNat = offset :=
    fun _ => stands_iff hl hsmall (segment_ne_absolute hl hp)
  rw [mem_symbols_iff hl]
  unfold Relaxation.isOutOfReach Reaches
  simp only [hline, hbranch, Bool.true_and, hstands]
  cases l.table.get? name with
  | none => simp
  | some d =>
    simp only [Option.some.injEq, exists_eq', true_and]
    constructor
    · rintro hout ⟨offset, ⟨d', rfl, hsegment, rfl⟩, hback, hon⟩
      simp only [hsegment, Relaxation.reaches] at hout
      unfold displacement at hback hon
      grind
    · intro hnone
      by_contra hin
      simp only [Relaxation.reaches] at hin
      exact hnone ⟨_, ⟨d, rfl, by grind, rfl⟩, by unfold displacement; grind,
        by unfold displacement; grind⟩

end Small

/-! ### More long branches -/

theorem size_le_longBranchSize (line : Line) : line.size.toNat ≤ longBranchSize := by
  cases line with
  | op opcode operand => cases h : operand.mode <;> simp [Line.size, h] <;> decide
  | label name => exact Nat.zero_le _
  | comment text => exact Nat.zero_le _

theorem size_short {p : PlacedLine} {opcode : Opcode} {name : String}
    (hline : p.line = .op opcode (.relative name)) (hshort : p.isLong = false) : p.size = 2 := by
  unfold UnplacedLine.size
  rw [hline, hshort]
  rfl

theorem dataRoom_eq (s : Segment) (data : List PlacedData) :
    dataRoom s data = totalOf (fun x : DataObject × Segment => if x.2 = s then x.1.size else 0)
      (data.map fun p => (p.object, p.segment)) := by
  induction data with
  | nil => rfl
  | cons p rest ih =>
    rw [List.map_cons, totalOf_cons, ← ih]
    rfl

theorem objects_placed {areas : Layout.Areas} (hl : Placed areas e l) :
    l.data.map (fun p => (p.object, p.segment)) = e.data.map fun o => (o, areas.data o.bank) := by
  rw [← hl.objects, List.map_map]
  refine List.map_congr_left fun p hp => ?_
  obtain ⟨k, hk⟩ := List.getElem?_of_mem hp
  rw [(data_offset_of_get hl hk).1]
  rfl

section Longer

variable (hl : Placed Layout.banked e l) (hl' : Placed Layout.banked e l')
include hl hl'

/-- The same line in another layout of the emission. -/
theorem get_of_get {i : ℕ} {p : PlacedLine} (hp : l.lines[i]? = some p) :
    ∃ p', l'.lines[i]? = some p' ∧ p'.segment = p.segment ∧ p'.line = p.line := by
  have heq := congrArg (·[i]?) (hl.owners.trans hl'.owners.symm)
  simp only [List.getElem?_map, hp, Option.map_some] at heq
  obtain ⟨p', hp', hsame⟩ := Option.map_eq_some_iff.mp heq.symm
  obtain ⟨howner, hline⟩ := Prod.mk.inj hsame
  refine ⟨p', hp', ?_, hline⟩
  rw [(offset_of_get hl hp).1, (offset_of_get hl' hp').1, howner]

/-- The same object in another layout of the emission. -/
theorem data_get_of_get {k : ℕ} {p : PlacedData} (hp : l.data[k]? = some p) :
    ∃ p', l'.data[k]? = some p' ∧ p'.object = p.object ∧ p'.segment = p.segment := by
  have heq := congrArg (·[k]?) ((objects_placed hl).trans (objects_placed hl').symm)
  simp only [List.getElem?_map, hp, Option.map_some] at heq
  obtain ⟨p', hp', hsame⟩ := Option.map_eq_some_iff.mp heq.symm
  exact ⟨p', hp', congrArg Prod.fst hsame, congrArg Prod.snd hsame⟩

/-- Long branches move objects, but not against each other. -/
theorem dataRoom_take_eq (s : Segment) (k : ℕ) :
    dataRoom s (l.data.take k) = dataRoom s (l'.data.take k) := by
  rw [dataRoom_eq, dataRoom_eq, List.map_take, List.map_take, objects_placed hl, objects_placed hl']

theorem length_lines : l.lines.length = l'.lines.length := by
  simpa using congrArg List.length (hl.owners.trans hl'.owners.symm)

/-- **A symbol moves with the lines before it.**  It stands where the line of some index starts, or
behind all lines, as far as the objects before it take. -/
theorem Stands.spot {name : String} {s : Segment} {offset : ℕ} (h : Stands l' name s offset) :
    ∃ j x, Stands l name s (start l s j + x) ∧ offset = start l' s j + x ∧
      (x = 0 ∨ j = l.lines.length) := by
  rcases h with ⟨p', hp', hline', rfl, rfl⟩ | ⟨p', hp', rfl, rfl, rfl⟩
  · obtain ⟨j, hj⟩ := List.getElem?_of_mem hp'
    obtain ⟨p, hp, hsegment, hline⟩ := get_of_get hl' hl hj
    have hoffset := (offset_of_get hl hp).2
    rw [hsegment] at hoffset
    exact ⟨j, 0, .inl ⟨p, List.mem_of_getElem? hp, hline.trans hline', hsegment, hoffset⟩,
      (offset_of_get hl' hj).2, .inl rfl⟩
  · obtain ⟨k, hk⟩ := List.getElem?_of_mem hp'
    obtain ⟨p, hp, hobject, hsegment⟩ := data_get_of_get hl' hl hk
    have hoffset := (data_offset_of_get hl hp).2
    rw [hsegment, dataRoom_take_eq hl hl'] at hoffset
    refine ⟨l.lines.length, _, .inr ⟨p, List.mem_of_getElem? hp, congrArg _ hobject, hsegment,
      hoffset⟩, ?_, .inr rfl⟩
    rw [length_lines hl hl', (data_offset_of_get hl' hk).2]

variable (hlonger : longLines l ⊆ longLines l')
include hlonger

/-- A line takes up no less room. -/
theorem lineRoom_get_le (s : Segment) (i : ℕ) :
    lineRoom s l.lines[i]?.toList ≤ lineRoom s l'.lines[i]?.toList := by
  cases hp : l.lines[i]? with
  | none => exact Nat.zero_le _
  | some p =>
    obtain ⟨p', hp', hsegment, hline⟩ := get_of_get hl hl' hp
    have hsize : p.size ≤ p'.size := by
      unfold UnplacedLine.size
      rw [hline]
      cases hlong : p.isLong with
      | true =>
        obtain ⟨q, hq, hlong'⟩ := hlonger ⟨p, hp, hlong⟩
        obtain rfl := Option.some.inj (hp'.symm.trans hq)
        rw [hlong']
      | false =>
        have := size_le_longBranchSize p.line
        cases p'.isLong <;> simp [this]
    simp only [hp', lineRoom, Option.toList_some, totalOf_cons, hsegment]
    split <;> omega

/-- **Distances grow.** -/
theorem start_gap {i j : ℕ} (h : i ≤ j) (s : Segment) :
    start l s j + start l' s i ≤ start l' s j + start l s i := by
  obtain ⟨n, rfl⟩ := Nat.exists_eq_add_of_le h
  clear h
  induction n with
  | zero =>
    rw [Nat.add_zero]
    omega
  | succ n ih =>
    have := lineRoom_get_le hl hl' hlonger s (i + n)
    rw [← Nat.add_assoc, start_succ, start_succ]
    omega

theorem ends_le (s : Segment) : l.ends.offset s ≤ l'.ends.offset s := by
  have hlines := start_gap hl hl' hlonger (Nat.zero_le l.lines.length) s
  have hdata := dataRoom_take_eq hl hl' s l.data.length
  have hlength : l.data.length = l'.data.length := by
    simpa using congrArg List.length (hl.objects.trans hl'.objects.symm)
  rw [start_length, length_lines hl hl', start_length] at hlines
  rw [List.take_length, hlength, List.take_length] at hdata
  rw [hl.ends, hl'.ends, hdata]
  simp only [start, List.take_zero, lineRoom, totalOf_nil] at hlines ⊢
  omega

/-- **With more branches long, a branch reaches no more.** -/
theorem Reaches.of_longer {i : ℕ} {p p' : PlacedLine} (hp : l.lines[i]? = some p)
    (hp' : l'.lines[i]? = some p') {opcode : Opcode} {name : String}
    (hline : p.line = .op opcode (.relative name)) (hshort : p.isLong = false)
    (hshort' : p'.isLong = false) (h : Reaches l' p' name) : Reaches l p name := by
  obtain ⟨q, hq, hsegment, hline'⟩ := get_of_get hl hl' hp
  obtain rfl := Option.some.inj (hq.symm.trans hp')
  obtain ⟨offset, hstands, hback, hon⟩ := h
  rw [hsegment] at hstands
  obtain ⟨j, x, hspot, rfl, hx⟩ := hstands.spot hl hl'
  have hstart := (offset_of_get hl hp).2
  have hstart' := (offset_of_get hl' hp').2
  rw [hsegment] at hstart'
  refine ⟨_, hspot, ?_⟩
  unfold displacement at *
  rw [hstart] at *
  rw [hstart'] at hback hon
  have hi : i < l.lines.length := (List.getElem?_eq_some_iff.mp hp).1
  rcases Nat.lt_or_ge i j with hij | hji
  · -- The symbol is behind the branch, whose own room is the same in both layouts.
    have hroom : ∀ {m : Layout} {r : PlacedLine}, m.lines[i]? = some r → r.segment = p.segment →
        r.size = 2 → start m p.segment (i + 1) = start m p.segment i + 2 := by
      intro m r hr hs hsize
      simp [start_succ, hr, lineRoom, hs, hsize]
    have hgap := start_gap hl hl' hlonger hij p.segment
    have hmono := start_mono l p.segment hij
    rw [hroom hp rfl (size_short hline hshort)] at hgap hmono
    rw [hroom hp' hsegment (size_short (hline'.trans hline) hshort')] at hgap
    omega
  · have hgap := start_gap hl hl' hlonger hji p.segment
    have hmono := start_mono l p.segment hji
    omega

end Longer

/-! ### What the passes come to -/

theorem exists_make (hnodup : (symbols e).Nodup) (long : List Bool) :
    ∃ l, Layout.make Layout.banked e long = .ok l := by
  rcases outcome_make Layout.banked e long with ⟨-, h⟩ | ⟨hnot, -⟩
  · exact h
  · exact absurd hnodup hnot

section Marks

variable {long : List Bool}

theorem banked_of_make (h : Layout.make Layout.banked e long = .ok l) :
    Placed Layout.banked e l := (placed_of_make h).1

/-- The first pass has no long branch. -/
theorem longLines_unmarked (h : Layout.make Layout.banked e (unmarked e) = .ok l) :
    longLines l = ∅ := by
  obtain ⟨-, hmarked⟩ := placed_of_make h
  rw [unmarked, mark_unmarked] at hmarked
  refine Set.eq_empty_iff_forall_notMem.mpr ?_
  rintro i ⟨p, hp, hlong⟩
  have hmem : p.toUnplacedLine ∈ l.lines.map (·.toUnplacedLine) :=
    List.mem_map_of_mem (List.mem_of_getElem? hp)
  rw [hmarked] at hmem
  obtain ⟨x, -, hx⟩ := List.mem_map.mp hmem
  rw [← hx] at hlong
  cases hlong

/-- A pass adds the branches out of reach to the long ones. -/
theorem mem_longLines_extend (h : Layout.make Layout.banked e long = .ok l)
    (h' : Layout.make Layout.banked e (Relaxation.extend l) = .ok l') (i : ℕ) :
    i ∈ longLines l' ↔ i ∈ longLines l ∨
      ∃ p, l.lines[i]? = some p ∧ Relaxation.isOutOfReach l.table p = true := by
  obtain ⟨-, hmarked⟩ := placed_of_make h'
  rw [mark_extend (banked_of_make h)] at hmarked
  have hget := congrArg (fun us => us[i]?.map (·.isLong)) hmarked
  simp only [List.getElem?_map, Option.map_map, Function.comp_def] at hget
  have hmem : ∀ m : Layout, i ∈ longLines m ↔ m.lines[i]?.map (·.isLong) = some true := fun m => by
    simp [longLines]
  rw [hmem, hmem, hget]
  cases l.lines[i]? <;> simp

/-- Marks that a pass leaves as they are mark every branch out of reach. -/
theorem isLong_of_isOutOfReach (h : Layout.make Layout.banked e long = .ok l)
    (hsame : Relaxation.extend l = long) {p : PlacedLine} (hp : p ∈ l.lines)
    (hout : Relaxation.isOutOfReach l.table p = true) : p.isLong = true := by
  have hlength : long.length = e.lines.length := hsame ▸ length_extend (banked_of_make h)
  rw [← map_isLong_of_make hlength h] at hsame
  have heq := List.map_inj_left.mp hsame p hp
  rw [hout, Bool.or_true] at heq
  exact heq.symm

end Marks

namespace Passes

variable {long : List Bool} {n n' : ℕ} {final : Layout}

theorem make (h : Passes e long n final) : ∃ l, Layout.make Layout.banked e long = .ok l := by
  cases h with
  | last hmake _ => exact ⟨_, hmake⟩
  | again hmake _ _ => exact ⟨_, hmake⟩

/-- The passes end in one way. -/
theorem unique (h : Passes e long n l) (h' : Passes e long n' l') : n' = n ∧ l' = l := by
  induction h generalizing n' with
  | last hmake hsame =>
    cases h' with
    | last hmake' _ => exact ⟨rfl, Except.ok.inj (hmake'.symm.trans hmake)⟩
    | again hmake' hdiffer _ =>
      obtain rfl := Except.ok.inj (hmake'.symm.trans hmake)
      exact absurd hsame hdiffer
  | again hmake hdiffer _ ih =>
    cases h' with
    | last hmake' hsame =>
      obtain rfl := Except.ok.inj (hmake'.symm.trans hmake)
      exact absurd hsame hdiffer
    | again hmake' _ hrest' =>
      obtain rfl := Except.ok.inj (hmake'.symm.trans hmake)
      obtain ⟨rfl, rfl⟩ := ih hrest'
      exact ⟨rfl, rfl⟩

/-- The last pass leaves its marks as they are. -/
theorem settled (h : Passes e long n final) :
    ∃ marks, Layout.make Layout.banked e marks = .ok final ∧ Relaxation.extend final = marks := by
  induction h with
  | last hmake hsame => exact ⟨_, hmake, hsame⟩
  | again _ _ _ ih => exact ih

/-- A branch that is long stays long. -/
theorem longLines_subset (h : Passes e long n final)
    (hl : Layout.make Layout.banked e long = .ok l) : longLines l ⊆ longLines final := by
  induction h generalizing l with
  | last hmake _ =>
    obtain rfl := Except.ok.inj (hl.symm.trans hmake)
    exact subset_rfl
  | again hmake _ hrest ih =>
    obtain rfl := Except.ok.inj (hl.symm.trans hmake)
    obtain ⟨l', hl'⟩ := hrest.make
    exact fun i hi => ih hl' ((mem_longLines_extend hl hl' i).mpr (.inl hi))

/-- In small segments, short branches reach the symbols they go to once the passes have ended. -/
theorem sound (h : Passes e long n final) (hsmall : ∀ s, final.ends.offset s ≤ 0xFFFF) :
    Sound e final := by
  obtain ⟨marks, hmake, hsame⟩ := h.settled
  intro p hp opcode name hline hbranch hshort hname
  by_contra hnot
  have hout := (isOutOfReach_iff (banked_of_make hmake) hsmall hp hline hbranch).mpr ⟨hname, hnot⟩
  rw [isLong_of_isOutOfReach hmake hsame hp hout] at hshort
  cases hshort

/-- **No pass makes a branch long that a sound layout has short**: the branch reaches its symbol
there, and so it does with fewer branches long. -/
theorem least (h : Passes e long n final) (hsmall : ∀ s, final.ends.offset s ≤ 0xFFFF)
    (hl : Layout.make Layout.banked e long = .ok l) (hl' : Placed Layout.banked e l')
    (hsound : Sound e l') (hlonger : longLines l ⊆ longLines l') :
    longLines final ⊆ longLines l' := by
  induction h generalizing l with
  | last hmake _ =>
    obtain rfl := Except.ok.inj (hl.symm.trans hmake)
    exact hlonger
  | @again long n _ final hmake hdiffer hrest ih =>
    obtain rfl := Except.ok.inj (hl.symm.trans hmake)
    obtain ⟨next, hnext⟩ := hrest.make
    have hplaced := banked_of_make hl
    refine ih hsmall hnext fun i hi => ?_
    rcases (mem_longLines_extend hl hnext i).mp hi with hlong | ⟨p, hp, hout⟩
    · exact hlonger hlong
    · by_contra hnot
      obtain ⟨p', hp', -, hline'⟩ := get_of_get hplaced hl' hp
      have hshort' : p'.isLong = false := Bool.eq_false_iff.mpr fun hlong => hnot ⟨p', hp', hlong⟩
      have hshort : p.isLong = false := Bool.eq_false_iff.mpr fun hlong =>
        hnot (hlonger ⟨p, hp, hlong⟩)
      obtain ⟨opcode, name, hline, hbranch⟩ := branch_of_isOutOfReach hout
      have hfinal := (again hmake hdiffer hrest).longLines_subset hmake
      have hends := ends_le hplaced (banked_of_make (again hmake hdiffer hrest).settled.choose_spec.1)
        hfinal
      obtain ⟨hname, hfar⟩ := (isOutOfReach_iff hplaced (fun s => Nat.le_trans (hends s) (hsmall s))
        (List.mem_of_getElem? hp) hline hbranch).mp hout
      exact hfar (.of_longer hplaced hl' hlonger hp hp' hline hshort hshort'
        (hsound p' (List.mem_of_getElem? hp') opcode name (hline'.trans hline) hbranch hshort' hname))

end Passes

/-- **The passes end** after at most one more than there are short branches. -/
theorem exists_passes (hnodup : (symbols e).Nodup) : ∀ (bound : ℕ) (long : List Bool),
    long.length = e.lines.length →
    (Layout.mark e.lines long).countP isShortBranch ≤ bound →
    ∃ n l, Passes e long n l ∧ n ≤ bound + 1 ∧ Relaxation.settle e bound long = .ok l := by
  intro bound
  induction bound with
  | zero =>
    intro long hlength hcount
    obtain ⟨l, hl⟩ := exists_make hnodup long
    have hsame : Relaxation.extend l = long := by
      by_contra hdiffer
      have := countP_isShortBranch_lt hlength hl hdiffer
      omega
    exact ⟨1, l, .last hl hsame, Nat.le_refl _, hl⟩
  | succ bound ih =>
    intro long hlength hcount
    obtain ⟨l, hl⟩ := exists_make hnodup long
    have hsettle : Relaxation.settle e (bound + 1) long =
        if Relaxation.extend l = long then .ok l
        else Relaxation.settle e bound (Relaxation.extend l) := by
      rw [Relaxation.settle, hl]
      rfl
    rw [hsettle]
    by_cases hsame : Relaxation.extend l = long
    · exact ⟨1, l, .last hl hsame, by omega, if_pos hsame⟩
    · have hfewer := countP_isShortBranch_lt hlength hl hsame
      obtain ⟨n, final, hpasses, hn, hfinal⟩ := ih (Relaxation.extend l)
        (length_extend (banked_of_make hl)) (by omega)
      exact ⟨n + 1, final, .again hl hsame hpasses, by omega, (if_neg hsame).trans hfinal⟩

/-- **The least set of long branches.**  If no symbol is defined twice, the passes end in one way,
after at most one pass more than there are conditional branches.  If the final segments take at most
65535 bytes, every short branch to a defined symbol reaches it in its own segment, and every layout
of which that holds has all the branches long that the passes made long. -/
theorem passes_least (hnodup : (symbols e).Nodup) :
    ∃ n l, Passes e (unmarked e) n l ∧
      (∀ n' l', Passes e (unmarked e) n' l' → n' = n ∧ l' = l) ∧
      n ≤ branchCount e + 1 ∧ Relaxation.layout e = .ok l ∧
      ((∀ s, l.ends.offset s ≤ 0xFFFF) → Sound e l ∧
        ∀ long l', Layout.make Layout.banked e long = .ok l' → Sound e l' →
          longLines l ⊆ longLines l') := by
  obtain ⟨n, l, hpasses, hn, hlayout⟩ := exists_passes hnodup (branchCount e) (unmarked e)
    (List.length_map _) (Nat.le_of_eq (countP_unmarked e.lines))
  refine ⟨n, l, hpasses, fun n' l' h => hpasses.unique h, hn, hlayout, fun hsmall =>
    ⟨hpasses.sound hsmall, fun long l' hl' hsound => ?_⟩⟩
  obtain ⟨first, hfirst⟩ := hpasses.make
  refine hpasses.least hsmall hfirst (banked_of_make hl') hsound ?_
  rw [longLines_unmarked hfirst]
  exact Set.empty_subset _

/-- The first branch just reaches its label as long as the second one is short. -/
def pushedEmission : Emission where
  functions := [
    { header := { name := "f" }
      code := [Line.label "f", .branch .bne "near", .branch .beq "far", .op .lda (.immediate (.byte 0))] ++
        List.replicate 41 (.op .sta (.absolute (.absolute 0x0600))) ++
        [.label "near", .op .sta (.absolute (.absolute 0x0600)), .label "far", .bare .rts] }]

/-- Three passes make both branches long. -/
theorem passes_push : (symbols pushedEmission).Nodup ∧
    ∃ n l, Passes pushedEmission (unmarked pushedEmission) n l ∧ n ≤ 3 ∧
      (∀ s, l.ends.offset s ≤ 0xFFFF) ∧ Sound pushedEmission l ∧ 1 ∈ longLines l ∧
      2 ∈ longLines l := by
  have hnodup : (symbols pushedEmission).Nodup := by decide +kernel
  obtain ⟨n, l, hpasses, -, hn, hlayout, hleast⟩ := passes_least hnodup
  have hany : (Relaxation.layout pushedEmission).toOption.any (fun l =>
      l.ends.sizes.all (fun x => x.2 ≤ 0xFFFF) &&
        (l.lines[1]?.any (·.isLong) && l.lines[2]?.any (·.isLong))) = true := by decide +kernel
  obtain ⟨l', hl', hfacts⟩ := ok_of_any hany
  obtain rfl := Except.ok.inj (hl'.symm.trans hlayout)
  simp only [Bool.and_eq_true, Option.any_eq_true, List.all_eq_true, decide_eq_true_iff] at hfacts
  obtain ⟨hsizes, hfirst, hsecond⟩ := hfacts
  have hsmall : ∀ s, l'.ends.offset s ≤ 0xFFFF := by
    intro s
    by_cases hs : l'.ends.offset s = 0
    · rw [hs]
      exact Nat.zero_le _
    · exact hsizes _ ((settled_of_layout hlayout).1.inPlace.mem_sizes hs)
  exact ⟨hnodup, n, l', hpasses, hn, hsmall, (hleast hsmall).1, hfirst, hsecond⟩

end Codegen6502.Proofs.Emitting.Relaxing
