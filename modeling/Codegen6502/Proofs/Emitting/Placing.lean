import Codegen6502.Emission.MachineCode
import Codegen6502.Proofs.Computations

/-!
# Where lines and data are placed

A layout puts lines and objects one behind the other in their segments and defines every name once.

* `Placed`: everything that is known of a layout; `placed_of_make`: what `Layout.make` gives is one;
* `Settled`: a layout in which a branch is long or reaches its target; `settled_of_layout`: the
  passes that make branches long end in one, since every pass but the last leaves fewer short
  branches.
-/

namespace Codegen6502.Proofs.Emitting.Placing

open Computations

/-! ### Cursors -/

theorem rank_injective {s t : Segment} (h : s.rank = t.rank) : s = t := by
  have hbyte : ∀ n : UInt8, n.toNat < 256 := UInt8.toNat_lt
  cases s <;> cases t <;> simp only [Segment.rank] at h
  case bank.bank n n' =>
    have hnat : n.toNat = n'.toNat := by omega
    rw [UInt8.toNat_inj.mp hnat]
  all_goals first
    | rfl
    | omega
    | (rename_i n; have := hbyte n; omega)

@[simp] theorem offset_empty (s : Segment) : ({} : Cursors).offset s = 0 := by
  simp [Cursors.offset]

theorem offset_advance (c : Cursors) (s t : Segment) (n : ℕ) :
    (c.advance s n).offset t = c.offset t + if s = t then n else 0 := by
  have hrank : s.rank = t.rank ↔ s = t := ⟨rank_injective, congrArg _⟩
  unfold Cursors.advance
  by_cases h : s = t
  · subst h
    simp [Cursors.offset]
  · rw [if_neg h]
    simp [Cursors.offset, Std.TreeMap.getElem?_insert, hrank, h]

/-- Every entry stands where its segment belongs. -/
def InPlace (c : Cursors) : Prop :=
  ∀ (r : ℕ) (s : Segment) (n : ℕ), c.offsets[r]? = some (s, n) → s.rank = r

theorem inPlace_empty : InPlace {} := by
  intro r s n h
  simp at h

theorem InPlace.advance {c : Cursors} (h : InPlace c) (s : Segment) (n : ℕ) :
    InPlace (c.advance s n) := by
  intro r t k hget
  simp only [Cursors.advance, Std.TreeMap.getElem?_insert] at hget
  split at hget
  · rename_i heq
    cases hget
    exact Std.LawfulEqCmp.eq_of_compare heq
  · exact h r t k hget

/-- A segment in use is among the sizes. -/
theorem InPlace.mem_sizes {c : Cursors} (h : InPlace c) {s : Segment} (hs : c.offset s ≠ 0) :
    (s, c.offset s) ∈ c.sizes := by
  refine mem_values.mpr ⟨s.rank, ?_⟩
  cases hget : c.offsets[s.rank]? with
  | none => exact absurd (by simp [Cursors.offset, hget]) hs
  | some entry =>
    obtain ⟨t, n⟩ := entry
    obtain rfl := rank_injective (h _ t n hget)
    simp [Cursors.offset, hget]

/-! ### Lines and objects -/

/-- The room that lines take up in a segment. -/
def lineRoom (s : Segment) (lines : List PlacedLine) : ℕ :=
  totalOf (fun p => if p.segment = s then p.size else 0) lines

/-- The room that objects take up in a segment. -/
def dataRoom (s : Segment) (data : List PlacedData) : ℕ :=
  totalOf (fun p => if p.segment = s then p.object.size else 0) data

theorem totalOf_append {α : Type} (weight : α → ℕ) (front back : List α) :
    totalOf weight (front ++ back) = totalOf weight front + totalOf weight back := by
  induction front with
  | nil => simp
  | cons a rest ih =>
    rw [List.cons_append, totalOf_cons, totalOf_cons, ih]
    omega

theorem totalOf_eq_zero {α : Type} {weight : α → ℕ} {as : List α} (h : ∀ a ∈ as, weight a = 0) :
    totalOf weight as = 0 := by
  induction as with
  | nil => rfl
  | cons a rest ih =>
    obtain ⟨hfirst, hrest⟩ := List.forall_mem_cons.mp h
    rw [totalOf_cons, hfirst, ih hrest]

/-- **Lines are placed one behind the other**, each segment counting for itself. -/
theorem placeLines_spec (areas : Layout.Areas) : ∀ (us : List UnplacedLine) (c : Cursors),
    InPlace c →
    (Layout.placeLines areas c us).1.map (·.toUnplacedLine) = us ∧
    InPlace (Layout.placeLines areas c us).2 ∧
    (∀ s, (Layout.placeLines areas c us).2.offset s =
      c.offset s + lineRoom s (Layout.placeLines areas c us).1) ∧
    ∀ front p back, (Layout.placeLines areas c us).1 = front ++ p :: back →
      p.segment = areas.code p.owner.placement ∧
        p.offset = c.offset p.segment + lineRoom p.segment front
  | [], c, hc => by
    refine ⟨rfl, hc, fun s => by simp [Layout.placeLines, lineRoom], fun front p back h => ?_⟩
    simp [Layout.placeLines] at h
  | u :: rest, c, hc => by
    obtain ⟨hmap, hplace, hend, hat⟩ := placeLines_spec areas rest
      (c.advance (areas.code u.owner.placement) u.size) (hc.advance _ _)
    have hadvance := offset_advance c (areas.code u.owner.placement)
    refine ⟨by simp [Layout.placeLines, hmap], hplace, fun s => ?_, fun front p back h => ?_⟩
    · simp only [Layout.placeLines, lineRoom, totalOf_cons, hend, hadvance]
      omega
    · simp only [Layout.placeLines] at h
      cases front with
      | nil =>
        obtain ⟨rfl, -⟩ := List.cons.inj h
        simp [lineRoom]
      | cons first front =>
        obtain ⟨rfl, htail⟩ := List.cons.inj h
        obtain ⟨hsegment, hoffset⟩ := hat front p back htail
        refine ⟨hsegment, ?_⟩
        simp only [hoffset, hadvance, lineRoom, totalOf_cons]
        simp only [UnplacedLine.size]
        omega

/-- **Objects are placed one behind the other.** -/
theorem placeData_spec (areas : Layout.Areas) : ∀ (objects : List DataObject) (c : Cursors),
    InPlace c →
    (Layout.placeData areas c objects).1.map (·.object) = objects ∧
    InPlace (Layout.placeData areas c objects).2 ∧
    (∀ s, (Layout.placeData areas c objects).2.offset s =
      c.offset s + dataRoom s (Layout.placeData areas c objects).1) ∧
    ∀ front p back, (Layout.placeData areas c objects).1 = front ++ p :: back →
      p.segment = areas.data p.object.bank ∧
        p.offset = c.offset p.segment + dataRoom p.segment front
  | [], c, hc => by
    refine ⟨rfl, hc, fun s => by simp [Layout.placeData, dataRoom], fun front p back h => ?_⟩
    simp [Layout.placeData] at h
  | object :: rest, c, hc => by
    obtain ⟨hmap, hplace, hend, hat⟩ := placeData_spec areas rest
      (c.advance (areas.data object.bank) object.size) (hc.advance _ _)
    have hadvance := offset_advance c (areas.data object.bank)
    refine ⟨by simp [Layout.placeData, hmap], hplace, fun s => ?_, fun front p back h => ?_⟩
    · simp only [Layout.placeData, dataRoom, totalOf_cons, hend, hadvance]
      omega
    · simp only [Layout.placeData] at h
      cases front with
      | nil =>
        obtain ⟨rfl, -⟩ := List.cons.inj h
        simp [dataRoom]
      | cons first front =>
        obtain ⟨rfl, htail⟩ := List.cons.inj h
        obtain ⟨hsegment, hoffset⟩ := hat front p back htail
        refine ⟨hsegment, ?_⟩
        simp only [hoffset, hadvance, dataRoom, totalOf_cons]
        omega

/-! ### Definitions -/

/-- The definition that a line makes. -/
def lineEntryOf (p : PlacedLine) : Option (String × Definition) :=
  match p.line with
  | .label name => some (name, ⟨p.segment, UInt16.ofNat p.offset,
      if name = p.owner.name then .function p.owner.visible else .label⟩)
  | _ => none

/-- The definition of an object. -/
def dataEntry (p : PlacedData) : String × Definition :=
  (p.object.name, ⟨p.segment, UInt16.ofNat p.offset, .data⟩)

/-- The definition of an external symbol. -/
def externalEntry (external : String × UInt16) : String × Definition :=
  (external.1, ⟨.absolute, external.2, .external⟩)

/-- Every definition of a layout, in order. -/
def entries (e : Emission) (l : Layout) : List (String × Definition) :=
  l.lines.filterMap lineEntryOf ++ l.data.map dataEntry ++ e.externals.toList.map externalEntry

/-- Definitions that extend a table. -/
def Extends (added : List (String × Definition)) (t t' : SymbolTable) : Prop :=
  t'.references = t.references ∧
    ∀ name d, t'.get? name = some d ↔ t.get? name = some d ∨ (name, d) ∈ added

theorem extends_define {t t' : SymbolTable} {name : String} {d : Definition}
    (h : t.define name d = .ok t') : Extends [(name, d)] t t' := by
  unfold SymbolTable.define at h
  split at h
  · cases h
  · rename_i hnew
    cases h
    refine ⟨rfl, fun other d' => ?_⟩
    have hnone : t.definitions[name]? = none :=
      Std.TreeMap.getElem?_eq_none fun hmem => hnew (Std.TreeMap.contains_iff_mem.mpr hmem)
    simp only [SymbolTable.get?, Std.TreeMap.getElem?_insert, Std.LawfulEqCmp.compare_eq_iff_eq,
      List.mem_singleton, Prod.mk.injEq]
    by_cases heq : name = other
    · subst heq
      simp [hnone, eq_comm]
    · simp [heq, Ne.symm heq]

theorem Extends.trans {a b : List (String × Definition)} {t t' t'' : SymbolTable}
    (h : Extends a t t') (h' : Extends b t' t'') : Extends (a ++ b) t t'' := by
  refine ⟨h'.1.trans h.1, fun name d => ?_⟩
  rw [h'.2, h.2, List.mem_append, or_assoc]

/-- Definitions made one after the other. -/
theorem extends_foldlM {α : Type} {f : SymbolTable → α → Compile SymbolTable}
    {g : α → Option (String × Definition)}
    (hf : ∀ a t t', f t a = .ok t' → Extends (g a).toList t t') {as : List α}
    {t t' : SymbolTable} (h : as.foldlM f t = .ok t') : Extends (as.filterMap g) t t' := by
  refine foldlM_invariant h (fun done u => Extends (done.filterMap g) t u)
    ⟨rfl, by simp⟩ fun done a rest u v _ hu hv => ?_
  have hlast : [a].filterMap g = (g a).toList := by
    cases h : g a <;> simp [h]
  rw [List.filterMap_append, hlast]
  exact hu.trans (hf a u v hv)

theorem extends_defineLine {p : PlacedLine} {t t' : SymbolTable}
    (h : Layout.defineLine t p = .ok t') : Extends (lineEntryOf p).toList t t' := by
  unfold Layout.defineLine at h
  unfold lineEntryOf
  cases hline : p.line with
  | label name =>
    simp only [hline] at h ⊢
    exact extends_define h
  | op opcode operand =>
    simp only [hline] at h ⊢
    cases h
    exact ⟨rfl, by simp⟩
  | comment text =>
    simp only [hline] at h ⊢
    cases h
    exact ⟨rfl, by simp⟩

/-! ### References -/

/-- The name that a placed line refers to. -/
def referred? (p : PlacedLine) : Option String := p.line.operand?.bind Operand.referencedName?

theorem foldl_referLine (lines : List PlacedLine) (t : SymbolTable) :
    (∀ name, (lines.foldl Layout.referLine t).get? name = t.get? name) ∧
      ∀ r, r ∈ (lines.foldl Layout.referLine t).references ↔ r ∈ t.references ∨
        ∃ p ∈ lines, referred? p = some r.symbol ∧ p.owner.name = r.referencedFrom := by
  induction lines generalizing t with
  | nil => simp
  | cons p rest ih =>
    have hget : ∀ name, (Layout.referLine t p).get? name = t.get? name := by
      intro name
      unfold Layout.referLine
      split <;> rfl
    have hrefs : ∀ r, r ∈ (Layout.referLine t p).references ↔ r ∈ t.references ∨
        referred? p = some r.symbol ∧ p.owner.name = r.referencedFrom := by
      intro r
      obtain ⟨symbol, referencedFrom⟩ := r
      unfold Layout.referLine
      rw [← referred?]
      cases referred? p <;> simp [SymbolTable.refer, or_comm, eq_comm]
    obtain ⟨ihget, ihrefs⟩ := ih (Layout.referLine t p)
    refine ⟨fun name => (ihget name).trans (hget name), fun r => ?_⟩
    rw [List.foldl_cons, ihrefs, hrefs]
    simp [or_assoc]

/-! ### Layouts -/

/-- What is known of a layout of an emission. -/
structure Placed (areas : Layout.Areas) (e : Emission) (l : Layout) : Prop where
  owners : l.lines.map (fun p => (p.owner, p.line)) = e.lines
  line : ∀ front p back, l.lines = front ++ p :: back →
    p.segment = areas.code p.owner.placement ∧ p.offset = lineRoom p.segment front
  objects : l.data.map (·.object) = e.data
  /-- Objects come behind the code of their segment. -/
  object : ∀ front p back, l.data = front ++ p :: back →
    p.segment = areas.data p.object.bank ∧
      p.offset = lineRoom p.segment l.lines + dataRoom p.segment front
  ends : ∀ s, l.ends.offset s = lineRoom s l.lines + dataRoom s l.data
  inPlace : InPlace l.ends
  table : ∀ name d, l.table.get? name = some d ↔ (name, d) ∈ entries e l
  references : ∀ r, r ∈ l.table.references ↔
    ∃ p ∈ l.lines, referred? p = some r.symbol ∧ p.owner.name = r.referencedFrom

theorem map_owner_mark (lines : List (FunctionHeader × Line)) (long : List Bool) :
    (Layout.mark lines long).map (fun u => (u.owner, u.line)) = lines := by
  induction lines generalizing long with
  | nil => simp [Layout.mark]
  | cons l rest ih => cases long <;> simp [Layout.mark, ih]

theorem map_isLong_mark {lines : List (FunctionHeader × Line)} {long : List Bool}
    (h : long.length = lines.length) : (Layout.mark lines long).map (·.isLong) = long := by
  induction lines generalizing long with
  | nil =>
    rw [List.length_eq_zero_iff.mp h]
    rfl
  | cons l rest ih =>
    cases long with
    | nil => cases h
    | cons isLong long =>
      simp only [Layout.mark, List.map_cons]
      rw [ih (Nat.succ.inj h)]

/-- **What a layout is**, with the lines marked as asked for. -/
theorem placed_of_make {areas : Layout.Areas} {e : Emission} {long : List Bool} {l : Layout}
    (h : Layout.make areas e long = .ok l) :
    Placed areas e l ∧ l.lines.map (·.toUnplacedLine) = Layout.mark e.lines long := by
  unfold Layout.make at h
  obtain ⟨t₁, ht₁, h⟩ := bind_eq_ok.mp h
  obtain ⟨t₂, ht₂, h⟩ := bind_eq_ok.mp h
  obtain ⟨t₃, ht₃, h⟩ := bind_eq_ok.mp h
  cases h
  obtain ⟨hlines, hplace, hend, hline⟩ :=
    placeLines_spec areas (Layout.mark e.lines long) {} inPlace_empty
  obtain ⟨hdata, hplace', hend', hobject⟩ := placeData_spec areas e.data _ hplace
  simp only [offset_empty, Nat.zero_add] at hend hline
  have hfirst := extends_foldlM (fun p t t' hp => extends_defineLine hp) ht₁
  have hsecond := extends_foldlM (g := some ∘ dataEntry)
    (fun p t t' hp => extends_define hp) ht₂
  have hthird := extends_foldlM (g := some ∘ externalEntry)
    (fun x t t' hx => extends_define hx) ht₃
  rw [List.filterMap_eq_map] at hsecond hthird
  have hall := (hfirst.trans hsecond).trans hthird
  obtain ⟨hget, hrefs⟩ := foldl_referLine
    (Layout.placeLines areas {} (Layout.mark e.lines long)).1 t₃
  refine ⟨⟨?_, hline, hdata, ?_, ?_, hplace', fun name d => ?_, fun r => ?_⟩, hlines⟩
  · have howners := congrArg (List.map fun u => (u.owner, u.line)) hlines
    rw [List.map_map, map_owner_mark] at howners
    exact howners
  · intro front p back hsplit
    obtain ⟨hsegment, hoffset⟩ := hobject front p back hsplit
    exact ⟨hsegment, by rw [hoffset, hend]⟩
  · intro s
    rw [hend', hend]
  · rw [hget, hall.2]
    simp [SymbolTable.get?, entries]
  · rw [hrefs, hall.1]
    simp

/-! ### Long branches -/

/-- A layout in which every short branch reaches its target, and only branches are long. -/
structure Settled (l : Layout) : Prop where
  reaches : ∀ p ∈ l.lines, Relaxation.isOutOfReach l.table p = true → p.isLong = true
  branches : ∀ p ∈ l.lines, p.isLong = true → Relaxation.isBranch p.line = true

/-- Whether a line is a branch that has not been made long. -/
def isShortBranch (u : UnplacedLine) : Bool := Relaxation.isBranch u.line && !u.isLong

theorem isBranch_of_isOutOfReach {t : SymbolTable} {p : PlacedLine}
    (h : Relaxation.isOutOfReach t p = true) : Relaxation.isBranch p.line = true := by
  unfold Relaxation.isOutOfReach at h
  split at h
  · rename_i opcode label hline
    rw [hline]
    exact (Bool.and_eq_true_iff.mp h).1
  · cases h

theorem countP_lt {α : Type} {p q : α → Bool} {as : List α} (h : ∀ a ∈ as, p a = true → q a = true)
    {a : α} (ha : a ∈ as) (hq : q a = true) (hp : ¬ p a = true) : as.countP p < as.countP q := by
  obtain ⟨front, back, rfl⟩ := List.append_of_mem ha
  have hfront := List.countP_mono_left (l := front) fun x hx =>
    h x (List.mem_append_left _ hx)
  have hback := List.countP_mono_left (l := back) fun x hx =>
    h x (List.mem_append_right _ (List.mem_cons_of_mem _ hx))
  rw [List.countP_append, List.countP_append, List.countP_cons_of_pos hq,
    List.countP_cons_of_neg hp]
  omega

/-- The lines of a layout, marked by one more pass. -/
theorem mark_extend {e : Emission} {l : Layout} (h : Placed Layout.banked e l) :
    Layout.mark e.lines (Relaxation.extend l) = l.lines.map fun p =>
      ⟨p.owner, p.line, p.isLong || Relaxation.isOutOfReach l.table p⟩ := by
  rw [← h.owners]
  unfold Relaxation.extend
  induction l.lines with
  | nil => rfl
  | cons p rest ih => simp [Layout.mark, ih]

/-- The marks of a layout are those that it was made with. -/
theorem map_isLong_of_make {areas : Layout.Areas} {e : Emission} {long : List Bool} {l : Layout}
    (hlength : long.length = e.lines.length) (h : Layout.make areas e long = .ok l) :
    l.lines.map (·.isLong) = long := by
  obtain ⟨-, hmarked⟩ := placed_of_make h
  rw [← map_isLong_mark hlength, ← hmarked, List.map_map]
  rfl

theorem length_extend {areas : Layout.Areas} {e : Emission} {l : Layout} (h : Placed areas e l) :
    (Relaxation.extend l).length = e.lines.length := by
  rw [Relaxation.extend, List.length_map, ← h.owners, List.length_map]

/-- **A pass that changes the marks leaves fewer short branches.** -/
theorem countP_isShortBranch_lt {e : Emission} {long : List Bool} {l : Layout}
    (hlength : long.length = e.lines.length) (h : Layout.make Layout.banked e long = .ok l)
    (hdiffer : Relaxation.extend l ≠ long) :
    (Layout.mark e.lines (Relaxation.extend l)).countP isShortBranch <
      (Layout.mark e.lines long).countP isShortBranch := by
  obtain ⟨hplaced, hmarked⟩ := placed_of_make h
  -- Some line is out of reach and was short.
  have hnew : ∃ p ∈ l.lines, Relaxation.isOutOfReach l.table p = true ∧ ¬ p.isLong = true := by
    by_contra hnone
    refine hdiffer ?_
    rw [← map_isLong_of_make hlength h]
    refine List.map_inj_left.mpr fun p hp => ?_
    have := fun hout hshort => hnone ⟨p, hp, hout, hshort⟩
    cases hout : Relaxation.isOutOfReach l.table p <;> simp_all
  obtain ⟨p, hp, hout, hshort⟩ := hnew
  rw [← hmarked, List.countP_map, mark_extend hplaced, List.countP_map]
  refine countP_lt ?_ hp ?_ ?_
  · intro q _
    simp only [isShortBranch, Function.comp_apply]
    grind
  · simp [isShortBranch, isBranch_of_isOutOfReach hout, hshort]
  · simp [isShortBranch, hout]

/-- **The passes settle**: every pass but the last makes a short branch long. -/
theorem settled_of_settle {e : Emission} {l : Layout} : ∀ (bound : ℕ) (long : List Bool),
    long.length = e.lines.length →
    (∀ u ∈ Layout.mark e.lines long, u.isLong = true → Relaxation.isBranch u.line = true) →
    (Layout.mark e.lines long).countP isShortBranch ≤ bound →
    Relaxation.settle e bound long = .ok l → Placed Layout.banked e l ∧ Settled l := by
  -- A pass that made no branch long has a settled layout.
  have hdone : ∀ (long : List Bool) (l : Layout), Layout.make Layout.banked e long = .ok l →
      (∀ u ∈ Layout.mark e.lines long, u.isLong = true → Relaxation.isBranch u.line = true) →
      (∀ p ∈ l.lines, Relaxation.isOutOfReach l.table p = true → p.isLong = true) →
      Placed Layout.banked e l ∧ Settled l := by
    intro long l hmake honly hreaches
    obtain ⟨hplaced, hmarked⟩ := placed_of_make hmake
    refine ⟨hplaced, hreaches, fun p hp => honly p.toUnplacedLine ?_⟩
    rw [← hmarked]
    exact List.mem_map_of_mem hp
  intro bound
  induction bound with
  | zero =>
    intro long hlength honly hcount h
    refine hdone long l h honly fun p hp hout => ?_
    obtain ⟨-, hmarked⟩ := placed_of_make h
    have hzero := List.countP_eq_zero.mp (Nat.le_zero.mp hcount) p.toUnplacedLine
      (by rw [← hmarked]; exact List.mem_map_of_mem hp)
    simpa [isShortBranch, isBranch_of_isOutOfReach hout] using hzero
  | succ bound ih =>
    intro long hlength honly hcount h
    unfold Relaxation.settle at h
    obtain ⟨l', hl', h⟩ := bind_eq_ok.mp h
    obtain ⟨hplaced, hmarked⟩ := placed_of_make hl'
    dsimp only at h
    split at h
    · rename_i hsame
      cases h
      refine hdone long l hl' honly fun p hp hout => ?_
      rw [← map_isLong_of_make hlength hl'] at hsame
      have heq := List.map_inj_left.mp hsame p hp
      rw [hout, Bool.or_true] at heq
      exact heq.symm
    · rename_i hdiffer
      refine ih (Relaxation.extend l') (length_extend hplaced) ?_ ?_ h
      · rw [mark_extend hplaced]
        rintro u hu
        obtain ⟨p, hp, rfl⟩ := List.mem_map.mp hu
        intro hnow
        rcases Bool.or_eq_true_iff.mp hnow with hbefore | hout
        · refine honly p.toUnplacedLine ?_ hbefore
          rw [← hmarked]
          exact List.mem_map_of_mem hp
        · exact isBranch_of_isOutOfReach hout
      · exact Nat.le_of_lt_succ
          (Nat.lt_of_lt_of_le (countP_isShortBranch_lt hlength hl' hdiffer) hcount)

/-- Before the first pass no line is long. -/
theorem mark_unmarked (lines : List (FunctionHeader × Line)) :
    Layout.mark lines (lines.map fun _ => false) = lines.map fun x => ⟨x.1, x.2, false⟩ := by
  induction lines with
  | nil => rfl
  | cons x rest ih => simp only [List.map_cons, Layout.mark, ih]

/-- Before the first pass every branch is short. -/
theorem countP_unmarked (lines : List (FunctionHeader × Line)) :
    (Layout.mark lines (lines.map fun _ => false)).countP isShortBranch =
      lines.countP fun l => Relaxation.isBranch l.2 := by
  rw [mark_unmarked, List.countP_map]
  exact List.countP_congr fun x _ => by simp [isShortBranch]

/-- **Every short branch reaches its target** in the layout of an emission. -/
theorem settled_of_layout {e : Emission} {l : Layout} (h : Relaxation.layout e = .ok l) :
    Placed Layout.banked e l ∧ Settled l := by
  refine settled_of_settle _ _ (by simp) ?_ (Nat.le_of_eq (countP_unmarked e.lines)) h
  rw [mark_unmarked]
  intro u hu hlong
  obtain ⟨x, -, rfl⟩ := List.mem_map.mp hu
  cases hlong

end Codegen6502.Proofs.Emitting.Placing
