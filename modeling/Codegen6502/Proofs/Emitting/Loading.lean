import Codegen6502.Processor.Boot
import Codegen6502.Proofs.Emitting.Assembling
import Codegen6502.Proofs.Processor.Fetching

/-!
# Images in memory

An image that was assembled for a faultless memory map is loaded, and every segment of code can then
be read at its origin while its bank is selected.

* `Apart`: what a faultless memory map is;
* `get_putAll`: bytes that were put into memory one behind the other;
* `exists_machine`: the image is loaded;
* `stands_line`: the bytes of a line stand at its address.
-/

namespace Codegen6502.Proofs.Emitting.Loading

open Computations Placing Assembling MachineCode Processor Fetching

variable {map : MemoryMap} {e : Emission} {l : Layout} {image : Image} {code : List Piece}

/-! ### Memory maps -/

/-- Areas that end inside memory and do not overlap. -/
structure Apart (map : MemoryMap) : Prop where
  window : map.bankWindow.toNat + map.bankCapacity.toNat ≤ 0x10000
  common : map.codeOrigin.toNat + map.codeCapacity.toNat ≤ 0x10000
  data : map.dataOrigin.toNat + map.dataCapacity.toNat ≤ 0x10000
  windowCommon : ∀ a : ℕ, map.codeOrigin.toNat ≤ a → a < map.codeOrigin.toNat + map.codeCapacity.toNat →
    ¬ (map.bankWindow.toNat ≤ a ∧ a < map.bankWindow.toNat + map.bankCapacity.toNat)
  commonData : ∀ a : ℕ, map.codeOrigin.toNat ≤ a → a < map.codeOrigin.toNat + map.codeCapacity.toNat →
    ¬ (map.dataOrigin.toNat ≤ a ∧ a < map.dataOrigin.toNat + map.dataCapacity.toNat)

theorem stop_le {r : Region} (h : r.fault? = none) : r.stop ≤ 0x10000 := by
  unfold Region.fault? at h
  by_contra hlarge
  rw [if_pos (by omega)] at h
  cases h

theorem not_mem_of_not_overlaps {r t : Region} (h : ¬ r.overlaps t = true) {a : ℕ}
    (hr : r.start ≤ a ∧ a < r.stop) : ¬ (t.start ≤ a ∧ a < t.stop) := by
  intro ht
  refine h ?_
  rw [Region.overlaps, Bool.and_eq_true, decide_eq_true_eq, decide_eq_true_eq]
  omega

theorem pairwise_of_overlap? {rs : List Region} (h : MemoryMap.overlap? rs = none) :
    rs.Pairwise fun r t => ¬ r.overlaps t = true := by
  induction rs with
  | nil => exact .nil
  | cons r rest ih =>
    unfold MemoryMap.overlap? at h
    split at h
    · cases h
    · rename_i hfind
      exact .cons (fun t ht => by simpa using List.find?_eq_none.mp hfind t ht) (ih h)

/-- The regions of options without a fault have none, and no two overlap. -/
theorem regions_of_validate {o : Options} (h : o.validate = .ok ()) :
    (∀ r ∈ o.map.regions, r.fault? = none) ∧
      o.map.regions.Pairwise fun r t => ¬ r.overlaps t = true := by
  have hfault : o.map.fault? = none := by
    unfold Options.validate Options.fault? at h
    split at h
    · cases h
    · rename_i hnone
      exact (Option.or_eq_none_iff.mp hnone).2
  obtain ⟨hregions, hrest⟩ := Option.or_eq_none_iff.mp hfault
  obtain ⟨hoverlap, -⟩ := Option.or_eq_none_iff.mp hrest
  exact ⟨List.findSome?_eq_none_iff.mp hregions,
    pairwise_of_overlap? (Option.map_eq_none_iff.mp hoverlap)⟩

theorem apart_of_validate {o : Options} (h : o.validate = .ok ()) : Apart o.map := by
  obtain ⟨hregion, hapart⟩ := regions_of_validate h
  simp only [MemoryMap.regions, List.pairwise_cons, List.mem_cons, List.not_mem_nil, or_false,
    forall_eq_or_imp, forall_eq] at hapart hregion
  exact ⟨stop_le hregion.1, stop_le hregion.2.1, stop_le hregion.2.2,
    fun a hlo hhi hin => not_mem_of_not_overlaps hapart.1.1 hin ⟨hlo, hhi⟩,
    fun a hlo hhi => not_mem_of_not_overlaps hapart.2.1 ⟨hlo, hhi⟩⟩

/-! ### Bytes in memory -/

/-- **Bytes that were put one behind the other**, and the memory around them. -/
theorem get_putAll (ram : Ram) (origin : UInt16) (bytes : List UInt8)
    (hroom : origin.toNat + bytes.length ≤ 0x10000) (a : UInt16) :
    (ram.putAll origin bytes).get a =
      (if origin.toNat ≤ a.toNat then bytes[a.toNat - origin.toNat]? else none).getD (ram.get a) := by
  induction bytes generalizing ram origin with
  | nil => simp [Ram.putAll]
  | cons b rest ih =>
    rw [List.length_cons] at hroom
    have heq : origin = a ↔ origin.toNat = a.toNat := UInt16.toNat_inj.symm
    have hnext : rest = [] ∨ (origin + 1).toNat = origin.toNat + 1 := by
      by_cases hrest : rest = []
      · exact Or.inl hrest
      · have hpos := List.length_pos_iff.mpr hrest
        refine Or.inr ?_
        rw [UInt16.toNat_add]
        change (origin.toNat + 1) % 65536 = _
        omega
    have hfit : (origin + 1).toNat + rest.length ≤ 0x10000 := by
      rcases hnext with rfl | hnext
      · have := (origin + 1).toNat_lt
        rw [List.length_nil]
        omega
      · omega
    have hrest : (if (origin + 1).toNat ≤ a.toNat then rest[a.toNat - (origin + 1).toNat]? else none) =
        if origin.toNat < a.toNat then rest[a.toNat - (origin.toNat + 1)]? else none := by
      rcases hnext with rfl | hnext
      · simp
      · rw [hnext]
        rfl
    rw [Ram.putAll, ih _ _ hfit, Memory.get_put, hrest]
    rcases Nat.lt_trichotomy a.toNat origin.toNat with hlt | hsame | hgt
    · rw [if_neg (by omega : ¬ origin.toNat < a.toNat), if_neg (by omega : ¬ origin.toNat ≤ a.toNat),
        if_neg (mt heq.mp (by omega))]
    · rw [if_neg (by omega : ¬ origin.toNat < a.toNat), if_pos (by omega : origin.toNat ≤ a.toNat),
        if_pos (heq.mpr hsame.symm), hsame, Nat.sub_self]
      rfl
    · have hindex : a.toNat - origin.toNat = (a.toNat - (origin.toNat + 1)) + 1 := by omega
      rw [if_pos hgt, if_pos (by omega : origin.toNat ≤ a.toNat), if_neg (mt heq.mp (by omega)),
        hindex, List.getElem?_cons_succ]

/-- Bytes stand in memory if each of them does. -/
theorem stands_of_get {mem : UInt16 → UInt8} {a : UInt16} {bytes : List UInt8}
    (h : ∀ i (hi : i < bytes.length), mem (a + UInt16.ofNat i) = bytes[i]) :
    Stands anywhere mem a bytes := by
  induction bytes generalizing a with
  | nil => exact trivial
  | cons b rest ih =>
    refine ⟨trivial, ?_, ih fun i hi => ?_⟩
    · have hfirst := h 0 (by simp)
      change mem (a + 0) = b at hfirst
      rwa [UInt16.add_zero] at hfirst
    · have hnext := h (i + 1) (by simpa using hi)
      rw [List.getElem_cons_succ] at hnext
      rw [← hnext, UInt16.ofNat_add, UInt16.add_comm (UInt16.ofNat i), ← UInt16.add_assoc]
      rfl

/-! ### Loading -/

/-- Banks are installed one after the other. -/
theorem foldlM_loadBank : ∀ (banks : List (UInt8 × SegmentImage)) (bus : Bus),
    (banks.map Prod.fst).Nodup → (∀ b ∈ banks, b.2.bytes.length ≤ bus.windowSize.toNat) →
    ∃ table : Std.TreeMap UInt8 (Array UInt8),
      (banks.foldlM (fun (bus : Bus) (n, s) => bus.loadBank n s.bytes) bus : Except MachineFault Bus) =
        .ok { bus with banks := table } ∧
      (∀ b ∈ banks, table[b.1]? = some b.2.bytes.toArray) ∧
      ∀ n, n ∉ banks.map Prod.fst → table[n]? = bus.banks[n]? := by
  intro banks
  induction banks with
  | nil => exact fun bus _ _ => ⟨bus.banks, rfl, by simp, fun _ _ => rfl⟩
  | cons first rest ih =>
    intro bus hnodup hroom
    rw [List.map_cons, List.nodup_cons] at hnodup
    obtain ⟨table, hfold, hmem, hother⟩ := ih
      { bus with banks := bus.banks.insert first.1 first.2.bytes.toArray } hnodup.2
      fun b hb => hroom b (List.mem_cons_of_mem _ hb)
    have hload : bus.loadBank first.1 first.2.bytes =
        .ok { bus with banks := bus.banks.insert first.1 first.2.bytes.toArray } := by
      unfold Bus.loadBank
      rw [if_neg (not_lt.mpr (hroom first (List.mem_cons_self ..)))]
    refine ⟨table, ?_, fun b hb => ?_, fun n hn => ?_⟩
    · rw [List.foldlM_cons]
      change (bus.loadBank first.1 first.2.bytes >>= _) = _
      rw [hload]
      exact hfold
    · rcases List.mem_cons.mp hb with rfl | hb
      · rw [hother _ hnodup.1]
        simp
      · exact hmem b hb
    · rw [List.map_cons, List.mem_cons, not_or] at hn
      rw [hother n hn.2, Std.TreeMap.getElem?_insert,
        if_neg fun heq => hn.1 (Std.LawfulEqCmp.eq_of_compare heq).symm]

theorem bus_foldl_defineSymbol (symbols : List (String × ImageSymbol)) (m : Machine) :
    (symbols.foldl (fun m (name, s) => m.defineSymbol name s.address) m).bus = m.bus := by
  induction symbols generalizing m with
  | nil => rfl
  | cons first rest ih => rw [List.foldl_cons, ih]; rfl

theorem nodup_eraseDups {α : Type} [BEq α] [LawfulBEq α] : ∀ as : List α, as.eraseDups.Nodup
  | [] => by simp
  | a :: as => by
    rw [List.eraseDups_cons, List.nodup_cons, List.mem_eraseDups]
    exact ⟨by simp, nodup_eraseDups _⟩
termination_by as => as.length
decreasing_by exact Nat.lt_succ_of_le (List.length_filter_le ..)

/-- Memory with the code and the data of an assembly in it. -/
def filled (map : MemoryMap) (pieces : List Piece) : Ram :=
  Ram.putAll (Ram.putAll (Vector.replicate 0x10000 0) map.codeOrigin (segmentBytes pieces .common))
    map.dataOrigin (segmentBytes pieces .data)

/-- What a memory holds in which an assembly has been loaded. -/
structure Filled (map : MemoryMap) (e : Emission) (pieces : List Piece) (b : Bus) : Prop where
  window : b.window = map.bankWindow
  windowSize : b.windowSize = map.bankCapacity
  ram : b.ram = filled map pieces
  bank : ∀ n ∈ bankNumbers e, b.banks[n]? = some (segmentBytes pieces (.bank n)).toArray

section Image

variable (h : Assembly map e image l code) (hmap : Apart map)

include h

theorem length_segment (s : Segment) :
    (segmentBytes (code ++ dataPieces l) s).length = l.ends.offset s := by
  rw [segmentBytes_append, List.length_append, h.placed.ends,
    length_segmentBytes (fun p hp => h.settled.branches p hp) h.bytes]
  exact congrArg _ (length_objects s l.data)

theorem length_segment_le {s : Segment} {capacity : ℕ} (hs : map.capacity? s = some capacity) :
    (segmentBytes (code ++ dataPieces l) s).length ≤ capacity := by
  rw [length_segment h]
  exact h.room s capacity hs

theorem bank_image {n : UInt8} {s : SegmentImage} : image.banks[n]? = some s ↔
    n ∈ bankNumbers e ∧ s = ⟨map.bankWindow, segmentBytes (code ++ dataPieces l) (.bank n)⟩ := by
  have hkeys : (((bankNumbers e).eraseDups.map fun n =>
      (n, (⟨map.bankWindow, segmentBytes (code ++ dataPieces l) (.bank n)⟩ : SegmentImage))).map
        Prod.fst).Nodup := by
    rw [List.map_map]
    change ((bankNumbers e).eraseDups.map id).Nodup
    rw [List.map_id]
    exact nodup_eraseDups _
  rw [h.image]
  change (Std.TreeMap.ofList ((bankNumbers e).eraseDups.map fun n =>
    (n, (⟨map.bankWindow, segmentBytes (code ++ dataPieces l) (.bank n)⟩ : SegmentImage))))[n]? =
      some s ↔ _
  rw [getElem?_ofList hkeys, List.mem_map]
  constructor
  · rintro ⟨n', hn', heq⟩
    cases heq
    exact ⟨List.mem_eraseDups.mp hn', rfl⟩
  · rintro ⟨hn, rfl⟩
    exact ⟨n, List.mem_eraseDups.mpr hn, rfl⟩

include hmap

/-- **An assembled image is loaded.** -/
theorem exists_machine : ∃ m, Machine.ofImage image map.bankCapacity = .ok m ∧
    Filled map e (code ++ dataPieces l) m.bus := by
  have hcommon := length_segment_le h (s := .common) rfl
  have hdata := length_segment_le h (s := .data) rfl
  have hload : ∀ (bus : Bus) (origin : UInt16) (bytes : List UInt8),
      origin.toNat + bytes.length ≤ 0x10000 →
      bus.load origin bytes = .ok { bus with ram := bus.ram.putAll origin bytes } := by
    intro bus origin bytes hroom
    unfold Bus.load
    rw [if_neg (by omega)]
  have hroom : ∀ b ∈ image.banks.toList, b.2.bytes.length ≤ map.bankCapacity.toNat := by
    intro b hb
    obtain ⟨-, hbank⟩ := (bank_image h).mp (Std.TreeMap.mem_toList_iff_getElem?_eq_some.mp hb)
    rw [hbank]
    exact length_segment_le h rfl
  obtain ⟨table, hfold, hmem, -⟩ := foldlM_loadBank image.banks.toList
    { Bus.create map.bankWindow map.bankCapacity map.bankSelect with
      ram := filled map (code ++ dataPieces l) } (nodup_keys _) hroom
  have hwindow : image.bankWindow = map.bankWindow := by rw [h.image]; rfl
  have hselect : image.bankSelect = map.bankSelect := by rw [h.image]; rfl
  have hcommonImage : image.common = ⟨map.codeOrigin, segmentBytes (code ++ dataPieces l) .common⟩ := by
    rw [h.image]
    rfl
  have hdataImage : image.data = ⟨map.dataOrigin, segmentBytes (code ++ dataPieces l) .data⟩ := by
    rw [h.image]
    rfl
  have hend := hmap.common
  have hend' := hmap.data
  refine ⟨image.symbols.toList.foldl (fun m (name, s) => m.defineSymbol name s.address)
    { Machine.create map.bankWindow map.bankCapacity map.bankSelect with
      bus := { Bus.create map.bankWindow map.bankCapacity map.bankSelect with
        ram := filled map (code ++ dataPieces l), banks := table } }, ?_, ?_⟩
  · unfold Machine.ofImage
    rw [hwindow, hselect, hcommonImage, hdataImage]
    simp only [Machine.create]
    rw [hload _ _ _ (by omega)]
    change (Bus.load _ _ _ >>= _) = _
    rw [hload _ _ _ (by omega)]
    change ((image.banks.toList.foldlM (fun (bus : Bus) (n, s) => bus.loadBank n s.bytes)
      { Bus.create map.bankWindow map.bankCapacity map.bankSelect with
        ram := filled map (code ++ dataPieces l) } : Except MachineFault Bus) >>= _) = _
    rw [hfold]
    rfl
  · rw [bus_foldl_defineSymbol]
    refine ⟨rfl, rfl, rfl, fun n hn => ?_⟩
    have hbank := (bank_image h).mpr ⟨hn, rfl⟩
    exact hmem _ (Std.TreeMap.mem_toList_iff_getElem?_eq_some.mpr hbank)

/-- **A segment of code can be read** while its bank is selected. -/
theorem read_code {b : Bus} (hb : Filled map e (code ++ dataPieces l) b) {placement : Bank}
    (hselected : ∀ n, placement = .paged n → b.selected = n ∧ n ∈ bankNumbers e) {i : ℕ}
    (hi : i < (segmentBytes (code ++ dataPieces l) (.ofCode placement)).length) :
    b.read (map.origin (.ofCode placement) + UInt16.ofNat i) =
      (segmentBytes (code ++ dataPieces l) (.ofCode placement))[i] := by
  cases placement with
  | common =>
    change i < (segmentBytes (code ++ dataPieces l) .common).length at hi
    change b.read (map.codeOrigin + UInt16.ofNat i) = (segmentBytes (code ++ dataPieces l) .common)[i]
    have hcommon := length_segment_le h (s := .common) rfl
    have hdata := length_segment_le h (s := .data) rfl
    have hend := hmap.common
    have hend' := hmap.data
    have haddress : (map.codeOrigin + UInt16.ofNat i).toNat = map.codeOrigin.toNat + i := by
      rw [UInt16.toNat_add, UInt16.toNat_ofNat']
      omega
    have houtside := hmap.windowCommon (map.codeOrigin.toNat + i) (by omega) (by omega)
    have hbeside := hmap.commonData (map.codeOrigin.toNat + i) (by omega) (by omega)
    have hwindow : b.inWindow (map.codeOrigin + UInt16.ofNat i) = false := by
      unfold Bus.inWindow
      rw [hb.window, hb.windowSize, haddress, Bool.and_eq_false_iff, decide_eq_false_iff_not,
        decide_eq_false_iff_not, UInt16.le_iff_toNat_le, haddress]
      omega
    have hnone : (if map.dataOrigin.toNat ≤ map.codeOrigin.toNat + i then
        (segmentBytes (code ++ dataPieces l) .data)[map.codeOrigin.toNat + i - map.dataOrigin.toNat]?
        else none) = none := by
      split
      · exact List.getElem?_eq_none (by omega)
      · rfl
    have hsome : (segmentBytes (code ++ dataPieces l) .common)[map.codeOrigin.toNat + i -
        map.codeOrigin.toNat]? = some (segmentBytes (code ++ dataPieces l) .common)[i] := by
      rw [Nat.add_sub_cancel_left]
      exact List.getElem?_eq_getElem hi
    unfold Bus.read
    rw [hwindow, if_neg Bool.false_ne_true, hb.ram, filled, get_putAll _ _ _ (by omega), haddress, hnone,
      Option.getD_none, get_putAll _ _ _ (by omega), haddress, if_pos (Nat.le_add_right ..), hsome,
      Option.getD_some]
  | paged n =>
    change i < (segmentBytes (code ++ dataPieces l) (.bank n)).length at hi
    change b.read (map.bankWindow + UInt16.ofNat i) =
      (segmentBytes (code ++ dataPieces l) (.bank n))[i]
    obtain ⟨hn, hmem⟩ := hselected n rfl
    have hbank := length_segment_le h (s := .bank n) rfl
    have hend := hmap.window
    have hoffset : (UInt16.ofNat i).toNat = i := UInt16.toNat_ofNat_of_lt' (by
      change i < 65536
      omega)
    have haddress : (map.bankWindow + UInt16.ofNat i).toNat = map.bankWindow.toNat + i := by
      rw [UInt16.toNat_add, hoffset]
      omega
    have hwindow : b.inWindow (map.bankWindow + UInt16.ofNat i) = true := by
      unfold Bus.inWindow
      rw [hb.window, hb.windowSize, haddress, Bool.and_eq_true, decide_eq_true_eq, decide_eq_true_eq,
        UInt16.le_iff_toNat_le, haddress]
      omega
    have hdistance : (map.bankWindow + UInt16.ofNat i - map.bankWindow).toNat = i := by
      rw [UInt16.add_comm, UInt16.add_sub_cancel, hoffset]
    unfold Bus.read
    rw [if_pos hwindow, hn, hb.bank n hmem, hb.window]
    simp only [hdistance, Array.getD_eq_getD_getElem?, List.getElem?_toArray]
    rw [List.getElem?_eq_getElem hi, Option.getD_some]

/-- **The bytes of a line** stand at its address. -/
theorem stands_line {b : Bus} (hb : Filled map e (code ++ dataPieces l) b)
    {front back : List PlacedLine} {p : PlacedLine} (hsplit : l.lines = front ++ p :: back)
    (hselected : ∀ n, p.owner.placement = .paged n → b.selected = n) :
    ∃ bytes, lineBytes map l.table p = .ok bytes ∧ bytes.length = p.size ∧
      Stands anywhere b.read (map.origin p.segment + UInt16.ofNat p.offset) bytes := by
  obtain ⟨bytes, before, behind, hbytes, hlength, hoffset, hwhole⟩ := segmentBytes_split h hsplit
  refine ⟨bytes, hbytes, hlength, stands_of_get fun i hi => ?_⟩
  have hsegment : p.segment = .ofCode p.owner.placement := (h.placed.line front p back hsplit).1
  have hmem : ∀ n, p.owner.placement = .paged n → n ∈ bankNumbers e := by
    intro n hn
    have hline : (p.owner, p.line) ∈ e.lines := by
      rw [← h.placed.owners, hsplit]
      simp
    obtain ⟨f, hf, hline⟩ := List.mem_flatMap.mp hline
    obtain ⟨line, -, heq⟩ := List.mem_map.mp hline
    have howner : f.header.placement = .paged n := by rw [← hn, ← (Prod.mk.inj heq).1]
    refine List.mem_filterMap.mpr ⟨.paged n, List.mem_append_left _ ?_, rfl⟩
    exact List.mem_map.mpr ⟨f, hf, howner⟩
  rw [hsegment] at hwhole ⊢
  have hi' : p.offset + i < (segmentBytes (code ++ dataPieces l) (.ofCode p.owner.placement)).length := by
    rw [hwhole, List.length_append, List.length_append]
    omega
  rw [UInt16.add_assoc, ← UInt16.ofNat_add,
    read_code h hmap hb (fun n hn => ⟨hselected n hn, hmem n hn⟩) hi']
  simp only [hwhole]
  rw [List.getElem_append_left (by rw [List.length_append]; omega),
    List.getElem_append_right (by omega)]
  congr 1
  omega

end Image

end Codegen6502.Proofs.Emitting.Loading
