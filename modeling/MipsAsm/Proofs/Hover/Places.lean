import Mathlib.Data.List.Nodup
import MipsAsm.Hover.Basic
import MipsAsm.Proofs.Assembly.Relocations
import MipsAsm.Proofs.Assembly.Words

/-!
# The words at a place

What is shown about an instruction are the words in the map of addresses that come from its source
line.  The map is filled by the second pass, in the order of the listing and by address, and here it
is read from the side of the source.  If the listing has more lines than there are addresses, a word
may take the place of another, so the results ask for a listing that is not too long.

The map is ordered by address and the listing by position, and the two orders are not the same where
addresses wrap around.  What is shown is sorted by address.  For a source line with one instruction
this makes no difference, and that is the case in which the words of a line are spelled out here.

* `Assembly.Places`, `Assembly.mem_placements_iff` — the words are those of the lines of the listing
  that were encoded.
* `Assembly.getElem?_addressMap_iff` — the map of addresses has all of them.
* `Assembly.placementsOnLine_of_encodes` — the words of a source line that stands for one line of
  the listing.
* `Assembly.Describes.origins_iff` — the source line of a line of the listing.
-/

set_option autoImplicit false

namespace MipsAsm

/-! ## Addresses

The map of addresses keeps the last word at an address.  Two lines of a listing have the same
address only if they are 2 ^ 30 lines apart, so in a listing of at most so many lines no word takes
the place of another. -/

theorem Image.addressOf_inj {base : UInt32} {j k : Nat} (hj : j < 1073741824)
    (hk : k < 1073741824) (h : addressOf base j = addressOf base k) : j = k := by
  have hsame := congrArg UInt32.toNat h
  simp only [addressOf, UInt32.toNat_add, UInt32.toNat_mul, UInt32.toNat_ofNat'] at hsame
  have hfour : (4 : UInt32).toNat = 4 := rfl
  rw [hfour] at hsame
  omega

attribute [ext] Placement

/-- The values of a map in the order of their keys. -/
theorem values_eq_map_toList (t : Std.TreeMap UInt32 Placement) :
    t.values = t.toList.map Prod.snd := by
  have hfold : t.values = t.foldr (fun _ v l ↦ v :: l) [] := rfl
  rw [hfold, Std.TreeMap.foldr_eq_foldr_toList]
  induction t.toList with
  | nil => rfl
  | cons e es ih => rw [List.foldr_cons, ih, List.map_cons]

namespace Assembly

variable {o : Options} {source : String} {a : Assembly} {p q : Placement} {k : Nat}

/-- A placement is the one of a line of the listing. -/
structure Places (o : Options) (a : Assembly) (k : Nat) (p : Placement) : Prop where
  /-- The line was encoded. -/
  word : a.Encodes o k p.word
  /-- The address is that of the line. -/
  address : p.address = Image.addressOf o.base k
  /-- The source line is the one that the line comes from. -/
  line : a.scan.origins[k]? = some p.line

theorem Places.unique (h : assemble o source = some a) (hp : a.Places o k p)
    (hq : a.Places o k q) : p = q := by
  refine Placement.ext (hp.address.trans hq.address.symm) ?_ ?_
  · exact Option.some.inj (hp.line.symm.trans hq.line)
  · exact Option.some.inj
      ((wordAt?_of_encodes h hp.word).symm.trans (wordAt?_of_encodes h hq.word))

theorem places_of_placementAt? (h : assemble o source = some a) (hk : k < a.image.read)
    (hp : a.placementAt? o k = some p) : a.Places o k p := by
  obtain ⟨hword, haddress⟩ := placementAt?_eq_some h hp
  obtain ⟨e, he, hplacement⟩ := Option.bind_eq_some_iff.mp hp
  refine ⟨(encodes_iff h).mpr ⟨hk, hword⟩, haddress, ?_⟩
  rw [← Array.getElem?_toList, (assemble_describes h).origins, List.getElem?_map, he,
    Option.map_some, Image.line_of_placement? hplacement]

/-- **The words of an assembly** are those of the lines of the listing that were encoded. -/
theorem mem_placements_iff (h : assemble o source = some a) :
    p ∈ a.image.placements.toList ↔ ∃ k, a.Places o k p := by
  rw [placements_eq h, List.mem_filterMap]
  constructor
  · rintro ⟨k, hk, hp⟩
    exact ⟨k, places_of_placementAt? h (List.mem_range.mp hk) hp⟩
  · rintro ⟨k, hp⟩
    obtain ⟨hk, hword⟩ := (encodes_iff h).mp hp.word
    obtain ⟨q, hq, -⟩ := exists_placementAt? h hword
    obtain rfl := (places_of_placementAt? h hk hq).unique h hp
    exact ⟨k, List.mem_range.mpr hk, hq⟩

/-- The lines of the listing have different addresses if there are no more of them than
addresses. -/
theorem eq_of_encodes (h : assemble o source = some a)
    (hfew : (Image.listingLines a.listing).length ≤ 1073741824) {j : Nat} {v w : UInt32}
    (hj : a.Encodes o j v) (hk : a.Encodes o k w)
    (hsame : Image.addressOf o.base j = Image.addressOf o.base k) : j = k := by
  have hdescribes := assemble_describes h
  have hread := hdescribes.read_le
  rw [hdescribes.length_listingLines] at hfew
  have hj := ((encodes_iff h).mp hj).1
  have hk := ((encodes_iff h).mp hk).1
  exact Image.addressOf_inj (by omega) (by omega) hsame

theorem address_of_getElem?_addressMap {x : UInt32} (hp : a.addressMap[x]? = some p) :
    p ∈ a.image.placements.toList ∧ p.address = x := by
  rw [getElem?_addressMap] at hp
  exact ⟨List.mem_reverse.mp (List.mem_of_find?_eq_some hp), by simpa using List.find?_some hp⟩

/-- **What is at an address** is the line of the listing that was encoded there. -/
theorem getElem?_addressMap_iff (h : assemble o source = some a)
    (hfew : (Image.listingLines a.listing).length ≤ 1073741824) {x : UInt32} :
    a.addressMap[x]? = some p ↔ p ∈ a.image.placements.toList ∧ p.address = x := by
  refine ⟨address_of_getElem?_addressMap, ?_⟩
  rintro ⟨hp, rfl⟩
  cases hq : a.addressMap[p.address]? with
  | none =>
    rw [getElem?_addressMap, List.find?_eq_none] at hq
    exact absurd (beq_self_eq_true p.address) (hq p (List.mem_reverse.mpr hp))
  | some q =>
    obtain ⟨hqmem, hqaddress⟩ := address_of_getElem?_addressMap hq
    obtain ⟨j, hj⟩ := (mem_placements_iff h).mp hp
    obtain ⟨k, hk⟩ := (mem_placements_iff h).mp hqmem
    have hsame := hj.address.symm.trans (hqaddress.symm.trans hk.address)
    obtain rfl := eq_of_encodes h hfew hj.word hk.word hsame
    rw [hj.unique h hk]

/-! ## The words of a source line

The words are found by going through the whole map.  Those of a source line that stands for one
instruction are at most one, and that one is found wherever it is. -/

theorem mem_values_addressMap :
    p ∈ a.addressMap.values ↔ ∃ x : UInt32, a.addressMap[x]? = some p := by
  rw [values_eq_map_toList, List.mem_map]
  constructor
  · rintro ⟨⟨x, q⟩, hmem, rfl⟩
    exact ⟨x, Std.TreeMap.mem_toList_iff_getElem?_eq_some.mp hmem⟩
  · rintro ⟨x, hx⟩
    exact ⟨(x, p), Std.TreeMap.mem_toList_iff_getElem?_eq_some.mpr hx, rfl⟩

theorem nodup_values_addressMap (a : Assembly) : a.addressMap.values.Nodup := by
  rw [values_eq_map_toList]
  refine List.pairwise_map.mpr
    (a.addressMap.ordered_keys_toList.imp_of_mem fun {e f} he hf hlt hsame ↦ ?_)
  have hfirst := (address_of_getElem?_addressMap
    (Std.TreeMap.mem_toList_iff_getElem?_eq_some.mp he)).2
  have hsecond := (address_of_getElem?_addressMap
    (Std.TreeMap.mem_toList_iff_getElem?_eq_some.mp hf)).2
  rw [← hfirst, ← hsecond, hsame] at hlt
  exact absurd hlt (by simp)

/-- The words that are shown of a source line are the words that come from it. -/
theorem mem_placementsOnLine_iff (h : assemble o source = some a)
    (hfew : (Image.listingLines a.listing).length ≤ 1073741824) {number : Nat} :
    p ∈ a.placementsOnLine number ↔ p.line = number ∧ ∃ k, a.Places o k p := by
  rw [placementsOnLine, List.mem_filter, mem_values_addressMap, beq_iff_eq, and_comm]
  refine and_congr_right fun _ ↦ ?_
  simp only [getElem?_addressMap_iff h hfew, exists_and_left, exists_eq', and_true]
  exact mem_placements_iff h

/-- **The words of a source line that stands for one line of the listing:** the one that was encoded
there, or none. -/
theorem placementsOnLine_of_encodes (h : assemble o source = some a)
    (hfew : (Image.listingLines a.listing).length ≤ 1073741824) {number : Nat}
    (hk : ∀ j, a.scan.origins[j]? = some number ↔ j = k) :
    (∀ w, a.Encodes o k w → a.placementsOnLine number =
      [{ address := Image.addressOf o.base k, line := number, word := w }]) ∧
    ((∀ w, ¬a.Encodes o k w) → a.placementsOnLine number = []) := by
  constructor
  · intro w hw
    have hnodup : (a.placementsOnLine number).Nodup := (nodup_values_addressMap a).filter _
    refine List.perm_singleton.mp
      ((List.perm_ext_iff_of_nodup hnodup (List.nodup_singleton _)).mpr fun p ↦ ?_)
    rw [mem_placementsOnLine_iff h hfew, List.mem_singleton]
    constructor
    · rintro ⟨rfl, j, hj⟩
      obtain rfl := (hk j).mp hj.line
      exact hj.unique h ⟨hw, rfl, hj.line⟩
    · rintro rfl
      exact ⟨rfl, k, hw, rfl, (hk k).mpr rfl⟩
  · intro hnone
    refine List.eq_nil_iff_forall_not_mem.mpr fun p hp ↦ ?_
    obtain ⟨rfl, j, hj⟩ := (mem_placementsOnLine_iff h hfew).mp hp
    obtain rfl := (hk j).mp hj.line
    exact hnone p.word hj.word

/-- **The source line of a line of the listing** is the one that stands for it. -/
theorem Describes.origins_iff {lines : List (List Char)} (h : a.Describes o lines)
    (hscanned : a.scan.lines = lines.length) {number : Nat} :
    a.scan.origins[k]? = some number ↔ (expandLines (lines.take number)).length ≤ k ∧
      k < (expandLines (lines.take (number + 1))).length := by
  rw [← Array.getElem?_toList, h.origins, List.getElem?_map, h.entries_eq, hscanned,
    List.take_length, Option.map_eq_some_iff]
  constructor
  · rintro ⟨e, he, rfl⟩
    have hbefore := lt_iff_of_getElem?_expandLines he e.1
    have hafter := lt_iff_of_getElem?_expandLines he (e.1 + 1)
    omega
  · rintro ⟨hle, hlt⟩
    obtain ⟨rest, hsplit, -, -⟩ := expandLines_split lines (number + 1)
    have hk : k < (expandLines lines).length := by
      rw [hsplit, List.length_append]
      omega
    have he := List.getElem?_eq_getElem hk
    have hbefore := lt_iff_of_getElem?_expandLines he number
    have hafter := lt_iff_of_getElem?_expandLines he (number + 1)
    exact ⟨_, he, by omega⟩

/-- What is at an address, by the source line that the line of the listing comes from. -/
theorem getElem?_addressMap_iff_between (h : assemble o source = some a)
    (hscanned : a.scan.lines = (Text.splitLines source.toList).length)
    (hfew : (Image.listingLines a.listing).length ≤ 1073741824) (x : UInt32) (p : Placement) :
    a.addressMap[x]? = some p ↔ ∃ k, a.Encodes o k p.word ∧
      (expandLines ((Text.splitLines source.toList).take p.line)).length ≤ k ∧
      k < (expandLines ((Text.splitLines source.toList).take (p.line + 1))).length ∧
      p.address = Image.addressOf o.base k ∧ x = p.address := by
  have horigins (k : Nat) : a.scan.origins[k]? = some p.line ↔ _ :=
    (assemble_describes h).origins_iff hscanned
  rw [getElem?_addressMap_iff h hfew, mem_placements_iff h]
  constructor
  · rintro ⟨⟨k, hk⟩, rfl⟩
    obtain ⟨hle, hlt⟩ := (horigins k).mp hk.line
    exact ⟨k, hk.word, hle, hlt, hk.address, rfl⟩
  · rintro ⟨k, hencodes, hle, hlt, haddress, rfl⟩
    exact ⟨⟨k, hencodes, haddress, (horigins k).mpr ⟨hle, hlt⟩⟩, rfl⟩

end Assembly

end MipsAsm
