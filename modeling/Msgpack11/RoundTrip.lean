/-
The round trip: what `parse` makes of what `dump` wrote.

`dump` writes the canonical derivation of a value (`Canonical.dump_eq_canon`), the
parser returns what a derivation denotes (`Outcomes.parse_eq`), so the question
is what the canonical derivation denotes. It is `narrowed x`: the integers come back
in their narrowest types, and everything else as it was.

Keys change their types too, and the object is rebuilt by insertion. That it is
the same object rests on `operator<` not seeing the change (`less_narrowed`), which
holds as long as no key has a float in it.
-/
import Msgpack11.Canonical
import Msgpack11.Outcomes

set_option autoImplicit false

namespace Msgpack11.RoundTrip

open Msgpack11.Compare Msgpack11.StrictWeak Msgpack11.SortedUnique Msgpack11.KeyOrder
open Msgpack11.Ordering Msgpack11.Grammar Msgpack11.Outcomes Msgpack11.Parse Msgpack11.Parser
open Msgpack11.Bytes Msgpack11.Shortest Msgpack11.Canonical

/-! ## Narrowed values -/

/-- Every object is the contents of a `std::map`: its entries are sorted by their keys. -/
abbrev MapsSorted (x : MsgPack) : Prop := x.All fun n => Sorted entryLess n.object_items

/-- A list whose elements are replaced by equal ones. -/
theorem isEqv_map {α : Type*} {eq : α → α → Bool} {f : α → α} {xs : List α}
    (h : ∀ x ∈ xs, eq (f x) x = true) : (xs.map f).isEqv xs eq = true := by
  induction xs with
  | nil => rfl
  | cons x xs ih =>
      rw [List.forall_mem_cons] at h
      rw [List.map_cons, List.isEqv, h.1, ih h.2]
      rfl

/-- Narrowing the integers of a value gives an equal one. -/
theorem equals_narrowed {x : MsgPack} (h : x.NaNFree) : equals (narrowed x) x = true := by
  induction x using MsgPack.induction with
  | leaf x hleaf =>
      rcases hn : x.integer? with _ | n
      · rw [narrowed_of_leaf hleaf hn]
        exact equals_refl h
      · rw [narrowed_of_integer hn, equals_of_integers (integer_narrow (fits_of_integer hn)) hn]
        exact decide_eq_true rfl
  | array xs ih =>
      rw [MsgPack.NaNFree, MsgPack.all_array] at h
      rw [narrowed, narrowedItems_eq_map, (compare_array _ _).2]
      exact isEqv_map fun x hx => ih x hx (h.2 x hx)
  | object es ih =>
      rw [MsgPack.NaNFree, MsgPack.all_object] at h
      rw [narrowed, narrowedEntries_eq_map, (compare_object _ _).2]
      apply isEqv_map
      intro e he
      rw [pairEq, (ih e he).1 (h.2 e he).1, (ih e he).2 (h.2 e he).2]
      rfl

theorem isFloat_narrow {n : ℤ} (h : Fits n) : (narrow n).isFloat = false := by
  have hn := integer_narrow h
  generalize narrow n = y at hn
  cases y <;> first | rfl | cases hn

theorem floatFree_narrowed {x : MsgPack} (h : x.FloatFree) : (narrowed x).FloatFree := by
  induction x using MsgPack.induction with
  | leaf x hleaf =>
      rcases hn : x.integer? with _ | n
      · rwa [narrowed_of_leaf hleaf hn]
      · have hint := integer_narrow (fits_of_integer hn)
        have hleaf' : (narrow n).isLeaf = true := by
          generalize narrow n = y at hint
          cases y <;> first | rfl | cases hint
        rw [narrowed_of_integer hn, MsgPack.FloatFree, MsgPack.all_leaf hleaf']
        exact isFloat_narrow (fits_of_integer hn)
  | array xs ih =>
      rw [MsgPack.FloatFree, MsgPack.all_array] at h
      rw [narrowed, narrowedItems_eq_map, MsgPack.FloatFree, MsgPack.all_array]
      refine ⟨rfl, ?_⟩
      intro y hy
      obtain ⟨x, hx, rfl⟩ := List.mem_map.mp hy
      exact ih x hx (h.2 x hx)
  | object es ih =>
      rw [MsgPack.FloatFree, MsgPack.all_object] at h
      rw [narrowed, narrowedEntries_eq_map, MsgPack.FloatFree, MsgPack.all_object]
      refine ⟨rfl, ?_⟩
      intro y hy
      obtain ⟨e, he, rfl⟩ := List.mem_map.mp hy
      exact ⟨(ih e he).1 (h.2 e he).1, (ih e he).2 (h.2 e he).2⟩

/-- `operator<` does not see that the integers have been narrowed. -/
theorem less_narrowed {a b : MsgPack} (ha : a.FloatFree) (hb : b.FloatFree) :
    less (narrowed a) (narrowed b) = less a b :=
  calc less (narrowed a) (narrowed b)
      = less a (narrowed b) := less_congr_left (floatFree_narrowed ha) ha (floatFree_narrowed hb)
        (equals_narrowed ha.naNFree)
    _ = less a b := less_congr_right ha (floatFree_narrowed hb) hb (equals_narrowed hb.naNFree)

theorem sorted_narrowed {es : List (MsgPack × MsgPack)} (hfree : ∀ e ∈ es, e.1.FloatFree)
    (h : Sorted entryLess es) : Sorted entryLess (narrowedEntries es) := by
  rw [narrowedEntries_eq_map, Sorted, List.pairwise_map]
  refine List.Pairwise.imp_of_mem ?_ h
  intro a b ha hb hab
  rw [entryLess, less_narrowed (hfree a ha) (hfree b hb)]
  exact hab

/-! ## What the canonical encoding denotes -/

/-- The value that comes back. The entries of an object are inserted in their own
order, so each one goes to the end and none is dropped. -/
theorem denote_canon {x : MsgPack} (hsorted : MapsSorted x) (hkeys : x.KeysFloatFree) :
    (canon x).denote = narrowed x := by
  induction x using MsgPack.induction with
  | leaf x hleaf =>
      refine MsgPack.leaf_cases hleaf ?_ rfl ?_ ?_ ?_ ?_ ?_ ?_
      · intro y n hn
        rw [canon_of_integer hn, narrowed_of_integer hn, denote_canonInt]
      · intro v
        rfl
      · intro v
        have hlt : v.toNat < 256 ^ 4 := v.toNat_lt
        rw [canon, Wire.denote, ofBE_toBE hlt, Fundamental.value, UInt32.ofNat_toNat, narrowed]
        all_goals exact fun _ h => by cases h
      · intro v
        have hlt : v.toNat < 256 ^ 8 := v.toNat_lt
        rw [canon, Wire.denote, ofBE_toBE hlt, Fundamental.value, UInt64.ofNat_toNat, narrowed]
        all_goals exact fun _ h => by cases h
      · intro v
        rfl
      · intro v
        rfl
      · intro t d
        rfl
  | array xs ih =>
      rw [MapsSorted, MsgPack.all_array] at hsorted
      rw [MsgPack.KeysFloatFree, MsgPack.all_array] at hkeys
      rw [canon, Wire.denote, narrowed, Wire.denoteItems_eq_map, canonItems_eq_map,
        narrowedItems_eq_map, List.map_map]
      congr 1
      apply List.map_congr_left
      intro x hx
      exact ih x hx (hsorted.2 x hx) (hkeys.2 x hx)
  | object es ih =>
      rw [MapsSorted, MsgPack.all_object] at hsorted
      rw [MsgPack.KeysFloatFree, MsgPack.all_object] at hkeys
      -- the entries that are sent are the narrowed ones, in order
      have hentries : Wire.denoteEntries (canonEntries es) = narrowedEntries es := by
        rw [Wire.denoteEntries_eq_map, canonEntries_eq_map, narrowedEntries_eq_map, List.map_map]
        apply List.map_congr_left
        intro e he
        have hs := hsorted.2 e he
        have hk := hkeys.2 e he
        exact Prod.ext ((ih e he).1 hs.1 hk.1) ((ih e he).2 hs.2 hk.2)
      have hfree : ∀ e ∈ narrowedEntries es, e.1.FloatFree := by
        intro e' he'
        rw [narrowedEntries_eq_map] at he'
        obtain ⟨e, he, rfl⟩ := List.mem_map.mp he'
        exact floatFree_narrowed (hkeys.1 e he)
      rw [canon, Wire.denote, hentries, narrowed]
      rw [(sorted_narrowed hkeys.1 hsorted.1).insertAll_self strictWeak_entryLess hfree]

/-! ## The round trip -/

/-- What `dump` writes comes back as `narrowed x`, up to the depth limit of the parser;
below it, it is a format error. The hosts need not be of the same kind. -/
theorem parse_dump (is_big_endian is_big_endian' : Bool) {x : MsgPack} (hsorted : MapsSorted x)
    (hfit : x.LengthsFit) (hkeys : x.KeysFloatFree) :
    ∃ s, Dump.dump is_big_endian x = .ok s ∧
      (x.height ≤ max_depth →
        (∀ err, parse is_big_endian' s err = (narrowed x, err)) ∧ Accepts is_big_endian' s ∧
          (x.NaNFree → equals (narrowed x) x = true)) ∧
      (max_depth < x.height → ∀ err, parse is_big_endian' s err = (.nul, "format error.")) := by
  obtain ⟨s, hbytes, hdump⟩ := dump_eq_canon is_big_endian hfit
  refine ⟨s, hdump, ?_, ?_⟩
  · intro hheight
    have henc : Encoding (canon x) s := ⟨hbytes, (height_canon x).le.trans hheight⟩
    refine ⟨?_, accepts_of_encoding henc, equals_narrowed⟩
    intro err
    rw [parse_of_encoding henc, denote_canon hsorted hkeys]
  · intro hheight
    -- the encoding is well formed, and has too many levels for the reader
    have hdeep : ¬ (canon x).height < max_depth + 1 := by
      rw [height_canon]
      omega
    have hmsg := WireReader.too_deep (max_depth + 1) [] hbytes hdeep
    rw [List.append_nil] at hmsg
    exact fails_of_message (x := .formatError) hmsg

/-- A map whose keys change their types on the way, sorted across types. -/
theorem parse_dump_map :
    let x : MsgPack := .object [(.int64 (-1), .float32 0), (.uint64 7, .nul),
      (.string [0x61], .array [.int16 300])]
    let y : MsgPack := .object [(.int8 (-1), .float32 0), (.uint8 7, .nul),
      (.string [0x61], .array [.uint16 300])]
    ∃ s, Dump.dump false x = .ok s ∧ parse true s "" = (y, "") ∧ equals y x = true := by
  intro x y
  have hnarrowed : narrowed x = y := by
    simp [x, y, narrowed, narrowedEntries, narrowedItems, narrow, narrowest, residue,
      Fundamental.value, Fundamental.size]
  obtain ⟨s, hdump, hback, -⟩ := parse_dump false true (x := x) (by decide +kernel)
    (by decide +kernel) (by decide +kernel)
  obtain ⟨hparse, -, heq⟩ := hback (by decide)
  rw [← hnarrowed]
  exact ⟨s, hdump, hparse "", heq (by decide +kernel)⟩

end Msgpack11.RoundTrip
