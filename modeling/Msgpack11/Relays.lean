/-
Copies of a value: what comes out of any number of hops, each of which dumps the value
on one host and parses the bytes on another. A hop on which something fails makes no
copy, so a value that is nested too deeply for the parser has none but itself.

The first hop may change the types of integers, and no other hop changes anything
(`Copy.eq_or_narrowed`), as long as the entries of each map come in the order of their
keys (`MapsSorted`). `std::map` keeps them so where `operator<` is a strict weak order on
the keys, as it is without floats; a map on whose keys it is none may lose an entry on
its way.

So whatever does not see the types of integers does not tell copies from the original.
`copies_compare` says it of the comparison operators and `copies_dump_alike` of `dump`;
the modules below say it of navigation, of the printer of the example and of the hash of
the benchmark.
-/
import Msgpack11.Comparisons
import Msgpack11.Insertion
import Msgpack11.Reencoding

set_option autoImplicit false

namespace Msgpack11.Relays

open Msgpack11.Compare Msgpack11.StrictWeak Msgpack11.SortedUnique Msgpack11.Canonical
open Msgpack11.Shortest Msgpack11.Parse Msgpack11.Parser Msgpack11.Grammar Msgpack11.Outcomes
open Msgpack11.RoundTrip Msgpack11.Comparisons Msgpack11.Reencoding

/-! ## Copies -/

/-- A value after any number of hops, on hosts of either kind, none of which has failed:
`dump` has not thrown, and `parse` has left the error text as it was. -/
inductive Copy (x : MsgPack) : MsgPack → Prop where
  | self : Copy x x
  | sent {y z : MsgPack} (is_big_endian is_big_endian' : Bool) {s : List UInt8} (copy : Copy x y)
      (dumped : Dump.dump is_big_endian y = .ok s)
      (parsed : ∀ err, parse is_big_endian' s err = (z, err)) : Copy x z

theorem narrowed_narrowed (x : MsgPack) : narrowed (narrowed x) = narrowed x := by
  induction x using MsgPack.induction with
  | leaf x hleaf =>
      rcases hn : x.integer? with _ | n
      · rw [narrowed_of_leaf hleaf hn, narrowed_of_leaf hleaf hn]
      · rw [narrowed_of_integer hn, narrowed_of_integer (integer_narrow (fits_of_integer hn))]
  | array xs ih =>
      rw [narrowed, narrowed, narrowedItems_eq_map, narrowedItems_eq_map, List.map_map]
      congr 1
      exact List.map_congr_left ih
  | object es ih =>
      rw [narrowed, narrowed, narrowedEntries_eq_map, narrowedEntries_eq_map, List.map_map]
      congr 1
      apply List.map_congr_left
      intro e he
      exact Prod.ext (ih e he).1 (ih e he).2

theorem dump_ok_iff {is_big_endian : Bool} {x : MsgPack} {s : List UInt8} :
    Dump.dump is_big_endian x = .ok s ↔ x.LengthsFit ∧ (canon x).bytes = some s := by
  constructor
  · intro h
    have hfit := Insertion.lengthsFit_of_dump h
    obtain ⟨t, hbytes, hdump⟩ := dump_eq_canon is_big_endian hfit
    rw [h] at hdump
    cases hdump
    exact ⟨hfit, hbytes⟩
  · rintro ⟨hfit, hbytes⟩
    obtain ⟨t, hbytes', hdump⟩ := dump_eq_canon is_big_endian hfit
    rw [hbytes] at hbytes'
    cases hbytes'
    exact hdump

/-- A hop, from what has the canonical encoding of `x`. -/
theorem parse_of_canon {is_big_endian is_big_endian' : Bool} {x y : MsgPack} {s : List UInt8}
    (hsorted : MapsSorted x) (hheight : x.height ≤ max_depth) (hcanon : canon y = canon x)
    (h : Dump.dump is_big_endian y = .ok s) (err : String) :
    parse is_big_endian' s err = (narrowed x, err) := by
  obtain ⟨-, hbytes⟩ := dump_ok_iff.mp h
  rw [hcanon] at hbytes
  have henc : Encoding (canon x) s := ⟨hbytes, (height_canon x).le.trans hheight⟩
  rw [parse_of_encoding henc, denote_canon_of_sorted hsorted]

/-- What has been parsed again was not too deep for the parser. -/
theorem height_le_of_parsed {is_big_endian is_big_endian' : Bool} {y z : MsgPack} {s : List UInt8}
    (h : Dump.dump is_big_endian y = .ok s)
    (hparsed : ∀ err, parse is_big_endian' s err = (z, err)) : y.height ≤ max_depth := by
  by_contra hdeep
  obtain ⟨-, hbytes⟩ := dump_ok_iff.mp h
  have hheight : ¬ (canon y).height < max_depth + 1 := by
    rw [height_canon]
    omega
  have hmsg : message s = .error .formatError := by
    have hreject := WireReader.too_deep (max_depth + 1) [] hbytes hheight
    rwa [List.append_nil] at hreject
  exact not_succeeds_of_fails (fails_of_message hmsg) ⟨z, hparsed⟩

/-- A value that is not too deep has a copy on every host that it is sent to. -/
theorem Copy.of_dump {is_big_endian : Bool} {x : MsgPack} {s : List UInt8}
    (h : Dump.dump is_big_endian x = .ok s) (hheight : x.height ≤ max_depth)
    (is_big_endian' : Bool) : Copy x (parse is_big_endian' s "").1 := by
  obtain ⟨-, hbytes⟩ := dump_ok_iff.mp h
  have henc : Encoding (canon x) s := ⟨hbytes, (height_canon x).le.trans hheight⟩
  refine Copy.sent is_big_endian is_big_endian' Copy.self h fun err => ?_
  rw [parse_of_encoding henc, parse_of_encoding henc]

/-- However many hops it has taken, a copy is the value or its narrowing. -/
theorem Copy.eq_or_narrowed {x y : MsgPack} (hsorted : MapsSorted x) (h : Copy x y) :
    y = x ∨ y = narrowed x ∧ x.LengthsFit ∧ x.height ≤ max_depth := by
  induction h with
  | self => exact Or.inl rfl
  | @sent y z is_big_endian is_big_endian' s _ hdump hparsed ih =>
      right
      have hback : x.height ≤ max_depth → canon y = canon x → z = narrowed x := by
        intro hheight hcanon
        have hvalue := hparsed ""
        rw [parse_of_canon hsorted hheight hcanon hdump] at hvalue
        exact (congrArg Prod.fst hvalue).symm
      rcases ih with rfl | ⟨rfl, hfit, hheight⟩
      · have hheight := height_le_of_parsed hdump hparsed
        exact ⟨hback hheight rfl, Insertion.lengthsFit_of_dump hdump, hheight⟩
      · exact ⟨hback hheight (canon_narrowed x), hfit, hheight⟩

/-- So what does not see narrowing does not see copying. -/
theorem Copy.unchanged {α : Type} {f : MsgPack → α} (hf : ∀ x, f (narrowed x) = f x)
    {x y : MsgPack} (hsorted : MapsSorted x) (h : Copy x y) : f y = f x := by
  rcases h.eq_or_narrowed hsorted with rfl | ⟨rfl, -⟩
  · rfl
  · exact hf x

/-! ## Results -/

/-- Any copies of two values compare the way the values do, by every operator and with NaN
anywhere in them, if the entries of each map are in the order of their keys. -/
theorem copies_compare {x y x' y' : MsgPack} (hx : MapsSorted x) (hy : MapsSorted y)
    (hx' : Copy x x') (hy' : Copy y y') :
    ∀ op ∈ [equals, not_equals, less, less_equal, greater, greater_equal], op x' y' = op x y := by
  have heq : equals x' y' = equals x y := by
    rw [← equals_narrowed_narrowed x' y', ← equals_narrowed_narrowed x y,
      hx'.unchanged narrowed_narrowed hx, hy'.unchanged narrowed_narrowed hy]
  have hless : less x' y' = less x y := by
    rw [← less_narrowed_narrowed x' y', ← less_narrowed_narrowed x y,
      hx'.unchanged narrowed_narrowed hx, hy'.unchanged narrowed_narrowed hy]
  have hgreater : less y' x' = less y x := by
    rw [← less_narrowed_narrowed y' x', ← less_narrowed_narrowed y x,
      hx'.unchanged narrowed_narrowed hx, hy'.unchanged narrowed_narrowed hy]
  simp only [List.forall_mem_cons, List.not_mem_nil, false_implies, implies_true, and_true,
    not_equals, less_equal, greater, greater_equal, heq, hless, hgreater]

/-- A map with a NaN for a key and a wide integer in it, against its own copy. -/
theorem copies_compare_nan :
    let x : MsgPack := .object [(.float64 0x7ff8000000000000, .int64 5)]
    ∃ s, Dump.dump false x = .ok s ∧ less (parse true s "").1 x = less x x ∧
      equals (parse true s "").1 x = false := by
  intro x
  have hsorted : MapsSorted x := by decide +kernel
  obtain ⟨s, -, hdump⟩ := dump_eq_canon false (x := x) (by decide)
  have hcopy : Copy x (parse true s "").1 := Copy.of_dump hdump (by decide) true
  have hops := copies_compare hsorted hsorted hcopy Copy.self
  have hself : equals x x = false := by decide +kernel
  refine ⟨s, hdump, hops less (by simp), ?_⟩
  rw [hops equals (by simp), hself]

/-- Every copy is dumped to the bytes that the value is dumped to, by hosts of either
kind; so a value looks the same on every hop of its way. -/
theorem copies_dump_alike {x y : MsgPack} (hsorted : MapsSorted x) (h : Copy x y)
    (is_big_endian is_big_endian' : Bool) (s : List UInt8) :
    Dump.dump is_big_endian' y = .ok s ↔ Dump.dump is_big_endian x = .ok s := by
  rw [dump_ok_iff, dump_ok_iff]
  rcases h.eq_or_narrowed hsorted with rfl | ⟨rfl, hfit, -⟩
  · rfl
  · rw [canon_narrowed]
    apply and_congr_left
    intro hbytes
    refine iff_of_true ?_ hfit
    rw [← denote_canon_of_sorted hsorted]
    exact Wire.lengthsFit_denote hbytes

/-- An array of a wide integer, dumped on one host and again by another that parsed it. -/
theorem copies_dump_alike_int64 :
    ∃ s, Dump.dump false (.array [.int64 300]) = .ok s ∧
      Dump.dump true (parse true s "").1 = .ok s := by
  obtain ⟨s, -, hdump⟩ := dump_eq_canon false (x := .array [.int64 300]) (by decide)
  refine ⟨s, hdump, ?_⟩
  exact (copies_dump_alike (by decide +kernel) (Copy.of_dump hdump (by decide) true)
    false true s).mpr hdump

end Msgpack11.Relays
