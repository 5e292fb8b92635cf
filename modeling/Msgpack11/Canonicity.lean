/-
Equal values have equal encodings, and different values different ones.

Without floats `operator==` is equality of the canonical derivations
(`equals_iff_canon`): it identifies integers of different types just as the
encoder does, and looks into arrays and objects just as deep. That bytes
determine the derivation is unique decodability, which holds at every depth
although the parser stops at its limit (`WireReader.bytes_injective`).

Objects built by inserting the same entries in different orders need not be
the same list of entries: of two keys that differ in type only, the first one
inserted represents both. They are equal under `operator==`.
-/
import Msgpack11.Canonical
import Msgpack11.Grammar

set_option autoImplicit false

namespace Msgpack11.Canonicity

open Msgpack11.StrictWeak Msgpack11.SortedUnique Msgpack11.Compare Msgpack11.KeyOrder
open Msgpack11.Ordering Msgpack11.Grammar Msgpack11.Dump Msgpack11.Shortest Msgpack11.Canonical

/-! ## Equality and canonical derivations -/

/-- The class of values a derivation denotes one of. -/
def kind : Wire → ℕ
  | .nil => MsgPackType.NUL.code
  | .bool _ => MsgPackType.BOOL.code
  | .fixint _ | .arith _ _ => MsgPackType.FLOAT32.code
  | .string _ _ => MsgPackType.STRING.code
  | .binary _ _ => MsgPackType.BINARY.code
  | .array _ _ => MsgPackType.ARRAY.code
  | .object _ _ => MsgPackType.OBJECT.code
  | .extension _ _ _ => MsgPackType.EXTENSION.code

theorem kind_canon (x : MsgPack) : kind (canon x) = rank x := by
  have hint : ∀ n, kind (canonInt n) = MsgPackType.FLOAT32.code := by
    intro n
    unfold canonInt
    split_ifs <;> rfl
  cases x <;> first | exact hint _ | rfl

/-- Values of different classes are unequal and have different encodings, so only those
of the same class have to be looked into. -/
theorem equals_iff_canon_of_rank {a b : MsgPack}
    (h : rank b = rank a → (equals a b = true ↔ canon a = canon b)) :
    equals a b = true ↔ canon a = canon b := by
  by_cases hr : rank b = rank a
  · exact h hr
  rw [equals_of_rank_ne (Ne.symm hr)]
  constructor
  · intro hfalse
    cases hfalse
  · intro heq
    refine absurd ?_ hr
    rw [← kind_canon a, ← kind_canon b, heq]

/-- Arrays with the same encodings of their elements have the same length, hence the same
header. -/
theorem canon_array_iff {v w : List MsgPack} :
    canon (.array v) = canon (.array w) ↔ v.map canon = w.map canon := by
  rw [canon, canon, Wire.array.injEq, canonItems_eq_map, canonItems_eq_map]
  constructor
  · exact fun h => h.2
  · intro h
    have hlen := congrArg List.length h
    rw [List.length_map, List.length_map] at hlen
    exact ⟨by rw [hlen], h⟩

theorem canon_object_iff {v w : List (MsgPack × MsgPack)} :
    canon (.object v) = canon (.object w) ↔
      v.map (fun e => (canon e.1, canon e.2)) = w.map fun e => (canon e.1, canon e.2) := by
  rw [canon, canon, Wire.object.injEq, canonEntries_eq_map, canonEntries_eq_map]
  constructor
  · exact fun h => h.2
  · intro h
    have hlen := congrArg List.length h
    rw [List.length_map, List.length_map] at hlen
    exact ⟨by rw [hlen], h⟩

theorem integer_of_isNumber {b : MsgPack} (hnum : IsNumber b) (hfree : b.isFloat = false) :
    ∃ n, b.integer? = some n := by
  cases b <;> first
    | exact ⟨_, rfl⟩
    | exact absurd hnum Bool.false_ne_true
    | exact absurd hfree.symm Bool.false_ne_true

/-- `operator==` is equality of the canonical derivations, by induction on the left
operand. -/
theorem equals_iff_canon {a b : MsgPack} (ha : a.FloatFree) (hb : b.FloatFree) :
    equals a b = true ↔ canon a = canon b := by
  induction a using MsgPack.induction generalizing b with
  | leaf a hleaf =>
      refine equals_iff_canon_of_rank fun hr => ?_
      revert ha hr
      refine MsgPack.leaf_cases hleaf ?_ ?_ ?_ ?_ ?_ ?_ ?_ ?_
      · intro a m hm ha hr
        -- a number that is no float is an integer, and integers compare as such
        obtain ⟨n, hn⟩ := integer_of_isNumber (isNumber_of_rank_eq (isNumber_of_integer hm) hr)
          hb.self
        rw [equals_of_integers hm hn, decide_eq_true_eq, canon_of_integer hm, canon_of_integer hn]
        constructor
        · intro hmn
          rw [hmn]
        · exact canonInt_injective (fits_of_integer hm) (fits_of_integer hn)
      · intro _ hr
        have htype := type_of_rank_eq (c := .nul) Bool.false_ne_true hr
        obtain rfl := exists_of_type.1 htype
        simp [compare_nul.2]
      · intro v _ hr
        have htype := type_of_rank_eq (c := .bool v) Bool.false_ne_true hr
        obtain ⟨w, rfl⟩ := exists_of_type.2.1 htype
        rw [(compare_bool v w).2, decide_eq_true_eq, canon, canon, Wire.bool.injEq]
      · intro v ha
        exact absurd ha.self.symm Bool.false_ne_true
      · intro v ha
        exact absurd ha.self.symm Bool.false_ne_true
      · intro v _ hr
        have htype := type_of_rank_eq (c := .string v) Bool.false_ne_true hr
        obtain ⟨w, rfl⟩ := exists_of_type.2.2.1 htype
        rw [(compare_string v w).2, bytesEq_iff, canon, canon, Wire.string.injEq]
        exact ⟨fun h => ⟨by rw [h], h⟩, fun h => h.2⟩
      · intro v _ hr
        have htype := type_of_rank_eq (c := .binary v) Bool.false_ne_true hr
        obtain ⟨w, rfl⟩ := exists_of_type.2.2.2.1 htype
        rw [(compare_binary v w).2, bytesEq_iff, canon, canon, Wire.binary.injEq]
        exact ⟨fun h => ⟨by rw [h], h⟩, fun h => h.2⟩
      · intro t v _ hr
        have htype := type_of_rank_eq (c := .extension t v) Bool.false_ne_true hr
        obtain ⟨⟨u, w⟩, rfl⟩ := exists_of_type.2.2.2.2.2.2 htype
        rw [(compare_extension (t, v) (u, w)).2, pairEq, Bool.and_eq_true, decide_eq_true_eq,
          bytesEq_iff, canon, canon, Wire.extension.injEq]
        constructor
        · rintro ⟨rfl, rfl⟩
          exact ⟨rfl, rfl, rfl⟩
        · rintro ⟨-, htag, hv⟩
          have ht := congrArg UInt8.toInt8 htag
          rw [Int8.toInt8_toUInt8, Int8.toInt8_toUInt8] at ht
          exact ⟨ht, hv⟩
  | array v ih =>
      refine equals_iff_canon_of_rank fun hr => ?_
      have htype := type_of_rank_eq (c := .array v) Bool.false_ne_true hr
      obtain ⟨w, rfl⟩ := exists_of_type.2.2.2.2.1 htype
      rw [MsgPack.FloatFree, MsgPack.all_array] at ha hb
      rw [(compare_array v w).2, canon_array_iff]
      exact isEqv_iff_map fun x hx y hy => ih x hx (ha.2 x hx) (hb.2 y hy)
  | object v ih =>
      refine equals_iff_canon_of_rank fun hr => ?_
      have htype := type_of_rank_eq (c := .object v) Bool.false_ne_true hr
      obtain ⟨w, rfl⟩ := exists_of_type.2.2.2.2.2.1 htype
      rw [MsgPack.FloatFree, MsgPack.all_object] at ha hb
      rw [(compare_object v w).2, canon_object_iff]
      apply isEqv_iff_map
      intro e he e' he'
      rw [pairEq, Bool.and_eq_true, (ih e he).1 (ha.2 e he).1 (hb.2 e' he').1,
        (ih e he).2 (ha.2 e he).2 (hb.2 e' he').2, Prod.mk.injEq]

/-! ## Objects built in different orders -/

/-- Equal keys come with equal values, so that the entries describe one map. -/
def DetermineValues (es : List (MsgPack × MsgPack)) : Prop :=
  ∀ e ∈ es, ∀ e' ∈ es, equals e.1 e'.1 = true → equals e.2 e'.2 = true

/-- The same entries inserted in two orders give equal objects. -/
theorem equals_of_perm {es es' : List (MsgPack × MsgPack)} (hp : es.Perm es')
    (hfree : ∀ e ∈ es, e.1.FloatFree) (hvalues : DetermineValues es) :
    equals (.object (insertAll entryLess [] es)) (.object (insertAll entryLess [] es')) = true := by
  rw [(compare_object _ _).2]
  apply isEqv_of_forall₂ (insertAll_forall₂_of_perm strictWeak_entryLess hfree hp)
  intro e he e' he' hinc
  have hmem := mem_of_mem_insertAll_nil he
  have hmem' := hp.mem_iff.mpr (mem_of_mem_insertAll_nil he')
  -- entries in the same position have equal keys, hence equal values
  have hkeys : equals e.1 e'.1 = true :=
    (equals_iff_incomp (hfree e hmem).naNFree (hfree e' hmem').naNFree).mpr hinc
  rw [pairEq, hkeys, hvalues e hmem e' hmem' hkeys]
  rfl

/-! ## Canonical encodings -/

/-- Two values have equal encodings exactly when they are equal. So have equal
integers of whatever types, and objects built from the same entries in whatever
orders. -/
theorem dump_eq_iff_equals (is_big_endian : Bool) {a b : MsgPack} (ha : a.FloatFree)
    (hb : b.FloatFree) (hfita : a.LengthsFit) (hfitb : b.LengthsFit) :
    (∃ s t, dump is_big_endian a = .ok s ∧ dump is_big_endian b = .ok t ∧
      (equals a b = true ↔ s = t)) ∧
    (∀ n, a.integer? = some n → b.integer? = some n →
      dump is_big_endian a = dump is_big_endian b) ∧
    (∀ es es', a = .object (insertAll entryLess [] es) → b = .object (insertAll entryLess [] es') →
      es.Perm es' → (∀ e ∈ es, e.1.FloatFree) → DetermineValues es →
      dump is_big_endian a = dump is_big_endian b) := by
  obtain ⟨s, hs, hdumpa⟩ := dump_eq_canon is_big_endian hfita
  obtain ⟨t, ht, hdumpb⟩ := dump_eq_canon is_big_endian hfitb
  -- bytes determine derivations, and derivations are equal when the values are
  have hiff : equals a b = true ↔ s = t := by
    rw [equals_iff_canon ha hb]
    constructor
    · intro h
      rw [h, ht] at hs
      exact (Option.some.inj hs).symm
    · intro h
      rw [← h] at ht
      exact WireReader.bytes_injective hs ht
  have hdump : equals a b = true → dump is_big_endian a = dump is_big_endian b := by
    intro h
    rw [hdumpa, hdumpb, hiff.mp h]
  refine ⟨⟨s, t, hdumpa, hdumpb, hiff⟩, ?_, ?_⟩
  · intro n hna hnb
    apply hdump
    rw [equals_of_integers hna hnb]
    exact decide_eq_true rfl
  · rintro es es' rfl rfl hp hfree hvalues
    exact hdump (equals_of_perm hp hfree hvalues)

/-- A map built in two orders from a key in two types, and its bytes. -/
theorem dump_of_two_orders :
    let es : List (MsgPack × MsgPack) := [(.uint8 1, .nul), (.string [], .nul), (.int64 1, .nul)]
    let es' : List (MsgPack × MsgPack) := [(.int64 1, .nul), (.string [], .nul), (.uint8 1, .nul)]
    dump false (.object (insertAll entryLess [] es))
      = dump false (.object (insertAll entryLess [] es')) := by
  intro es es'
  have hvalues : DetermineValues es := by
    unfold DetermineValues
    decide +kernel
  exact (dump_eq_iff_equals false (a := .object (insertAll entryLess [] es))
    (b := .object (insertAll entryLess [] es')) (by decide +kernel) (by decide +kernel)
    (by decide +kernel) (by decide +kernel)).2.2 es es' rfl rfl (List.reverse_perm es')
    (by decide +kernel) hvalues

end Msgpack11.Canonicity
