/-
The eight integer types of the interface: `MsgPack(T v)` and the accessors
`int8_value()` … `uint64_value()`.

What is asked of them is independent of the type in which a value happens to be
held. An accessor returns the residue of the integer in its own type (`accessor_eq`),
so it is the same on both sides of a round trip, where a value usually changes its
type; and mixed operands compare as the integers they hold, although most pairs
are compared as `double`.
-/
import Msgpack11.RoundTrip
import Mathlib.Data.Int.ModEq

set_option autoImplicit false

namespace Msgpack11.Integers

open Msgpack11.Compare Msgpack11.KeyOrder Msgpack11.Parse Msgpack11.Shortest Msgpack11.Canonical
open Msgpack11.Ordering Msgpack11.RoundTrip

/-! ## The types -/

/-- The integer types a `MsgPack` is constructed from and read as. -/
inductive IntType where
  | int8 | int16 | int32 | int64 | uint8 | uint16 | uint32 | uint64
  deriving DecidableEq, Repr

namespace IntType

def bits : IntType → ℕ
  | .int8 | .uint8 => 8
  | .int16 | .uint16 => 16
  | .int32 | .uint32 => 32
  | .int64 | .uint64 => 64

def signed : IntType → Bool
  | .int8 | .int16 | .int32 | .int64 => true
  | .uint8 | .uint16 | .uint32 | .uint64 => false

/-- `std::numeric_limits<T>::min()`. -/
def min (T : IntType) : ℤ := if T.signed then -2 ^ (T.bits - 1) else 0

/-- `std::numeric_limits<T>::max()`. -/
def max (T : IntType) : ℤ := if T.signed then 2 ^ (T.bits - 1) - 1 else 2 ^ T.bits - 1

/-- The integers of the type. -/
def InRange (T : IntType) (v : ℤ) : Prop := T.min ≤ v ∧ v ≤ T.max

instance (T : IntType) (v : ℤ) : Decidable (T.InRange v) :=
  inferInstanceAs (Decidable (_ ∧ _))

/-- `MsgPack(T v)`, with the constructor for `T`. -/
def msgpack : IntType → ℤ → MsgPack
  | .int8, v => .int8 (Int8.ofInt v)
  | .int16, v => .int16 (Int16.ofInt v)
  | .int32, v => .int32 (Int32.ofInt v)
  | .int64, v => .int64 (Int64.ofInt v)
  | .uint8, v => .uint8 (UInt8.ofInt v)
  | .uint16, v => .uint16 (UInt16.ofInt v)
  | .uint32, v => .uint32 (UInt32.ofInt v)
  | .uint64, v => .uint64 (UInt64.ofInt v)

/-- What the accessor named after the type returns. -/
def accessor : IntType → MsgPack → ℤ
  | .int8, x => x.int8_value.toInt
  | .int16, x => x.int16_value.toInt
  | .int32, x => x.int32_value.toInt
  | .int64, x => x.int64_value.toInt
  | .uint8, x => x.uint8_value.toNat
  | .uint16, x => x.uint16_value.toNat
  | .uint32, x => x.uint32_value.toNat
  | .uint64, x => x.uint64_value.toNat

/-- The cast of an integer to the type. -/
def cast (A : IntType) (v : ℤ) : ℤ :=
  if A.signed then v.bmod (2 ^ A.bits) else v % 2 ^ A.bits

/-! ## Casts -/

theorem cast_modEq (A : IntType) (v : ℤ) : A.cast v ≡ v [ZMOD 2 ^ A.bits] := by
  unfold cast
  split_ifs
  · have h := Int.bmod_emod (x := v) (m := 2 ^ A.bits)
    push_cast at h
    exact h
  · exact Int.mod_modEq v _

theorem inRange_cast (A : IntType) (v : ℤ) : A.InRange (A.cast v) := by
  have hpos : 0 < 2 ^ A.bits := Nat.two_pow_pos _
  have hlo := Int.le_bmod (x := v) hpos
  have hhi := Int.bmod_lt (x := v) hpos
  cases A <;> simp only [bits] at hlo hhi <;>
    simp only [InRange, min, max, cast, signed, bits, if_true, if_false, Bool.false_eq_true] <;>
    omega

/-- Two integers of one type with the same residue are the same. -/
theorem eq_of_modEq {A : IntType} {u v : ℤ} (hu : A.InRange u) (hv : A.InRange v)
    (h : u ≡ v [ZMOD 2 ^ A.bits]) : u = v := by
  unfold Int.ModEq at h
  cases A <;> simp only [InRange, min, max, signed, bits] at hu hv h <;> simp at hu hv <;> omega

theorem cast_of_inRange {A : IntType} {v : ℤ} (h : A.InRange v) : A.cast v = v :=
  eq_of_modEq (A.inRange_cast v) h (A.cast_modEq v)

/-- The constructor of a type stores the cast of its argument. -/
theorem integer_msgpack (T : IntType) (v : ℤ) : (T.msgpack v).integer? = some (T.cast v) := by
  cases T <;> simp only [msgpack, MsgPack.integer?, cast, signed, bits, if_true, if_false,
    Bool.false_eq_true, Option.some.injEq]
  case int8 => exact Int8.toInt_ofInt
  case int16 => exact Int16.toInt_ofInt
  case int32 => exact Int32.toInt_ofInt
  case int64 => exact Int64.toInt_ofInt
  all_goals
    simp only [UInt8.ofInt, UInt16.ofInt, UInt32.ofInt, UInt64.ofInt, UInt8.toNat_ofNat',
      UInt16.toNat_ofNat', UInt32.toNat_ofNat', UInt64.toNat_ofNat']
    omega

theorem integer_msgpack_of_inRange {T : IntType} {v : ℤ} (h : T.InRange v) :
    (T.msgpack v).integer? = some v := by
  rw [integer_msgpack, cast_of_inRange h]

/-- An accessor casts whatever number the value holds, as the constructor of its own
type would. -/
theorem accessor_eq (A : IntType) (x : MsgPack) : A.accessor x = A.cast x.castOperand := by
  have hself : (A.msgpack x.castOperand).integer? = some (A.accessor x) := by cases A <;> rfl
  rw [integer_msgpack] at hself
  exact (Option.some.inj hself).symm

/-- A value that holds an integer has been constructed from it, as one of its type. -/
theorem exists_msgpack_of_integer {x : MsgPack} {n : ℤ} (h : x.integer? = some n) :
    ∃ A : IntType, A.InRange n ∧ x = A.msgpack n := by
  -- the signed types: a two's complement number is in its range
  have hsigned : ∀ {A : IntType}, A.signed = true → -2 ^ (A.bits - 1) ≤ n → n < 2 ^ (A.bits - 1) →
      A.InRange n := by
    intro A hA hlo hhi
    rw [InRange, min, max, if_pos hA, if_pos hA]
    exact ⟨hlo, Int.le_sub_one_of_lt hhi⟩
  have hunsigned : ∀ {A : IntType} (k : ℕ), A.signed = false → n = k → k < 2 ^ A.bits →
      A.InRange n := by
    intro A k hA hn hk
    rw [InRange, min, max, if_neg (by simp [hA]), if_neg (by simp [hA]), hn]
    refine ⟨Int.natCast_nonneg k, Int.le_sub_one_of_lt ?_⟩
    exact_mod_cast hk
  cases x <;> simp only [MsgPack.integer?, Option.some.injEq, reduceCtorEq] at h <;> subst h
  case int8 v => exact ⟨.int8, hsigned rfl v.le_toInt v.toInt_lt, by rw [msgpack, Int8.ofInt_toInt]⟩
  case int16 v =>
    exact ⟨.int16, hsigned rfl v.le_toInt v.toInt_lt, by rw [msgpack, Int16.ofInt_toInt]⟩
  case int32 v =>
    exact ⟨.int32, hsigned rfl v.le_toInt v.toInt_lt, by rw [msgpack, Int32.ofInt_toInt]⟩
  case int64 v =>
    exact ⟨.int64, hsigned rfl v.le_toInt v.toInt_lt, by rw [msgpack, Int64.ofInt_toInt]⟩
  case uint8 v =>
    have hr : IntType.uint8.InRange (v.toNat : ℤ) := hunsigned _ rfl rfl v.toNat_lt
    have hv := Option.some.inj (integer_msgpack_of_inRange hr)
    exact ⟨.uint8, hr, congrArg MsgPack.uint8 (UInt8.toNat_inj.mp (Int.ofNat.inj hv.symm))⟩
  case uint16 v =>
    have hr : IntType.uint16.InRange (v.toNat : ℤ) := hunsigned _ rfl rfl v.toNat_lt
    have hv := Option.some.inj (integer_msgpack_of_inRange hr)
    exact ⟨.uint16, hr, congrArg MsgPack.uint16 (UInt16.toNat_inj.mp (Int.ofNat.inj hv.symm))⟩
  case uint32 v =>
    have hr : IntType.uint32.InRange (v.toNat : ℤ) := hunsigned _ rfl rfl v.toNat_lt
    have hv := Option.some.inj (integer_msgpack_of_inRange hr)
    exact ⟨.uint32, hr, congrArg MsgPack.uint32 (UInt32.toNat_inj.mp (Int.ofNat.inj hv.symm))⟩
  case uint64 v =>
    have hr : IntType.uint64.InRange (v.toNat : ℤ) := hunsigned _ rfl rfl v.toNat_lt
    have hv := Option.some.inj (integer_msgpack_of_inRange hr)
    exact ⟨.uint64, hr, congrArg MsgPack.uint64 (UInt64.toNat_inj.mp (Int.ofNat.inj hv.symm))⟩

theorem accessor_of_integer (A : IntType) {x : MsgPack} {n : ℤ} (h : x.integer? = some n) :
    A.accessor x = A.cast n := by
  have hoperand : x.castOperand = n := by simp only [MsgPack.castOperand, h]
  rw [accessor_eq, hoperand]

end IntType

/-! ## Comparison -/

/-- Two integers compare as integers, of whatever types they are and whichever is on
the left. -/
theorem compare_exact (S T : IntType) {v w : ℤ} (hv : S.InRange v) (hw : T.InRange w) :
    (equals (S.msgpack v) (T.msgpack w) = true ↔ v = w) ∧
      (less (S.msgpack v) (T.msgpack w) = true ↔ v < w) ∧
      (equals (T.msgpack w) (S.msgpack v) = true ↔ w = v) ∧
      (less (T.msgpack w) (S.msgpack v) = true ↔ w < v) := by
  have hv' := IntType.integer_msgpack_of_inRange hv
  have hw' := IntType.integer_msgpack_of_inRange hw
  rw [equals_of_integers hv' hw', less_of_integers hv' hw', equals_of_integers hw' hv',
    less_of_integers hw' hv']
  simp only [decide_eq_true_eq, and_self]

/-- The largest `int64_t` and its successor, which are one `double`. -/
theorem compare_exact_boundary :
    let a := IntType.int64.msgpack (2 ^ 63 - 1)
    let b := IntType.uint64.msgpack (2 ^ 63)
    a.float64_value = b.float64_value ∧ less a b = true ∧ less b a ≠ true := by
  intro a b
  have h := compare_exact .int64 .uint64 (v := 2 ^ 63 - 1) (w := 2 ^ 63) (by decide) (by decide)
  refine ⟨by decide +kernel, h.2.1.mpr (by decide), ?_⟩
  rw [Ne, h.2.2.2]
  decide

/-! ## Accessors across a round trip -/

/-- A value holding an integer meets what the round trip asks for. -/
theorem wellFormed_of_integer {x : MsgPack} {n : ℤ} (h : x.integer? = some n) :
    MapsSorted x ∧ x.LengthsFit ∧ x.KeysFloatFree ∧ x.height = 0 := by
  have hleaf := leaf_of_number (isNumber_of_integer h)
  have hitems := MsgPack.object_items_of_leaf hleaf
  have hlength : x.length = 0 := by cases x <;> first | rfl | cases h
  refine ⟨(MsgPack.all_leaf hleaf).mpr ?_, (MsgPack.all_leaf hleaf).mpr ?_,
    (MsgPack.all_leaf hleaf).mpr ?_, MsgPack.height_of_leaf hleaf⟩
  · rw [hitems]
    exact List.Pairwise.nil
  · rw [hlength]
    exact Nat.zero_le _
  · rw [hitems]
    intro e he
    cases he

/-- Whatever type an integer was sent in, every accessor returns the same before and
after: the integer of its own type that is congruent to it. -/
theorem accessors_of_parse_dump (is_big_endian is_big_endian' : Bool) (T : IntType) {v : ℤ}
    (hv : T.InRange v) :
    ∃ s y, Dump.dump is_big_endian (T.msgpack v) = .ok s ∧
      (∀ err, parse is_big_endian' s err = (y, err)) ∧
      (∀ A : IntType, A.accessor y = A.accessor (T.msgpack v) ∧
        A.InRange (A.accessor y) ∧ A.accessor y ≡ v [ZMOD 2 ^ A.bits] ∧
        (∀ u, A.InRange u → u ≡ v [ZMOD 2 ^ A.bits] → u = A.accessor y) ∧
        (A.InRange v → A.accessor y = v)) ∧
      y.float64_value = (T.msgpack v).float64_value := by
  have hx := IntType.integer_msgpack_of_inRange hv
  have hy := integer_narrow (fits_of_integer hx)
  obtain ⟨hsorted, hfit, hkeys, hheight⟩ := wellFormed_of_integer hx
  obtain ⟨s, hdump, hback, -⟩ := parse_dump is_big_endian is_big_endian' hsorted hfit hkeys
  obtain ⟨hparse, -, -⟩ := hback (by rw [hheight]; exact Nat.zero_le _)
  rw [narrowed_of_integer hx] at hparse
  refine ⟨s, narrow v, hdump, hparse, ?_, ?_⟩
  · intro A
    rw [A.accessor_of_integer hx, A.accessor_of_integer hy]
    refine ⟨rfl, A.inRange_cast v, A.cast_modEq v, ?_, IntType.cast_of_inRange⟩
    intro u hu hmod
    exact IntType.eq_of_modEq hu (A.inRange_cast v) (hmod.trans (A.cast_modEq v).symm)
  · rw [float64_value_of_integer hx, float64_value_of_integer hy]

/-- `-200`, sent as an `int64_t`, read as a byte. -/
theorem accessors_of_parse_dump_byte :
    ∃ s y, Dump.dump false (IntType.int64.msgpack (-200)) = .ok s ∧
      parse true s "" = (y, "") ∧ IntType.uint8.accessor y = 56 := by
  obtain ⟨s, y, hdump, hparse, haccessors, -⟩ :=
    accessors_of_parse_dump false true .int64 (v := -200) (by decide)
  refine ⟨s, y, hdump, hparse "", ?_⟩
  exact ((haccessors .uint8).2.2.2.1 56 (by decide) (by decide)).symm

end Msgpack11.Integers
