/-
The shortest forms of the format, and that the `dump` overloads pick them.

The format leaves two choices open: the type in which an integer is sent, and
the width of a length field. `canonInt` and `shortForm` make them, by the
integer and the length alone. The source makes them in cascades: eight integer
overloads that hand a value on to the next narrower type, five payload overloads
with up to nine length classes each. The two sections on cascades say that they
compute the choices, on either kind of host; the last section, that no other
choice is shorter.
-/
import Msgpack11.Dump
import Msgpack11.Wire

set_option autoImplicit false

namespace Msgpack11.Shortest

open Msgpack11.Bytes Msgpack11.Dump Msgpack11.Codec Msgpack11.Format

/-! ## Integers -/

/-- The narrowest type that holds the integer `n`, unsigned if `n` is not negative. -/
def narrowest (n : ℤ) : Fundamental :=
  if 0 ≤ n then
    if n < 2 ^ 8 then .uint8 else if n < 2 ^ 16 then .uint16 else if n < 2 ^ 32 then .uint32
    else .uint64
  else
    if -2 ^ 7 ≤ n then .int8 else if -2 ^ 15 ≤ n then .int16 else if -2 ^ 31 ≤ n then .int32
    else .int64

/-- The integer `n` in its narrowest type. -/
def narrow (n : ℤ) : MsgPack := (narrowest n).value (residue (narrowest n).size n)

/-- The encoding of the integer `n`: one byte if it is one by itself, else the
narrowest type. -/
def canonInt (n : ℤ) : Wire :=
  if -32 ≤ n ∧ n < 128 then .fixint (UInt8.ofNat (residue 1 n))
  else .arith (narrowest n) (digits (narrowest n).size n)

/-- The integers some class of the code can hold. -/
abbrev Fits (n : ℤ) : Prop := -2 ^ 63 ≤ n ∧ n < 2 ^ 64

theorem fits_of_integer {x : MsgPack} {n : ℤ} (h : x.integer? = some n) : Fits n := by
  cases x <;> simp only [MsgPack.integer?, Option.some.injEq, reduceCtorEq] at h <;> subst h
  case int8 v => have := v.le_toInt; have := v.toInt_lt; omega
  case int16 v => have := v.le_toInt; have := v.toInt_lt; omega
  case int32 v => have := v.le_toInt; have := v.toInt_lt; omega
  case int64 v => have := v.le_toInt; have := v.toInt_lt; omega
  case uint8 v => have := v.toNat_lt; omega
  case uint16 v => have := v.toNat_lt; omega
  case uint32 v => have := v.toNat_lt; omega
  case uint64 v => have := v.toNat_lt; omega

/-- An integer that fits keeps its value in its narrowest type. -/
theorem integer_narrow {n : ℤ} (h : Fits n) : (narrow n).integer? = some n := by
  unfold narrow narrowest
  split_ifs
  -- the unsigned types hold the residue, which is the integer itself
  iterate 4
    simp only [Fundamental.value, Fundamental.size, MsgPack.integer?, residue, Option.some.injEq,
      UInt8.toNat_ofNat', UInt16.toNat_ofNat', UInt32.toNat_ofNat', UInt64.toNat_ofNat']
    omega
  -- the signed types hold the balanced residue
  · have hmod := bmod_residue (w := 1) (n := n) (by omega) (by omega)
    simpa [Fundamental.value, Fundamental.size, MsgPack.integer?] using hmod
  · have hmod := bmod_residue (w := 2) (n := n) (by omega) (by omega)
    simpa [Fundamental.value, Fundamental.size, MsgPack.integer?] using hmod
  · have hmod := bmod_residue (w := 4) (n := n) (by omega) (by omega)
    simpa [Fundamental.value, Fundamental.size, MsgPack.integer?] using hmod
  · have hmod := bmod_residue (w := 8) (n := n) (by omega) (by omega)
    simpa [Fundamental.value, Fundamental.size, MsgPack.integer?] using hmod

/-- The byte of an integer that is one by itself. -/
theorem toNat_fixint {n : ℤ} (h : -32 ≤ n ∧ n < 128) :
    (UInt8.ofNat (residue 1 n)).toNat = if 0 ≤ n then n.toNat else (256 + n).toNat := by
  rw [UInt8.toNat_ofNat', residue]
  split_ifs <;> omega

theorem lt_fixint_iff {n : ℤ} (h : -32 ≤ n ∧ n < 128) :
    UInt8.ofNat (residue 1 n) < 0x80 ↔ 0 ≤ n := by
  have hlit : (0x80 : UInt8).toNat = 128 := rfl
  rw [UInt8.lt_iff_toNat_lt, toNat_fixint h, hlit]
  split_ifs <;> omega

theorem isFixint_fixint {n : ℤ} (h : -32 ≤ n ∧ n < 128) :
    isFixint (UInt8.ofNat (residue 1 n)) = true := by
  have hlo : (0x80 : UInt8).toNat = 128 := rfl
  have hhi : (0xe0 : UInt8).toNat = 224 := rfl
  rw [isFixint, Bool.or_eq_true, decide_eq_true_eq, decide_eq_true_eq, UInt8.lt_iff_toNat_lt,
    UInt8.le_iff_toNat_le, toNat_fixint h, hlo, hhi]
  split_ifs <;> omega

/-- The encoding of an integer denotes it in its narrowest type. -/
theorem denote_canonInt (n : ℤ) : (canonInt n).denote = narrow n := by
  unfold canonInt
  split_ifs with h
  · rw [Wire.denote, narrow, narrowest]
    simp only [lt_fixint_iff h]
    split_ifs <;> first | rfl | omega
  · rw [Wire.denote, ofBE_digits, narrow]

theorem canonInt_injective {m n : ℤ} (hm : Fits m) (hn : Fits n) (h : canonInt m = canonInt n) :
    m = n := by
  have hnarrow := congrArg Wire.denote h
  rw [denote_canonInt, denote_canonInt] at hnarrow
  have hm' := integer_narrow hm
  rw [hnarrow, integer_narrow hn] at hm'
  exact (Option.some.inj hm').symm

theorem bytes_canonInt_fix {n : ℤ} (h : -32 ≤ n ∧ n < 128) :
    (canonInt n).bytes = some [UInt8.ofNat (residue 1 n)] := by
  rw [canonInt, if_pos h, Wire.bytes, if_pos (isFixint_fixint h)]

/-! ## The cascade of integers

Each overload either writes its own form or hands a value that fits the next
narrower type to its overload. -/

section Cascade

variable (is_big_endian : Bool)

/-- An integer that is no byte by itself is written in its narrowest type. -/
theorem bytes_canonInt_arith {n : ℤ} {T : Fundamental} {v : ℕ} (h : ¬ (-32 ≤ n ∧ n < 128))
    (hT : narrowest n = T) (hv : residue T.size n = v) :
    (canonInt n).bytes = some (arithTag T :: dump_data is_big_endian T.size v) := by
  rw [canonInt, if_neg h, hT, Wire.bytes, if_pos (digits_length _ _), digits, hv,
    dump_data_eq_toBE]

theorem bytes_uint8 (v : UInt8) : (canonInt v.toNat).bytes = some (dump_uint8 v) := by
  have hlit : (128 : UInt8).toNat = 128 := rfl
  have hres : residue 1 (v.toNat : ℤ) = v.toNat := residue_natCast v.toNat_lt
  unfold dump_uint8
  split_ifs with h
  · rw [UInt8.le_iff_toNat_le, hlit] at h
    have hT : narrowest (v.toNat : ℤ) = .uint8 := by
      have := v.toNat_lt
      rw [narrowest, if_pos (by omega), if_pos (by omega)]
    have hone : dump_data false 1 v.toNat = [v] := dump_data_one false v
    rw [bytes_canonInt_arith false (by omega) hT hres, Fundamental.size, hone]
    rfl
  · rw [UInt8.le_iff_toNat_le, hlit] at h
    rw [bytes_canonInt_fix (by omega), hres, UInt8.ofNat_toNat]

theorem bytes_uint16 (v : UInt16) :
    (canonInt v.toNat).bytes = some (dump_uint16 is_big_endian v) := by
  have hlit : ((1 : UInt16) <<< 8).toNat = 2 ^ 8 := rfl
  unfold dump_uint16
  split_ifs with h
  · rw [UInt16.lt_iff_toNat_lt, hlit] at h
    have hnarrow : v.toUInt8.toNat = v.toNat := by
      rw [UInt16.toNat_toUInt8, Nat.mod_eq_of_lt h]
    rw [← bytes_uint8, hnarrow]
  · rw [UInt16.lt_iff_toNat_lt, hlit] at h
    have hlt := v.toNat_lt
    have hT : narrowest (v.toNat : ℤ) = .uint16 := by
      rw [narrowest, if_pos (by omega), if_neg (by omega), if_pos (by omega)]
    exact bytes_canonInt_arith is_big_endian (by omega) hT (residue_natCast hlt)

theorem bytes_uint32 (v : UInt32) :
    (canonInt v.toNat).bytes = some (dump_uint32 is_big_endian v) := by
  have hlit : ((1 : UInt32) <<< 16).toNat = 2 ^ 16 := rfl
  unfold dump_uint32
  split_ifs with h
  · rw [UInt32.lt_iff_toNat_lt, hlit] at h
    have hnarrow : v.toUInt16.toNat = v.toNat := by
      rw [UInt32.toNat_toUInt16, Nat.mod_eq_of_lt h]
    rw [← bytes_uint16, hnarrow]
  · rw [UInt32.lt_iff_toNat_lt, hlit] at h
    have hlt := v.toNat_lt
    have hT : narrowest (v.toNat : ℤ) = .uint32 := by
      rw [narrowest, if_pos (by omega), if_neg (by omega), if_neg (by omega), if_pos (by omega)]
    exact bytes_canonInt_arith is_big_endian (by omega) hT (residue_natCast hlt)

theorem bytes_uint64 (v : UInt64) :
    (canonInt v.toNat).bytes = some (dump_uint64 is_big_endian v) := by
  have hlit : ((1 : UInt64) <<< 32).toNat = 2 ^ 32 := rfl
  unfold dump_uint64
  split_ifs with h
  · rw [UInt64.lt_iff_toNat_lt, hlit] at h
    have hnarrow : v.toUInt32.toNat = v.toNat := by
      rw [UInt64.toNat_toUInt32, Nat.mod_eq_of_lt h]
    rw [← bytes_uint32, hnarrow]
  · rw [UInt64.lt_iff_toNat_lt, hlit] at h
    have hlt := v.toNat_lt
    have hT : narrowest (v.toNat : ℤ) = .uint64 := by
      rw [narrowest, if_pos (by omega), if_neg (by omega), if_neg (by omega), if_neg (by omega)]
    exact bytes_canonInt_arith is_big_endian (by omega) hT (residue_natCast hlt)

/-- The storage of a signed integer holds its residue. -/
theorem residue_toInt {w : ℕ} {n : ℤ} {v : ℕ} (h : (v : ℤ) = n % 2 ^ (8 * w)) :
    residue w n = v := by
  have hpow : (256 : ℤ) ^ w = 2 ^ (8 * w) := by
    rw [pow_mul]
    norm_num
  rw [residue, hpow, ← h, Int.toNat_natCast]

theorem bytes_int8 (v : Int8) : (canonInt v.toInt).bytes = some (dump_int8 v) := by
  have hlit : (-32 : Int8).toInt = -32 := rfl
  have hlo := v.le_toInt
  have hhi := v.toInt_lt
  have hres : residue 1 v.toInt = v.toUInt8.toNat := residue_toInt (toNat_eq_emod v.toBitVec)
  unfold dump_int8
  split_ifs with h
  · rw [Int8.lt_iff_toInt_lt, hlit] at h
    have hT : narrowest v.toInt = .int8 := by
      rw [narrowest, if_neg (by omega), if_pos (by omega)]
    have hone : dump_data false 1 v.toUInt8.toNat = [v.toUInt8] := dump_data_one false _
    rw [bytes_canonInt_arith false (by omega) hT hres, Fundamental.size, hone]
    rfl
  · rw [Int8.lt_iff_toInt_lt, hlit] at h
    rw [bytes_canonInt_fix (by omega), hres, UInt8.ofNat_toNat]

theorem bytes_int16 (v : Int16) :
    (canonInt v.toInt).bytes = some (dump_int16 is_big_endian v) := by
  have hlit : (-((1 : Int16) <<< 7)).toInt = -2 ^ 7 := rfl
  have hzero : (0 : Int16).toInt = 0 := rfl
  have hlo := v.le_toInt
  have hhi := v.toInt_lt
  have hbits : (v.toUInt16.toNat : ℤ) = v.toInt % 2 ^ 16 := toNat_eq_emod v.toBitVec
  unfold dump_int16
  split_ifs with h h0
  · rw [Int16.lt_iff_toInt_lt, hlit] at h
    have hT : narrowest v.toInt = .int16 := by
      rw [narrowest, if_neg (by omega), if_neg (by omega), if_pos (by omega)]
    exact bytes_canonInt_arith is_big_endian (by omega) hT (residue_toInt hbits)
  · rw [Int16.lt_iff_toInt_lt, hlit] at h
    rw [Int16.le_iff_toInt_le, hzero] at h0
    have hnarrow : v.toInt8.toInt = v.toInt := by
      rw [Int16.toInt_toInt8, Int.bmod_eq_of_le (by omega) (by omega)]
    rw [← bytes_int8, hnarrow]
  · -- a positive integer goes over to the unsigned types
    rw [Int16.le_iff_toInt_le, hzero] at h0
    have hnat : (v.toUInt16.toNat : ℤ) = v.toInt := by omega
    rw [← bytes_uint16, hnat]

theorem bytes_int32 (v : Int32) :
    (canonInt v.toInt).bytes = some (dump_int32 is_big_endian v) := by
  have hlit : (-((1 : Int32) <<< 15)).toInt = -2 ^ 15 := rfl
  have hzero : (0 : Int32).toInt = 0 := rfl
  have hlo := v.le_toInt
  have hhi := v.toInt_lt
  have hbits : (v.toUInt32.toNat : ℤ) = v.toInt % 2 ^ 32 := toNat_eq_emod v.toBitVec
  unfold dump_int32
  split_ifs with h h0
  · rw [Int32.lt_iff_toInt_lt, hlit] at h
    have hT : narrowest v.toInt = .int32 := by
      rw [narrowest, if_neg (by omega), if_neg (by omega), if_neg (by omega), if_pos (by omega)]
    exact bytes_canonInt_arith is_big_endian (by omega) hT (residue_toInt hbits)
  · rw [Int32.lt_iff_toInt_lt, hlit] at h
    rw [Int32.le_iff_toInt_le, hzero] at h0
    have hnarrow : v.toInt16.toInt = v.toInt := by
      rw [Int32.toInt_toInt16, Int.bmod_eq_of_le (by omega) (by omega)]
    rw [← bytes_int16, hnarrow]
  · rw [Int32.le_iff_toInt_le, hzero] at h0
    have hnat : (v.toUInt32.toNat : ℤ) = v.toInt := by omega
    rw [← bytes_uint32, hnat]

theorem bytes_int64 (v : Int64) :
    (canonInt v.toInt).bytes = some (dump_int64 is_big_endian v) := by
  have hlit : (-((1 : Int64) <<< 31)).toInt = -2 ^ 31 := rfl
  have hzero : (0 : Int64).toInt = 0 := rfl
  have hlo := v.le_toInt
  have hhi := v.toInt_lt
  have hbits : (v.toUInt64.toNat : ℤ) = v.toInt % 2 ^ 64 := toNat_eq_emod v.toBitVec
  unfold dump_int64
  split_ifs with h h0
  · rw [Int64.lt_iff_toInt_lt, hlit] at h
    have hT : narrowest v.toInt = .int64 := by
      rw [narrowest, if_neg (by omega), if_neg (by omega), if_neg (by omega), if_neg (by omega)]
    exact bytes_canonInt_arith is_big_endian (by omega) hT (residue_toInt hbits)
  · rw [Int64.lt_iff_toInt_lt, hlit] at h
    rw [Int64.le_iff_toInt_le, hzero] at h0
    have hnarrow : v.toInt32.toInt = v.toInt := by
      rw [Int64.toInt_toInt32, Int.bmod_eq_of_le (by omega) (by omega)]
    rw [← bytes_int32, hnarrow]
  · rw [Int64.le_iff_toInt_le, hzero] at h0
    have hnat : (v.toUInt64.toNat : ℤ) = v.toInt := by omega
    rw [← bytes_uint64, hnat]

end Cascade

/-! ## The cascade of lengths -/

/-- The shortest form for a length: in the tag if it can be, else the narrowest field. -/
def shortForm (f : Family) (n : ℕ) : Form :=
  if (fixTag f n).isSome then .fix
  else if n ≤ 0xff ∧ (wideTag f .w8).isSome then .wide .w8
  else if n ≤ 0xffff then .wide .w16
  else .wide .w32

/-- What an overload writes before its payload. -/
def dump_length (is_big_endian : Bool) : Family → ℕ → Except String (List UInt8)
  | .string => dump_string_length is_big_endian
  | .binary => dump_binary_length is_big_endian
  | .array => dump_array_length is_big_endian
  | .object => dump_object_length is_big_endian
  | .extension => dump_extension_length is_big_endian

section Lengths

variable (is_big_endian : Bool)

/-- A length in the tag. -/
theorem header_short_fix {f : Family} {n : ℕ} {t : UInt8} (h : fixTag f n = some t) :
    header f (shortForm f n) n = some [t] := by
  have hform : shortForm f n = .fix := by
    rw [shortForm, h]
    rfl
  rw [hform, header, h]
  rfl

/-- A length in a field, in the narrowest there is. -/
theorem header_short_wide {f : Family} {n : ℕ} (h : fixTag f n = none) (hn : n ≤ 0xffffffff) :
    (n ≤ 0xff → ∀ t, wideTag f .w8 = some t →
      header f (shortForm f n) n = some (t :: dump_data is_big_endian 1 n)) ∧
    (¬ (n ≤ 0xff ∧ (wideTag f .w8).isSome = true) → n ≤ 0xffff → ∀ t, wideTag f .w16 = some t →
      header f (shortForm f n) n = some (t :: dump_data is_big_endian 2 n)) ∧
    (¬ n ≤ 0xffff → ∀ t, wideTag f .w32 = some t →
      header f (shortForm f n) n = some (t :: dump_data is_big_endian 4 n)) := by
  have hno : ¬ (fixTag f n).isSome = true := by simp [h]
  have hfield : ∀ (w : Width) (t : UInt8), shortForm f n = .wide w → n < 256 ^ w.size →
      wideTag f w = some t →
      header f (shortForm f n) n = some (t :: dump_data is_big_endian w.size n) := by
    intro w t hform hlt ht
    rw [hform, header, if_pos hlt, ht, dump_data_eq_toBE]
    rfl
  unfold shortForm at hfield ⊢
  rw [if_neg hno] at hfield ⊢
  refine ⟨?_, ?_, ?_⟩
  · intro h8 t ht
    apply hfield .w8 t _ (by simp only [Width.size]; omega) ht
    rw [if_pos ⟨h8, by rw [ht]; rfl⟩]
  · intro h8 h16 t ht
    apply hfield .w16 t _ (by simp only [Width.size]; omega) ht
    rw [if_neg h8, if_pos h16]
  · intro h16 t ht
    apply hfield .w32 t _ (by simp only [Width.size]; omega) ht
    rw [if_neg (by omega), if_neg h16]

/-- The tags of short lengths are written as a disjunction of bits. -/
theorem or_eq_add {n : ℕ} :
    (n ≤ 0x1f → 0xa0 ||| UInt8.ofNat n = 0xa0 + UInt8.ofNat n) ∧
      (n ≤ 15 → 0x90 ||| UInt8.ofNat n = 0x90 + UInt8.ofNat n) ∧
      (n ≤ 15 → 0x80 ||| UInt8.ofNat n = 0x80 + UInt8.ofNat n) := by
  have hstring : ∀ n < 32, 0xa0 ||| UInt8.ofNat n = 0xa0 + UInt8.ofNat n := by decide
  have harray : ∀ n < 16, 0x90 ||| UInt8.ofNat n = 0x90 + UInt8.ofNat n := by decide
  have hobject : ∀ n < 16, 0x80 ||| UInt8.ofNat n = 0x80 + UInt8.ofNat n := by decide
  exact ⟨fun h => hstring n (by omega), fun h => harray n (by omega),
    fun h => hobject n (by omega)⟩

/-- Every overload writes the shortest header, as long as there is one. -/
theorem dump_length_eq (f : Family) {n : ℕ} (hn : n ≤ 0xffffffff) :
    ∃ h, header f (shortForm f n) n = some h ∧ dump_length is_big_endian f n = .ok h := by
  have hone : dump_data is_big_endian 1 n = [UInt8.ofNat n] := by
    rw [dump_data_eq_toBE, toBE_one]
  have hwide : fixTag f n = none → _ := fun h => header_short_wide is_big_endian h hn
  cases f
  case string =>
    rw [dump_length, dump_string_length]
    by_cases hfix : n ≤ 0x1f
    · have ht : fixTag .string n = some (0xa0 + UInt8.ofNat n) := if_pos (by omega)
      rw [if_pos hfix, or_eq_add.1 hfix]
      exact ⟨_, header_short_fix ht, rfl⟩
    obtain ⟨h8, h16, h32⟩ := hwide (if_neg (by omega))
    rw [if_neg hfix]
    split_ifs with hle8 hle16
    · rw [← hone]
      exact ⟨_, h8 hle8 _ rfl, rfl⟩
    · exact ⟨_, h16 (fun h => hle8 h.1) hle16 _ rfl, rfl⟩
    · exact ⟨_, h32 hle16 _ rfl, rfl⟩
  case binary =>
    rw [dump_length, dump_binary_length]
    obtain ⟨h8, h16, h32⟩ := hwide rfl
    split_ifs with hle8 hle16
    · exact ⟨_, h8 hle8 _ rfl, rfl⟩
    · exact ⟨_, h16 (fun h => hle8 h.1) hle16 _ rfl, rfl⟩
    · exact ⟨_, h32 hle16 _ rfl, rfl⟩
  case array =>
    rw [dump_length, dump_array_length]
    by_cases hfix : n ≤ 15
    · have ht : fixTag .array n = some (0x90 + UInt8.ofNat n) := if_pos (by omega)
      rw [if_pos hfix, or_eq_add.2.1 hfix]
      exact ⟨_, header_short_fix ht, rfl⟩
    obtain ⟨-, h16, h32⟩ := hwide (if_neg (by omega))
    rw [if_neg hfix]
    split_ifs with hle16
    · exact ⟨_, h16 (fun h => by cases h.2) hle16 _ rfl, rfl⟩
    · exact ⟨_, h32 hle16 _ rfl, rfl⟩
  case object =>
    rw [dump_length, dump_object_length]
    by_cases hfix : n ≤ 15
    · have ht : fixTag .object n = some (0x80 + UInt8.ofNat n) := if_pos (by omega)
      rw [if_pos hfix, or_eq_add.2.2 hfix]
      exact ⟨_, header_short_fix ht, rfl⟩
    obtain ⟨-, h16, h32⟩ := hwide (if_neg (by omega))
    rw [if_neg hfix]
    split_ifs with hle16
    · exact ⟨_, h16 (fun h => by cases h.2) hle16 _ rfl, rfl⟩
    · exact ⟨_, h32 hle16 _ rfl, rfl⟩
  case extension =>
    rw [dump_length, dump_extension_length]
    split_ifs with h1 h2 h4 h8 h16 hle8 hle16
    · exact ⟨_, header_short_fix (by rw [h1]; rfl), rfl⟩
    · exact ⟨_, header_short_fix (by rw [h2]; rfl), rfl⟩
    · exact ⟨_, header_short_fix (by rw [h4]; rfl), rfl⟩
    · exact ⟨_, header_short_fix (by rw [h8]; rfl), rfl⟩
    · exact ⟨_, header_short_fix (by rw [h16]; rfl), rfl⟩
    -- no length of a field has a tag of its own
    all_goals
      have hnone : fixTag .extension n = none := by simp [fixTag, h1, h2, h4, h8, h16]
    · rw [← hone]
      exact ⟨_, (hwide hnone).1 hle8 _ rfl, rfl⟩
    · exact ⟨_, (hwide hnone).2.1 (fun h => hle8 h.1) hle16 _ rfl, rfl⟩
    · exact ⟨_, (hwide hnone).2.2 hle16 _ rfl, rfl⟩

end Lengths

/-! ## No form is shorter -/

/-- What a type of one, two, four or eight bytes can hold, signed or not. -/
theorem range_of_value {T : Fundamental} {contents : ℕ} {n : ℤ}
    (h : (T.value contents).integer? = some n) :
    -2 ^ (8 * T.size - 1) ≤ n ∧ n < 2 ^ (8 * T.size) := by
  cases T <;> simp only [Fundamental.value, MsgPack.integer?, Option.some.injEq,
    reduceCtorEq] at h <;> rw [← h] <;> simp only [Fundamental.size]
  case uint8 => have := (UInt8.ofNat contents).toNat_lt; omega
  case uint16 => have := (UInt16.ofNat contents).toNat_lt; omega
  case uint32 => have := (UInt32.ofNat contents).toNat_lt; omega
  case uint64 => have := (UInt64.ofNat contents).toNat_lt; omega
  case int8 => have := Int8.le_toInt; have := Int8.toInt_lt; grind
  case int16 => have := Int16.le_toInt; have := Int16.toInt_lt; grind
  case int32 => have := Int32.le_toInt; have := Int32.toInt_lt; grind
  case int64 => have := Int64.le_toInt; have := Int64.toInt_lt; grind

/-- A type that holds an integer is at least as wide as its narrowest one. -/
theorem size_narrowest_le {T : Fundamental} {contents : ℕ} {n : ℤ}
    (h : (T.value contents).integer? = some n) : (narrowest n).size ≤ T.size := by
  obtain ⟨hlo, hhi⟩ := range_of_value h
  unfold narrowest
  -- every type narrower than the one picked would be contradicted by the bounds
  cases T <;> simp only [Fundamental.size] at hlo hhi ⊢ <;> split_ifs <;> decide

/-- The bytes that are integers by themselves are those of the integers from `-32` to `127`. -/
theorem range_of_fixint {b : UInt8} (h : isFixint b = true) :
    ∀ n ∈ (Wire.fixint b).denote.integer?, -32 ≤ n ∧ n < 128 := by
  revert b
  apply forall_byte
  decide +kernel

/-- In whatever type an integer was sent, its canonical encoding is no longer. -/
theorem size_canonInt_le {w : Wire} {e : List UInt8} {n : ℤ} (h : w.bytes = some e)
    (hn : w.denote.integer? = some n) : size (canonInt n).bytes ≤ e.length := by
  cases w <;> try cases hn
  case fixint b =>
    rw [Wire.bytes] at h
    split_ifs at h with hb
    cases h
    rw [bytes_canonInt_fix (range_of_fixint hb n hn)]
    rfl
  case arith T c =>
    rw [Wire.bytes] at h
    split_ifs at h with hc
    cases h
    rw [List.length_cons, hc]
    by_cases hfix : -32 ≤ n ∧ n < 128
    · rw [bytes_canonInt_fix hfix]
      exact Nat.succ_le_succ (Nat.zero_le _)
    · rw [canonInt, if_neg hfix, Wire.bytes, if_pos (digits_length _ _), size_some,
        List.length_cons, digits_length]
      exact Nat.succ_le_succ (size_narrowest_le hn)

/-- Where a length fits a form, the shortest form for a smaller one is no longer, unless
it is one of those that only the tags of an extension can carry. -/
theorem size_shortForm_le {f : Family} {form : Form} {m n : ℕ} {h : List UInt8}
    (hh : header f form n = some h) (hmn : m ≤ n)
    (hfix : (fixTag f n).isSome → (fixTag f m).isSome) : (shortForm f m).size ≤ form.size := by
  rcases form with _ | w
  · rw [header, Option.map_eq_some_iff] at hh
    obtain ⟨t, ht, -⟩ := hh
    rw [shortForm, if_pos (hfix (by rw [ht]; rfl))]
  · rw [header] at hh
    split_ifs at hh with hn
    rw [Option.map_eq_some_iff] at hh
    obtain ⟨t, ht, -⟩ := hh
    have hsome : (wideTag f w).isSome = true := by
      rw [ht]
      rfl
    unfold shortForm
    by_cases htag : (fixTag f m).isSome = true
    · rw [if_pos htag]
      exact Nat.zero_le _
    -- the field is at least as wide as the narrowest that holds `m`
    rw [if_neg htag]
    cases w <;> simp only [Width.size] at hn
    case w8 => rw [if_pos ⟨show m ≤ 0xff by omega, hsome⟩]
    case w16 =>
      rw [if_pos (show m ≤ 0xffff by omega)]
      split_ifs <;> decide
    case w32 => split_ifs <;> decide

/-- No form declares a length in fewer bytes than the shortest. -/
theorem size_header_le {f : Family} {form : Form} {m n : ℕ} {h : List UInt8}
    (hh : header f form n = some h) (hmn : m ≤ n)
    (hfix : (fixTag f n).isSome → (fixTag f m).isSome) :
    size (header f (shortForm f m) m) ≤ h.length := by
  rcases hm : header f (shortForm f m) m with _ | h'
  · exact Nat.zero_le _
  · rw [size_some, length_header hm, length_header hh]
    exact Nat.succ_le_succ (size_shortForm_le hh hmn hfix)

end Msgpack11.Shortest
