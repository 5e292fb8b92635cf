/-
The `dump` overloads and `operator<<` of `msgpack11.cpp`.

Each overload has the name of its parameter type. What an overload puts into
the stream is a list of bytes; the ones that may throw return the text of the
`std::runtime_error` instead, and nothing is said about the bytes that were
written before the throw. A `size_t` is a natural number.

Contents of multi-byte objects pass through `dump_data`, which walks the memory
of the object in the direction the host's byte order asks for; `is_big_endian`
is that host's flag.
-/
import Msgpack11.Value
import Msgpack11.Bytes

set_option autoImplicit false

namespace Msgpack11.Dump

open Msgpack11.Bytes

/-- The indices of the storage of a `w`-byte object in the order they are put. -/
def dump_indices (is_big_endian : Bool) (w : ℕ) : List ℤ :=
  (List.range w).map fun i : ℕ => offset is_big_endian w + direction is_big_endian * (i : ℤ)

/-- `dump_data` of an object of `w` bytes whose contents are the number `v`. -/
def dump_data (is_big_endian : Bool) (w v : ℕ) : List UInt8 :=
  let bytes := storage is_big_endian w v
  (dump_indices is_big_endian w).map fun i => bytes.getD i.toNat 0

/-! ## Leaves -/

/-- `dump(NullStruct)`. -/
def dump_nul : List UInt8 := [0xc0]

section Leaves

variable (is_big_endian : Bool)

/-- `dump(float)`: a tag, then the bits of the float. -/
def dump_float (bits : UInt32) : List UInt8 := 0xca :: dump_data is_big_endian 4 bits.toNat

/-- `dump(double)`. -/
def dump_double (bits : UInt64) : List UInt8 := 0xcb :: dump_data is_big_endian 8 bits.toNat

/-- `dump(uint8_t)`: below 128 the value is its own tag. -/
def dump_uint8 (value : UInt8) : List UInt8 :=
  if 128 ≤ value then [0xcc, value] else [value]

/-- `dump(uint16_t)`. What fits half of the type is left to the overload of the half, and
so on down, here and in the overloads below. -/
def dump_uint16 (value : UInt16) : List UInt8 :=
  if value < (1 : UInt16) <<< 8 then dump_uint8 value.toUInt8
  else 0xcd :: dump_data is_big_endian 2 value.toNat

/-- `dump(uint32_t)`. -/
def dump_uint32 (value : UInt32) : List UInt8 :=
  if value < (1 : UInt32) <<< 16 then dump_uint16 is_big_endian value.toUInt16
  else 0xce :: dump_data is_big_endian 4 value.toNat

/-- `dump(uint64_t)`. -/
def dump_uint64 (value : UInt64) : List UInt8 :=
  if value < (1 : UInt64) <<< 32 then dump_uint32 is_big_endian value.toUInt32
  else 0xcf :: dump_data is_big_endian 8 value.toNat

/-- `dump(int8_t)`: from -32 on the value is its own tag, whatever its sign. -/
def dump_int8 (value : Int8) : List UInt8 :=
  if value < -32 then [0xd0, value.toUInt8] else [value.toUInt8]

/-- `dump(int16_t)`. Negative values and zero go down the signed overloads, positive
values over to the unsigned ones. -/
def dump_int16 (value : Int16) : List UInt8 :=
  if value < -((1 : Int16) <<< 7) then 0xd1 :: dump_data is_big_endian 2 value.toUInt16.toNat
  else if value ≤ 0 then dump_int8 value.toInt8
  else dump_uint16 is_big_endian value.toUInt16

/-- `dump(int32_t)`. -/
def dump_int32 (value : Int32) : List UInt8 :=
  if value < -((1 : Int32) <<< 15) then 0xd2 :: dump_data is_big_endian 4 value.toUInt32.toNat
  else if value ≤ 0 then dump_int16 is_big_endian value.toInt16
  else dump_uint32 is_big_endian value.toUInt32

/-- `dump(int64_t)`. -/
def dump_int64 (value : Int64) : List UInt8 :=
  if value < -((1 : Int64) <<< 31) then 0xd3 :: dump_data is_big_endian 8 value.toUInt64.toNat
  else if value ≤ 0 then dump_int32 is_big_endian value.toInt32
  else dump_uint64 is_big_endian value.toUInt64

/-- `dump(bool)`. -/
def dump_bool (value : Bool) : List UInt8 := [if value then 0xc3 else 0xc2]

end Leaves

/-! ## Lengths

The part of an overload that comes before its payload. -/

section Lengths

variable (is_big_endian : Bool) (len : ℕ)

/-- The length of `dump(const std::string&)`. -/
def dump_string_length : Except String (List UInt8) :=
  if len ≤ 0x1f then .ok [0xa0 ||| UInt8.ofNat len]
  else if len ≤ 0xff then .ok [0xd9, UInt8.ofNat len]
  else if len ≤ 0xffff then .ok (0xda :: dump_data is_big_endian 2 len)
  else if len ≤ 0xffffffff then .ok (0xdb :: dump_data is_big_endian 4 len)
  else .error "exceeded maximum data length"

/-- The length of `dump(const MsgPack::array&)`. -/
def dump_array_length : Except String (List UInt8) :=
  if len ≤ 15 then .ok [0x90 ||| UInt8.ofNat len]
  else if len ≤ 0xffff then .ok (0xdc :: dump_data is_big_endian 2 len)
  else if len ≤ 0xffffffff then .ok (0xdd :: dump_data is_big_endian 4 len)
  else .error "exceeded maximum data length"

/-- The length of `dump(const MsgPack::object&)`, which throws another text. -/
def dump_object_length : Except String (List UInt8) :=
  if len ≤ 15 then .ok [0x80 ||| UInt8.ofNat len]
  else if len ≤ 0xffff then .ok (0xde :: dump_data is_big_endian 2 len)
  else if len ≤ 0xffffffff then .ok (0xdf :: dump_data is_big_endian 4 len)
  else .error "too long value."

/-- The length of `dump(const MsgPack::binary&)`; there is no short form. -/
def dump_binary_length : Except String (List UInt8) :=
  if len ≤ 0xff then .ok (0xc4 :: dump_data is_big_endian 1 len)
  else if len ≤ 0xffff then .ok (0xc5 :: dump_data is_big_endian 2 len)
  else if len ≤ 0xffffffff then .ok (0xc6 :: dump_data is_big_endian 4 len)
  else .error "exceeded maximum data length"

/-- The length of `dump(const MsgPack::extension&)`: a tag of its own for 1, 2, 4, 8 and
16 bytes. -/
def dump_extension_length : Except String (List UInt8) :=
  if len = 0x01 then .ok [0xd4]
  else if len = 0x02 then .ok [0xd5]
  else if len = 0x04 then .ok [0xd6]
  else if len = 0x08 then .ok [0xd7]
  else if len = 0x10 then .ok [0xd8]
  else if len ≤ 0xff then .ok [0xc7, UInt8.ofNat len]
  else if len ≤ 0xffff then .ok (0xc8 :: dump_data is_big_endian 2 len)
  else if len ≤ 0xffffffff then .ok (0xc9 :: dump_data is_big_endian 4 len)
  else .error "exceeded maximum data length"

end Lengths

/-! ## Values -/

section Values

variable (is_big_endian : Bool)

/-- Every `char` of a string goes through `dump_data`. -/
def dump_string (value : List UInt8) : Except String (List UInt8) := do
  let head ← dump_string_length is_big_endian value.length
  return head ++ value.flatMap fun c => dump_data is_big_endian 1 c.toNat

/-- `dump(const MsgPack::binary&)`: the payload is written as it is. -/
def dump_binary (value : List UInt8) : Except String (List UInt8) := do
  let head ← dump_binary_length is_big_endian value.length
  return head ++ value

/-- `dump(const MsgPack::extension&)`: the type stands between length and payload. -/
def dump_extension (type : Int8) (data : List UInt8) : Except String (List UInt8) := do
  let head ← dump_extension_length is_big_endian data.length
  return head ++ type.toUInt8 :: data

mutual

/-- `operator<<`, and with it `MsgPack::dump`. -/
def dump : MsgPack → Except String (List UInt8)
  | .nul => .ok dump_nul
  | .float32 v => .ok (dump_float is_big_endian v)
  | .float64 v => .ok (dump_double is_big_endian v)
  | .int8 v => .ok (dump_int8 v)
  | .int16 v => .ok (dump_int16 is_big_endian v)
  | .int32 v => .ok (dump_int32 is_big_endian v)
  | .int64 v => .ok (dump_int64 is_big_endian v)
  | .uint8 v => .ok (dump_uint8 v)
  | .uint16 v => .ok (dump_uint16 is_big_endian v)
  | .uint32 v => .ok (dump_uint32 is_big_endian v)
  | .uint64 v => .ok (dump_uint64 is_big_endian v)
  | .bool v => .ok (dump_bool v)
  | .string v => dump_string is_big_endian v
  | .binary v => dump_binary is_big_endian v
  | .array v => do
      let head ← dump_array_length is_big_endian v.length
      let items ← dump_items v
      return head ++ items
  | .object v => do
      let head ← dump_object_length is_big_endian v.length
      let entries ← dump_entries v
      return head ++ entries
  | .extension t d => dump_extension is_big_endian t d

/-- The `for_each` of an array. -/
def dump_items : List MsgPack → Except String (List UInt8)
  | [] => .ok []
  | v :: vs => do
      let first ← dump v
      let rest ← dump_items vs
      return first ++ rest

/-- The `for_each` of an object: `os << v.first; os << v.second`. -/
def dump_entries : List (MsgPack × MsgPack) → Except String (List UInt8)
  | [] => .ok []
  | (k, v) :: es => do
      let key ← dump k
      let value ← dump v
      let rest ← dump_entries es
      return key ++ value ++ rest

end

end Values

/-! ## Byte order -/

/-- Whatever the host, `dump_data` puts the base-256 digits, most significant first. -/
theorem dump_data_eq_toBE (is_big_endian : Bool) (w v : ℕ) :
    dump_data is_big_endian w v = toBE w v := by
  apply List.ext_getElem
  · simp [dump_data, dump_indices]
  · intro i h1 h2
    have hi : i < w := by simpa using h2
    cases is_big_endian
    · -- the pointer walks down from the last byte of the storage
      have hindex : ((w : ℤ) - 1 + -1 * (i : ℤ)).toNat = w - 1 - i := by omega
      have hrev : w - 1 - i < (toBE w v).reverse.length := by
        rw [List.length_reverse, toBE_length]
        omega
      simp only [dump_data, dump_indices, storage, offset, direction, List.getElem_map,
        List.getElem_range, if_false, Bool.false_eq_true, hindex]
      rw [← List.getElem_eq_getD (h := hrev), List.getElem_reverse]
      congr 1
      rw [toBE_length]
      omega
    · -- the pointer walks up from the first byte
      simp only [dump_data, dump_indices, storage, offset, direction, List.getElem_map,
        List.getElem_range, if_true, Int.one_mul, Int.zero_add, Int.toNat_natCast]
      exact (List.getElem_eq_getD 0).symm

/-- One byte has no order. -/
theorem dump_data_one (is_big_endian : Bool) (c : UInt8) :
    dump_data is_big_endian 1 c.toNat = [c] := by
  rw [dump_data_eq_toBE, toBE_one, UInt8.ofNat_toNat]

/-- The smallest map with two entries, as a test of the whole cascade. -/
example : dump false (.object [(.uint16 1, .nul), (.string [0x61], .int32 (-200))]) =
    .ok [0x82, 0x01, 0xc0, 0xa1, 0x61, 0xd1, 0xff, 0x38] := by decide +kernel

end Msgpack11.Dump
