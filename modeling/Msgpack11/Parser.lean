/-
`MsgPackParser` of `msgpack11.cpp`: the sub-parsers, the dispatch table and
`parse_msgpack`.

Every function takes the stream and returns it. The stream fails silently, so
the code runs on after a failure: lengths that could not be read are `0`, loops
call the parser on a failed stream to their end, and what they build is thrown
away by the check at the end of `parse_msgpack`. All of that is kept here.

The sub-parsers call `parse_msgpack` back, one level deeper each time. They take
it as a parameter; the knot is tied by the number of levels `max_depth` leaves,
and `parse_msgpack_eq` restates the definition as the source has it.
-/
import Msgpack11.Compare
import Msgpack11.Bytes
import Msgpack11.SortedUnique
import Msgpack11.Streams

set_option autoImplicit false

namespace Msgpack11.Parser

open Msgpack11.Bytes Msgpack11.Compare Msgpack11.Streams

/-- `static const int max_depth`. -/
def max_depth : ℕ := 200

/-! ## Bytes and numbers -/

section Bytes

variable (is_big_endian : Bool)

/-- `*dst_ptr = is.get(); dst_ptr += dir`, on the storage of the object and the
index `dst_ptr` points to. `EOF` is stored as `0xff`. -/
def store (dst : ℤ × List UInt8) (c : Option UInt8) : ℤ × List UInt8 :=
  (dst.1 + direction is_big_endian, dst.2.set dst.1.toNat (c.getD 0xff))

/-- `read_bytes` into an object of `w` bytes; a failed read leaves `0` in it. -/
def read_bytes (w : ℕ) (is : IStream) : ℕ × IStream :=
  let (dst, is) := repeatInto IStream.get (store is_big_endian) w
    (offset is_big_endian w, List.replicate w 0) is
  if is.fail || is.eof then (0, is) else (contents is_big_endian dst.2, is)

end Bytes

/-- `fail(is)`. -/
def fail (is : IStream) : MsgPack × IStream := (.nul, is.setFailbit)

/-- `parse_string_impl`: the string is sized first and then read into. -/
def parse_string_impl (is : IStream) (bytes : ℕ) : List UInt8 × IStream := is.read bytes

/-- `parse_binary_impl`, which does the same on a vector. -/
def parse_binary_impl (is : IStream) (bytes : ℕ) : List UInt8 × IStream := is.read bytes

/-! ## Sub-parsers -/

/-- The functions the dispatch table points to, with their template arguments. -/
inductive SubParser where
  | parse_invalid
  | parse_nil
  | parse_bool
  | parse_arith (T : Fundamental)
  | parse_string (T : Fundamental)
  | parse_array (T : Fundamental)
  | parse_object (T : Fundamental)
  | parse_binary (T : Fundamental)
  | parse_extension (T : Fundamental)
  | parse_pos_fixint
  | parse_fixobject
  | parse_fixarray
  | parse_fixstring
  | parse_neg_fixint
  | parse_fixext
  deriving DecidableEq, Repr

section SubParsers

variable (is_big_endian : Bool) (parse_msgpack : IStream → ℕ → MsgPack × IStream)

/-- `parse_array_impl`: `bytes` calls whatever the stream says. -/
def parse_array_impl (is : IStream) (bytes depth : ℕ) : List MsgPack × IStream :=
  repeatInto (fun is => parse_msgpack is depth) (fun res v => res ++ [v]) bytes [] is

/-- One round of `parse_object_impl`. -/
def parse_entry (is : IStream) (depth : ℕ) : (MsgPack × MsgPack) × IStream :=
  let (key, is) := parse_msgpack is depth
  let (value, is) := parse_msgpack is depth
  ((key, value), is)

/-- `parse_object_impl`: an entry with a key that is there already is dropped. -/
def parse_object_impl (is : IStream) (bytes depth : ℕ) : List (MsgPack × MsgPack) × IStream :=
  repeatInto (fun is => parse_entry parse_msgpack is depth) (SortedUnique.insert entryLess)
    bytes [] is

/-- `parse_arith<T>`: the contents of a `T`. -/
def parse_arith (T : Fundamental) (is : IStream) : MsgPack × IStream :=
  let (tmp, is) := read_bytes is_big_endian T.size is
  (T.value tmp, is)

/-- `parse_string<T>`. Here and below the length is a `T`. -/
def parse_string (T : Fundamental) (is : IStream) : MsgPack × IStream :=
  let (bytes, is) := read_bytes is_big_endian T.size is
  let (ret, is) := parse_string_impl is bytes
  (.string ret, is)

/-- `parse_array<T>`. -/
def parse_array (T : Fundamental) (is : IStream) (depth : ℕ) : MsgPack × IStream :=
  let (bytes, is) := read_bytes is_big_endian T.size is
  let (res, is) := parse_array_impl parse_msgpack is bytes depth
  (.array res, is)

/-- `parse_object<T>`. -/
def parse_object (T : Fundamental) (is : IStream) (depth : ℕ) : MsgPack × IStream :=
  let (bytes, is) := read_bytes is_big_endian T.size is
  let (res, is) := parse_object_impl parse_msgpack is bytes depth
  (.object res, is)

/-- `parse_binary<T>`. -/
def parse_binary (T : Fundamental) (is : IStream) : MsgPack × IStream :=
  let (bytes, is) := read_bytes is_big_endian T.size is
  let (ret, is) := parse_binary_impl is bytes
  (.binary ret, is)

/-- The `uint8_t` of the type byte converts to the `int8_t` of the tuple. -/
def parse_extension (T : Fundamental) (is : IStream) : MsgPack × IStream :=
  let (bytes, is) := read_bytes is_big_endian T.size is
  let (type, is) := read_bytes is_big_endian 1 is
  let (data, is) := parse_binary_impl is bytes
  (.extension (UInt8.ofNat type).toInt8 data, is)

/-- `parse_fixobject`. Here and below the length is in the first byte. -/
def parse_fixobject (is : IStream) (first_byte : UInt8) (depth : ℕ) : MsgPack × IStream :=
  let bytes := (first_byte &&& 0x0f).toNat
  let (res, is) := parse_object_impl parse_msgpack is bytes depth
  (.object res, is)

/-- `parse_fixarray`. -/
def parse_fixarray (is : IStream) (first_byte : UInt8) (depth : ℕ) : MsgPack × IStream :=
  let bytes := (first_byte &&& 0x0f).toNat
  let (res, is) := parse_array_impl parse_msgpack is bytes depth
  (.array res, is)

/-- `parse_fixstring`. -/
def parse_fixstring (is : IStream) (first_byte : UInt8) : MsgPack × IStream :=
  let bytes := (first_byte &&& 0x1f).toNat
  let (ret, is) := parse_string_impl is bytes
  (.string ret, is)

/-- `parse_fixext`: a power of two. -/
def parse_fixext (is : IStream) (first_byte : UInt8) : MsgPack × IStream :=
  let (type, is) := read_bytes is_big_endian 1 is
  let BYTES := 1 <<< (first_byte.toNat - 0xd4)
  let (data, is) := parse_binary_impl is BYTES
  (.extension (UInt8.ofNat type).toInt8 data, is)

/-- The call through the dispatch table. -/
def dispatch (parser : SubParser) (is : IStream) (first_byte : UInt8) (depth : ℕ) :
    MsgPack × IStream :=
  match parser with
  | .parse_invalid => fail is
  | .parse_nil => (.nul, is)
  | .parse_bool => (.bool (first_byte == 0xc3), is)
  | .parse_arith T => parse_arith is_big_endian T is
  | .parse_string T => parse_string is_big_endian T is
  | .parse_array T => parse_array is_big_endian parse_msgpack T is depth
  | .parse_object T => parse_object is_big_endian parse_msgpack T is depth
  | .parse_binary T => parse_binary is_big_endian T is
  | .parse_extension T => parse_extension is_big_endian T is
  | .parse_pos_fixint => (.uint8 first_byte, is)
  | .parse_fixobject => parse_fixobject parse_msgpack is first_byte depth
  | .parse_fixarray => parse_fixarray parse_msgpack is first_byte depth
  | .parse_fixstring => parse_fixstring is first_byte
  | .parse_neg_fixint => (.int8 first_byte.toInt8, is)
  | .parse_fixext => parse_fixext is_big_endian is first_byte

end SubParsers

/-! ## The dispatch table -/

/-- The last first byte of each range and its sub-parser. The four slots of the
array that the source leaves empty have the bound `0`, which the fill is past. -/
def parser_template : List (ℕ × SubParser) :=
  [(0x7f, .parse_pos_fixint), (0x8f, .parse_fixobject), (0x9f, .parse_fixarray),
    (0xbf, .parse_fixstring), (0xc0, .parse_nil), (0xc1, .parse_invalid), (0xc3, .parse_bool),
    (0xc4, .parse_binary .uint8), (0xc5, .parse_binary .uint16), (0xc6, .parse_binary .uint32),
    (0xc7, .parse_extension .uint8), (0xc8, .parse_extension .uint16),
    (0xc9, .parse_extension .uint32), (0xca, .parse_arith .float), (0xcb, .parse_arith .double),
    (0xcc, .parse_arith .uint8), (0xcd, .parse_arith .uint16), (0xce, .parse_arith .uint32),
    (0xcf, .parse_arith .uint64), (0xd0, .parse_arith .int8), (0xd1, .parse_arith .int16),
    (0xd2, .parse_arith .int32), (0xd3, .parse_arith .int64), (0xd8, .parse_fixext),
    (0xd9, .parse_string .uint8), (0xda, .parse_string .uint16), (0xdb, .parse_string .uint32),
    (0xdc, .parse_array .uint16), (0xdd, .parse_array .uint32), (0xde, .parse_object .uint16),
    (0xdf, .parse_object .uint32), (0xff, .parse_neg_fixint)]

/-- `while (i <= upto) { parsers[i] = parser; ++i; }` for each range, from `i` on. -/
def fill_parsers : ℕ → List (ℕ × SubParser) → List SubParser
  | _, [] => []
  | i, (upto, parser) :: rest =>
      List.replicate (upto + 1 - i) parser ++ fill_parsers (max i (upto + 1)) rest

/-- `parsers[first_byte]`. -/
def parsers (first_byte : UInt8) : SubParser :=
  (fill_parsers 0 parser_template).getD first_byte.toNat .parse_invalid

/-! ## The parser -/

section ParseMsgpack

variable (is_big_endian : Bool)

/-- The body of `parse_msgpack` over the function it calls back. -/
def parse_msgpack_body (parse_msgpack : IStream → ℕ → MsgPack × IStream) (is : IStream)
    (depth : ℕ) : MsgPack × IStream :=
  if max_depth < depth then fail is
  else
    let (c, is) := is.get
    let first_byte := c.getD 0xff
    if is.fail || is.eof then fail is
    else
      let (ret, is) :=
        dispatch is_big_endian parse_msgpack (parsers first_byte) is first_byte (depth + 1)
      if is.fail || is.eof then fail is else (ret, is)

/-- The parser with `n` levels of calls left. -/
def parse_levels : ℕ → IStream → ℕ → MsgPack × IStream
  | 0 => fun is _ => fail is
  | n + 1 => parse_msgpack_body is_big_endian (parse_levels n)

/-- `parse_msgpack`. -/
def parse_msgpack (is : IStream) (depth : ℕ) : MsgPack × IStream :=
  parse_levels is_big_endian (max_depth + 2 - depth) is depth

/-- The body calls back at the next depth only. -/
theorem parse_msgpack_body_congr {f g : IStream → ℕ → MsgPack × IStream} {depth : ℕ}
    (h : ∀ is, f is (depth + 1) = g is (depth + 1)) (is : IStream) :
    parse_msgpack_body is_big_endian f is depth = parse_msgpack_body is_big_endian g is depth := by
  have harray : ∀ is bytes, parse_array_impl f is bytes (depth + 1)
      = parse_array_impl g is bytes (depth + 1) := by
    intro is bytes
    simp only [parse_array_impl, h]
  have hobject : ∀ is bytes, parse_object_impl f is bytes (depth + 1)
      = parse_object_impl g is bytes (depth + 1) := by
    intro is bytes
    simp only [parse_object_impl, parse_entry, h]
  have hrun : ∀ (p : SubParser) is b, dispatch is_big_endian f p is b (depth + 1)
      = dispatch is_big_endian g p is b (depth + 1) := by
    intro p is b
    cases p <;> simp only [dispatch, parse_array, parse_object, parse_fixobject,
      parse_fixarray, harray, hobject]
  simp only [parse_msgpack_body, hrun]

/-- The definition of `parse_msgpack`, as the source has it. -/
theorem parse_msgpack_eq (is : IStream) (depth : ℕ) :
    parse_msgpack is_big_endian is depth
      = parse_msgpack_body is_big_endian (parse_msgpack is_big_endian) is depth := by
  by_cases hdepth : depth ≤ max_depth + 1
  · -- within the limit there is a level left, and the callbacks take it
    obtain ⟨n, hn⟩ : ∃ n, max_depth + 2 - depth = n + 1 := ⟨max_depth + 1 - depth, by omega⟩
    rw [parse_msgpack, hn, parse_levels]
    apply parse_msgpack_body_congr
    intro is
    rw [parse_msgpack, show max_depth + 2 - (depth + 1) = n by omega]
  · -- beyond the limit both sides fail at once
    have hzero : max_depth + 2 - depth = 0 := by omega
    rw [parse_msgpack, hzero, parse_levels, parse_msgpack_body, if_pos (by omega)]

end ParseMsgpack

end Msgpack11.Parser
