/-
`MsgPack::parse` and `MsgPack::parse_multi`.

The error text and the stop position are reference parameters: a function takes
what the caller's variable holds and returns what it holds afterwards, so that a
variable left alone is one returned unchanged.

`parse_multi` loops while its condition holds. `parse_multi_loop` runs it for at
most a given number of rounds and is `none` when they do not suffice; that they
do is a theorem (`MultiParse.parse_multi_total`), not part of the definition.
-/
import Msgpack11.Parser

set_option autoImplicit false

namespace Msgpack11.Parse

open Msgpack11.Streams Msgpack11.Parser

section Parse

variable (is_big_endian : Bool)

/-- `MsgPack::parse(std::istream&, std::string&)`. -/
def parse_stream (is : IStream) (err : String) : MsgPack × IStream × String :=
  let (ret, is) := parse_msgpack is_big_endian is 0
  let err := if is.eof then "end of buffer." else if is.fail then "format error." else err
  (ret, is, err)

/-- `MsgPack::parse(const std::string&, std::string&)`. -/
def parse (s : List UInt8) (err : String) : MsgPack × String :=
  let ss := IStream.ofString s
  let (ret, _, err) := parse_stream is_big_endian ss err
  (ret, err)

/-- The variables of `parse_multi`. -/
structure MultiState where
  ss : IStream
  msgpack_vec : List MsgPack
  parser_stop_pos : ℕ
  err : String

/-- The condition of the loop. A `tellg` of `-1` casts to the largest `size_t`,
which is the size of no string. -/
def parse_multi_continues (size : ℕ) (st : MultiState) : Bool :=
  decide (st.ss.tellg ≠ (size : ℤ)) && !st.ss.eof && !st.ss.fail

/-- The body of the loop. -/
def parse_multi_body (st : MultiState) : MultiState :=
  let (next, ss, err) := parse_stream is_big_endian st.ss st.err
  if !ss.fail then
    ⟨ss, st.msgpack_vec ++ [next], ss.tellg.toNat, err⟩
  else ⟨ss, st.msgpack_vec, st.parser_stop_pos, err⟩

/-- At most `n` evaluations of the condition. -/
def parse_multi_loop (size : ℕ) : ℕ → MultiState → Option MultiState
  | 0, _ => none
  | n + 1, st =>
      if parse_multi_continues size st then
        parse_multi_loop size n (parse_multi_body is_big_endian st)
      else some st

/-- `MsgPack::parse_multi`, with rounds enough for one byte each. -/
def parse_multi (s : List UInt8) (parser_stop_pos : ℕ) (err : String) :
    Option (List MsgPack × ℕ × String) := do
  let st ← parse_multi_loop is_big_endian s.length (s.length + 1)
    ⟨IStream.ofString s, [], parser_stop_pos, err⟩
  pure (st.msgpack_vec, st.parser_stop_pos, st.err)

/-! ## A client of `parse_multi` -/

/-- The state of a client that reads a stream of messages piece by piece. -/
structure Client where
  buffer : List UInt8
  output : List MsgPack
  err : String

/-- A piece arrives: it is appended to the buffer, the buffer is parsed with `pos`
reset, and the bytes up to the reported position are dropped. -/
def Client.receive (c : Client) (chunk : List UInt8) : Option Client := do
  let buffer := c.buffer ++ chunk
  let (values, pos, err) ← parse_multi is_big_endian buffer 0 c.err
  pure ⟨buffer.drop pos, c.output ++ values, err⟩

/-- All pieces, in order. -/
def Client.receiveAll (c : Client) : List (List UInt8) → Option Client
  | [] => some c
  | chunk :: chunks => do
      let c ← c.receive is_big_endian chunk
      c.receiveAll chunks

end Parse

end Msgpack11.Parse
