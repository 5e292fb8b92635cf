/-
`parse_msgpack` refines the reader of the format.

The parser runs on a stream that fails silently; `WireReader.read` stops at its
first failure. `parse_msgpack_refines` says that they are the same computation:
the parser returns the value denoted by what the reader reads and consumes the
same bytes, and where the reader fails the parser leaves the stream failed, with
the eofbit set exactly if the reader ran out of input.

The proof follows the code. Each function of the parser refines the reader of
the part it parses (`read_bytes`, the loops, the sub-parsers); the dispatch table
sends every first byte to the sub-parser of the tag it announces (`parsers_eq`);
and the depth limit is the reader's last level.
-/
import Msgpack11.ByteOrder
import Msgpack11.WireReader

set_option autoImplicit false

namespace Msgpack11.Refinement

open Msgpack11.Streams Msgpack11.Bytes Msgpack11.Compare Msgpack11.Format Msgpack11.Parser
open Msgpack11.WireReader Msgpack11.ByteOrder

/-! ## Payloads -/

theorem parse_string_impl_refines (n : ℕ) :
    Refines id (fun is => parse_string_impl is n) (Reader.take n) := Refines.read n

section Loops

variable {parse : IStream → ℕ → MsgPack × IStream} {item : Reader Wire} {depth : ℕ}

/-- The array loop builds the values of the items. -/
theorem parse_array_impl_refines (h : Refines Wire.denote (fun is => parse is depth) item) (n : ℕ) :
    Refines Wire.denoteItems (fun is => parse_array_impl parse is n depth)
      (Reader.times item n) := by
  refine (h.repeatInto (fun res v => res ++ [v]) n []).congr_value fun _ ws _ _ => ?_
  rw [foldl_push, List.nil_append, Wire.denoteItems_eq_map]

/-- A round of the object loop reads a key and its value. -/
theorem parse_entry_refines (h : Refines Wire.denote (fun is => parse is depth) item) :
    Refines (fun e : Wire × Wire => (e.1.denote, e.2.denote))
      (fun is => parse_entry parse is depth) (Reader.pair item item) := by
  refine h.bind (fun key is => ((key, (parse is depth).1), (parse is depth).2)) ?_ ?_
  · intro k
    exact h.map (fun value => (k.denote, value)) (fun v => (k, v)) fun _ => rfl
  · intro key is hfail
    exact h.failed is hfail

theorem foldl_insert (es : List (Wire × Wire)) (acc : List (MsgPack × MsgPack)) :
    es.foldl (fun acc e => SortedUnique.insert entryLess acc (e.1.denote, e.2.denote)) acc
      = SortedUnique.insertAll entryLess acc (Wire.denoteEntries es) := by
  induction es generalizing acc with
  | nil => rfl
  | cons e es ih =>
      rw [List.foldl_cons, ih]
      rfl

/-- The object loop inserts the entries in the order they are read. -/
theorem parse_object_impl_refines (h : Refines Wire.denote (fun is => parse is depth) item)
    (n : ℕ) : Refines (fun es => SortedUnique.insertAll entryLess [] (Wire.denoteEntries es))
      (fun is => parse_object_impl parse is n depth) (Reader.times (Reader.pair item item) n) := by
  refine ((parse_entry_refines h).repeatInto (SortedUnique.insert entryLess) n []).congr_value
    fun _ es _ _ => ?_
  exact foldl_insert es []

end Loops

/-! ## Sub-parsers -/

section SubParsers

variable (is_big_endian : Bool) (parse : IStream → ℕ → MsgPack × IStream)

/-- What the sub-parsers of a family do once they know the length. -/
def parse_payload (f : Family) (bytes depth : ℕ) (is : IStream) : MsgPack × IStream :=
  match f with
  | .string =>
      let (ret, is) := parse_string_impl is bytes
      (.string ret, is)
  | .binary =>
      let (ret, is) := parse_binary_impl is bytes
      (.binary ret, is)
  | .array =>
      let (res, is) := parse_array_impl parse is bytes depth
      (.array res, is)
  | .object =>
      let (res, is) := parse_object_impl parse is bytes depth
      (.object res, is)
  | .extension =>
      let (type, is) := read_bytes is_big_endian 1 is
      let (data, is) := parse_binary_impl is bytes
      (.extension (UInt8.ofNat type).toInt8 data, is)

variable {parse} {item : Reader Wire} {depth : ℕ}

theorem parse_payload_refines (h : Refines Wire.denote (fun is => parse is depth) item)
    (f : Family) (form : Form) (n : ℕ) :
    Refines Wire.denote (parse_payload is_big_endian parse f n depth) (payload item f form n) := by
  cases f
  case string =>
    exact (parse_string_impl_refines n).map MsgPack.string (Wire.string form) fun _ => rfl
  case binary =>
    exact (parse_string_impl_refines n).map MsgPack.binary (Wire.binary form) fun _ => rfl
  case array =>
    exact (parse_array_impl_refines h n).map MsgPack.array (Wire.array form) fun _ => rfl
  case object =>
    exact (parse_object_impl_refines h n).map MsgPack.object (Wire.object form) fun _ => rfl
  case extension =>
    refine (read_byte_refines is_big_endian).bind
      (fun type is => let (data, is) := parse_binary_impl is n
        (MsgPack.extension (UInt8.ofNat type).toInt8 data, is)) ?_ ?_
    · intro t
      refine (parse_string_impl_refines n).map (fun data => MsgPack.extension _ data)
        (Wire.extension form t) fun d => ?_
      rw [UInt8.ofNat_toNat]
      rfl
    · intro type is hfail
      exact (parse_string_impl_refines n).failed is hfail

/-- A length field and the payload it announces. -/
theorem parse_wide_refines (h : Refines Wire.denote (fun is => parse is depth) item)
    (f : Family) (w : Width) :
    Refines Wire.denote
      (fun is => let (bytes, is) := read_bytes is_big_endian w.size is
        parse_payload is_big_endian parse f bytes depth is)
      (Reader.take w.size >>= fun c => payload item f (.wide w) (ofBE c)) :=
  (read_bytes_refines is_big_endian w.size).bind
    (fun bytes is => parse_payload is_big_endian parse f bytes depth is)
    (fun c => parse_payload_refines is_big_endian h f (.wide w) (ofBE c))
    (fun bytes => (parse_payload_refines is_big_endian h f (.wide w) bytes).failed)

end SubParsers

/-! ## The dispatch table -/

/-- The type a length field of the given width is read into. -/
def lengthType : Width → Fundamental
  | .w8 => .uint8
  | .w16 => .uint16
  | .w32 => .uint32

/-- The sub-parser for a first byte that announces the given tag. -/
def target (b : UInt8) : Tag → SubParser
  | .invalid => .parse_invalid
  | .nil => .parse_nil
  | .bool _ => .parse_bool
  | .fixint => if b < 0x80 then .parse_pos_fixint else .parse_neg_fixint
  | .arith T => .parse_arith T
  | .fix .string _ => .parse_fixstring
  | .fix .binary _ => .parse_invalid
  | .fix .array _ => .parse_fixarray
  | .fix .object _ => .parse_fixobject
  | .fix .extension _ => .parse_fixext
  | .wide .string w => .parse_string (lengthType w)
  | .wide .binary w => .parse_binary (lengthType w)
  | .wide .array w => .parse_array (lengthType w)
  | .wide .object w => .parse_object (lengthType w)
  | .wide .extension w => .parse_extension (lengthType w)

/-- The table the fill loop builds, entry by entry. -/
theorem parsers_eq (b : UInt8) : parsers b = target b (tagOf b) := by
  revert b
  apply forall_byte
  decide +kernel

/-- The length a first byte carries, as the `fix` sub-parsers compute it. -/
def fixLength : Family → UInt8 → ℕ
  | .object, b => (b &&& 0x0f).toNat
  | .array, b => (b &&& 0x0f).toNat
  | .string, b => (b &&& 0x1f).toNat
  | .binary, _ => 0
  | .extension, b => 1 <<< (b.toNat - 0xd4)

/-- What a first byte says of the data the sub-parsers take from it. -/
def agrees (b : UInt8) : Tag → Bool
  | .bool v => v == (b == 0xc3)
  | .fix .binary _ => false
  | .fix f n => fixLength f b == n
  | _ => true

theorem agrees_tagOf (b : UInt8) : agrees b (tagOf b) = true := by
  revert b
  apply forall_byte
  decide +kernel

section Parser

variable (is_big_endian : Bool) {parse : IStream → ℕ → MsgPack × IStream} {item : Reader Wire}
  {depth : ℕ}

/-- Every entry of the table refines the reader of the tag. -/
theorem dispatch_refines (h : Refines Wire.denote (fun is => parse is depth) item) (b : UInt8) :
    Refines Wire.denote (fun is => dispatch is_big_endian parse (parsers b) is b depth)
      (tagged item b) := by
  have hagree := agrees_tagOf b
  rw [parsers_eq, tagged]
  cases htag : tagOf b <;> rw [htag] at hagree
  case invalid => exact Refines.setFailbit Wire.denote .nul
  case nil => exact Refines.pure Wire.denote .nil
  case bool v =>
    have hv : v = (b == 0xc3) := eq_of_beq hagree
    rw [hv]
    exact Refines.pure Wire.denote (.bool (b == 0xc3))
  case fixint =>
    apply (Refines.pure Wire.denote (.fixint b)).congr
    intro is
    rw [target, Wire.denote]
    split_ifs <;> rfl
  case arith T =>
    exact (read_bytes_refines is_big_endian T.size).map (fun tmp => T.value tmp) (Wire.arith T)
      fun _ => rfl
  case fix f n =>
    have hpayload := parse_payload_refines is_big_endian h f .fix n
    cases f
    case binary => cases hagree
    all_goals
      -- the low bits of the first byte are the length it announces
      have hn : fixLength _ b = n := eq_of_beq hagree
      rw [← hn] at hpayload ⊢
      exact hpayload
  case wide f w =>
    have hwide := parse_wide_refines is_big_endian h f w
    cases f <;> cases w <;> exact hwide

/-- What the body of the parser does with the result of `is.get()`. -/
def after_get (parse : IStream → ℕ → MsgPack × IStream) (depth : ℕ) (c : Option UInt8)
    (is : IStream) : MsgPack × IStream :=
  let first_byte := c.getD 0xff
  if is.fail || is.eof then fail is
  else
    let (ret, is) := dispatch is_big_endian parse (parsers first_byte) is first_byte (depth + 1)
    if is.fail || is.eof then fail is else (ret, is)

/-- The check, the sub-parser, the check. -/
theorem after_get_refines (h : Refines Wire.denote (fun is => parse is (depth + 1)) item)
    (b : UInt8) :
    Refines Wire.denote (after_get is_big_endian parse depth (some b)) (tagged item b) := by
  have hchecked := (dispatch_refines is_big_endian h b).checked (fun p => fail p.2)
    fun p hp => IStream.setFailbit_of_fail hp
  exact (hchecked.guarded .nul).congr fun _ => rfl

/-- One call of the parser, over a refined callback. -/
theorem parse_msgpack_body_refines
    (h : Refines Wire.denote (fun is => parse is (depth + 1)) item) (hdepth : depth ≤ max_depth) :
    Refines Wire.denote (fun is => parse_msgpack_body is_big_endian parse is depth)
      (Reader.byte >>= fun b => tagged item b) := by
  have hinert : ∀ c, Inert (after_get is_big_endian parse depth c) := fun c =>
    (after_get_refines is_big_endian h (c.getD 0xff)).failed
  have hbody := Refines.get.bind (after_get is_big_endian parse depth)
    (after_get_refines is_big_endian h) hinert
  apply hbody.congr
  intro is
  rw [parse_msgpack_body, if_neg (Nat.not_lt.mpr hdepth)]
  rfl

/-- The parser at any depth, by induction on the levels that are left. -/
theorem parse_msgpack_refines (depth : ℕ) :
    Refines Wire.denote (fun is => parse_msgpack is_big_endian is depth)
      (read (max_depth + 1 - depth)) := by
  generalize hn : max_depth + 1 - depth = n
  induction n generalizing depth with
  | zero =>
      -- no level is left: the parser is past `max_depth`, and fails without reading
      apply (Refines.setFailbit Wire.denote .nul).congr
      intro is
      rw [parse_msgpack_eq, parse_msgpack_body, if_pos (by omega), fail]
  | succ n ih =>
      have hbody := parse_msgpack_body_refines is_big_endian (ih (depth + 1) (by omega))
        (show depth ≤ max_depth by omega)
      exact hbody.congr fun is => parse_msgpack_eq is_big_endian is depth

/-- The parser of whole messages. -/
theorem parse_msgpack_zero_refines :
    Refines Wire.denote (fun is => parse_msgpack is_big_endian is 0) (read (max_depth + 1)) :=
  parse_msgpack_refines is_big_endian 0

end Parser

end Msgpack11.Refinement
