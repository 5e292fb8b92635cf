/-
A row of dumped values and what a reader makes of any beginning of it.

`wire x` is what `dump` writes for `x`, `echo x` what `parse` makes of that; the two
hosts need not be of one kind. A value can be delivered when it is not too deep for
the parser (`serve`). `split_of_row` is what the sessions below rest on: where a
beginning of a row of values is split greedily into messages, the messages are the
first values of the row, and the rest is a beginning of the next.
-/
import Msgpack11.Comparisons
import Msgpack11.MultiParse

set_option autoImplicit false

namespace Msgpack11.Delivery

open Msgpack11.Streams Msgpack11.Codec Msgpack11.Parser Msgpack11.Parse Msgpack11.Grammar
open Msgpack11.Canonical Msgpack11.Outcomes Msgpack11.MultiParse

variable {is_big_endian is_big_endian' : Bool}

/-! ## One value -/

/-- What `dump` writes, nothing for a value that it throws on. -/
def wire (is_big_endian : Bool) (x : MsgPack) : List UInt8 :=
  match Dump.dump is_big_endian x with
  | .ok s => s
  | .error _ => []

/-- What `parse` on one host makes of what `dump` wrote on another. -/
def echo (is_big_endian is_big_endian' : Bool) (x : MsgPack) : MsgPack :=
  (parse is_big_endian' (wire is_big_endian x) "").1

/-- The value that is delivered, if there is one. -/
def serve (is_big_endian is_big_endian' : Bool) (x : MsgPack) : Option MsgPack :=
  if x.height ≤ max_depth then some (echo is_big_endian is_big_endian' x) else none

/-- What is written is the canonical encoding. -/
theorem bytes_wire (is_big_endian : Bool) {x : MsgPack} (h : x.LengthsFit) :
    (canon x).bytes = some (wire is_big_endian x) := by
  obtain ⟨s, hbytes, hdump⟩ := dump_eq_canon is_big_endian h
  rw [wire, hdump]
  exact hbytes

/-- And it is what `dump` returns. -/
theorem dump_wire (is_big_endian : Bool) {x : MsgPack} (h : x.LengthsFit) :
    Dump.dump is_big_endian x = .ok (wire is_big_endian x) := by
  obtain ⟨s, -, hdump⟩ := dump_eq_canon is_big_endian h
  rw [wire, hdump]

theorem encoding_wire (is_big_endian : Bool) {x : MsgPack} (h : x.LengthsFit)
    (hheight : x.height ≤ max_depth) : Encoding (canon x) (wire is_big_endian x) :=
  ⟨bytes_wire is_big_endian h, (height_canon x).le.trans hheight⟩

/-- It is read as one message, whatever follows it. -/
theorem message_wire (is_big_endian : Bool) {x : MsgPack} (h : x.LengthsFit)
    (hheight : x.height ≤ max_depth) (r : List UInt8) :
    message (wire is_big_endian x ++ r) = .ok (canon x, r) :=
  message_of_encoding (encoding_wire is_big_endian h hheight) r

/-- Of a value that is too deep it is a format error, whatever follows it. -/
theorem message_wire_deep (is_big_endian : Bool) {x : MsgPack} (h : x.LengthsFit)
    (hheight : max_depth < x.height) (r : List UInt8) :
    message (wire is_big_endian x ++ r) = .error .formatError := by
  have hdeep : ¬ (canon x).height < max_depth + 1 := by
    rw [height_canon]
    omega
  exact WireReader.too_deep (max_depth + 1) r (bytes_wire is_big_endian h) hdeep

/-- There is no encoding without bytes. -/
theorem wire_ne_nil (is_big_endian : Bool) {x : MsgPack} (h : x.LengthsFit) :
    wire is_big_endian x ≠ [] :=
  List.ne_nil_of_length_pos (Wire.length_pos_of_bytes (bytes_wire is_big_endian h))

/-- The value that comes back is what the canonical encoding denotes. -/
theorem echo_eq_denote {x : MsgPack} (h : x.LengthsFit) (hheight : x.height ≤ max_depth) :
    echo is_big_endian is_big_endian' x = (canon x).denote := by
  rw [echo, parse_of_encoding (encoding_wire is_big_endian h hheight)]

/-- With sorted maps it is the value with its integers narrowed. -/
theorem echo_eq_narrowed {x : MsgPack} (h : x.LengthsFit) (hheight : x.height ≤ max_depth)
    (hsorted : RoundTrip.MapsSorted x) : echo is_big_endian is_big_endian' x = narrowed x := by
  rw [echo_eq_denote h hheight, Comparisons.denote_canon_of_sorted hsorted]

/-! ## A row of values -/

/-- The values of a row, one encoding after the other. -/
def row (is_big_endian : Bool) (xs : List MsgPack) : List UInt8 :=
  xs.flatMap (wire is_big_endian)

@[simp] theorem row_nil (is_big_endian : Bool) : row is_big_endian [] = [] := rfl

@[simp] theorem row_cons (is_big_endian : Bool) (x : MsgPack) (xs : List MsgPack) :
    row is_big_endian (x :: xs) = wire is_big_endian x ++ row is_big_endian xs := rfl

@[simp] theorem row_append (is_big_endian : Bool) (xs ys : List MsgPack) :
    row is_big_endian (xs ++ ys) = row is_big_endian xs ++ row is_big_endian ys :=
  List.flatMap_append ..

/-- Nothing that begins with an encoding is the beginning of a deep value. -/
theorem not_accepts_of_deep {x : MsgPack} {e r r' : List UInt8} (h : x.LengthsFit)
    (hheight : max_depth < x.height) (heq : e ++ r = wire is_big_endian x ++ r') :
    ¬ Accepts is_big_endian' e := by
  intro hacc
  obtain ⟨w, hw⟩ := accepts_iff.mp hacc
  have hok := framed_message.stable.ok r hw
  rw [heq, message_wire_deep is_big_endian h hheight] at hok
  cases hok

/-- The first message of a row is its first value. -/
theorem accepts_row {x : MsgPack} {xs : List MsgPack} {e r : List UInt8}
    (hx : x.LengthsFit) (hacc : Accepts is_big_endian' e)
    (heq : e ++ r = row is_big_endian (x :: xs)) :
    x.height ≤ max_depth ∧ e = wire is_big_endian x ∧ r = row is_big_endian xs := by
  rw [row_cons] at heq
  by_cases hheight : x.height ≤ max_depth
  · obtain ⟨w, hw⟩ := encoding_of_accepts hacc
    obtain ⟨-, he, hr⟩ := encoding_unique hw (encoding_wire is_big_endian hx hheight) heq
    exact ⟨hheight, he, hr⟩
  · exact absurd hacc (not_accepts_of_deep hx (not_le.mp hheight) heq)

/-- A beginning `s` of a row of values, split into messages and a rest: the messages are
the first values of the row, and what is left of the row begins with the rest. -/
theorem split_of_row {xs : List MsgPack} {s t rest : List UInt8} {es : List (List UInt8)}
    (hfit : ∀ x ∈ xs, x.LengthsFit) (hrow : s ++ t = row is_big_endian xs)
    (h : IsSplit is_big_endian' s es rest) :
    ∃ done left, xs = done ++ left ∧ es = done.map (wire is_big_endian) ∧
      (∀ x ∈ done, x.height ≤ max_depth) ∧ rest ++ t = row is_big_endian left := by
  have hsplit := h.split
  have haccepted := h.accepted
  clear h
  induction es generalizing s xs with
  | nil =>
      refine ⟨[], xs, rfl, rfl, by simp, ?_⟩
      rw [← hrow, hsplit]
      rfl
  | cons e es ih =>
      rw [List.forall_mem_cons] at haccepted
      rw [List.flatten_cons, List.append_assoc] at hsplit
      rcases xs with _ | ⟨x, xs⟩
      · -- a message is not empty
        rw [hsplit, row_nil, List.append_eq_nil_iff, List.append_eq_nil_iff] at hrow
        rw [hrow.1.1] at haccepted
        exact absurd haccepted.1 not_accepts_nil
      rw [List.forall_mem_cons] at hfit
      rw [hsplit, List.append_assoc] at hrow
      obtain ⟨hheight, rfl, hrest⟩ := accepts_row hfit.1 haccepted.1 hrow
      obtain ⟨done, left, rfl, rfl, hdone, hleft⟩ := ih hfit.2 hrest rfl haccepted.2
      exact ⟨x :: done, left, rfl, rfl, List.forall_mem_cons.mpr ⟨hheight, hdone⟩, hleft⟩

/-- Of the value that follows some byte has not been read. -/
theorem shorter_of_stuck {x : MsgPack} {xs : List MsgPack} {s t rest : List UInt8}
    {es : List (List UInt8)} (h : IsSplit is_big_endian' s es rest) (hx : x.LengthsFit)
    (hheight : x.height ≤ max_depth) (hrow : rest ++ t = row is_big_endian (x :: xs)) :
    rest.length < (wire is_big_endian x).length := by
  by_contra hge
  rw [row_cons] at hrow
  -- otherwise the rest would begin with a message
  have hprefix : wire is_big_endian x <+: rest :=
    List.prefix_of_prefix_length_le ⟨row is_big_endian xs, hrow.symm⟩ (List.prefix_append rest t)
      (not_lt.mp hge)
  obtain ⟨u, rfl⟩ := hprefix
  rcases h.stuck with hnil | hno
  · exact wire_ne_nil is_big_endian hx (List.append_eq_nil_iff.mp hnil).1
  · exact hno _ u rfl (accepts_of_encoding (encoding_wire is_big_endian hx hheight))

end Msgpack11.Delivery
