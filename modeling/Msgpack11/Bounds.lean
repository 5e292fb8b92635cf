/-
What the parser builds, against what it reads.

A declared length is a promise about the bytes to come, and the functions that
build something of that length take it at its word: a string or a binary is
sized before it is read, and the loop of an array runs to its end whatever the
stream says. So none of them is bounded by the input (`unbounded_on_empty_stream`).
What a failed stream adds is only filling, `NUL` values and zero bytes; without it
there are at most as many elements as bytes consumed. `parse_msgpack` looks at the
stream once, when all is built, and lets go of it if the stream has failed. What
it does return is bounded (`footprint`).

Nothing here assumes that the stream is good, or that a depth is within the limit:
the states that matter are those an earlier failure left.
-/
import Msgpack11.Reencoding

set_option autoImplicit false

namespace Msgpack11.Bounds

open Msgpack11.Streams Msgpack11.Codec Msgpack11.Format Msgpack11.Parser Msgpack11.Refinement
open Msgpack11.Grammar Msgpack11.Canonical Msgpack11.Shortest Msgpack11.Reencoding

/-! ## The parser moves forward only -/

section Advances

variable (is_big_endian : Bool) {parse : IStream → ℕ → MsgPack × IStream} {depth : ℕ}

/-- A number is read byte by byte, and zeroed if the stream has failed then. -/
theorem read_bytes_advances (w : ℕ) : Advances (read_bytes is_big_endian w) := by
  have hloop := Advances.get.repeatInto (store is_big_endian) w
    (Bytes.offset is_big_endian w, List.replicate w 0)
  intro is
  rw [read_bytes]
  dsimp only
  split_ifs <;> exact hloop is

theorem read_advances (n : ℕ) : Advances fun is => is.read n := by
  intro is
  obtain ⟨p, k, hsplit, -⟩ := read_split is n
  rw [hsplit]
  exact List.suffix_append p _

/-- A payload of any family, given a parser for what it contains. -/
theorem parse_payload_advances (h : Advances fun is => parse is depth) (f : Family) (bytes : ℕ) :
    Advances (parse_payload is_big_endian parse f bytes depth) := by
  cases f
  case string => exact read_advances bytes
  case binary => exact read_advances bytes
  case array => exact h.repeatInto _ bytes []
  case object =>
    have hentry : Advances fun is => parse_entry parse is depth :=
      h.bind (fun key is => ((key, (parse is depth).1), (parse is depth).2)) fun _ => h
    exact hentry.repeatInto _ bytes []
  case extension =>
    exact (read_bytes_advances is_big_endian 1).bind
      (fun type is => (MsgPack.extension (UInt8.ofNat type).toInt8 (is.read bytes).1,
        (is.read bytes).2)) fun _ => read_advances bytes

/-- The same with the length read first. -/
theorem parse_wide_advances (h : Advances fun is => parse is depth) (f : Family) (w : ℕ) :
    Advances fun is => parse_payload is_big_endian parse f (read_bytes is_big_endian w is).1 depth
      (read_bytes is_big_endian w is).2 :=
  (read_bytes_advances is_big_endian w).bind
    (fun bytes is => parse_payload is_big_endian parse f bytes depth is)
    (parse_payload_advances is_big_endian h f)

/-- A sub-parser, whichever the table has for the first byte. -/
theorem dispatch_advances (h : Advances fun is => parse is depth) (p : SubParser) (b : UInt8) :
    Advances fun is => dispatch is_big_endian parse p is b depth := by
  cases p
  case parse_invalid => exact Advances.setFailbit _
  case parse_nil => exact Advances.pure _
  case parse_bool => exact Advances.pure _
  case parse_arith T => exact read_bytes_advances is_big_endian T.size
  case parse_string T => exact parse_wide_advances is_big_endian h .string T.size
  case parse_array T => exact parse_wide_advances is_big_endian h .array T.size
  case parse_object T => exact parse_wide_advances is_big_endian h .object T.size
  case parse_binary T => exact parse_wide_advances is_big_endian h .binary T.size
  case parse_extension T => exact parse_wide_advances is_big_endian h .extension T.size
  case parse_pos_fixint => exact Advances.pure _
  case parse_fixobject => exact parse_payload_advances is_big_endian h .object _
  case parse_fixarray => exact parse_payload_advances is_big_endian h .array _
  case parse_fixstring => exact parse_payload_advances is_big_endian h .string _
  case parse_neg_fixint => exact Advances.pure _
  case parse_fixext => exact parse_payload_advances is_big_endian h .extension _

/-- One call of the parser, whichever way it returns. -/
theorem parse_msgpack_body_advances (h : Advances fun is => parse is (depth + 1)) :
    Advances fun is => parse_msgpack_body is_big_endian parse is depth := by
  have hafter : ∀ c, Advances (after_get is_big_endian parse depth c) := by
    intro c is
    have hdispatch := dispatch_advances is_big_endian h (parsers (c.getD 0xff)) (c.getD 0xff) is
    unfold after_get
    dsimp only
    split_ifs
    · exact List.suffix_refl _
    · exact hdispatch
    · exact hdispatch
  intro is
  unfold parse_msgpack_body
  split_ifs
  · exact List.suffix_refl _
  · exact Advances.get.bind (after_get is_big_endian parse depth) hafter is

/-- So does the parser with its levels unrolled, by induction on them. -/
theorem parse_levels_advances (n : ℕ) :
    ∀ depth, Advances fun is => parse_levels is_big_endian n is depth := by
  induction n with
  | zero => exact fun _ => Advances.setFailbit _
  | succ n ih => exact fun depth => parse_msgpack_body_advances is_big_endian (ih (depth + 1))

/-- And so does the parser at any depth. -/
theorem parse_msgpack_advances (depth : ℕ) :
    Advances fun is => parse_msgpack is_big_endian is depth :=
  parse_levels_advances is_big_endian _ depth

end Advances

/-! ## Calls in any state -/

section AnyState

variable (is_big_endian : Bool)

/-- A call that did not fail found the stream good and a level left, and read an encoding. -/
theorem parse_msgpack_ok {is : IStream} {depth : ℕ}
    (h : (parse_msgpack is_big_endian is depth).2.failbit = false) :
    ∃ (w : Wire) (e r : List UInt8), w.bytes = some e ∧ is.rest = e ++ r ∧
      parse_msgpack is_big_endian is depth = (w.denote, { is with rest := r }) := by
  have hrefines := parse_msgpack_refines is_big_endian depth
  by_cases hgood : is.good = true
  · rcases hread : WireReader.read (max_depth + 1 - depth) is.rest with x | ⟨w, r⟩
    · rw [(hrefines.error is x hgood hread).1] at h
      cases h
    · obtain ⟨-, e, he, hrest⟩ := (WireReader.decodes _).sound hread
      exact ⟨w, e, r, he, hrest, hrefines.ok is w r hgood hread⟩
  · -- on any other stream the first `get` fails
    rw [parse_msgpack_eq, parse_msgpack_body, IStream.get, if_neg hgood] at h
    split_ifs at h <;> cases h

/-- A call that did not fail consumed something. -/
theorem parse_msgpack_consumes {is : IStream} {depth : ℕ}
    (h : (parse_msgpack is_big_endian is depth).2.failbit = false) :
    (parse_msgpack is_big_endian is depth).2.rest.length < is.rest.length := by
  obtain ⟨w, e, r, he, hrest, heq⟩ := parse_msgpack_ok is_big_endian h
  have hpos := Wire.length_pos_of_bytes he
  rw [heq, hrest, List.length_append]
  dsimp only
  omega

/-- The vector has the declared length in any case. It holds what the calls before the
first that fails have returned, at most one element for each byte consumed, and a `NUL`
for that call and for each after it. -/
theorem parse_array_impl_split (is : IStream) (n depth : ℕ) :
    ∃ u k is', Calls (fun is => parse_msgpack is_big_endian is depth) is u is' ∧
      u.length + k = n ∧ (0 < k → (parse_msgpack is_big_endian is' depth).2.failbit = true) ∧
      parse_array_impl (parse_msgpack is_big_endian) is n depth = (u ++ List.replicate k .nul,
        if k = 0 then is' else (parse_msgpack is_big_endian is' depth).2) := by
  obtain ⟨u, k, is', hcalls, hlen, hfirst, hloop⟩ := repeatInto_split (fun res v => res ++ [v])
    (parse_msgpack_refines is_big_endian depth).failed
    (fun is => nul_of_fail is_big_endian) n [] is
  rw [foldl_push (fun v => v), List.map_id', List.nil_append] at hloop
  exact ⟨u, k, is', hcalls, hlen, hfirst, hloop⟩

end AnyState

/-! ## Footprints -/

/-- What a value takes to hold: its nodes, and the bytes of their payloads. -/
def footprint (x : MsgPack) : ℕ :=
  (x.nodes.map fun n => 1 + if n.isLeaf then n.length else 0).sum

/-- A leaf is one node and its payload. -/
theorem footprint_leaf {x : MsgPack} (h : x.isLeaf = true) : footprint x = 1 + x.length := by
  cases x <;> first | rfl | cases h

theorem sum_arrayNodes (f : MsgPack → ℕ) (xs : List MsgPack) :
    ((MsgPack.arrayNodes xs).map f).sum = (xs.map fun x => (x.nodes.map f).sum).sum := by
  induction xs with
  | nil => rfl
  | cons x xs ih =>
      rw [MsgPack.arrayNodes, List.map_append, List.sum_append, ih, List.map_cons, List.sum_cons]

theorem sum_objectNodes (f : MsgPack → ℕ) (es : List (MsgPack × MsgPack)) :
    ((MsgPack.objectNodes es).map f).sum
      = (es.map fun e => (e.1.nodes.map f).sum + (e.2.nodes.map f).sum).sum := by
  induction es with
  | nil => rfl
  | cons e es ih =>
      rw [MsgPack.objectNodes, List.map_append, List.map_append, List.sum_append, List.sum_append,
        ih, List.map_cons, List.sum_cons]

/-- An array is a node and its items. -/
theorem footprint_array (xs : List MsgPack) :
    footprint (.array xs) = 1 + (xs.map footprint).sum := by
  rw [footprint, MsgPack.nodes, List.map_cons, List.sum_cons, sum_arrayNodes]
  rfl

/-- An object is a node and its keys and values. -/
theorem footprint_object (es : List (MsgPack × MsgPack)) :
    footprint (.object es) = 1 + (es.map fun e => footprint e.1 + footprint e.2).sum := by
  rw [footprint, MsgPack.nodes, List.map_cons, List.sum_cons, sum_objectNodes]
  rfl

/-- A leaf has at least a tag beside its payload. -/
theorem footprint_le_canon_leaf {x : MsgPack} {e : List UInt8} (hleaf : x.isLeaf = true)
    (h : (canon x).bytes = some e) : footprint x ≤ e.length := by
  rw [footprint_leaf hleaf]
  by_cases hlen : x.length = 0
  · rw [hlen]
    exact Wire.length_pos_of_bytes h
  -- what has a length and no items is a payload after a header
  have hpayload : ∃ f form n b, (canon x).bytes = cat (header f form n) (some b) ∧
      x.length ≤ b.length := by
    cases x
    case string v => exact ⟨_, _, _, v, rfl, le_refl _⟩
    case binary v => exact ⟨_, _, _, v, rfl, le_refl _⟩
    case extension t d => exact ⟨_, _, _, t.toUInt8 :: d, rfl, Nat.le_succ _⟩
    case array => cases hleaf
    case object => cases hleaf
    all_goals exact absurd rfl hlen
  obtain ⟨f, form, n, b, hbytes, hle⟩ := hpayload
  obtain ⟨b', hb', hlen'⟩ := length_of_framed (hbytes.symm.trans h)
  obtain rfl := Option.some.inj hb'
  omega

/-- The encoding of a value is at least as long as its footprint. -/
theorem footprint_le_canon {x : MsgPack} {e : List UInt8} (h : (canon x).bytes = some e) :
    footprint x ≤ e.length := by
  induction x using MsgPack.induction generalizing e with
  | leaf x hleaf => exact footprint_le_canon_leaf hleaf h
  | array xs ih =>
      rw [canon, Wire.bytes] at h
      obtain ⟨b, hb, hlen⟩ := length_of_framed h
      rw [Wire.itemsBytes_eq_concat, canonItems_eq_map, concat_map] at hb
      have hsum : (xs.map footprint).sum ≤ b.length :=
        sum_le_length_concat hb fun x hx _ => ih x hx
      rw [footprint_array]
      omega
  | object es ih =>
      rw [canon, Wire.bytes] at h
      obtain ⟨b, hb, hlen⟩ := length_of_framed h
      rw [Wire.entriesBytes_eq_concat, canonEntries_eq_map, concat_map] at hb
      have hsum : (es.map fun e => footprint e.1 + footprint e.2).sum ≤ b.length := by
        apply sum_le_length_concat hb
        intro kv hkv e' he'
        obtain ⟨k, v, hk, hv, rfl⟩ := cat_eq_some.mp he'
        rw [List.length_append]
        exact Nat.add_le_add ((ih kv hkv).1 hk) ((ih kv hkv).2 hv)
      rw [footprint_object]
      omega

/-! ## Bounds -/

/-- How many bytes were taken from the stream between two states of it. -/
def consumed (is is' : IStream) : ℕ := is.rest.length - is'.rest.length

theorem consumed_of_nil {is : IStream} (h : is.rest = []) (is' : IStream) :
    consumed is is' = 0 := by
  rw [consumed, h, List.length_nil, Nat.zero_sub]

/-- The vector is as long as was declared, in any state of the stream. -/
theorem length_parse_array_impl (is_big_endian : Bool) (is : IStream) (n depth : ℕ) :
    (parse_array_impl (parse_msgpack is_big_endian) is n depth).1.length = n := by
  obtain ⟨u, k, is', -, hlen, -, hloop⟩ := parse_array_impl_split is_big_endian is n depth
  rw [hloop, List.length_append, List.length_replicate, hlen]

/-- So is the string. -/
theorem length_parse_string_impl (is : IStream) (n : ℕ) :
    (parse_string_impl is n).1.length = n := by
  obtain ⟨p, k, -, hvalue, hlen, -⟩ := read_split is n
  rw [parse_string_impl, hvalue, List.length_append, List.length_replicate, hlen]

/-- The declared count is all that decides how much is built: two bytes of count and
nothing after them give 65535 elements, or as many bytes. -/
theorem unbounded_on_empty_stream :
    let is : IStream := ⟨3, [], false, false⟩
    let array := parse_array_impl (parse_msgpack false) is 0xffff 1
    let string := parse_string_impl is 0xffff
    let binary := parse_binary_impl is 0xffff
    (array.1.length = 0xffff ∧ consumed is array.2 = 0) ∧
      (string.1.length = 0xffff ∧ consumed is string.2 = 0) ∧
      (binary.1.length = 0xffff ∧ consumed is binary.2 = 0) :=
  ⟨⟨length_parse_array_impl _ _ _ _, consumed_of_nil rfl _⟩,
    ⟨length_parse_string_impl _ _, consumed_of_nil rfl _⟩,
    ⟨length_parse_string_impl _ _, consumed_of_nil rfl _⟩⟩

/-- In any state of the stream, an array holds the values that the calls of
`parse_msgpack` have returned before the first that fails, at most one for each byte
consumed, and a `NUL` for that call and for each after it up to the declared count; the
stream is left as that call left it. A string and a binary are the bytes that were read,
and zeros up to the declared count if the stream has failed. The parser consumes only what
is there. It returns `NUL` if the stream has failed, and otherwise a value that takes no
more to hold than the bytes it consumed. -/
theorem built_of_consumed (is_big_endian : Bool) (is : IStream) (n depth : ℕ) :
    (let r := parse_array_impl (parse_msgpack is_big_endian) is n depth;
      r.2.rest <:+ is.rest ∧ ∃ u k is',
        Calls (fun is => parse_msgpack is_big_endian is depth) is u is' ∧
        (0 < k → (parse_msgpack is_big_endian is' depth).2.fail = true) ∧
        r.1 = u ++ List.replicate k .nul ∧ u.length + k = n ∧
        r.2 = (if k = 0 then is' else (parse_msgpack is_big_endian is' depth).2) ∧
        u.length ≤ consumed is r.2 ∧ (r.2.fail = false → k = 0)) ∧
    (let r := parse_string_impl is n;
      ∃ p k, is.rest = p ++ r.2.rest ∧ r.1 = p ++ List.replicate k 0 ∧ p.length + k = n ∧
        (r.2.fail = false → k = 0)) ∧
    (let r := parse_binary_impl is n;
      ∃ p k, is.rest = p ++ r.2.rest ∧ r.1 = p ++ List.replicate k 0 ∧ p.length + k = n ∧
        (r.2.fail = false → k = 0)) ∧
    (let r := parse_msgpack is_big_endian is depth;
      r.2.rest <:+ is.rest ∧ (r.2.fail = true → r.1 = .nul) ∧
        (r.2.fail = false → footprint r.1 ≤ consumed is r.2)) := by
  refine ⟨⟨?_, ?_⟩, read_split is n, read_split is n, ?_, nul_of_fail is_big_endian, ?_⟩
  · exact (parse_msgpack_advances is_big_endian depth).repeatInto _ n [] is
  · obtain ⟨u, k, is', hcalls, hlen, hfirst, hloop⟩ :=
      parse_array_impl_split is_big_endian is n depth
    have hle := hcalls.length_le fun is => parse_msgpack_consumes is_big_endian
    -- the call that fails may have consumed something too
    have hmore : (parse_msgpack is_big_endian is' depth).2.rest.length ≤ is'.rest.length :=
      (parse_msgpack_advances is_big_endian depth is').length_le
    refine ⟨u, k, is', hcalls, hfirst, by rw [hloop], hlen, by rw [hloop], ?_, ?_⟩
    · rw [hloop, consumed]
      dsimp only
      split_ifs <;> omega
    · intro hok
      by_contra hk
      rw [hloop, if_neg hk] at hok
      exact absurd (hfirst (Nat.pos_of_ne_zero hk)) (by rw [← IStream.fail, hok]; decide)
  · exact parse_msgpack_advances is_big_endian depth is
  · intro hok
    obtain ⟨w, e, r, he, hrest, heq⟩ := parse_msgpack_ok is_big_endian hok
    obtain ⟨c, hbytes, -⟩ := dump_eq_canon is_big_endian (Wire.lengthsFit_denote he)
    have hle := size_canon_denote_le he
    rw [hbytes, size_some] at hle
    have hconsumed : consumed is { is with rest := r } = e.length := by
      rw [consumed, hrest, List.length_append, Nat.add_sub_cancel]
    rw [heq, hconsumed]
    exact (footprint_le_canon hbytes).trans hle

end Msgpack11.Bounds
