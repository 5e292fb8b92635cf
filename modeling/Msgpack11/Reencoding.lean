/-
Re-encoding: what `dump` makes of what `parse` read.

A foreign encoder is free to send lengths in wide fields, integers in wide
types, maps with repeated and with unsorted keys. `parse` forgets all of that,
so `dump` writes the canonical encoding of what was sent. It is never longer
(`size_canon_denote_le`): each item is compared with what the format allows for
it, and an entry that the map did not keep costs nothing. It is stable: the
integers that come back are in other types, and have the same canonical encoding
(`canon_narrowed`).

What is dumped is a parsed object, so its entries are sorted because they were
inserted, not by assumption. Only the entries that were kept matter for that
(`mapsSorted_denote`).
-/
import Msgpack11.RoundTrip

set_option autoImplicit false

namespace Msgpack11.Reencoding

open Msgpack11.SortedUnique Msgpack11.Codec Msgpack11.Format Msgpack11.Compare Msgpack11.Parser
open Msgpack11.Grammar Msgpack11.Outcomes Msgpack11.Parse Msgpack11.Streams Msgpack11.Dump
open Msgpack11.Shortest Msgpack11.Canonical Msgpack11.RoundTrip

/-! ## What was sent is a well-formed value -/

theorem mapsSorted_denote {w : Wire} (h : w.denote.KeysFloatFree) : MapsSorted w.denote := by
  induction w using Wire.induction with
  | leaf w hleaf =>
      have hleaf' := Wire.isLeaf_denote hleaf
      rw [MapsSorted, MsgPack.all_leaf hleaf', MsgPack.object_items_of_leaf hleaf']
      exact Sorted.nil
  | array form ws ih =>
      rw [Wire.denote, Wire.denoteItems_eq_map] at h ⊢
      rw [MsgPack.KeysFloatFree, MsgPack.all_array] at h
      rw [MapsSorted, MsgPack.all_array]
      refine ⟨Sorted.nil, ?_⟩
      intro x hx
      obtain ⟨w, hw, rfl⟩ := List.mem_map.mp hx
      exact ih w hw (h.2 _ hx)
  | object form es ih =>
      rw [Wire.denote] at h ⊢
      rw [MsgPack.KeysFloatFree, MsgPack.all_object] at h
      rw [MapsSorted, MsgPack.all_object]
      refine ⟨Sorted.nil.insertAll_of_kept strictWeak_entryLess h.1, ?_⟩
      intro x hx
      have hfree := h.2 x hx
      obtain ⟨e, he, rfl⟩ := Wire.exists_of_mem_object hx
      exact ⟨(ih e he).1 hfree.1, (ih e he).2 hfree.2⟩

/-! ## Sizes -/

/-- A header in the shortest form before a body that is no longer. -/
theorem size_framed_le {f : Family} {form : Form} {m n : ℕ} {body body' : Option (List UInt8)}
    {e : List UInt8} (h : cat (header f form n) body = some e) (hmn : m ≤ n)
    (hfix : (fixTag f n).isSome → (fixTag f m).isSome)
    (hbody : ∀ b, body = some b → size body' ≤ b.length) :
    size (cat (header f (shortForm f m) m) body') ≤ e.length := by
  obtain ⟨head, b, hh, hb, rfl⟩ := cat_eq_some.mp h
  calc size (cat (header f (shortForm f m) m) body')
      ≤ size (header f (shortForm f m) m) + size body' := size_cat_le _ _
    _ ≤ head.length + b.length := Nat.add_le_add (size_header_le hh hmn hfix) (hbody b hb)
    _ = (head ++ b).length := List.length_append.symm

theorem fixTag_object_of_le {m n : ℕ} (hmn : m ≤ n) (h : (fixTag .object n).isSome) :
    (fixTag .object m).isSome := by
  rw [fixTag] at h ⊢
  split_ifs at h with hn
  · rw [if_pos (hmn.trans_lt hn)]
    rfl
  · cases h

/-- The same header and the same body: only the form of the length is replaced. -/
theorem size_framed_self_le {f : Family} {form : Form} {n : ℕ} {b e : List UInt8}
    (h : cat (header f form n) (some b) = some e) :
    size (cat (header f (shortForm f n) n) (some b)) ≤ e.length := by
  refine size_framed_le h (le_refl n) id ?_
  intro b' hb'
  cases hb'
  exact le_refl _

theorem size_canon_denote_leaf_le {w : Wire} {e : List UInt8} (hleaf : w.isLeaf = true)
    (h : w.bytes = some e) : size (canon w.denote).bytes ≤ e.length := by
  rcases hn : w.denote.integer? with _ | n
  swap
  · rw [canon_of_integer hn]
    exact size_canonInt_le h hn
  cases w
  case array => cases hleaf
  case object => cases hleaf
  case nil =>
    cases h
    exact le_refl _
  case bool v =>
    cases h
    exact le_refl _
  case fixint b =>
    rw [Wire.denote] at hn
    split_ifs at hn <;> cases hn
  case arith T c =>
    rw [Wire.bytes] at h
    split_ifs at h with hc
    cases h
    -- the two types of floats, which have one form each
    cases T <;> cases hn <;> rw [List.length_cons, hc] <;> exact le_refl _
  case string form d => exact size_framed_self_le h
  case binary form d => exact size_framed_self_le h
  case extension form t d =>
    rw [Wire.denote, canon, Wire.bytes, UInt8.toUInt8_toInt8]
    exact size_framed_self_le h

/-- Item by item, none is longer than the one sent. -/
theorem size_canonItems_le {ws : List Wire} {b : List UInt8} (hb : Wire.itemsBytes ws = some b)
    (h : ∀ w ∈ ws, ∀ e, w.bytes = some e → size (canon w.denote).bytes ≤ e.length) :
    size (Wire.itemsBytes (canonItems (Wire.denoteItems ws))) ≤ b.length := by
  rw [Wire.itemsBytes_eq_concat] at hb ⊢
  calc size (concat Wire.bytes (canonItems (Wire.denoteItems ws)))
      ≤ ((canonItems (Wire.denoteItems ws)).map fun w => size w.bytes).sum := size_concat_le _ _
    _ = (ws.map fun w => size (canon w.denote).bytes).sum := by
        rw [canonItems_eq_map, Wire.denoteItems_eq_map, List.map_map, List.map_map]
        rfl
    _ ≤ b.length := sum_le_length_concat hb h

/-- Nor are the entries, and one that the map did not keep is not written again. -/
theorem size_canonEntries_le {es : List (Wire × Wire)} {b : List UInt8}
    (hb : Wire.entriesBytes es = some b)
    (h : ∀ e ∈ es, (∀ k, e.1.bytes = some k → size (canon e.1.denote).bytes ≤ k.length) ∧
      ∀ v, e.2.bytes = some v → size (canon e.2.denote).bytes ≤ v.length) :
    size (Wire.entriesBytes (canonEntries (insertAll entryLess [] (Wire.denoteEntries es))))
      ≤ b.length := by
  rw [Wire.entriesBytes_eq_concat] at hb ⊢
  let weight : MsgPack × MsgPack → ℕ := fun e => size (Wire.pairBytes (canon e.1, canon e.2))
  have hkept := sum_insertAll_le entryLess weight [] (Wire.denoteEntries es)
  rw [List.map_nil, List.sum_nil, Nat.zero_add] at hkept
  calc size (concat Wire.pairBytes (canonEntries (insertAll entryLess [] (Wire.denoteEntries es))))
      ≤ ((canonEntries (insertAll entryLess [] (Wire.denoteEntries es))).map
          fun e => size (Wire.pairBytes e)).sum := size_concat_le _ _
    _ = ((insertAll entryLess [] (Wire.denoteEntries es)).map weight).sum := by
        rw [canonEntries_eq_map, List.map_map]
        rfl
    _ ≤ ((Wire.denoteEntries es).map weight).sum := hkept
    _ = (es.map fun e => weight (e.1.denote, e.2.denote)).sum := by
        rw [Wire.denoteEntries_eq_map, List.map_map]
        rfl
    _ ≤ b.length := by
        apply sum_le_length_concat hb
        intro e he e' he'
        obtain ⟨k, v, hk, hv, rfl⟩ := cat_eq_some.mp he'
        rw [List.length_append]
        exact (size_cat_le _ _).trans (Nat.add_le_add ((h e he).1 k hk) ((h e he).2 v hv))

/-- The canonical encoding of what was sent is no longer than what was sent. -/
theorem size_canon_denote_le {w : Wire} {e : List UInt8} (h : w.bytes = some e) :
    size (canon w.denote).bytes ≤ e.length := by
  induction w using Wire.induction generalizing e with
  | leaf w hleaf => exact size_canon_denote_leaf_le hleaf h
  | array form ws ih =>
      have hlen : (canonItems (Wire.denoteItems ws)).length = ws.length := by
        rw [canonItems_eq_map, Wire.denoteItems_eq_map, List.length_map, List.length_map]
      have hlen' : (Wire.denoteItems ws).length = ws.length := by
        rw [Wire.denoteItems_eq_map, List.length_map]
      rw [Wire.denote, canon, Wire.bytes, hlen, hlen']
      exact size_framed_le h (le_refl _) id fun b hb => size_canonItems_le hb fun w hw _ => ih w hw
  | object form es ih =>
      have hle := Wire.length_object_le es
      rw [Wire.denote, canon, Wire.bytes, canonEntries_eq_map, List.length_map,
        ← canonEntries_eq_map]
      exact size_framed_le h hle (fixTag_object_of_le hle) fun b hb =>
        size_canonEntries_le hb fun e he => ⟨fun _ => (ih e he).1, fun _ => (ih e he).2⟩

/-! ## Narrowed values are encoded alike -/

theorem canon_narrowed (x : MsgPack) : canon (narrowed x) = canon x := by
  induction x using MsgPack.induction with
  | leaf x hleaf =>
      rcases hn : x.integer? with _ | n
      · rw [narrowed_of_leaf hleaf hn]
      · rw [narrowed_of_integer hn, canon_of_integer hn,
          canon_of_integer (integer_narrow (fits_of_integer hn))]
  | array xs ih =>
      have hitems : (xs.map narrowed).map canon = xs.map canon := by
        rw [List.map_map]
        exact List.map_congr_left ih
      rw [narrowed, canon, canon, canonItems_eq_map, canonItems_eq_map, narrowedItems_eq_map,
        List.length_map, hitems]
  | object es ih =>
      have hentries : (es.map fun e => (narrowed e.1, narrowed e.2)).map
          (fun e => (canon e.1, canon e.2)) = es.map fun e => (canon e.1, canon e.2) := by
        rw [List.map_map]
        apply List.map_congr_left
        intro e he
        exact Prod.ext (ih e he).1 (ih e he).2
      rw [narrowed, canon, canon, canonEntries_eq_map, canonEntries_eq_map,
        narrowedEntries_eq_map, List.length_map, hentries]

/-! ## Re-encoding -/

/-- `parse` succeeds on `s`, returns `x` and has consumed the first `n` bytes. -/
def Consumes (is_big_endian : Bool) (s : List UInt8) (n : ℕ) (x : MsgPack) : Prop :=
  n ≤ s.length ∧ ∀ err, parse_stream is_big_endian (IStream.ofString s) err
    = (x, ⟨s.length, s.drop n, false, false⟩, err)

theorem consumes_iff {is_big_endian : Bool} {s : List UInt8} {n : ℕ} {x : MsgPack} :
    Consumes is_big_endian s n x ↔
      n ≤ s.length ∧ ∃ w, message s = .ok (w, s.drop n) ∧ w.denote = x := by
  apply and_congr_right
  intro hn
  constructor
  · intro h
    have hvalue : (parse_msgpack is_big_endian (IStream.ofString s) 0).1 = x :=
      congrArg Prod.fst (h "")
    have hstream : (parse_msgpack is_big_endian (IStream.ofString s) 0).2
        = ⟨s.length, s.drop n, false, false⟩ := congrArg (fun p => p.2.1) (h "")
    obtain ⟨w, hmsg, hw⟩ := message_of_stream hstream
    exact ⟨w, hmsg, hw.symm.trans hvalue⟩
  · rintro ⟨w, hmsg, rfl⟩ err
    rw [parse_stream, parse_msgpack_of_message is_big_endian (IStream.good_ofString s) hmsg]
    rfl

/-- What was consumed is an encoding of the value. -/
theorem encoding_of_consumes {is_big_endian : Bool} {s : List UInt8} {n : ℕ} {x : MsgPack}
    (h : Consumes is_big_endian s n x) :
    (s.take n).length = n ∧ ∃ w, Encoding w (s.take n) ∧ w.denote = x := by
  obtain ⟨hn, w, hmsg, hx⟩ := consumes_iff.mp h
  obtain ⟨e, henc, hsplit⟩ := encoding_of_message hmsg
  have he : e = s.take n := by
    have hsame : e ++ s.drop n = s.take n ++ s.drop n := by
      rw [← hsplit, List.take_append_drop]
    exact List.append_cancel_right hsame
  rw [he] at henc
  exact ⟨List.length_take_of_le hn, w, henc, hx⟩

theorem consumes_of_encoding (is_big_endian : Bool) {w : Wire} {e : List UInt8}
    (h : Encoding w e) : Consumes is_big_endian e e.length w.denote := by
  have hmsg := message_of_encoding h []
  rw [List.append_nil] at hmsg
  refine consumes_iff.mpr ⟨le_refl _, w, ?_, rfl⟩
  rw [hmsg, List.drop_length]

/-- Re-encoding what was parsed writes at most as many bytes as were consumed. They are
read as the same value with its integers narrowed, and are written again for that. They
are the fewest: for any value that differs in the types of integers only the same bytes
are written, and no input that is read as one of those consumes fewer. Nor is there a
shorter header for any length than the one that is written for it. -/
theorem dump_parse_normal (is_big_endian is_big_endian' : Bool) {s : List UInt8} {n : ℕ}
    {x : MsgPack} (h : Consumes is_big_endian s n x) (hkeys : x.KeysFloatFree) :
    (∃ c, dump is_big_endian' x = .ok c ∧ c.length ≤ n ∧
      Consumes is_big_endian c c.length (narrowed x) ∧
      dump is_big_endian' (narrowed x) = .ok c ∧
      ∀ s' n' x', Consumes is_big_endian s' n' x' → narrowed x' = narrowed x →
        dump is_big_endian' x' = .ok c ∧ c.length ≤ n') ∧
    ∀ f form k head, header f form k = some head →
      ∃ form' head', header f form' k = some head' ∧
        dump_length is_big_endian' f k = .ok head' ∧ head'.length ≤ head.length := by
  -- whatever was read as a value is at least as long as its canonical encoding
  have hshortest : ∀ {s' n' x'}, Consumes is_big_endian s' n' x' →
      ∃ c, (canon x').bytes = some c ∧ dump is_big_endian' x' = .ok c ∧ c.length ≤ n' := by
    intro s' n' x' h'
    obtain ⟨hlen, w, henc, rfl⟩ := encoding_of_consumes h'
    obtain ⟨c, hbytes, hdump⟩ := dump_eq_canon is_big_endian' (Wire.lengthsFit_denote henc.1)
    have hle := size_canon_denote_le henc.1
    rw [hbytes, size_some, hlen] at hle
    exact ⟨c, hbytes, hdump, hle⟩
  obtain ⟨c, hbytes, hdump, hle⟩ := hshortest h
  -- the canonical encoding is read as the narrowed value
  have hback : Consumes is_big_endian c c.length (narrowed x) := by
    obtain ⟨-, w, henc, rfl⟩ := encoding_of_consumes h
    have henc' : Encoding (canon w.denote) c := by
      refine ⟨hbytes, ?_⟩
      rw [height_canon]
      exact (Wire.height_denote_le w).trans henc.2
    rw [← denote_canon (mapsSorted_denote hkeys) hkeys]
    exact consumes_of_encoding is_big_endian henc'
  refine ⟨⟨c, hdump, hle, hback, ?_, ?_⟩, ?_⟩
  · obtain ⟨c', hbytes', hdump', -⟩ := hshortest hback
    rw [canon_narrowed, hbytes] at hbytes'
    rw [← Option.some.inj hbytes'] at hdump'
    exact hdump'
  · intro s' n' x' h' hx'
    obtain ⟨c', hbytes', hdump', hle'⟩ := hshortest h'
    rw [← canon_narrowed, hx', canon_narrowed, hbytes] at hbytes'
    rw [← Option.some.inj hbytes'] at hdump' hle'
    exact ⟨hdump', hle'⟩
  · intro f form k head hhead
    obtain ⟨head', hhead', hdump'⟩ := dump_length_eq is_big_endian' f (le_of_header hhead)
    have hle' := size_header_le hhead (le_refl k) id
    rw [hhead', size_some] at hle'
    exact ⟨shortForm f k, head', hhead', hdump', hle'⟩

/-- A map with a wide integer and the same key again, and a byte that is not read. -/
theorem dump_parse_normal_map :
    let w : Wire := .object .fix [(.arith .int16 [0x00, 0x07], .nil), (.fixint 7, .bool true)]
    let s : List UInt8 := [0x82, 0xd1, 0x00, 0x07, 0xc0, 0x07, 0xc3, 0xff]
    Consumes false s 7 w.denote ∧ ∃ c, dump true w.denote = .ok c ∧ c.length ≤ 7 ∧
      Consumes false c c.length (narrowed w.denote) ∧ dump true (narrowed w.denote) = .ok c := by
  intro w s
  have henc : Encoding w [0x82, 0xd1, 0x00, 0x07, 0xc0, 0x07, 0xc3] := ⟨by decide, by decide⟩
  have hs : Consumes false s 7 w.denote :=
    consumes_iff.mpr ⟨by decide, w, message_of_encoding henc [0xff], rfl⟩
  obtain ⟨c, hdump, hle, hback, hagain, -⟩ :=
    (dump_parse_normal false true hs (by decide +kernel)).1
  exact ⟨hs, c, hdump, hle, hback, hagain⟩

end Msgpack11.Reencoding
