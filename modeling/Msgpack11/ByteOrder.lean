/-
The byte order of the host: `dump_data` and `read_bytes`.

Both walk the memory of an object with a step and a start taken from tables by
the flag `is_big_endian`, the one by index, the other by a moving pointer. On the
wire the order is always the same: `dump_data` puts the base-256 digits of the
number, most significant first (`Dump.dump_data_eq_toBE`), and `read_bytes` reads
them back (`read_bytes_refines`), on hosts of the same or of different kinds.
-/
import Msgpack11.Dump
import Msgpack11.Parser

set_option autoImplicit false

namespace Msgpack11.ByteOrder

open Msgpack11.Streams Msgpack11.Bytes Msgpack11.Dump Msgpack11.Parser

/-! ## Reading -/

/-- On a big-endian host the bytes fill the storage from its start. -/
theorem store_big_endian (bs pre : List UInt8) :
    (bs.foldl (fun dst c => store true dst (some c))
      ((pre.length : ℤ), pre ++ List.replicate bs.length 0)).2 = pre ++ bs := by
  induction bs generalizing pre with
  | nil => simp
  | cons b bs ih =>
      have hset : (pre ++ List.replicate (b :: bs).length 0).set pre.length b
          = (pre ++ [b]) ++ List.replicate bs.length 0 := by
        simp [List.replicate_succ]
      have hnext : ((pre.length : ℤ) + 1) = ((pre ++ [b]).length : ℤ) := by simp
      rw [List.foldl_cons, store, direction, if_pos rfl, Int.toNat_natCast, Option.getD_some, hset,
        hnext, ih (pre ++ [b])]
      simp

/-- On a little-endian host they fill it from its end. -/
theorem store_little_endian (bs post : List UInt8) :
    (bs.foldl (fun dst c => store false dst (some c))
      ((bs.length : ℤ) - 1, List.replicate bs.length 0 ++ post)).2 = bs.reverse ++ post := by
  induction bs generalizing post with
  | nil => simp
  | cons b bs ih =>
      have hindex : (((b :: bs).length : ℤ) - 1).toNat = bs.length := by simp
      have hset : (List.replicate (b :: bs).length 0 ++ post).set bs.length b
          = List.replicate bs.length 0 ++ (b :: post) := by
        rw [List.length_cons, List.replicate_succ', List.append_assoc]
        simp
      have hnext : (((b :: bs).length : ℤ) - 1) + -1 = (bs.length : ℤ) - 1 := by simp; omega
      rw [List.foldl_cons, store, direction, if_neg Bool.false_ne_true, hindex, Option.getD_some,
        hset, hnext, ih (b :: post)]
      simp

/-- The object ends up holding the number the bytes spell, whatever the host. -/
theorem contents_store (is_big_endian : Bool) (bs : List UInt8) :
    contents is_big_endian (bs.foldl (fun dst c => store is_big_endian dst (some c))
      (offset is_big_endian bs.length, List.replicate bs.length 0)).2 = ofBE bs := by
  cases is_big_endian
  · have h := store_little_endian bs []
    rw [List.append_nil, List.append_nil] at h
    rw [offset, if_neg Bool.false_ne_true, h, contents, if_neg Bool.false_ne_true,
      List.reverse_reverse]
  · have h := store_big_endian bs []
    rw [List.nil_append, List.nil_append, List.length_nil, Nat.cast_zero] at h
    rw [offset, if_pos rfl, h, contents, if_pos rfl]

/-- `read_bytes` reads a big-endian number. -/
theorem read_bytes_refines (is_big_endian : Bool) (w : ℕ) :
    Refines ofBE (read_bytes is_big_endian w) (Reader.take w) := by
  have hloop := Refines.repeatInto (store is_big_endian) Refines.get w
    (offset is_big_endian w, List.replicate w 0)
  rw [Reader.times_byte] at hloop
  -- the loop stores the bytes, and the object then holds the number they spell
  have hvalue : Refines ofBE _ (Reader.take w) :=
    (hloop.post fun dst => contents is_big_endian dst.2).congr_value fun s bs r hok => by
      obtain ⟨-, rfl⟩ := Reader.take_ok hok
      exact contents_store is_big_endian bs
  -- the check for failure changes the value only
  have hchecked := hvalue.checked (fun p => (0, p.2)) fun _ _ => rfl
  exact hchecked.congr fun _ => rfl

theorem read_byte_refines (is_big_endian : Bool) :
    Refines UInt8.toNat (read_bytes is_big_endian 1) Reader.byte := by
  have h := read_bytes_refines is_big_endian 1
  rw [Reader.take_one] at h
  apply (h.unmap fun b => [b]).congr_value
  intro _ b _ _
  simp [ofBE]

/-- The value and the stream of a read, apart. -/
theorem read_bytes_eq (is_big_endian : Bool) {w : ℕ} {is is' : IStream} {dst : ℤ × List UInt8}
    (h : repeatInto IStream.get (store is_big_endian) w
      (offset is_big_endian w, List.replicate w 0) is = (dst, is')) :
    read_bytes is_big_endian w is
      = (if is'.fail || is'.eof then 0 else contents is_big_endian dst.2, is') := by
  rw [read_bytes, h]
  dsimp only
  split_ifs <;> rfl

/-- A read that leaves the stream failed leaves `0` in the object. -/
theorem read_bytes_of_fail (is_big_endian : Bool) (w : ℕ) {is : IStream}
    (h : (read_bytes is_big_endian w is).2.fail = true) :
    (read_bytes is_big_endian w is).1 = 0 := by
  rcases hloop : repeatInto IStream.get (store is_big_endian) w
    (offset is_big_endian w, List.replicate w 0) is with ⟨dst, is'⟩
  rw [read_bytes_eq is_big_endian hloop] at h ⊢
  have hfail : is'.fail = true := h
  rw [hfail]
  rfl

/-- Fewer bytes than asked for, or a stream that has failed already. -/
theorem read_bytes_short (is_big_endian : Bool) {w : ℕ} {is : IStream}
    (h : is.rest.length < w ∨ is.fail = true) :
    (read_bytes is_big_endian w is).2.fail = true := by
  have hrefines := read_bytes_refines is_big_endian w
  by_cases hfail : is.failbit = true
  · rw [hrefines.failed is hfail]
    exact hfail
  have hshort : is.rest.length < w := h.resolve_right hfail
  by_cases hgood : is.good = true
  · exact (hrefines.error is .endOfBuffer hgood (Reader.take_of_lt hshort)).1
  · -- only the eofbit is set: the first `get` fails, and the others change nothing
    obtain ⟨k, rfl⟩ := Nat.exists_eq_succ_of_ne_zero (show w ≠ 0 by omega)
    have hget : is.get = (none, is.setFailbit) := if_neg hgood
    have hinert : Inert IStream.get := fun is' h' => by rw [IStream.get_of_fail h']
    have hloop := Inert.repeatInto (store is_big_endian) hinert k
      (store is_big_endian (offset is_big_endian (k + 1), List.replicate (k + 1) 0) none)
      is.setFailbit rfl
    rcases hrest : repeatInto IStream.get (store is_big_endian) k
      (store is_big_endian (offset is_big_endian (k + 1), List.replicate (k + 1) 0) none)
      is.setFailbit with ⟨dst, is'⟩
    rw [hrest] at hloop
    have hrun : repeatInto IStream.get (store is_big_endian) (k + 1)
        (offset is_big_endian (k + 1), List.replicate (k + 1) 0) is = (dst, is') := by
      rw [repeatInto, hget]
      exact hrest
    rw [read_bytes_eq is_big_endian hrun, show is' = is.setFailbit from hloop]
    rfl

/-! ## Both directions -/

/-- `dump_data` stays inside the storage of the object. -/
theorem mem_dump_indices {is_big_endian : Bool} {w : ℕ} {i : ℤ}
    (h : i ∈ dump_indices is_big_endian w) : 0 ≤ i ∧ i < w := by
  rw [dump_indices, List.mem_map] at h
  obtain ⟨k, hk, rfl⟩ := h
  rw [List.mem_range] at hk
  cases is_big_endian <;> simp only [offset, direction, if_true, if_false, Bool.false_eq_true] <;>
    omega

/-- What `dump_data` puts and `read_bytes` makes of it, for every width and on hosts
of either byte order. -/
theorem dump_data_read_bytes (is_big_endian is_big_endian' : Bool) {w v : ℕ} (hv : v < 256 ^ w) :
    ((dump_data is_big_endian w v).map UInt8.toNat
        = (List.range w).map (fun i => v / 256 ^ (w - 1 - i) % 256) ∧
      ∀ i ∈ dump_indices is_big_endian w, 0 ≤ i ∧ i < w) ∧
    (∀ is r, is.good = true → is.rest = dump_data is_big_endian w v ++ r →
      read_bytes is_big_endian' w is = (v, { is with rest := r })) ∧
    (∀ is, is.rest.length < w ∨ is.fail = true →
      (read_bytes is_big_endian' w is).1 = 0 ∧ (read_bytes is_big_endian' w is).2.fail = true) := by
  refine ⟨⟨?_, fun i => mem_dump_indices⟩, ?_, ?_⟩
  · rw [dump_data_eq_toBE, map_toNat_toBE]
  · intro is r hgood hrest
    rw [dump_data_eq_toBE] at hrest
    have htake : Reader.take w is.rest = .ok (toBE w v, r) := by
      rw [hrest]
      exact Reader.take_append r (toBE_length w v)
    rw [(read_bytes_refines is_big_endian' w).ok is _ r hgood htake, ofBE_toBE hv]
  · intro is hshort
    have hfail := read_bytes_short is_big_endian' hshort
    exact ⟨read_bytes_of_fail is_big_endian' w hfail, hfail⟩

/-- A 16-bit number between hosts of different kinds, and one of its two bytes alone. -/
theorem dump_data_read_bytes_word :
    dump_data false 2 0x0102 = [1, 2] ∧
      read_bytes true 2 (IStream.ofString [1, 2, 3]) = (0x0102, ⟨3, [3], false, false⟩) ∧
      (read_bytes true 2 (IStream.ofString [1])).1 = 0 := by
  obtain ⟨-, hread, hshort⟩ := dump_data_read_bytes false true (w := 2) (v := 0x0102) (by decide)
  have hdump : dump_data false 2 0x0102 = [1, 2] := by decide
  refine ⟨hdump, ?_, (hshort _ (Or.inl (by decide))).1⟩
  exact hread (IStream.ofString [1, 2, 3]) [3] rfl (by rw [hdump]; rfl)

end Msgpack11.ByteOrder
