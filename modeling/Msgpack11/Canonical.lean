/-
The canonical encoding of a value: what `dump` writes, as a derivation of the
format.

`canon` picks the shortest form for every item. `dump_eq_canon` says that `dump`
writes it, for every value whose lengths fit the format. The rest of the
development then speaks of `canon`, which has no byte order, no cascade and no
exceptions in it.

`narrowed` is the value that comes back: the same tree with every integer in its
narrowest type.
-/
import Msgpack11.Shortest

set_option autoImplicit false

namespace Msgpack11.Canonical

open Msgpack11.Bytes Msgpack11.Dump Msgpack11.Codec Msgpack11.Format Msgpack11.Shortest

/-! ## Values -/

mutual

/-- The derivation of the encoding of a value. -/
def canon : MsgPack → Wire
  | .nul => .nil
  | .float32 v => .arith .float (toBE 4 v.toNat)
  | .float64 v => .arith .double (toBE 8 v.toNat)
  | .int8 v => canonInt v.toInt
  | .int16 v => canonInt v.toInt
  | .int32 v => canonInt v.toInt
  | .int64 v => canonInt v.toInt
  | .uint8 v => canonInt v.toNat
  | .uint16 v => canonInt v.toNat
  | .uint32 v => canonInt v.toNat
  | .uint64 v => canonInt v.toNat
  | .bool v => .bool v
  | .string v => .string (shortForm .string v.length) v
  | .binary v => .binary (shortForm .binary v.length) v
  | .array v => .array (shortForm .array v.length) (canonItems v)
  | .object v => .object (shortForm .object v.length) (canonEntries v)
  | .extension t d => .extension (shortForm .extension d.length) t.toUInt8 d

/-- The derivations of the items of an array. -/
def canonItems : List MsgPack → List Wire
  | [] => []
  | x :: xs => canon x :: canonItems xs

/-- The derivations of the entries of an object, keys and values. -/
def canonEntries : List (MsgPack × MsgPack) → List (Wire × Wire)
  | [] => []
  | (k, v) :: es => (canon k, canon v) :: canonEntries es

end

mutual

/-- The value that comes back from an encoding: every integer is in its narrowest
type, in keys too. -/
def narrowed : MsgPack → MsgPack
  | .int8 v => narrow v.toInt
  | .int16 v => narrow v.toInt
  | .int32 v => narrow v.toInt
  | .int64 v => narrow v.toInt
  | .uint8 v => narrow v.toNat
  | .uint16 v => narrow v.toNat
  | .uint32 v => narrow v.toNat
  | .uint64 v => narrow v.toNat
  | .array v => .array (narrowedItems v)
  | .object v => .object (narrowedEntries v)
  | x => x

/-- The items of an array, narrowed. -/
def narrowedItems : List MsgPack → List MsgPack
  | [] => []
  | x :: xs => narrowed x :: narrowedItems xs

/-- The entries of an object, narrowed in key and value. -/
def narrowedEntries : List (MsgPack × MsgPack) → List (MsgPack × MsgPack)
  | [] => []
  | (k, v) :: es => (narrowed k, narrowed v) :: narrowedEntries es

end

/-- Items are encoded one by one. -/
theorem canonItems_eq_map (xs : List MsgPack) : canonItems xs = xs.map canon := by
  induction xs with
  | nil => rfl
  | cons x xs ih => rw [canonItems, ih, List.map_cons]

theorem canonEntries_eq_map (es : List (MsgPack × MsgPack)) :
    canonEntries es = es.map fun e => (canon e.1, canon e.2) := by
  induction es with
  | nil => rfl
  | cons e es ih => rw [canonEntries, ih, List.map_cons]

theorem narrowedItems_eq_map (xs : List MsgPack) : narrowedItems xs = xs.map narrowed := by
  induction xs with
  | nil => rfl
  | cons x xs ih => rw [narrowedItems, ih, List.map_cons]

/-- Entries are narrowed one by one, in place. -/
theorem narrowedEntries_eq_map (es : List (MsgPack × MsgPack)) :
    narrowedEntries es = es.map fun e => (narrowed e.1, narrowed e.2) := by
  induction es with
  | nil => rfl
  | cons e es ih => rw [narrowedEntries, ih, List.map_cons]

/-- An integer is encoded by its value alone, in whichever type it is held. -/
theorem canon_of_integer {x : MsgPack} {n : ℤ} (h : x.integer? = some n) :
    canon x = canonInt n := by
  cases x <;> simp only [MsgPack.integer?, Option.some.injEq, reduceCtorEq] at h <;>
    subst h <;> rfl

/-- Nor does its narrowing depend on the type. -/
theorem narrowed_of_integer {x : MsgPack} {n : ℤ} (h : x.integer? = some n) :
    narrowed x = narrow n := by
  cases x <;> simp only [MsgPack.integer?, Option.some.injEq, reduceCtorEq] at h <;>
    subst h <;> rfl

/-- Any other leaf comes back as it is. -/
theorem narrowed_of_leaf {x : MsgPack} (hleaf : x.isLeaf = true) (h : x.integer? = none) :
    narrowed x = x := by
  revert h
  refine MsgPack.leaf_cases hleaf ?_ ?_ ?_ ?_ ?_ ?_ ?_ ?_
  · intro y n hn h
    rw [h] at hn
    cases hn
  all_goals
    intros
    rfl

theorem itemsHeight_canon {xs : List MsgPack} (h : ∀ x ∈ xs, (canon x).height = x.height) :
    Wire.itemsHeight (canonItems xs) = MsgPack.arrayHeight xs := by
  induction xs with
  | nil => rfl
  | cons x xs ih =>
      rw [List.forall_mem_cons] at h
      rw [canonItems, Wire.itemsHeight, MsgPack.arrayHeight, h.1, ih h.2]

theorem entriesHeight_canon {es : List (MsgPack × MsgPack)}
    (h : ∀ e ∈ es, (canon e.1).height = e.1.height ∧ (canon e.2).height = e.2.height) :
    Wire.entriesHeight (canonEntries es) = MsgPack.objectHeight es := by
  induction es with
  | nil => rfl
  | cons e es ih =>
      rw [List.forall_mem_cons] at h
      rw [canonEntries, Wire.entriesHeight, MsgPack.objectHeight, h.1.1, h.1.2, ih h.2]

/-- A value and its encoding have the same levels. -/
theorem height_canon (x : MsgPack) : (canon x).height = x.height := by
  induction x using MsgPack.induction with
  | leaf x hleaf =>
      refine MsgPack.leaf_cases hleaf ?_ rfl ?_ ?_ ?_ ?_ ?_ ?_
      · intro y n hn
        have hint : (canonInt n).height = 0 := by
          unfold canonInt
          split_ifs <;> rfl
        rw [canon_of_integer hn, hint]
        cases y <;> first | rfl | cases hn
      all_goals
        intros
        rfl
  | array xs ih => exact itemsHeight_canon ih
  | object es ih => exact entriesHeight_canon ih

/-! ## What `dump` writes -/

section Dump

variable (is_big_endian : Bool)

/-- `x` is dumped as the encoding of its canonical derivation. -/
def DumpsCanon (x : MsgPack) : Prop :=
  ∃ e, (canon x).bytes = some e ∧ dump is_big_endian x = .ok e

/-- Items that are dumped canonically one by one are dumped so in a row. -/
theorem dump_items_eq {xs : List MsgPack} (h : ∀ x ∈ xs, DumpsCanon is_big_endian x) :
    ∃ e, Wire.itemsBytes (canonItems xs) = some e ∧ dump_items is_big_endian xs = .ok e := by
  induction xs with
  | nil => exact ⟨[], rfl, rfl⟩
  | cons x xs ih =>
      rw [List.forall_mem_cons] at h
      obtain ⟨e₁, hb₁, hd₁⟩ := h.1
      obtain ⟨e₂, hb₂, hd₂⟩ := ih h.2
      refine ⟨e₁ ++ e₂, ?_, ?_⟩
      · rw [canonItems, Wire.itemsBytes, hb₁, hb₂]
        rfl
      · rw [dump_items, hd₁, hd₂]
        rfl

/-- The same of the entries of an object. -/
theorem dump_entries_eq {es : List (MsgPack × MsgPack)}
    (h : ∀ e ∈ es, DumpsCanon is_big_endian e.1 ∧ DumpsCanon is_big_endian e.2) :
    ∃ e, Wire.entriesBytes (canonEntries es) = some e ∧
      dump_entries is_big_endian es = .ok e := by
  induction es with
  | nil => exact ⟨[], rfl, rfl⟩
  | cons kv es ih =>
      rw [List.forall_mem_cons] at h
      obtain ⟨⟨e₁, hb₁, hd₁⟩, e₂, hb₂, hd₂⟩ := h.1
      obtain ⟨e₃, hb₃, hd₃⟩ := ih h.2
      refine ⟨e₁ ++ e₂ ++ e₃, ?_, ?_⟩
      · rw [canonEntries, Wire.entriesBytes, hb₁, hb₂, hb₃]
        rfl
      · rw [dump_entries, hd₁, hd₂, hd₃]
        rfl

/-- A string is put `char` by `char`, and comes out as it is. -/
theorem flatMap_dump_data (v : List UInt8) :
    v.flatMap (fun c => dump_data is_big_endian 1 c.toNat) = v := by
  induction v with
  | nil => rfl
  | cons c v ih => rw [List.flatMap_cons, ih, dump_data_one, List.singleton_append]

/-- What every overload with a length does: a header, then a body. -/
theorem dump_framed_eq (f : Family) {n : ℕ} {body : Option (List UInt8)}
    {out : Except String (List UInt8)} (hn : n ≤ 0xffffffff)
    (h : ∃ e, body = some e ∧ out = .ok e) :
    ∃ e, cat (header f (shortForm f n) n) body = some e ∧
      (do let head ← dump_length is_big_endian f n; let rest ← out; return head ++ rest)
        = Except.ok e := by
  obtain ⟨head, hh, hd⟩ := dump_length_eq is_big_endian f hn
  obtain ⟨b, rfl, rfl⟩ := h
  refine ⟨head ++ b, ?_, ?_⟩
  · rw [hh]
    rfl
  · rw [hd]
    rfl

/-- A value that has an encoding is dumped as its canonical one. -/
theorem dump_eq_canon {x : MsgPack} (h : x.LengthsFit) : DumpsCanon is_big_endian x := by
  induction x using MsgPack.induction with
  | leaf x hleaf =>
      have hself : x.length ≤ 0xffffffff := h.self
      -- each class writes what its derivation spells
      cases x
      case nul => exact ⟨_, rfl, rfl⟩
      case bool v => exact ⟨_, rfl, rfl⟩
      case float32 v =>
        refine ⟨_, rfl, ?_⟩
        rw [dump, dump_float, dump_data_eq_toBE]
        rfl
      case float64 v =>
        refine ⟨_, rfl, ?_⟩
        rw [dump, dump_double, dump_data_eq_toBE]
        rfl
      case int8 v => exact ⟨_, bytes_int8 v, rfl⟩
      case int16 v => exact ⟨_, bytes_int16 is_big_endian v, rfl⟩
      case int32 v => exact ⟨_, bytes_int32 is_big_endian v, rfl⟩
      case int64 v => exact ⟨_, bytes_int64 is_big_endian v, rfl⟩
      case uint8 v => exact ⟨_, bytes_uint8 v, rfl⟩
      case uint16 v => exact ⟨_, bytes_uint16 is_big_endian v, rfl⟩
      case uint32 v => exact ⟨_, bytes_uint32 is_big_endian v, rfl⟩
      case uint64 v => exact ⟨_, bytes_uint64 is_big_endian v, rfl⟩
      case string v =>
        obtain ⟨e, hb, hd⟩ := dump_framed_eq is_big_endian .string hself ⟨v, rfl, rfl⟩
        refine ⟨e, hb, ?_⟩
        rw [dump, dump_string, flatMap_dump_data]
        exact hd
      case binary v => exact dump_framed_eq is_big_endian .binary hself ⟨v, rfl, rfl⟩
      case extension t d =>
        exact dump_framed_eq is_big_endian .extension hself ⟨t.toUInt8 :: d, rfl, rfl⟩
      case array => cases hleaf
      case object => cases hleaf
  | array xs ih =>
      rw [MsgPack.LengthsFit, MsgPack.all_array] at h
      have hitems := dump_items_eq is_big_endian fun x hx => ih x hx (h.2 x hx)
      have hlen : (canonItems xs).length = xs.length := by
        rw [canonItems_eq_map, List.length_map]
      rw [DumpsCanon, canon, Wire.bytes, hlen]
      exact dump_framed_eq is_big_endian .array h.1 hitems
  | object es ih =>
      rw [MsgPack.LengthsFit, MsgPack.all_object] at h
      have hentries := dump_entries_eq is_big_endian fun e he =>
        ⟨(ih e he).1 (h.2 e he).1, (ih e he).2 (h.2 e he).2⟩
      have hlen : (canonEntries es).length = es.length := by
        rw [canonEntries_eq_map, List.length_map]
      rw [DumpsCanon, canon, Wire.bytes, hlen]
      exact dump_framed_eq is_big_endian .object h.1 hentries

end Dump

end Msgpack11.Canonical
