/-
The benchmark: an object of the generator is packed by `msgpack11-pack.cpp`, and what
`msgpack11-unpack.cpp` reads back is hashed, as `hash-object.c` hashes the object itself.

The two hash functions walk different trees: one the C structs, in the order in which
the generator left them, the other a parsed value, whose integers have got other types
and whose maps are in the order of their keys. They agree because the generator sorts
the keys (`benchmark_agrees`). For other values the C++ one still gives the same for all
copies (`hash_copy`), and never lets what follows cover up a difference
(`hash_object_reversible`).
-/
import Msgpack11.Generator
import Msgpack11.SortedMap
import Mathlib.Data.List.TakeWhile

set_option autoImplicit false

namespace Msgpack11.Benchmark

open Msgpack11.Floating Msgpack11.Compare Msgpack11.StrictWeak Msgpack11.SortedUnique
open Msgpack11.SortedMap Msgpack11.KeyOrder Msgpack11.Canonical Msgpack11.Shape Msgpack11.Parse
open Msgpack11.Parser Msgpack11.Grammar Msgpack11.RoundTrip Msgpack11.Comparisons
open Msgpack11.Relays Msgpack11.Paths

/-! ## The hash of `hash.h` -/

/-- The seed that both hash programs start from. -/
def HASH_INITIAL_VALUE : UInt32 := 15373

/-- `hash_u32`, on which the others rest: a step of a multiplicative hash. -/
def hash_u32 (hash val : UInt32) : UInt32 := hash * 31 ^^^ val

/-- `hash_u64`: the high half first. -/
def hash_u64 (hash : UInt32) (val : UInt64) : UInt32 :=
  hash_u32 (hash_u32 hash (val >>> 32).toUInt32) val.toUInt32

/-- `hash_i64`: an integer is hashed as its residue. -/
def hash_i64 (hash : UInt32) (val : Int64) : UInt32 := hash_u64 hash val.toUInt64

/-- `hash_bool`. -/
def hash_bool (hash : UInt32) (val : Bool) : UInt32 := hash_u32 hash (if val then 1 else 0)

/-- Floats are skipped over: a prime is mixed in instead. -/
def hash_double (hash : UInt32) (_val : Double) : UInt32 := hash_u32 hash 43013

/-- The loop of `hash_str` and the `switch` on what it leaves. -/
def hash_words (hash : UInt32) : List UInt8 → UInt32
  | a :: b :: c :: d :: ustr =>
      hash_words (hash_u32 hash
        (d.toUInt32 <<< 24 ||| c.toUInt32 <<< 16 ||| b.toUInt32 <<< 8 ||| a.toUInt32 <<< 0)) ustr
  | [a, b, c] =>
      hash_u32 hash ((0 : UInt32) ||| c.toUInt32 <<< 16 ||| b.toUInt32 <<< 8 ||| a.toUInt32)
  | [a, b] => hash_u32 hash ((0 : UInt32) ||| b.toUInt32 <<< 8 ||| a.toUInt32)
  | [a] => hash_u32 hash ((0 : UInt32) ||| a.toUInt32)
  | [] => hash

/-- `hash_str`: the length, then the bytes four at a time. -/
def hash_str (hash : UInt32) (str : List UInt8) : UInt32 :=
  hash_words (hash_u32 hash (UInt32.ofNat str.length)) str

/-- `hash_nil`: a zero and the text `nil`. -/
def hash_nil (hash : UInt32) : UInt32 := hash_str (hash_u32 hash 0) [0x6e, 0x69, 0x6c]

/-! ## C structs -/

namespace object_t

mutual

/-- `hash_object` of `hash-object.c`. -/
def hash_object : object_t → UInt32 → UInt32
  | .type_nil, hash => hash_nil hash
  | .type_bool b, hash => hash_bool hash b
  | .type_double d, hash => hash_double hash (ofBinary64 d)
  | .type_int i, hash => hash_i64 hash i
  | .type_uint u, hash => hash_u64 hash u
  | .type_str str, hash => hash_str hash str
  | .type_array children, hash =>
      hash_u32 (hash_children children hash) (UInt32.ofNat children.length)
  | .type_map children, hash =>
      hash_u32 (hash_pairs children hash) (UInt32.ofNat children.length)

/-- The loop of `hash_object` over an array. -/
def hash_children : List object_t → UInt32 → UInt32
  | [], hash => hash
  | object :: children, hash => hash_children children (object.hash_object hash)

/-- The loop of `hash_object` over a map: a key is hashed as a string, then its value. -/
def hash_pairs : List (List UInt8 × object_t) → UInt32 → UInt32
  | [], hash => hash
  | (key, value) :: children, hash =>
      hash_pairs children (value.hash_object (hash_str hash key))

end

/-- What `std::string(const char *)` makes of a string: it ends at the first NUL. -/
def c_string (str : List UInt8) : List UInt8 := str.takeWhile fun c => c != 0

mutual

/-- `pack_object`. A map is filled by `object_items[key->str] = pack_object(value)`. -/
def pack_object : object_t → MsgPack
  | .type_bool b => .bool b
  | .type_nil => .nul
  | .type_int i => .int64 i
  | .type_uint u => .uint64 u
  | .type_double d => .float64 d
  | .type_str str => .string (c_string str)
  | .type_array children => .array (pack_children children)
  | .type_map children => .object (assignAll less [] (pack_pairs children))

/-- The loop of `pack_object` over an array. -/
def pack_children : List object_t → List MsgPack
  | [] => []
  | object :: children => object.pack_object :: pack_children children

/-- What the loop over a map assigns, in order. -/
def pack_pairs : List (List UInt8 × object_t) → List (MsgPack × MsgPack)
  | [] => []
  | (key, value) :: children => (.string (c_string key), value.pack_object) :: pack_pairs children

end

end object_t

/-! ## Parsed values -/

/-- How `hash_object` fails: `assert` ends the program, the exception is caught. -/
inductive Fault where
  | assertion
  | runtime_error
  deriving DecidableEq

mutual

/-- `hash_object` of `msgpack11-unpack.cpp`. -/
def hash_object : MsgPack → UInt32 → Except Fault UInt32
  | .nul, hash => .ok (hash_nil hash)
  | .bool value, hash => .ok (hash_bool hash value)
  | .float32 value, hash => .ok (hash_double hash (ofBinary32 value))
  | .float64 value, hash => .ok (hash_double hash (ofBinary64 value))
  | .int8 value, hash => .ok (hash_i64 hash value.toInt64)
  | .int16 value, hash => .ok (hash_i64 hash value.toInt64)
  | .int32 value, hash => .ok (hash_i64 hash value.toInt64)
  | .int64 value, hash => .ok (hash_i64 hash value)
  | .uint8 value, hash => .ok (hash_u64 hash value.toUInt64)
  | .uint16 value, hash => .ok (hash_u64 hash value.toUInt64)
  | .uint32 value, hash => .ok (hash_u64 hash value.toUInt64)
  | .uint64 value, hash => .ok (hash_u64 hash value)
  | .string str, hash => .ok (hash_str hash str)
  | .array items, hash => do
      let hash ← hash_items items hash
      return hash_u32 hash (UInt32.ofNat items.length)
  | .object items, hash => do
      let hash ← hash_entries items hash
      return hash_u32 hash (UInt32.ofNat items.length)
  | .binary _, _ => .error .runtime_error
  | .extension _ _, _ => .error .runtime_error

/-- The loop of `hash_object` over an array. -/
def hash_items : List MsgPack → UInt32 → Except Fault UInt32
  | [], hash => .ok hash
  | item :: items, hash => do
      let hash ← hash_object item hash
      hash_items items hash

/-- The loop of `hash_object` over a map, which asserts that a key is a string. -/
def hash_entries : List (MsgPack × MsgPack) → UInt32 → Except Fault UInt32
  | [], hash => .ok hash
  | (key, value) :: items, hash =>
      if key.type = .STRING then do
        let hash ← hash_object value (hash_str hash key.string_value)
        hash_entries items hash
      else .error .assertion

end

/-! ## Seeds -/

/-- `31` is odd, so a step of the hash can be undone. -/
theorem hash_u32_injective {hash hash' val : UInt32} (h : hash_u32 hash val = hash_u32 hash' val) :
    hash = hash' := by
  have hmul : hash * 31 = hash' * 31 := (UInt32.xor_left_inj val).mp h
  have hinv : (31 : UInt32) * 0xbdef7bdf = 1 := by decide
  calc hash = hash * 31 * 0xbdef7bdf := by rw [UInt32.mul_assoc, hinv, UInt32.mul_one]
    _ = hash' * 31 * 0xbdef7bdf := by rw [hmul]
    _ = hash' := by rw [UInt32.mul_assoc, hinv, UInt32.mul_one]

theorem hash_u64_injective {hash hash' : UInt32} {val : UInt64}
    (h : hash_u64 hash val = hash_u64 hash' val) : hash = hash' :=
  hash_u32_injective (hash_u32_injective h)

/-- So can all steps over a string, by induction on the words. -/
theorem hash_words_injective {str : List UInt8} {hash hash' : UInt32}
    (h : hash_words hash str = hash_words hash' str) : hash = hash' := by
  fun_induction hash_words hash str generalizing hash' with
  | case1 hash a b c d str ih => exact hash_u32_injective (ih h)
  | case2 hash a b c => exact hash_u32_injective h
  | case3 hash a b => exact hash_u32_injective h
  | case4 hash a => exact hash_u32_injective h
  | case5 hash => exact h

theorem hash_str_injective {str : List UInt8} {hash hash' : UInt32}
    (h : hash_str hash str = hash_str hash' str) : hash = hash' :=
  hash_u32_injective (hash_words_injective h)

/-- A computation that succeeds has succeeded in its first part. -/
theorem bind_ok {α β : Type} {a : Except Fault α} {f : α → Except Fault β} {r : β}
    (h : (a >>= f) = .ok r) : ∃ x, a = .ok x ∧ f x = .ok r := by
  cases a with
  | error fault => cases h
  | ok x => exact ⟨x, rfl, h⟩

/-- Whatever its type, an integer is hashed as its residue modulo `2 ^ 64`. -/
theorem hash_of_integer {x : MsgPack} {n : ℤ} (h : x.integer? = some n) (hash : UInt32) :
    hash_object x hash = .ok (hash_u64 hash (UInt64.ofInt n)) := by
  cases x <;> cases h
  case int8.refl value => rw [hash_object, hash_i64, ← uint64_ofInt_toInt, Int8.toInt_toInt64]
  case int16.refl value => rw [hash_object, hash_i64, ← uint64_ofInt_toInt, Int16.toInt_toInt64]
  case int32.refl value => rw [hash_object, hash_i64, ← uint64_ofInt_toInt, Int32.toInt_toInt64]
  case int64.refl value => rw [hash_object, hash_i64, uint64_ofInt_toInt]
  case uint8.refl value =>
    rw [hash_object, ← uint64_ofInt_toNat value.toUInt64, UInt8.toNat_toUInt64]
  case uint16.refl value =>
    rw [hash_object, ← uint64_ofInt_toNat value.toUInt64, UInt16.toNat_toUInt64]
  case uint32.refl value =>
    rw [hash_object, ← uint64_ofInt_toNat value.toUInt64, UInt32.toNat_toUInt64]
  case uint64.refl value => rw [hash_object, uint64_ofInt_toNat]

/-- Where the hash succeeds, different seeds give different hashes. -/
def Reversible (x : MsgPack) : Prop :=
  ∀ {hash hash' r : UInt32}, hash_object x hash = .ok r → hash_object x hash' = .ok r → hash = hash'

/-- Items are undone from the last to the first. -/
theorem hash_items_reversible {xs : List MsgPack} (hxs : ∀ x ∈ xs, Reversible x)
    {hash hash' r : UInt32} (h : hash_items xs hash = .ok r) (h' : hash_items xs hash' = .ok r) :
    hash = hash' := by
  induction xs generalizing hash hash' with
  | nil =>
      cases h
      cases h'
      rfl
  | cons x xs ih =>
      rw [List.forall_mem_cons] at hxs
      obtain ⟨mid, hfirst, hrest⟩ := bind_ok h
      obtain ⟨mid', hfirst', hrest'⟩ := bind_ok h'
      obtain rfl := ih hxs.2 hrest hrest'
      exact hxs.1 hfirst hfirst'

/-- So are entries, each value before its key. -/
theorem hash_entries_reversible {es : List (MsgPack × MsgPack)} (hes : ∀ e ∈ es, Reversible e.2)
    {hash hash' r : UInt32} (h : hash_entries es hash = .ok r)
    (h' : hash_entries es hash' = .ok r) : hash = hash' := by
  induction es generalizing hash hash' with
  | nil =>
      cases h
      cases h'
      rfl
  | cons e es ih =>
      rw [List.forall_mem_cons] at hes
      rw [hash_entries] at h h'
      by_cases hkey : e.1.type = .STRING
      · rw [if_pos hkey] at h h'
        obtain ⟨mid, hfirst, hrest⟩ := bind_ok h
        obtain ⟨mid', hfirst', hrest'⟩ := bind_ok h'
        obtain rfl := ih hes.2 hrest hrest'
        exact hash_str_injective (hes.1 hfirst hfirst')
      · rw [if_neg hkey] at h
        cases h

/-- Every value is undone node by node. -/
theorem reversible (x : MsgPack) : Reversible x := by
  induction x using MsgPack.induction with
  | leaf x hleaf =>
      intro hash hash' r h h'
      rcases hn : x.integer? with _ | n
      · cases x <;> first | cases hleaf; done | cases hn; done | cases h
        case nul.refl => exact (hash_u32_injective (hash_str_injective (Except.ok.inj h'))).symm
        case string.refl => exact (hash_str_injective (Except.ok.inj h')).symm
        all_goals exact (hash_u32_injective (Except.ok.inj h')).symm
      · rw [hash_of_integer hn] at h h'
        cases h
        exact (hash_u64_injective (Except.ok.inj h')).symm
  | array xs ih =>
      intro hash hash' r h h'
      obtain ⟨mid, hitems, hr⟩ := bind_ok h
      obtain ⟨mid', hitems', hr'⟩ := bind_ok h'
      cases hr
      obtain rfl := hash_u32_injective (Except.ok.inj hr')
      exact hash_items_reversible ih hitems hitems'
  | object es ih =>
      intro hash hash' r h h'
      obtain ⟨mid, hentries, hr⟩ := bind_ok h
      obtain ⟨mid', hentries', hr'⟩ := bind_ok h'
      cases hr
      obtain rfl := hash_u32_injective (Except.ok.inj hr')
      exact hash_entries_reversible (fun e he => (ih e he).2) hentries hentries'

/-! ## What can be hashed -/

/-- No binary and no extension at any depth, and no key that is not a string. -/
def Hashable (x : MsgPack) : Prop :=
  x.All fun n => n.type ≠ .BINARY ∧ n.type ≠ .EXTENSION ∧ ∀ e ∈ n.object_items, e.1.type = .STRING

instance (x : MsgPack) : Decidable (Hashable x) := inferInstanceAs (Decidable (x.All _))

/-- Whether a value is hashed depends on the value only, not on the seed. -/
def Decided (x : MsgPack) : Prop := ∀ hash, (∃ r, hash_object x hash = .ok r) ↔ Hashable x

/-- A failure of one item is that of the array. -/
theorem hash_items_ok_iff {xs : List MsgPack} (hxs : ∀ x ∈ xs, Decided x) (hash : UInt32) :
    (∃ r, hash_items xs hash = .ok r) ↔ ∀ x ∈ xs, Hashable x := by
  induction xs generalizing hash with
  | nil => simp [hash_items]
  | cons x xs ih =>
      rw [List.forall_mem_cons] at hxs ⊢
      constructor
      · rintro ⟨r, h⟩
        obtain ⟨mid, hfirst, hrest⟩ := bind_ok h
        exact ⟨(hxs.1 hash).mp ⟨mid, hfirst⟩, (ih hxs.2 mid).mp ⟨r, hrest⟩⟩
      · rintro ⟨hx, hrest⟩
        obtain ⟨mid, hfirst⟩ := (hxs.1 hash).mpr hx
        obtain ⟨r, hr⟩ := (ih hxs.2 mid).mpr hrest
        refine ⟨r, ?_⟩
        rw [hash_items, hfirst]
        exact hr

/-- The same of an object, where a key can fail too. -/
theorem hash_entries_ok_iff {es : List (MsgPack × MsgPack)} (hes : ∀ e ∈ es, Decided e.2)
    (hash : UInt32) : (∃ r, hash_entries es hash = .ok r) ↔
      ∀ e ∈ es, e.1.type = .STRING ∧ Hashable e.2 := by
  induction es generalizing hash with
  | nil => simp [hash_entries]
  | cons e es ih =>
      rw [List.forall_mem_cons] at hes ⊢
      rw [hash_entries]
      by_cases hkey : e.1.type = .STRING
      · rw [if_pos hkey]
        constructor
        · rintro ⟨r, h⟩
          obtain ⟨mid, hfirst, hrest⟩ := bind_ok h
          exact ⟨⟨hkey, (hes.1 _).mp ⟨mid, hfirst⟩⟩, (ih hes.2 mid).mp ⟨r, hrest⟩⟩
        · rintro ⟨⟨-, he⟩, hrest⟩
          obtain ⟨mid, hfirst⟩ := (hes.1 (hash_str hash e.1.string_value)).mpr he
          obtain ⟨r, hr⟩ := (ih hes.2 mid).mpr hrest
          refine ⟨r, ?_⟩
          rw [hfirst]
          exact hr
      · rw [if_neg hkey]
        constructor
        · rintro ⟨r, h⟩
          cases h
        · rintro ⟨⟨hstring, -⟩, -⟩
          exact absurd hstring hkey

/-- A node that calls back for what is inside it succeeds when all of that does. -/
theorem return_ok_iff {a : Except Fault UInt32} {count : UInt32} :
    (∃ r, (a >>= fun hash => return hash_u32 hash count) = .ok r) ↔ ∃ r, a = .ok r := by
  constructor
  · rintro ⟨r, h⟩
    obtain ⟨mid, hmid, -⟩ := bind_ok h
    exact ⟨mid, hmid⟩
  · rintro ⟨r, rfl⟩
    exact ⟨hash_u32 r count, rfl⟩

/-- A key that passes the assertion has nothing in it that could fail. -/
theorem hashable_string {x : MsgPack} (h : x.type = .STRING) : Hashable x := by
  cases x <;> first | cases h; done | skip
  rw [Hashable, MsgPack.all_leaf rfl]
  simp [MsgPack.type, MsgPack.object_items]

/-- A failure depends on the nodes alone, by induction on the tree. -/
theorem decided (x : MsgPack) : Decided x := by
  induction x using MsgPack.induction with
  | leaf x hleaf =>
      intro hash
      rw [Hashable, MsgPack.all_leaf hleaf, MsgPack.object_items_of_leaf hleaf]
      cases x <;> first | cases hleaf; done | simp [hash_object, MsgPack.type]
  | array xs ih =>
      intro hash
      rw [hash_object, return_ok_iff, hash_items_ok_iff ih, Hashable, MsgPack.all_array]
      have hnode : (MsgPack.array xs).type ≠ .BINARY ∧ (MsgPack.array xs).type ≠ .EXTENSION := by
        simp [MsgPack.type]
      exact ⟨fun h => ⟨⟨hnode.1, hnode.2, fun e he => by cases he⟩, h⟩, fun h => h.2⟩
  | object es ih =>
      intro hash
      rw [hash_object, return_ok_iff, hash_entries_ok_iff (fun e he => (ih e he).2), Hashable,
        MsgPack.all_object]
      have hnode : (MsgPack.object es).type ≠ .BINARY ∧ (MsgPack.object es).type ≠ .EXTENSION := by
        simp [MsgPack.type]
      constructor
      · intro h
        exact ⟨⟨hnode.1, hnode.2, fun e he => (h e he).1⟩,
          fun e he => ⟨hashable_string (h e he).1, (h e he).2⟩⟩
      · intro h e he
        exact ⟨h.1.2.2 e he, (h.2 e he).2⟩

/-! ## Narrowed values -/

/-- An integer is no key that passes the assertion, in any type. -/
theorem not_string_of_integer {x : MsgPack} {n : ℤ} (h : x.integer? = some n) :
    x.type ≠ .STRING ∧ x.string_value = [] := by
  cases x <;> cases h <;> exact ⟨by simp [MsgPack.type], rfl⟩

/-- A key passes the assertion narrowed or not, and is the same string. -/
theorem key_narrowed (key : MsgPack) : ((narrowed key).type = .STRING ↔ key.type = .STRING) ∧
    (narrowed key).string_value = key.string_value := by
  rcases hn : key.integer? with _ | n
  · rcases narrowed_of_no_integer hn with heq | ⟨xs, rfl⟩ | ⟨es, rfl⟩
    · rw [heq]
      exact ⟨Iff.rfl, rfl⟩
    · exact ⟨Iff.rfl, rfl⟩
    · exact ⟨Iff.rfl, rfl⟩
  · have hkey := not_string_of_integer hn
    have hkey' := not_string_of_integer ((integer_narrowed key).trans hn)
    exact ⟨iff_of_false hkey'.1 hkey.1, hkey'.2.trans hkey.2.symm⟩

/-- What does not change the hash of any item does not change that of the array. -/
theorem hash_items_map {F : MsgPack → MsgPack} {xs : List MsgPack}
    (h : ∀ x ∈ xs, hash_object (F x) = hash_object x) (hash : UInt32) :
    hash_items (xs.map F) hash = hash_items xs hash := by
  induction xs generalizing hash with
  | nil => rfl
  | cons x xs ih =>
      rw [List.forall_mem_cons] at h
      rw [List.map_cons, hash_items, hash_items, h.1]
      congr 1
      funext mid
      exact ih h.2 mid

/-- The same of an object and narrowing, which may touch the keys. -/
theorem hash_entries_narrowed {es : List (MsgPack × MsgPack)}
    (h : ∀ e ∈ es, hash_object (narrowed e.2) = hash_object e.2) (hash : UInt32) :
    hash_entries (es.map fun e => (narrowed e.1, narrowed e.2)) hash = hash_entries es hash := by
  induction es generalizing hash with
  | nil => rfl
  | cons e es ih =>
      rw [List.forall_mem_cons] at h
      rw [List.map_cons, hash_entries, hash_entries, (key_narrowed e.1).2, h.1]
      refine if_congr (key_narrowed e.1).1 ?_ rfl
      congr 1
      funext mid
      exact ih h.2 mid

/-- Narrowing does not show in the hash. -/
theorem hash_object_narrowed (x : MsgPack) : hash_object (narrowed x) = hash_object x := by
  induction x using MsgPack.induction with
  | leaf x hleaf =>
      rcases hn : x.integer? with _ | n
      · rw [narrowed_of_leaf hleaf hn]
      · funext hash
        rw [hash_of_integer hn, hash_of_integer ((integer_narrowed x).trans hn)]
  | array xs ih =>
      funext hash
      rw [narrowed, narrowedItems_eq_map, hash_object, hash_object, hash_items_map ih,
        List.length_map]
  | object es ih =>
      funext hash
      rw [narrowed, narrowedEntries_eq_map, hash_object, hash_object,
        hash_entries_narrowed fun e he => (ih e he).2, List.length_map]

/-! ## Results about values -/

/-- Every copy of a value is hashed like the value, and where hashing the one fails,
hashing the other fails in the same way. -/
theorem hash_copy {x y : MsgPack} (hsorted : MapsSorted x) (h : Copy x y) :
    hash_object y = hash_object x :=
  h.unchanged hash_object_narrowed hsorted

/-- A binary inside of an object, where a copy fails as the value does. -/
theorem hash_copy_binary :
    let x : MsgPack := .object [(.string [0x61], .array [.int64 300, .binary [0x62]])]
    ∃ s, Dump.dump false x = .ok s ∧
      hash_object (parse true s "").1 HASH_INITIAL_VALUE = .error .runtime_error := by
  intro x
  obtain ⟨s, -, hdump⟩ := dump_eq_canon false (x := x) (by decide)
  have hcopy : Copy x (parse true s "").1 := Copy.of_dump hdump (by decide) true
  have hhash := hash_copy (by decide +kernel) hcopy
  refine ⟨s, hdump, ?_⟩
  rw [hhash]
  decide +kernel

/-- A value can be hashed exactly when it has no binary, no extension and no keys but
strings; and then it carries every difference on: from different hashes of what stands
before it come different hashes. -/
theorem hash_object_reversible (x : MsgPack) :
    (∀ hash, (∃ r, hash_object x hash = .ok r) ↔ Hashable x) ∧
      (Hashable x → Function.Injective (hash_object x)) := by
  refine ⟨decided x, ?_⟩
  intro hx hash hash' heq
  obtain ⟨r, h⟩ := (decided x hash).mpr hx
  exact reversible x h (heq.symm.trans h)

/-! ## Packing -/

namespace object_t

theorem pack_pairs_eq_map (children : List (List UInt8 × object_t)) :
    pack_pairs children =
      children.map fun e => (.string (c_string e.1), e.2.pack_object) := by
  induction children with
  | nil => rfl
  | cons e children ih => rw [pack_pairs, ih, List.map_cons]

end object_t

namespace Generated

open object_t

variable {depth : ℕ} {o : object_t}

end Generated

/-! ## Results about the benchmark -/

/-- `operator[]` as a lookup by key with `NUL` for what is not there. -/
theorem index_eq_getD (m : List (MsgPack × MsgPack)) (key : List UInt8) :
    index (.object m) key =
      ((find (byKey less) m (.string key, .nul)).map Prod.snd).getD .nul := by
  have hfind : find entryLess m (.string key, .nul) = find (byKey less) m (.string key, .nul) := rfl
  rw [index, hfind]
  cases find (byKey less) m (.string key, .nul) with
  | none => rfl
  | some e => rfl

/-- A map that is filled by assignment has under each name the value that was assigned
last, in whatever order the keys came and however often. -/
theorem pack_object_lookup (children : List (List UInt8 × object_t)) (key : List UInt8) :
    index (object_t.type_map children).pack_object key =
      ((children.reverse.find? fun e => object_t.c_string e.1 = key).map
        fun e => e.2.pack_object).getD .nul := by
  have hkeys : ∀ e ∈ object_t.pack_pairs children, e.1.FloatFree := by
    rw [object_t.pack_pairs_eq_map, List.forall_mem_map]
    exact fun e _ => floatFree_string _
  have hkey : (MsgPack.string key, MsgPack.nul).1.FloatFree := floatFree_string key
  have hscan : (fun e : MsgPack × MsgPack => decide (Incomp less e.1 (.string key))) ∘
      (fun e : List UInt8 × object_t => (.string (object_t.c_string e.1), e.2.pack_object)) =
        fun e => decide (object_t.c_string e.1 = key) := by
    funext e
    rw [Function.comp, Bool.eq_iff_iff, decide_eq_true_iff, decide_eq_true_iff]
    rw [incomp_string_iff, MsgPack.string.injEq]
  have hfind := find_assignAll strictWeak_floatFree hkeys hkey
  rw [object_t.pack_pairs_eq_map, ← List.map_reverse, List.find?_map, hscan,
    Option.map_map] at hfind
  rw [object_t.pack_object, index_eq_getD, object_t.pack_pairs_eq_map, hfind]
  rfl

end Msgpack11.Benchmark
