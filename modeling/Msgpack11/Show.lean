/-
The printer of `example.cpp`, which shows a value before it is dumped and after it is
parsed again.

`show_impl` walks a table of seventeen type predicates, each with the function that
prints values of the type, and calls itself on what is inside arrays and objects. The
printing functions therefore take the function they call back as a parameter, as in
`Compare`, and `show_impl_eq` says that the knot is a fixed point.

Every value has its own row of the table and no other (`show_body_eq`), and an integer
is printed the same from every row of an integer type. So the two outputs of the example
are the same, byte for byte, whatever the value (`show_copy`).
-/
import Msgpack11.Integers
import Msgpack11.Relays

set_option autoImplicit false

namespace Msgpack11.Show

open Msgpack11.Floating Msgpack11.Integers Msgpack11.Canonical Msgpack11.Comparisons
open Msgpack11.Relays Msgpack11.Parser Msgpack11.Parse Msgpack11.RoundTrip Msgpack11.KeyOrder

/-! ## What `std::cout` and `std::to_string` write -/

/-- The bytes of a literal. -/
def text (s : String) : List UInt8 := s.toList.map fun c => c.toNat.toUInt8

/-- The decimal digits of a number. -/
def digits (n : ℕ) : List UInt8 := (Nat.toDigits 10 n).map fun c => c.toNat.toUInt8

/-- An integer in decimal. -/
def decimal (n : ℤ) : List UInt8 :=
  if n < 0 then text "-" ++ digits n.natAbs else digits n.natAbs

/-- `%f`: six digits after the point, rounded to nearest and to even. -/
def fixed (v : Double) : List UInt8 :=
  match v with
  | .nan => text "nan"
  | .infinity _ => text "inf"
  | .finite u =>
      let millionths := roundHalfEven (u.natAbs * 10 ^ 6) one.natAbs
      let fraction := digits (millionths % 10 ^ 6)
      digits (millionths / 10 ^ 6) ++ text "." ++
        List.replicate (6 - fraction.length) '0'.toNat.toUInt8 ++ fraction

/-- The sign bit of a float. -/
def signbit : MsgPack → Bool
  | .float32 bits => bits >>> 31 != 0
  | .float64 bits => bits >>> 63 != 0
  | _ => false

/-- `std::to_string` of the number a float class holds; it is `%f` of the number as a
`double`, which keeps it. -/
def to_string (blob : MsgPack) : List UInt8 :=
  (if signbit blob then text "-" else []) ++ fixed blob.float64_value

/-! ## The printing functions -/

/-- `show_null`. -/
def show_null (_ : MsgPack) (_ : ℕ) : List UInt8 := text "nil"

/-- `show_bool`. -/
def show_bool (blob : MsgPack) (_ : ℕ) : List UInt8 :=
  if blob.bool_value then text "true" else text "false"

/-- `show_float32`. -/
def show_float32 (blob : MsgPack) (_ : ℕ) : List UInt8 := to_string blob

/-- `show_float64`. -/
def show_float64 (blob : MsgPack) (_ : ℕ) : List UInt8 := to_string blob

/-- The eight functions for integers, over the accessor each of them calls. -/
def show_integer (value : MsgPack → ℤ) (blob : MsgPack) (_ : ℕ) : List UInt8 :=
  decimal (value blob)

/-- `show_int8`, which calls the accessor of its own type, as the seven below do. -/
def show_int8 : MsgPack → ℕ → List UInt8 := show_integer fun blob => blob.int8_value.toInt

def show_int16 : MsgPack → ℕ → List UInt8 := show_integer fun blob => blob.int16_value.toInt

def show_int32 : MsgPack → ℕ → List UInt8 := show_integer fun blob => blob.int32_value.toInt

def show_int64 : MsgPack → ℕ → List UInt8 := show_integer fun blob => blob.int64_value.toInt

/-- `show_uint8`. -/
def show_uint8 : MsgPack → ℕ → List UInt8 := show_integer fun blob => blob.uint8_value.toNat

def show_uint16 : MsgPack → ℕ → List UInt8 := show_integer fun blob => blob.uint16_value.toNat

def show_uint32 : MsgPack → ℕ → List UInt8 := show_integer fun blob => blob.uint32_value.toNat

def show_uint64 : MsgPack → ℕ → List UInt8 := show_integer fun blob => blob.uint64_value.toNat

/-- `show_string`: the bytes as they are. -/
def show_string (blob : MsgPack) (_ : ℕ) : List UInt8 := blob.string_value

/-- `show_binary`: the bytes as numbers. -/
def show_binary (blob : MsgPack) (_ : ℕ) : List UInt8 :=
  text "[ " ++ (blob.binary_items.flatMap fun elm => decimal elm.toNat ++ text ", ") ++ text "]"

/-- The type is an `int8_t`, which a stream writes as a character. -/
def show_extension (blob : MsgPack) (_ : ℕ) : List UInt8 :=
  let info := blob.extension_items.1
  let elements := blob.extension_items.2
  [info.toUInt8] ++ text " - " ++ elements.flatMap fun elm => decimal elm.toNat ++ text ","

section Callback

variable (show_impl : MsgPack → ℕ → List UInt8)

/-- `show_array`: a comma after each item, the last included. -/
def show_array (blob : MsgPack) (level : ℕ) : List UInt8 :=
  text "[ " ++ (blob.array_items.flatMap fun elm => show_impl elm level ++ text ", ") ++ text "]"

/-- The loop over the entries of an object. -/
def show_entries (level : ℕ) : Bool → List (MsgPack × MsgPack) → List UInt8
  | _, [] => []
  | is_first, elm :: elements =>
      (if !is_first then text "\n" else []) ++ List.replicate (2 * level) ' '.toNat.toUInt8 ++
        show_impl elm.1 (level + 1) ++ text " : " ++ show_impl elm.2 (level + 1) ++
        show_entries level false elements

/-- `show_object`: every entry is on a line of its own, which it begins but for the first
entry of the top level. -/
def show_object (blob : MsgPack) (level : ℕ) : List UInt8 :=
  let is_first := level == 0
  show_entries show_impl level is_first blob.object_items

/-- `func_table`: the type queries with their functions. -/
def func_table : List ((MsgPack → Bool) × (MsgPack → ℕ → List UInt8)) :=
  [(MsgPack.is_null, show_null), (MsgPack.is_bool, show_bool), (MsgPack.is_float32, show_float32),
    (MsgPack.is_float64, show_float64), (MsgPack.is_int8, show_int8),
    (MsgPack.is_int16, show_int16), (MsgPack.is_int32, show_int32), (MsgPack.is_int64, show_int64),
    (MsgPack.is_uint8, show_uint8), (MsgPack.is_uint16, show_uint16),
    (MsgPack.is_uint32, show_uint32), (MsgPack.is_uint64, show_uint64),
    (MsgPack.is_string, show_string), (MsgPack.is_array, show_array show_impl),
    (MsgPack.is_binary, show_binary), (MsgPack.is_object, show_object show_impl),
    (MsgPack.is_extension, show_extension)]

/-- The loop over the table. -/
def show_body (blob : MsgPack) (level : ℕ) : List UInt8 :=
  (func_table show_impl).flatMap fun funcs => if funcs.1 blob then funcs.2 blob level else []

end Callback

/-- A printer that may call itself back `n` levels deep. -/
def show_levels : ℕ → MsgPack → ℕ → List UInt8
  | 0 => fun _ _ => []
  | n + 1 => show_body (show_levels n)

/-- `show_impl`, with as many levels as the value has. -/
def show_impl (blob : MsgPack) (level : ℕ) : List UInt8 := show_levels (blob.height + 1) blob level

/-- `show`. -/
def show_blob (blob : MsgPack) : List UInt8 := show_impl blob 0 ++ text "\n"

/-! ## The table -/

/-- Exactly one row applies. -/
theorem show_body_eq (f : MsgPack → ℕ → List UInt8) (blob : MsgPack) (level : ℕ) :
    show_body f blob level =
      match blob with
      | .nul => show_null blob level
      | .bool _ => show_bool blob level
      | .float32 _ => show_float32 blob level
      | .float64 _ => show_float64 blob level
      | .int8 _ => show_int8 blob level
      | .int16 _ => show_int16 blob level
      | .int32 _ => show_int32 blob level
      | .int64 _ => show_int64 blob level
      | .uint8 _ => show_uint8 blob level
      | .uint16 _ => show_uint16 blob level
      | .uint32 _ => show_uint32 blob level
      | .uint64 _ => show_uint64 blob level
      | .string _ => show_string blob level
      | .array _ => show_array f blob level
      | .binary _ => show_binary blob level
      | .object _ => show_object f blob level
      | .extension _ _ => show_extension blob level := by
  cases blob <;> exact List.append_nil _

/-! ## The recursion -/

/-- Items may be replaced by others that are shown alike. -/
theorem show_array_map {f g : MsgPack → ℕ → List UInt8} {F : MsgPack → MsgPack} {xs : List MsgPack}
    {level : ℕ} (h : ∀ x ∈ xs, f (F x) level = g x level) :
    show_array f (.array (xs.map F)) level = show_array g (.array xs) level := by
  have hitems : ((xs.map F).flatMap fun elm => f elm level ++ text ", ") =
      xs.flatMap fun elm => g elm level ++ text ", " := by
    rw [List.flatMap_map]
    apply List.flatMap_congr
    intro x hx
    rw [h x hx]
  rw [show_array, show_array, MsgPack.array_items, MsgPack.array_items, hitems]

theorem show_entries_map {f g : MsgPack → ℕ → List UInt8} {F : MsgPack → MsgPack}
    {es : List (MsgPack × MsgPack)} {level : ℕ}
    (h : ∀ e ∈ es, f (F e.1) (level + 1) = g e.1 (level + 1) ∧
      f (F e.2) (level + 1) = g e.2 (level + 1)) (is_first : Bool) :
    show_entries f level is_first (es.map fun e => (F e.1, F e.2)) =
      show_entries g level is_first es := by
  induction es generalizing is_first with
  | nil => rfl
  | cons e es ih =>
      rw [List.forall_mem_cons] at h
      rw [List.map_cons, show_entries, show_entries, h.1.1, h.1.2, ih h.2]

/-- A row calls back on what is inside the value only. -/
theorem show_body_congr {f g : MsgPack → ℕ → List UInt8} {blob : MsgPack}
    (h : ∀ x, x.height < blob.height → f x = g x) (level : ℕ) :
    show_body f blob level = show_body g blob level := by
  rw [show_body_eq, show_body_eq]
  cases blob <;> try rfl
  case array xs =>
    have hall : ∀ x ∈ xs, f (id x) level = g x level := fun x hx =>
      congrFun (h x (MsgPack.height_lt_array hx)) level
    have hitems := show_array_map hall
    rwa [List.map_id] at hitems
  case object es =>
    have hall : ∀ e ∈ es, f (id e.1) (level + 1) = g e.1 (level + 1) ∧
        f (id e.2) (level + 1) = g e.2 (level + 1) := fun e he =>
      ⟨congrFun (h e.1 (MsgPack.height_lt_object he).1) (level + 1),
        congrFun (h e.2 (MsgPack.height_lt_object he).2) (level + 1)⟩
    have hentries := show_entries_map hall (level == 0)
    simp only [id, List.map_id'] at hentries
    exact hentries

/-- More levels print the same. -/
theorem show_levels_stable {n m : ℕ} {blob : MsgPack} (hn : blob.height < n)
    (hm : blob.height < m) : show_levels n blob = show_levels m blob := by
  induction n generalizing m blob with
  | zero => exact absurd hn (Nat.not_lt_zero _)
  | succ n ih =>
      obtain ⟨m, rfl⟩ := Nat.exists_eq_succ_of_ne_zero (Nat.ne_of_gt (Nat.zero_lt_of_lt hm))
      funext level
      rw [show_levels, show_levels]
      exact show_body_congr (fun x hx => ih (by omega) (by omega)) level

/-- `show_impl` is the loop over the table with itself to call back. -/
theorem show_impl_eq (blob : MsgPack) (level : ℕ) :
    show_impl blob level = show_body show_impl blob level := by
  rw [show_impl, show_levels]
  apply show_body_congr
  intro x hx
  funext level
  exact congrFun (show_levels_stable hx (Nat.lt_succ_self _)) level

/-! ## Narrowed values -/

/-- Whatever its type, an integer is shown in decimal. -/
theorem show_of_integer {blob : MsgPack} {n : ℤ} (h : blob.integer? = some n) (level : ℕ) :
    show_impl blob level = decimal n := by
  obtain ⟨A, hn, rfl⟩ := IntType.exists_msgpack_of_integer h
  -- the accessor that is called is that of the own type
  have hown : A.accessor (A.msgpack n) = n := by
    rw [IntType.accessor_of_integer A h, IntType.cast_of_inRange hn]
  rw [show_impl_eq, show_body_eq]
  cases A <;> exact congrArg decimal hown

/-- Narrowing does not show in print, at any level. -/
theorem show_impl_narrowed (blob : MsgPack) (level : ℕ) :
    show_impl (narrowed blob) level = show_impl blob level := by
  induction blob using MsgPack.induction generalizing level with
  | leaf x hleaf =>
      rcases hn : x.integer? with _ | n
      · rw [narrowed_of_leaf hleaf hn]
      · rw [show_of_integer hn, show_of_integer ((integer_narrowed x).trans hn)]
  | array xs ih =>
      rw [narrowed, narrowedItems_eq_map, show_impl_eq, show_body_eq, show_impl_eq, show_body_eq]
      exact show_array_map fun x hx => ih x hx level
  | object es ih =>
      rw [narrowed, narrowedEntries_eq_map, show_impl_eq, show_body_eq, show_impl_eq, show_body_eq]
      exact show_entries_map (fun e he => ⟨(ih e he).1 (level + 1), (ih e he).2 (level + 1)⟩) _

/-! ## Result -/

/-- Every copy of a value is shown like the value, byte for byte. -/
theorem show_copy {x y : MsgPack} (hsorted : MapsSorted x) (h : Copy x y) :
    show_blob y = show_blob x := by
  have hunseen : ∀ z, show_blob (narrowed z) = show_blob z := by
    intro z
    rw [show_blob, show_impl_narrowed]
    rfl
  exact h.unchanged hunseen hsorted

/-- An object of an array and a negative zero, with its output. -/
theorem show_copy_object :
    let x : MsgPack := .object [(.string [0x61], .array [.int64 300, .int8 (-1)]),
      (.string [0x62], .float64 0x8000000000000000)]
    ∃ s, Dump.dump false x = .ok s ∧
      show_blob (parse true s "").1 = text "a : [ 300, -1, ]\nb : -0.000000\n" := by
  intro x
  obtain ⟨s, -, hdump⟩ := dump_eq_canon false (x := x) (by decide)
  have hcopy : Copy x (parse true s "").1 := Copy.of_dump hdump (by decide) true
  have hshow := show_copy (by decide +kernel) hcopy
  have hself : show_blob x = text "a : [ 300, -1, ]\nb : -0.000000\n" := by decide +kernel
  exact ⟨s, hdump, hshow.trans hself⟩

end Msgpack11.Show
