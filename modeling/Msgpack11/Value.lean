/-
The data model of `msgpack11.hpp`: `MsgPack`, its type tags and its accessors.

`MsgPack` is a shared pointer to an immutable `MsgPackValue`, so a value is the
tree it denotes: one constructor for each of the sixteen wrapper classes.
Strings, binaries and extension payloads are byte lists, an object is the list
of its entries in iteration order, and floats are their bit patterns.

A predicate on values is nearly always a property of every node of the tree,
keys of objects included. `nodes` lists them once, and `All` quantifies over
them; what the rest of the development asks of a value (`FloatFree`, `NaNFree`,
`LengthsFit`, …) is `All` of a property of single nodes.
-/
import Msgpack11.Floating
import Mathlib.Tactic.Common

set_option autoImplicit false

namespace Msgpack11

open Msgpack11.Floating

/-- `MsgPack`, over the sixteen classes derived from `MsgPackValue`. -/
inductive MsgPack where
  | nul
  | float32 (bits : UInt32)
  | float64 (bits : UInt64)
  | int8 (value : Int8)
  | int16 (value : Int16)
  | int32 (value : Int32)
  | int64 (value : Int64)
  | uint8 (value : UInt8)
  | uint16 (value : UInt16)
  | uint32 (value : UInt32)
  | uint64 (value : UInt64)
  | bool (value : Bool)
  | string (value : List UInt8)
  | binary (value : List UInt8)
  | array (value : List MsgPack)
  | object (value : List (MsgPack × MsgPack))
  | extension (type : Int8) (data : List UInt8)

/-- The fundamental types whose values travel as tag and contents. -/
inductive Fundamental where
  | float | double
  | uint8 | uint16 | uint32 | uint64
  | int8 | int16 | int32 | int64
  deriving DecidableEq, Repr

/-- `sizeof(T)`. -/
def Fundamental.size : Fundamental → ℕ
  | .uint8 | .int8 => 1
  | .uint16 | .int16 => 2
  | .uint32 | .int32 | .float => 4
  | .uint64 | .int64 | .double => 8

/-- `MsgPack(tmp)` for the object `tmp` of type `T` with the given contents. -/
def Fundamental.value (contents : ℕ) : Fundamental → MsgPack
  | .float => .float32 (UInt32.ofNat contents)
  | .double => .float64 (UInt64.ofNat contents)
  | .uint8 => .uint8 (UInt8.ofNat contents)
  | .uint16 => .uint16 (UInt16.ofNat contents)
  | .uint32 => .uint32 (UInt32.ofNat contents)
  | .uint64 => .uint64 (UInt64.ofNat contents)
  | .int8 => .int8 (UInt8.ofNat contents).toInt8
  | .int16 => .int16 (UInt16.ofNat contents).toInt16
  | .int32 => .int32 (UInt32.ofNat contents).toInt32
  | .int64 => .int64 (UInt64.ofNat contents).toInt64

/-- `enum MsgPack::Type`. -/
inductive MsgPackType where
  | NUMBER | INT | NUL | FLOAT32 | FLOAT64
  | INT8 | INT16 | INT32 | INT64 | UINT8 | UINT16 | UINT32 | UINT64
  | BOOL | STRING | BINARY | ARRAY | OBJECT | EXTENSION
  deriving DecidableEq, Repr

/-- The enumerators' values, which order the tags of values of different types. -/
def MsgPackType.code : MsgPackType → ℕ
  | .NUMBER => 1
  | .INT => 2 ||| 1
  | .NUL => 1 <<< 2
  | .FLOAT32 => 2 <<< 2 ||| 1
  | .FLOAT64 => 3 <<< 2 ||| 1
  | .INT8 => 4 <<< 2 ||| 3
  | .INT16 => 5 <<< 2 ||| 3
  | .INT32 => 6 <<< 2 ||| 3
  | .INT64 => 7 <<< 2 ||| 3
  | .UINT8 => 8 <<< 2 ||| 3
  | .UINT16 => 9 <<< 2 ||| 3
  | .UINT32 => 10 <<< 2 ||| 3
  | .UINT64 => 11 <<< 2 ||| 3
  | .BOOL => 12 <<< 2
  | .STRING => 13 <<< 2
  | .BINARY => 14 <<< 2
  | .ARRAY => 15 <<< 2
  | .OBJECT => 16 <<< 2
  | .EXTENSION => 17 <<< 2

namespace MsgPack

/-! ## Type queries -/

/-- `type()`: the tag that the class was instantiated with. -/
def type : MsgPack → MsgPackType
  | .nul => .NUL
  | .float32 _ => .FLOAT32
  | .float64 _ => .FLOAT64
  | .int8 _ => .INT8
  | .int16 _ => .INT16
  | .int32 _ => .INT32
  | .int64 _ => .INT64
  | .uint8 _ => .UINT8
  | .uint16 _ => .UINT16
  | .uint32 _ => .UINT32
  | .uint64 _ => .UINT64
  | .bool _ => .BOOL
  | .string _ => .STRING
  | .binary _ => .BINARY
  | .array _ => .ARRAY
  | .object _ => .OBJECT
  | .extension _ _ => .EXTENSION

/-- The enumeration is numbered so that the tags of numbers have bit `NUMBER`. -/
def is_number (x : MsgPack) : Bool := x.type.code &&& MsgPackType.NUMBER.code != 0

/-- `is_int()`: the tags of integers have both low bits, those of floats one. -/
def is_int (x : MsgPack) : Bool :=
  x.type.code &&& MsgPackType.INT.code == MsgPackType.INT.code

/-- `is_float32()`. This and the queries below compare the tag. -/
def is_float32 (x : MsgPack) : Bool := x.type == .FLOAT32

/-- `is_float64()`. -/
def is_float64 (x : MsgPack) : Bool := x.type == .FLOAT64

/-- `is_array()`. -/
def is_array (x : MsgPack) : Bool := x.type == .ARRAY

/-- `is_object()`. -/
def is_object (x : MsgPack) : Bool := x.type == .OBJECT

/-- `is_null()`. -/
def is_null (x : MsgPack) : Bool := x.type == .NUL

/-- `is_bool()`. -/
def is_bool (x : MsgPack) : Bool := x.type == .BOOL

def is_int8 (x : MsgPack) : Bool := x.type == .INT8

def is_int16 (x : MsgPack) : Bool := x.type == .INT16

def is_int32 (x : MsgPack) : Bool := x.type == .INT32

def is_int64 (x : MsgPack) : Bool := x.type == .INT64

def is_uint8 (x : MsgPack) : Bool := x.type == .UINT8

def is_uint16 (x : MsgPack) : Bool := x.type == .UINT16

def is_uint32 (x : MsgPack) : Bool := x.type == .UINT32

def is_uint64 (x : MsgPack) : Bool := x.type == .UINT64

/-- `is_string()`. -/
def is_string (x : MsgPack) : Bool := x.type == .STRING

/-- `is_binary()`. -/
def is_binary (x : MsgPack) : Bool := x.type == .BINARY

/-- `is_extension()`. -/
def is_extension (x : MsgPack) : Bool := x.type == .EXTENSION

/-! ## Accessors -/

/-- `bool_value()`; an accessor of another class than its own returns a default. -/
def bool_value : MsgPack → Bool
  | .bool v => v
  | _ => false

/-- `string_value()`, the empty string by default. -/
def string_value : MsgPack → List UInt8
  | .string v => v
  | _ => []

/-- `binary_items()`, empty by default. -/
def binary_items : MsgPack → List UInt8
  | .binary v => v
  | _ => []

/-- `array_items()`, empty by default. -/
def array_items : MsgPack → List MsgPack
  | .array v => v
  | _ => []

/-- `object_items()`, empty by default. -/
def object_items : MsgPack → List (MsgPack × MsgPack)
  | .object v => v
  | _ => []

/-- `extension_items()`, by default the type 0 and no data. -/
def extension_items : MsgPack → Int8 × List UInt8
  | .extension t d => (t, d)
  | _ => (0, [])

/-- The integer a value of one of the eight integer classes holds. -/
def integer? : MsgPack → Option ℤ
  | .int8 v => some v.toInt
  | .int16 v => some v.toInt
  | .int32 v => some v.toInt
  | .int64 v => some v.toInt
  | .uint8 v => some v.toNat
  | .uint16 v => some v.toNat
  | .uint32 v => some v.toNat
  | .uint64 v => some v.toNat
  | _ => none

/-- The value a float class holds. -/
def real? : MsgPack → Option Double
  | .float32 bits => some (ofBinary32 bits)
  | .float64 bits => some (ofBinary64 bits)
  | _ => none

/-- `float64_value()`: `static_cast<double>` of a number, `0.0` for anything else. -/
def float64_value (x : MsgPack) : Double :=
  match x.integer?, x.real? with
  | some n, _ => ofInt n
  | _, some d => d
  | _, _ => .finite 0

/-- `float32_value()`: `static_cast<float>` of a number, `0.0f` for anything else. An
integer is rounded once, to the 24 bits of a float. -/
def float32_value (x : MsgPack) : Double :=
  match x.integer?, x with
  | some n, _ => .finite (roundInt 24 n * one)
  | _, .float32 bits => ofBinary32 bits
  | _, .float64 bits => (ofBinary64 bits).toBinary32
  | _, _ => .finite 0

/-- The operand of an integer cast: the number itself, a float truncated toward
zero. C++ leaves the cast of a float out of range undefined. -/
def castOperand (x : MsgPack) : ℤ :=
  match x.integer?, x.real? with
  | some n, _ => n
  | _, some (.finite u) => u.tdiv one
  | _, _ => 0

/-- `int8_value()`: `static_cast<int8_t>` of a number, 0 for anything else. So are the
seven accessors below. -/
def int8_value (x : MsgPack) : Int8 := Int8.ofInt x.castOperand

def int16_value (x : MsgPack) : Int16 := Int16.ofInt x.castOperand

def int32_value (x : MsgPack) : Int32 := Int32.ofInt x.castOperand

def int64_value (x : MsgPack) : Int64 := Int64.ofInt x.castOperand

/-- `uint8_value()`, where a negative operand is reduced. -/
def uint8_value (x : MsgPack) : UInt8 := UInt8.ofInt x.castOperand

def uint16_value (x : MsgPack) : UInt16 := UInt16.ofInt x.castOperand

def uint32_value (x : MsgPack) : UInt32 := UInt32.ofInt x.castOperand

def uint64_value (x : MsgPack) : UInt64 := UInt64.ofInt x.castOperand

/-- `number_value()`. -/
def number_value (x : MsgPack) : Double := x.float64_value

/-- `int_value()`. -/
def int_value (x : MsgPack) : Int32 := x.int32_value

/-- The number of elements of a node: bytes of a payload, items or entries. -/
def length : MsgPack → ℕ
  | .string v => v.length
  | .binary v => v.length
  | .array v => v.length
  | .object v => v.length
  | .extension _ d => d.length
  | _ => 0

/-- Neither an array nor an object. -/
def isLeaf (x : MsgPack) : Bool := !x.is_array && !x.is_object

/-- A value of class `MsgPackFloat` or `MsgPackDouble`. -/
def isFloat (x : MsgPack) : Bool := x.is_float32 || x.is_float64

/-- A float that holds NaN. -/
def isNaN (x : MsgPack) : Bool :=
  match x.real? with
  | some d => d.isNaN
  | none => false

/-! ## Trees -/

/-- Induction over a value: leaves, arrays of values, objects of values. -/
theorem induction {P : MsgPack → Prop} (leaf : ∀ x, x.isLeaf = true → P x)
    (array : ∀ xs, (∀ x ∈ xs, P x) → P (.array xs))
    (object : ∀ es, (∀ e ∈ es, P e.1 ∧ P e.2) → P (.object es)) (x : MsgPack) : P x :=
  @MsgPack.rec P (fun xs => ∀ x ∈ xs, P x) (fun es => ∀ e ∈ es, P e.1 ∧ P e.2)
    (fun e => P e.1 ∧ P e.2)
    (leaf _ rfl) (fun _ => leaf _ rfl) (fun _ => leaf _ rfl) (fun _ => leaf _ rfl)
    (fun _ => leaf _ rfl) (fun _ => leaf _ rfl) (fun _ => leaf _ rfl) (fun _ => leaf _ rfl)
    (fun _ => leaf _ rfl) (fun _ => leaf _ rfl) (fun _ => leaf _ rfl) (fun _ => leaf _ rfl)
    (fun _ => leaf _ rfl) (fun _ => leaf _ rfl) (fun xs ih => array xs ih)
    (fun es ih => object es ih) (fun _ _ => leaf _ rfl)
    (fun _ h => by cases h)
    (fun x xs hx hxs => List.forall_mem_cons.mpr ⟨hx, hxs⟩)
    (fun _ h => by cases h)
    (fun e es he hes => List.forall_mem_cons.mpr ⟨he, hes⟩)
    (fun _ _ hk hv => ⟨hk, hv⟩) x

/-- The leaves: integers, and one case for each other class. -/
@[elab_as_elim]
theorem leaf_cases {P : MsgPack → Prop} {x : MsgPack} (hleaf : x.isLeaf = true)
    (integer : ∀ y n, y.integer? = some n → P y) (nul : P .nul) (bool : ∀ v, P (.bool v))
    (float32 : ∀ v, P (.float32 v)) (float64 : ∀ v, P (.float64 v))
    (string : ∀ v, P (.string v)) (binary : ∀ v, P (.binary v))
    (extension : ∀ t d, P (.extension t d)) : P x := by
  cases x
  case nul => exact nul
  case bool => exact bool _
  case float32 => exact float32 _
  case float64 => exact float64 _
  case string => exact string _
  case binary => exact binary _
  case extension => exact extension _ _
  case array => cases hleaf
  case object => cases hleaf
  all_goals exact integer _ _ rfl

mutual

/-- Every node of the tree, keys of objects and what is inside them included. -/
def nodes : MsgPack → List MsgPack
  | .array xs => .array xs :: arrayNodes xs
  | .object es => .object es :: objectNodes es
  | x => [x]

/-- The nodes of the items of an array. -/
def arrayNodes : List MsgPack → List MsgPack
  | [] => []
  | x :: xs => x.nodes ++ arrayNodes xs

/-- The nodes of the keys and values of an object. -/
def objectNodes : List (MsgPack × MsgPack) → List MsgPack
  | [] => []
  | (k, v) :: es => (k.nodes ++ v.nodes) ++ objectNodes es

end

mutual

/-- How many container levels below the root the deepest node lies. -/
def height : MsgPack → ℕ
  | .array xs => arrayHeight xs
  | .object es => objectHeight es
  | _ => 0

/-- One more than the height of the highest item. -/
def arrayHeight : List MsgPack → ℕ
  | [] => 0
  | x :: xs => max (x.height + 1) (arrayHeight xs)

/-- One more than the height of the highest key or value. -/
def objectHeight : List (MsgPack × MsgPack) → ℕ
  | [] => 0
  | (k, v) :: es => max (max (k.height + 1) (v.height + 1)) (objectHeight es)

end

/-- A leaf has no entries. -/
theorem object_items_of_leaf {x : MsgPack} (h : x.isLeaf = true) : x.object_items = [] := by
  cases x <;> first | rfl | cases h

/-- Nor are there levels below it. -/
theorem height_of_leaf {x : MsgPack} (h : x.isLeaf = true) : x.height = 0 := by
  cases x <;> first | rfl | cases h

/-- Bounds on the height of items, one by one. -/
theorem arrayHeight_le_iff {xs : List MsgPack} {d : ℕ} :
    arrayHeight xs ≤ d ↔ ∀ x ∈ xs, x.height + 1 ≤ d := by
  induction xs with
  | nil => simp [arrayHeight]
  | cons x xs ih => simp only [arrayHeight, max_le_iff, ih, List.forall_mem_cons]

/-- The same of keys and values. -/
theorem objectHeight_le_iff {es : List (MsgPack × MsgPack)} {d : ℕ} :
    objectHeight es ≤ d ↔ ∀ e ∈ es, e.1.height + 1 ≤ d ∧ e.2.height + 1 ≤ d := by
  induction es with
  | nil => simp [objectHeight]
  | cons e es ih =>
      obtain ⟨k, v⟩ := e
      simp only [objectHeight, max_le_iff, ih, List.forall_mem_cons]

/-- An array is one level above each of its items. -/
theorem height_array_le_iff {xs : List MsgPack} {d : ℕ} :
    (MsgPack.array xs).height ≤ d ↔ ∀ x ∈ xs, x.height + 1 ≤ d := by
  rw [height, arrayHeight_le_iff]

/-- An object is one level above its keys and values. -/
theorem height_object_le_iff {es : List (MsgPack × MsgPack)} {d : ℕ} :
    (MsgPack.object es).height ≤ d ↔ ∀ e ∈ es, e.1.height + 1 ≤ d ∧ e.2.height + 1 ≤ d := by
  rw [height, objectHeight_le_iff]

/-- An item is lower than the array. -/
theorem height_lt_array {xs : List MsgPack} {x : MsgPack} (h : x ∈ xs) :
    x.height < (MsgPack.array xs).height :=
  height_array_le_iff.mp (le_refl _) x h

/-- So are a key and a value. -/
theorem height_lt_object {es : List (MsgPack × MsgPack)} {e : MsgPack × MsgPack} (h : e ∈ es) :
    e.1.height < (MsgPack.object es).height ∧ e.2.height < (MsgPack.object es).height :=
  height_object_le_iff.mp (le_refl _) e h

/-- The nodes of the items are those of each item. -/
theorem mem_arrayNodes {xs : List MsgPack} {n : MsgPack} :
    n ∈ arrayNodes xs ↔ ∃ x ∈ xs, n ∈ x.nodes := by
  induction xs with
  | nil => simp [arrayNodes]
  | cons x xs ih => simp [arrayNodes, ih]

/-- The same of keys and values. -/
theorem mem_objectNodes {es : List (MsgPack × MsgPack)} {n : MsgPack} :
    n ∈ objectNodes es ↔ ∃ e ∈ es, n ∈ e.1.nodes ∨ n ∈ e.2.nodes := by
  induction es with
  | nil => simp [objectNodes]
  | cons e es ih =>
      obtain ⟨k, v⟩ := e
      simp [objectNodes, ih, or_assoc]

/-- `P` holds of every node. -/
def All (P : MsgPack → Prop) (x : MsgPack) : Prop := ∀ n ∈ x.nodes, P n

instance (P : MsgPack → Prop) [DecidablePred P] (x : MsgPack) : Decidable (x.All P) :=
  inferInstanceAs (Decidable (∀ n ∈ x.nodes, P n))

variable {P Q : MsgPack → Prop}

/-- On a leaf there is one node. -/
theorem all_leaf {x : MsgPack} (h : x.isLeaf = true) : x.All P ↔ P x := by
  cases x <;> simp_all [All, nodes, isLeaf, is_array, is_object, type]

/-- An array, and each of its items. -/
@[simp] theorem all_array {xs : List MsgPack} :
    (MsgPack.array xs).All P ↔ P (.array xs) ∧ ∀ x ∈ xs, x.All P := by
  simp only [All, nodes, List.forall_mem_cons, mem_arrayNodes]
  exact ⟨fun h => ⟨h.1, fun x hx n hn => h.2 n ⟨x, hx, hn⟩⟩,
    fun h => ⟨h.1, fun n ⟨x, hx, hn⟩ => h.2 x hx n hn⟩⟩

/-- An object, and each of its keys and values. -/
@[simp] theorem all_object {es : List (MsgPack × MsgPack)} :
    (MsgPack.object es).All P ↔ P (.object es) ∧ ∀ e ∈ es, e.1.All P ∧ e.2.All P := by
  simp only [All, nodes, List.forall_mem_cons, mem_objectNodes]
  exact ⟨fun h => ⟨h.1, fun e he => ⟨fun n hn => h.2 n ⟨e, he, Or.inl hn⟩,
      fun n hn => h.2 n ⟨e, he, Or.inr hn⟩⟩⟩,
    fun h => ⟨h.1, fun n ⟨e, he, hn⟩ => hn.elim ((h.2 e he).1 n) ((h.2 e he).2 n)⟩⟩

/-- The root is a node. -/
theorem All.self {x : MsgPack} (h : x.All P) : P x := by
  cases x <;> exact h _ (by simp [nodes])

/-- A property of all nodes may be weakened. -/
theorem All.imp {x : MsgPack} (h : x.All P) (hPQ : ∀ n, P n → Q n) : x.All Q :=
  fun n hn => hPQ n (h n hn)

/-- No float at any depth. -/
abbrev FloatFree (x : MsgPack) : Prop := x.All fun n => n.isFloat = false

/-- No NaN at any depth. -/
abbrev NaNFree (x : MsgPack) : Prop := x.All fun n => n.isNaN = false

/-- No object has a key with a float in it. -/
abbrev KeysFloatFree (x : MsgPack) : Prop := x.All fun n => ∀ e ∈ n.object_items, e.1.FloatFree

/-- Every length fits the widest length field of the format. -/
abbrev LengthsFit (x : MsgPack) : Prop := x.All fun n => n.length ≤ 0xffffffff

/-- NaN is a float. -/
theorem isNaN_of_isFloat {x : MsgPack} (h : x.isFloat = false) : x.isNaN = false := by
  cases x <;> simp_all [isFloat, is_float32, is_float64, type, isNaN, real?]

/-- So a value without floats is one without NaN. -/
theorem FloatFree.naNFree {x : MsgPack} (h : x.FloatFree) : x.NaNFree :=
  h.imp fun _ => isNaN_of_isFloat

end MsgPack

end Msgpack11
