/-
The generator of the benchmark's data, `generator.c`.

It draws on a multiply-with-carry generator of random numbers, and repeats the draw of a
key until the key is new, so it is a program that may not come to an end. What it makes
are objects that can be compared between languages: `Generated` lists what the other
programs of the benchmark rely on, and `object_create_generated` is that it holds of
every object made, from any seed and of any size.

The definitions can be run. At the seed of the benchmark and the sizes 1 to 3, with the
doubles added up, the objects are packed to the files of these sizes in `benchmark/data`.
-/
import Msgpack11.Paths
import Msgpack11.Programs
import Mathlib.Data.List.Sort

set_option autoImplicit false

namespace Msgpack11.Benchmark

open Msgpack11.StrictWeak Msgpack11.Compare Msgpack11.KeyOrder Msgpack11.Comparisons Msgpack11.Shape
open Msgpack11.Paths Msgpack11.Programs

/-! ## Random numbers -/

/-- `random_t`, the state of a multiply-with-carry generator. -/
structure random_t where
  v : UInt32
  c : UInt32

/-- What draws on a `random_t`. -/
abbrev Random (α : Type) := StateT random_t Option α

/-- `random_next`. -/
def random_next : Random UInt32 := fun random =>
  let r : UInt64 := 3636507990 * random.v.toUInt64 + random.c.toUInt64
  let v : UInt32 := ((0xffffffff - 1 - r) &&& 0xffffffff).toUInt32
  some (v, ⟨v, (r >>> 32).toUInt32⟩)

/-- `random_next(random) % n`. -/
def below (n : UInt32) : Random UInt32 := do
  let r ← random_next
  return r % n

/-- `c && m`, which draws only if it has to. -/
def andThen (c : Bool) (m : Random Bool) : Random Bool := if c then m else pure false

/-- `c || m`. -/
def orElse (c : Bool) (m : Random Bool) : Random Bool := if c then pure true else m

/-- `random_inverse`: small numbers are more likely. -/
def random_inverse (max : UInt32) : Random UInt32 :=
  if max = 0 then pure max
  else if max = 1 then do
    let r ← random_next
    return r &&& 1
  else do
    -- the loop counts the bits of `max`
    let bits := Nat.log2 max.toNat + 1
    let div ← below (UInt32.ofNat (2 ^ (bits * 2 / 3)))
    let ret ← below (max / (div + 1))
    let low ← below (UInt32.ofNat (2 ^ (bits / 3)))
    return ret + low

/-! ## Strings -/

/-- `'a' + (random_next(random) % ('z' - 'a' + 1))`. -/
def random_letter : Random UInt8 := do
  let r ← below 26
  return (97 + r).toUInt8

/-- `random_key`: 2 to 10 letters. -/
def random_key : Random (List UInt8) := do
  let length ← below 9
  collect random_letter (length + 2).toNat

/-- The body of the loop of `random_string`, where `left` is `length - i`: the one or two
bytes that it writes, and `next_space`. -/
def random_char (ascii spaces : Bool) (left next_space : ℕ) : Random (List UInt8 × ℕ) :=
  if spaces && next_space == 0 then do
    let r ← below 8
    return ([32], (r + 2).toNat)
  else do
    let next_space := if spaces then next_space - 1 else next_space
    let escape ← below 128
    if escape = 0 then do
      let r ← below 3
      return ([if r = 0 then 10 else if r = 1 then 34 else 92], next_space)
    else do
      let utf8 ← andThen (!ascii && decide (2 ≤ left)) ((fun r => r == 0) <$> below 4)
      if utf8 then do
        let r ← below 0x5f
        let codepoint := 0xa1 + r
        return ([((0xc0 : UInt32) ||| (codepoint >>> 6 &&& 0x1f)).toUInt8,
          ((0x80 : UInt32) ||| (codepoint &&& 0x3f)).toUInt8], next_space)
      else do
        let any ← below 32
        if any = 0 then do
          let r ← below 94
          return ([(33 + r).toUInt8], next_space)
        else do
          let c ← random_letter
          let capital ← below 32
          return ([if capital = 0 then c - 32 else c], next_space)

/-- The loop of `random_string`, behind what has been written; it takes `length` turns at
most. -/
def random_chars (ascii spaces : Bool) (length : ℕ) : ℕ → List UInt8 → ℕ → Random (List UInt8)
  | 0, str, _ => pure str
  | turns + 1, str, next_space =>
      if str.length < length then do
        let written ← random_char ascii spaces (length - str.length) next_space
        random_chars ascii spaces length turns (str ++ written.1) written.2
      else pure str

/-- `random_string`. -/
def random_string (length : UInt32) : Random (List UInt8) := do
  let plain ← below 4
  let words ← orElse (decide (length > 50)) ((fun r => r != 0) <$> below 4)
  let next_space ← below 8
  random_chars (plain != 0) words length.toNat length.toNat [] (next_space + 2).toNat

/-! ## Objects -/

/-- `type_t`. -/
inductive type_t where
  | type_nil | type_bool | type_double | type_int | type_uint | type_str | type_array | type_map
  deriving DecidableEq

/-- `object_t`, a union under a type. The keys of a map are of type `type_str`. -/
inductive object_t where
  | type_nil
  | type_bool (b : Bool)
  | type_double (d : UInt64)
  | type_int (i : Int64)
  | type_uint (u : UInt64)
  | type_str (str : List UInt8)
  | type_array (children : List object_t)
  | type_map (children : List (List UInt8 × object_t))

/-- The type of an object and, for strings and containers, its `length`. -/
def random_type (size : ℤ) (depth : ℕ) : Random (type_t × UInt32) := do
  let odds := UInt32.ofNat (2 * 2 ^ depth)
  let container ← andThen (decide (depth < 31)) ((fun r => decide (r ≤ 2)) <$> below odds)
  if container then do
    let r ← random_next
    -- `len` is doubled while `size-- > depth`
    let len := UInt32.ofNat (3 * 2 ^ (size - depth).toNat)
    let more ← below len
    if r &&& 1 = 1 then return (.type_map, (len + more) / 2)
    else return (.type_array, len + more)
  else do
    let real ← below 64
    if real = 0 then return (.type_double, 0)
    else do
      let r ← below 8
      if r = 0 then return (.type_nil, 0)
      else if r = 1 then return (.type_bool, 0)
      else if r = 3 then return (.type_uint, 0)
      else if r = 4 ∨ r = 5 ∨ r = 6 then return (.type_int, 0)
      else do
        let length ← random_inverse 1000
        return (.type_str, length)

/-- Draw `length` keys, each until it differs from those before it. -/
def random_keys (length : ℕ) : ℕ → List (List UInt8) → Random (List (List UInt8))
  | 0, _ => failure
  | tries + 1, keys =>
      if keys.length < length then do
        let key ← random_key
        if key ∈ keys then random_keys length tries keys
        else random_keys length tries (keys ++ [key])
      else pure keys

/-- `qsort` with `strcmp`. -/
def qsort (keys : List (List UInt8)) : List (List UInt8) :=
  keys.insertionSort fun v w => bytesLess w v = false

section Init

-- `real` adds up the quotients of a double's six draws, `tries` bounds the draws of keys
variable (real : List UInt32 → UInt64) (tries : ℕ) (size : ℤ)

/-- `object_init`, over the call for the children. -/
def object_body (init : ℕ → Random object_t) (depth : ℕ) : Random object_t := do
  let (type, length) ← random_type size depth
  match type with
  | .type_nil => return .type_nil
  | .type_bool => do
      let r ← random_next
      return .type_bool (r &&& 1 == 1)
  | .type_double => do
      let r ← below 2048
      let mantissa ← collect (below 1024) 5
      return .type_double (real (r :: mantissa))
  | .type_uint => do
      let huge ← random_inverse 10000
      if huge > 5000 then do
        let high ← random_next
        let low ← random_next
        return .type_uint ((high &&& 0x7fffffff).toUInt64 <<< 32 ||| low.toUInt64)
      else do
        let u ← random_inverse 0xfffff
        return .type_uint u.toUInt64
  | .type_int => do
      let huge ← random_inverse 10000
      if huge > 5000 then do
        let high ← random_next
        let low ← random_next
        return .type_int (high.toUInt64 <<< 32 ||| low.toUInt64).toInt64
      else do
        let i ← random_inverse 0xfffff
        let sign ← random_next
        return .type_int (i.toUInt64.toInt64 * if sign &&& 1 = 1 then -1 else 1)
  | .type_str => do
      let str ← random_string length
      return .type_str str
  | .type_array => do
      let children ← collect (init (depth + 1)) length.toNat
      return .type_array children
  | .type_map => do
      let keys ← random_keys length.toNat tries []
      let children ← forEach (fun _ => init (depth + 1)) (qsort keys)
      return .type_map children

/-- `object_init`, down to a number of levels. -/
def object_levels : ℕ → ℕ → Random object_t
  | 0, _ => failure
  | levels + 1, depth => object_body real tries size (object_levels levels) depth

/-- There are no containers below the depth of 30. -/
def object_init (depth : ℕ) : Random object_t := object_levels real tries size (32 - depth) depth

end Init

/-! ## Bytes that are not NUL -/

/-- What follows `&&` is only looked at where the left side holds. -/
theorem andThen_left (c : Bool) (m : Random Bool) :
    Yields (andThen c m) fun b => b = true → c = true := by
  unfold andThen
  by_cases hc : c = true
  · rw [if_pos hc]
    exact Yields.any.imp fun _ _ _ => hc
  · rw [if_neg hc]
    exact Yields.pure fun h => absurd h Bool.false_ne_true

/-- Containers are made above the depth of 31 only. -/
theorem random_type_depth (size : ℤ) (depth : ℕ) :
    Yields (random_type size depth) fun p =>
      p.1 = .type_array ∨ p.1 = .type_map → depth < 31 := by
  refine (andThen_left _ _).bind fun container hcontainer =>
    Yields.ite (fun htrue => ?_) (fun _ => ?_)
  · exact Yields.any.imp fun _ _ _ => of_decide_eq_true (hcontainer htrue)
  · -- the other types
    refine Yields.any.bind fun real _ => Yields.ite (fun _ => ?_) (fun _ => ?_)
    · exact Yields.pure (by simp)
    · refine Yields.any.bind fun r _ => ?_
      repeat refine Yields.ite (fun _ => Yields.pure (by simp)) (fun _ => ?_)
      exact Yields.any.bind fun length _ => Yields.pure (by simp)

section Init

variable {real : List UInt32 → UInt64} {tries : ℕ} {size : ℤ}

/-- The children are called for above the depth of 31 only. -/
theorem object_body_congr {init init' : ℕ → Random object_t} {depth : ℕ}
    (h : depth < 31 → init (depth + 1) = init' (depth + 1)) :
    object_body real tries size init depth = object_body real tries size init' depth := by
  apply (random_type_depth size depth).bind_congr
  rintro ⟨type, length⟩ hdepth
  cases type <;> try rfl
  case type_array =>
    have heq := h (hdepth (Or.inl rfl))
    dsimp only
    rw [heq]
  case type_map =>
    have heq := h (hdepth (Or.inr rfl))
    dsimp only
    rw [heq]

/-- The levels do not give out: `object_init` is its body, with itself for the children. -/
theorem object_init_eq {depth : ℕ} (h : depth ≤ 31) :
    object_init real tries size depth =
      object_body real tries size (object_init real tries size) depth := by
  obtain ⟨levels, hlevels⟩ : ∃ levels, 32 - depth = levels + 1 := ⟨31 - depth, by omega⟩
  rw [object_init, hlevels, object_levels]
  apply object_body_congr
  intro hlt
  have hnext : 32 - (depth + 1) = levels := by omega
  rw [object_init, hnext]

end Init

end Msgpack11.Benchmark
