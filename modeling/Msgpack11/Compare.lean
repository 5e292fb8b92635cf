/-
`operator==` and `operator<` of `msgpack11.cpp`: the double dispatch of
`Value`, `NumberValue`, `MsgPackInt64` and `MsgPackUint64`.

Arrays and objects compare by the standard library's lexicographic templates,
which call `operator==` and `operator<` on their elements. Each member function
below therefore takes the operator it calls back as a parameter, `equals_body`
and `less_body` are the virtual dispatch over them, and the knot is tied by the
number of levels the left operand has. `equals_eq` and `less_eq` say that the
knot is a fixed point, which is how the operators read in the source; nothing
after this file looks at levels again.
-/
import Msgpack11.Value
import Msgpack11.StrictWeak

set_option autoImplicit false

namespace Msgpack11.Compare

open Msgpack11.Floating Msgpack11.StrictWeak

/-! ## Comparing `uint64_t` with `int64_t` -/

/-- `equal_uint64_int64`: equal only where both types hold the number. -/
def equal_uint64_int64 (uint64_value : UInt64) (int64_value : Int64) : Bool :=
  let is_positive : Bool := 0 ≤ int64_value
  let is_leq_int64_max : Bool := uint64_value ≤ Int64.maxValue.toUInt64
  is_positive && is_leq_int64_max && uint64_value == int64_value.toUInt64

/-- `less_uint64_int64`: an `int64_t` above a `uint64_t` is not negative, and the other is no
larger than what `int64_t` holds. -/
def less_uint64_int64 (uint64_value : UInt64) (int64_value : Int64) : Bool :=
  let is_positive : Bool := 0 ≤ int64_value
  let is_leq_int64_max : Bool := uint64_value ≤ Int64.maxValue.toUInt64
  is_positive && is_leq_int64_max && decide (uint64_value < int64_value.toUInt64)

/-- `less_int64_uint64`: below every `uint64_t` if it is negative. -/
def less_int64_uint64 (int64_value : Int64) (uint64_value : UInt64) : Bool :=
  let is_negative : Bool := int64_value < 0
  let is_gt_int64_max : Bool := Int64.maxValue.toUInt64 < uint64_value
  is_negative || is_gt_int64_max || decide (int64_value.toUInt64 < uint64_value)

/-! ## The member functions -/

/-- The `switch` labels of `NumberValue::equals` and `NumberValue::less`. -/
def isNumberType : MsgPackType → Bool
  | .FLOAT32 | .FLOAT64 | .UINT8 | .UINT16 | .UINT32 | .UINT64
  | .INT8 | .INT16 | .INT32 | .INT64 => true
  | _ => false

section Members

variable (eq lt : MsgPack → MsgPack → Bool)

/-- `m_value == other->m_value`, both of one class. -/
def payload_equals : MsgPack → MsgPack → Bool
  | .nul, .nul => true
  | .float32 v, .float32 w => Double.equals (ofBinary32 v) (ofBinary32 w)
  | .float64 v, .float64 w => Double.equals (ofBinary64 v) (ofBinary64 w)
  | .int8 v, .int8 w => v == w
  | .int16 v, .int16 w => v == w
  | .int32 v, .int32 w => v == w
  | .int64 v, .int64 w => v == w
  | .uint8 v, .uint8 w => v == w
  | .uint16 v, .uint16 w => v == w
  | .uint32 v, .uint32 w => v == w
  | .uint64 v, .uint64 w => v == w
  | .bool v, .bool w => v == w
  | .string v, .string w => v.isEqv w (fun c d => decide (c = d))
  | .binary v, .binary w => v.isEqv w (fun c d => decide (c = d))
  | .array v, .array w => v.isEqv w eq
  | .object v, .object w => v.isEqv w (pairEq eq eq)
  | .extension t v, .extension u w =>
      pairEq (fun c d => decide (c = d)) (fun c d => c.isEqv d (fun c d => decide (c = d)))
        (t, v) (u, w)
  | _, _ => false

/-- `m_value < other->m_value`, both of one class. -/
def payload_less : MsgPack → MsgPack → Bool
  | .nul, .nul => false
  | .float32 v, .float32 w => Double.less (ofBinary32 v) (ofBinary32 w)
  | .float64 v, .float64 w => Double.less (ofBinary64 v) (ofBinary64 w)
  | .int8 v, .int8 w => v < w
  | .int16 v, .int16 w => v < w
  | .int32 v, .int32 w => v < w
  | .int64 v, .int64 w => v < w
  | .uint8 v, .uint8 w => v < w
  | .uint16 v, .uint16 w => v < w
  | .uint32 v, .uint32 w => v < w
  | .uint64 v, .uint64 w => v < w
  | .bool v, .bool w => decide (v < w)
  | .string v, .string w => lexLess (fun c d => decide (c < d)) v w
  | .binary v, .binary w => lexLess (fun c d => decide (c < d)) v w
  | .array v, .array w => lexLess lt v w
  | .object v, .object w => lexLess (pairLess lt lt) v w
  | .extension t v, .extension u w =>
      pairLess (fun c d => decide (c < d)) (lexLess (fun c d => decide (c < d))) (t, v) (u, w)
  | _, _ => false

/-- `Value::equals`: of one type, and then by contents. -/
def Value.equals (self other : MsgPack) : Bool :=
  let is_same_type := self.type == other.type
  is_same_type && payload_equals eq self other

/-- `Value::less`: by type first, and within one type by contents. -/
def Value.less (self other : MsgPack) : Bool :=
  let is_same_type := self.type == other.type
  let is_less_type := decide (self.type.code < other.type.code)
  is_less_type || (is_same_type && payload_less lt self other)

/-- `NumberValue::equals`: with any number as doubles. -/
def NumberValue.equals (self other : MsgPack) : Bool :=
  if isNumberType other.type then Double.equals self.float64_value other.float64_value
  else Value.equals eq self other

/-- `NumberValue::less`. -/
def NumberValue.less (self other : MsgPack) : Bool :=
  if isNumberType other.type then Double.less self.float64_value other.float64_value
  else Value.less lt self other

/-- `MsgPackInt64::equals`: exact among the 64-bit integers. -/
def MsgPackInt64.equals (self other : MsgPack) : Bool :=
  match other.type with
  | .INT64 => self.int64_value == other.int64_value
  | .UINT64 => equal_uint64_int64 other.uint64_value self.int64_value
  | _ => NumberValue.equals eq self other

/-- `MsgPackInt64::less`. -/
def MsgPackInt64.less (self other : MsgPack) : Bool :=
  match other.type with
  | .INT64 => decide (self.int64_value < other.int64_value)
  | .UINT64 => less_int64_uint64 self.int64_value other.uint64_value
  | _ => NumberValue.less lt self other

/-- `MsgPackUint64::equals`. -/
def MsgPackUint64.equals (self other : MsgPack) : Bool :=
  match other.type with
  | .INT64 => equal_uint64_int64 self.uint64_value other.int64_value
  | .UINT64 => self.uint64_value == other.uint64_value
  | _ => NumberValue.equals eq self other

/-- The `INT64` operand goes through `uint64_value()` and the parameter's
conversion back to `int64_t`. -/
def MsgPackUint64.less (self other : MsgPack) : Bool :=
  match other.type with
  | .INT64 => less_uint64_int64 self.uint64_value other.uint64_value.toInt64
  | .UINT64 => decide (self.uint64_value < other.uint64_value)
  | _ => NumberValue.less lt self other

/-- The class whose `equals` a value runs. -/
def equals_body (self other : MsgPack) : Bool :=
  match self.type with
  | .INT64 => MsgPackInt64.equals eq self other
  | .UINT64 => MsgPackUint64.equals eq self other
  | t => if isNumberType t then NumberValue.equals eq self other else Value.equals eq self other

/-- The class whose `less` a value runs. -/
def less_body (self other : MsgPack) : Bool :=
  match self.type with
  | .INT64 => MsgPackInt64.less lt self other
  | .UINT64 => MsgPackUint64.less lt self other
  | t => if isNumberType t then NumberValue.less lt self other else Value.less lt self other

end Members

/-! ## The operators -/

/-- A comparison that may call itself back `n` levels deep. -/
def levels (body : (MsgPack → MsgPack → Bool) → MsgPack → MsgPack → Bool) :
    ℕ → MsgPack → MsgPack → Bool
  | 0 => fun _ _ => false
  | n + 1 => body (levels body n)

/-- `MsgPack::operator==`. -/
def equals (a b : MsgPack) : Bool := levels equals_body (a.height + 1) a b

/-- `MsgPack::operator<`. -/
def less (a b : MsgPack) : Bool := levels less_body (a.height + 1) a b

/-- A body calls back only on operands nearer to the leaves. -/
def Descends (body : (MsgPack → MsgPack → Bool) → MsgPack → MsgPack → Bool) : Prop :=
  ∀ f g a b, (∀ x y, min x.height y.height < min a.height b.height → f x y = g x y) →
    body f a b = body g a b

/-- Beyond the levels that the operands have, one more changes nothing. -/
theorem levels_stable {body : (MsgPack → MsgPack → Bool) → MsgPack → MsgPack → Bool}
    (hbody : Descends body) : ∀ (n m : ℕ) (a b : MsgPack), min a.height b.height < n →
      min a.height b.height < m → levels body n a b = levels body m a b
  | 0, _, _, _, hn, _ => absurd hn (Nat.not_lt_zero _)
  | _ + 1, 0, _, _, _, hm => absurd hm (Nat.not_lt_zero _)
  -- the body calls back one level down, where both suffice again
  | n + 1, m + 1, a, b, hn, hm =>
      hbody _ _ a b fun x y hxy => levels_stable hbody n m x y (by omega) (by omega)

/-- So the comparison is a fixed point of its body. -/
theorem levels_eq {body : (MsgPack → MsgPack → Bool) → MsgPack → MsgPack → Bool}
    (hbody : Descends body) (a b : MsgPack) :
    levels body (a.height + 1) a b = body (fun x y => levels body (x.height + 1) x y) a b :=
  hbody _ _ a b fun x y hxy => levels_stable hbody a.height (x.height + 1) x y (by omega) (by omega)

/-- The entries of two objects are nearer to the leaves than the objects. -/
private theorem min_height_object {v w : List (MsgPack × MsgPack)} {e e' : MsgPack × MsgPack}
    (he : e ∈ v) (he' : e' ∈ w) :
    min e.1.height e'.1.height < min (MsgPack.object v).height (MsgPack.object w).height ∧
      min e.2.height e'.2.height < min (MsgPack.object v).height (MsgPack.object w).height := by
  have h := MsgPack.height_lt_object he
  have h' := MsgPack.height_lt_object he'
  omega

private theorem min_height_array {v w : List MsgPack} {x y : MsgPack} (hx : x ∈ v) (hy : y ∈ w) :
    min x.height y.height < min (MsgPack.array v).height (MsgPack.array w).height := by
  have h := MsgPack.height_lt_array hx
  have h' := MsgPack.height_lt_array hy
  omega

/-- Contents are compared by calls on items and entries only. -/
theorem payload_equals_descends : Descends payload_equals := by
  intro f g a b h
  cases a <;> cases b <;> try rfl
  case array.array v w =>
    exact isEqv_congr fun x hx y hy => h x y (min_height_array hx hy)
  case object.object v w =>
    apply isEqv_congr
    intro e he e' he'
    have hmin := min_height_object he he'
    simp only [pairEq, h _ _ hmin.1, h _ _ hmin.2]

theorem payload_less_descends : Descends payload_less := by
  intro f g a b h
  cases a <;> cases b <;> try rfl
  case array.array v w =>
    refine lexLess_congr fun x hx y hy => ⟨h x y (min_height_array hx hy), h y x ?_⟩
    rw [Nat.min_comm y.height]
    exact min_height_array hx hy
  case object.object v w =>
    apply lexLess_congr
    intro e he e' he'
    have hmin := min_height_object he he'
    have hmin' : min e'.1.height e.1.height
          < min (MsgPack.object v).height (MsgPack.object w).height ∧
        min e'.2.height e.2.height
          < min (MsgPack.object v).height (MsgPack.object w).height := by omega
    simp only [pairLess, h _ _ hmin.1, h _ _ hmin.2, h _ _ hmin'.1, h _ _ hmin'.2, and_self]

theorem equals_body_descends : Descends equals_body := by
  intro f g a b h
  have hvalue : Value.equals f a b = Value.equals g a b := by
    simp only [Value.equals, payload_equals_descends f g a b h]
  simp only [equals_body, MsgPackInt64.equals, MsgPackUint64.equals, NumberValue.equals, hvalue]

/-- So is what the member functions call, whichever class a value has. -/
theorem less_body_descends : Descends less_body := by
  intro f g a b h
  have hvalue : Value.less f a b = Value.less g a b := by
    simp only [Value.less, payload_less_descends f g a b h]
  simp only [less_body, MsgPackInt64.less, MsgPackUint64.less, NumberValue.less, hvalue]

/-- `operator==` is the virtual `equals` over itself. -/
theorem equals_eq (a b : MsgPack) : equals a b = equals_body equals a b :=
  levels_eq equals_body_descends a b

/-- `operator<` is the virtual `less` over itself. -/
theorem less_eq (a b : MsgPack) : less a b = less_body less a b :=
  levels_eq less_body_descends a b

/-- `std::map<MsgPack, MsgPack>::value_comp`: entries compare by their keys. -/
def entryLess (e e' : MsgPack × MsgPack) : Bool := less e.1 e'.1

/-- A string key is above every number, whatever its text. -/
example : less (.uint64 (2 ^ 63)) (.string []) = true := by decide

/-- Mixed signedness at the boundary of both types. -/
example : less (.int64 Int64.maxValue) (.uint64 (2 ^ 63)) = true := by decide +kernel

end Msgpack11.Compare
