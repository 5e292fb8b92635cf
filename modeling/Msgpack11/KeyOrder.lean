/-
What `operator==` and `operator<` compute, and when `operator<` is the strict
weak order `std::map` asks for.

Numbers come first. Between two integer classes the operators compare the
integers held (`equals_of_integers`, `less_of_integers`), although most pairs
go through `double`: one operand then has at most 32 bits, and rounding never
carries the other past it. As soon as a float is involved both operands go
through `double`, and there a 64-bit integer is rounded.

Everything else follows the shape of values. `rank` splits values into the
classes across which the type tag decides, and inside a class the comparison is
that of the payload; arrays and objects are reached by induction on the number
of levels, with the lexicographic rules of `StrictWeak`.

| | on which values |
|---|---|
| exactly one of `<`, `==`, `>` | no NaN (`trichotomous`) |
| strict weak order | no NaN, and no float to which two integers round (`strictWeak`) |
-/
import Msgpack11.Compare
import Msgpack11.Bytes

set_option autoImplicit false

namespace Msgpack11.KeyOrder

open Msgpack11.Floating Msgpack11.StrictWeak Msgpack11.Compare

/-! ## The 64-bit helpers -/

/-- `static_cast<uint64_t>` of an `int64_t` is its residue modulo `2^64`. -/
theorem toUInt64_emod (i : Int64) : (i.toUInt64.toNat : ℤ) = i.toInt % 2 ^ 64 :=
  Bytes.toNat_eq_emod i.toBitVec

/-- An unsigned number is its own residue. -/
theorem uint64_ofInt_toNat (v : UInt64) : UInt64.ofInt v.toNat = v := by
  apply UInt64.toNat_inj.mp
  have hlt := v.toNat_lt
  simp only [UInt64.ofInt, UInt64.toNat_ofNat']
  omega

/-- The residue of a signed number is its conversion. -/
theorem uint64_ofInt_toInt (i : Int64) : UInt64.ofInt i.toInt = i.toUInt64 := by
  apply UInt64.toNat_inj.mp
  -- both are the residue modulo `2 ^ 64`
  have hmod := toUInt64_emod i
  simp only [UInt64.ofInt, UInt64.toNat_ofNat']
  omega

private theorem maxValue_toNat : Int64.maxValue.toUInt64.toNat = 2 ^ 63 - 1 := by decide

private theorem zero_le_iff (i : Int64) : 0 ≤ i ↔ 0 ≤ i.toInt := by
  rw [Int64.le_iff_toInt_le]
  rfl

private theorem lt_zero_iff (i : Int64) : i < 0 ↔ i.toInt < 0 := by
  rw [Int64.lt_iff_toInt_lt]
  rfl

/-- The helpers compare the two numbers as integers: equality. -/
theorem equal_uint64_int64_eq (u : UInt64) (i : Int64) :
    equal_uint64_int64 u i = decide ((u.toNat : ℤ) = i.toInt) := by
  have hmod := toUInt64_emod i
  have hlo := i.le_toInt
  have hhi := i.toInt_lt
  -- the two guards say that both numbers lie in the common range
  rw [Bool.eq_iff_iff]
  simp only [equal_uint64_int64, Bool.and_eq_true, decide_eq_true_eq, beq_iff_eq, zero_le_iff,
    UInt64.le_iff_toNat_le, maxValue_toNat, ← UInt64.toNat_inj]
  omega

/-- The order with the unsigned number on the left. -/
theorem less_uint64_int64_eq (u : UInt64) (i : Int64) :
    less_uint64_int64 u i = decide ((u.toNat : ℤ) < i.toInt) := by
  have hmod := toUInt64_emod i
  have hlo := i.le_toInt
  have hhi := i.toInt_lt
  rw [Bool.eq_iff_iff]
  simp only [less_uint64_int64, Bool.and_eq_true, decide_eq_true_eq, zero_le_iff,
    UInt64.le_iff_toNat_le, UInt64.lt_iff_toNat_lt, maxValue_toNat]
  omega

/-- The order with the signed number on the left. -/
theorem less_int64_uint64_eq (i : Int64) (u : UInt64) :
    less_int64_uint64 i u = decide (i.toInt < u.toNat) := by
  have hmod := toUInt64_emod i
  have hlo := i.le_toInt
  have hhi := i.toInt_lt
  rw [Bool.eq_iff_iff]
  simp only [less_int64_uint64, Bool.or_eq_true, decide_eq_true_eq, lt_zero_iff,
    UInt64.lt_iff_toNat_lt, maxValue_toNat]
  omega

/-! ## Numbers -/

/-- A value of one of the ten number classes. -/
abbrev IsNumber (a : MsgPack) : Prop := isNumberType a.type = true

/-- The integers are numbers. -/
theorem isNumber_of_integer {a : MsgPack} {m : ℤ} (h : a.integer? = some m) : IsNumber a := by
  cases a <;> simp_all [MsgPack.integer?, IsNumber, MsgPack.type, isNumberType]

/-- As a `double` an integer is rounded. -/
theorem float64_value_of_integer {a : MsgPack} {m : ℤ} (h : a.integer? = some m) :
    a.float64_value = ofInt m := by
  simp [MsgPack.float64_value, h]

/-- Every integer class but the two of 64 bits holds integers `double` holds
exactly, with room on both sides. -/
theorem natAbs_integer_lt {a : MsgPack} {m : ℤ} (h : a.integer? = some m)
    (h64 : a.type ≠ .INT64) (hu64 : a.type ≠ .UINT64) : m.natAbs + 1 < 2 ^ 53 := by
  cases a <;> simp only [MsgPack.integer?, Option.some.injEq, reduceCtorEq] at h <;> subst h
  case int8 v => have := v.le_toInt; have := v.toInt_lt; omega
  case int16 v => have := v.le_toInt; have := v.toInt_lt; omega
  case int32 v => have := v.le_toInt; have := v.toInt_lt; omega
  case int64 v => exact absurd rfl h64
  case uint8 v => have := v.toNat_lt; omega
  case uint16 v => have := v.toNat_lt; omega
  case uint32 v => have := v.toNat_lt; omega
  case uint64 v => exact absurd rfl hu64

/-- Comparing through `double` is exact when one side has at most 32 bits. -/
theorem double_less_eq {m n : ℤ} (h : m.natAbs + 1 < 2 ^ 53 ∨ n.natAbs + 1 < 2 ^ 53) :
    Double.less (ofInt m) (ofInt n) = decide (m < n) := by
  rw [less_ofInt, decide_eq_decide]
  -- the exact operand stays, and rounding does not carry the other past it
  rcases h with hm | hn
  · rw [roundInt_of_natAbs_lt (n := m) (by omega)]
    exact lt_roundInt_iff (by decide) hm
  · rw [roundInt_of_natAbs_lt (n := n) (by omega)]
    exact roundInt_lt_iff (by decide) hn

theorem double_equals_eq {m n : ℤ} (h : m.natAbs + 1 < 2 ^ 53 ∨ n.natAbs + 1 < 2 ^ 53) :
    Double.equals (ofInt m) (ofInt n) = decide (m = n) := by
  rw [equals_ofInt, decide_eq_decide]
  rcases h with hm | hn
  · have hlt := lt_roundInt_iff (m := n) (by decide : 0 < 53) hm
    have hgt := roundInt_lt_iff (m := n) (by decide : 0 < 53) hm
    rw [roundInt_of_natAbs_lt (n := m) (by omega)]
    omega
  · have hlt := lt_roundInt_iff (m := m) (by decide : 0 < 53) hn
    have hgt := roundInt_lt_iff (m := m) (by decide : 0 < 53) hn
    rw [roundInt_of_natAbs_lt (n := n) (by omega)]
    omega

/-- The path of two numbers that are not both of 64 bits. -/
private theorem number_path {a b : MsgPack} (ha : IsNumber a) (hb : IsNumber b)
    (h : (a.type ≠ .INT64 ∧ a.type ≠ .UINT64) ∨ (b.type ≠ .INT64 ∧ b.type ≠ .UINT64)) :
    equals a b = Double.equals a.float64_value b.float64_value ∧
      less a b = Double.less a.float64_value b.float64_value := by
  rw [equals_eq, less_eq]
  unfold equals_body less_body MsgPackInt64.equals MsgPackUint64.equals MsgPackInt64.less
    MsgPackUint64.less NumberValue.equals NumberValue.less
  simp only [IsNumber] at ha hb
  generalize a.type = t at *
  generalize b.type = u at *
  -- the 64-bit classes fall through to `NumberValue` unless both sides have one
  rcases h with ⟨h1, h2⟩ | ⟨h1, h2⟩
  · split <;> first | contradiction | simp [ha, hb]
  · rw [if_pos hb]
    split <;> (try split) <;> first | contradiction | simp [hb]

/-- Two integers compare as integers, whatever classes hold them. -/
theorem equals_of_integers {a b : MsgPack} {m n : ℤ} (ha : a.integer? = some m)
    (hb : b.integer? = some n) : equals a b = decide (m = n) := by
  by_cases hsmall : (a.type ≠ .INT64 ∧ a.type ≠ .UINT64) ∨ (b.type ≠ .INT64 ∧ b.type ≠ .UINT64)
  · rw [(number_path (isNumber_of_integer ha) (isNumber_of_integer hb) hsmall).1,
      float64_value_of_integer ha, float64_value_of_integer hb]
    apply double_equals_eq
    rcases hsmall with ⟨h1, h2⟩ | ⟨h1, h2⟩
    · exact Or.inl (natAbs_integer_lt ha h1 h2)
    · exact Or.inr (natAbs_integer_lt hb h1 h2)
  · -- both operands are of 64 bits: four pairs, three helpers
    rw [equals_eq]
    cases a <;> simp [MsgPack.type] at hsmall <;> cases b <;> simp at hsmall <;>
      simp only [MsgPack.integer?, Option.some.injEq] at ha hb <;> subst ha <;> subst hb <;>
      simp only [equals_body, MsgPackInt64.equals, MsgPackUint64.equals, MsgPack.type,
        MsgPack.int64_value, MsgPack.uint64_value, MsgPack.castOperand, MsgPack.integer?,
        Int64.ofInt_toInt, uint64_ofInt_toNat, equal_uint64_int64_eq]
    case int64.int64 v w => rw [Bool.eq_iff_iff]; simp [Int64.toInt_inj]
    case int64.uint64 v w => rw [decide_eq_decide]; exact eq_comm
    case uint64.uint64 v w => rw [Bool.eq_iff_iff]; simp [UInt64.toNat_inj]

/-- Integers are ordered as integers, whichever their types. -/
theorem less_of_integers {a b : MsgPack} {m n : ℤ} (ha : a.integer? = some m)
    (hb : b.integer? = some n) : less a b = decide (m < n) := by
  by_cases hsmall : (a.type ≠ .INT64 ∧ a.type ≠ .UINT64) ∨ (b.type ≠ .INT64 ∧ b.type ≠ .UINT64)
  · rw [(number_path (isNumber_of_integer ha) (isNumber_of_integer hb) hsmall).2,
      float64_value_of_integer ha, float64_value_of_integer hb]
    apply double_less_eq
    rcases hsmall with ⟨h1, h2⟩ | ⟨h1, h2⟩
    · exact Or.inl (natAbs_integer_lt ha h1 h2)
    · exact Or.inr (natAbs_integer_lt hb h1 h2)
  · rw [less_eq]
    cases a <;> simp [MsgPack.type] at hsmall <;> cases b <;> simp at hsmall <;>
      simp only [MsgPack.integer?, Option.some.injEq] at ha hb <;> subst ha <;> subst hb <;>
      simp only [less_body, MsgPackInt64.less, MsgPackUint64.less, MsgPack.type,
        MsgPack.int64_value, MsgPack.uint64_value, MsgPack.castOperand, MsgPack.integer?,
        Int64.ofInt_toInt, uint64_ofInt_toNat, uint64_ofInt_toInt, less_uint64_int64_eq,
        less_int64_uint64_eq, Int64.lt_iff_toInt_lt]
    case uint64.int64 v w => rfl
    case uint64.uint64 v w => rw [decide_eq_decide, UInt64.lt_iff_toNat_lt, Int.ofNat_lt]

/-- As soon as one operand is a float, both are compared as `double`. -/
theorem compare_of_float {a b : MsgPack} (ha : IsNumber a) (hb : IsNumber b)
    (h : a.integer? = none ∨ b.integer? = none) :
    equals a b = Double.equals a.float64_value b.float64_value ∧
      less a b = Double.less a.float64_value b.float64_value := by
  apply number_path ha hb
  rcases h with h | h
  · left
    cases a <;> simp_all [MsgPack.integer?, MsgPack.type]
  · right
    cases b <;> simp_all [MsgPack.integer?, MsgPack.type]

/-! ## Classes of values

The tags of the number types are consecutive, so the number classes form one
class and the tag decides between it and each of the others. -/

/-- The class of a value: its tag, one for all numbers. -/
def rank (a : MsgPack) : ℕ := if isNumberType a.type then MsgPackType.FLOAT32.code else a.type.code

/-- The numbers are the types between two tags. -/
theorem isNumberType_iff (t : MsgPackType) :
    isNumberType t = true ↔
      MsgPackType.FLOAT32.code ≤ t.code ∧ t.code ≤ MsgPackType.UINT64.code := by
  cases t <;> decide

/-- The path of a pair of which one side is no number. -/
private theorem value_path {a b : MsgPack} (h : ¬ IsNumber a ∨ ¬ IsNumber b) :
    equals a b = Value.equals equals a b ∧ less a b = Value.less less a b := by
  rw [equals_eq, less_eq]
  unfold equals_body less_body MsgPackInt64.equals MsgPackUint64.equals MsgPackInt64.less
    MsgPackUint64.less NumberValue.equals NumberValue.less
  simp only [IsNumber] at h
  generalize a.type = t at *
  generalize b.type = u at *
  rcases h with ht | hu
  · split <;> first | exact absurd rfl ht | simp [ht]
  · rw [if_neg hu, if_neg hu]
    split <;> (try split) <;> first | exact absurd rfl hu | simp

private theorem not_number_of_rank_ne {a b : MsgPack} (h : rank a ≠ rank b) :
    ¬ IsNumber a ∨ ¬ IsNumber b := by
  by_contra hboth
  simp only [not_or, not_not] at hboth
  exact h (by rw [rank, rank, if_pos hboth.1, if_pos hboth.2])

private theorem type_of_rank_ne {a b : MsgPack} (h : rank a ≠ rank b) :
    (a.type == b.type) = false := by
  rw [beq_eq_false_iff_ne]
  intro heq
  exact h (by rw [rank, rank, heq])

/-- Between classes the tag decides. -/
theorem less_of_rank_ne {a b : MsgPack} (h : rank a ≠ rank b) :
    less a b = decide (rank a < rank b) := by
  have hlo : MsgPackType.FLOAT32.code = 9 := rfl
  have hhi : MsgPackType.UINT64.code = 47 := rfl
  rw [(value_path (not_number_of_rank_ne h)).2, Value.less, type_of_rank_ne h, Bool.false_and,
    Bool.or_false, decide_eq_decide]
  -- the number types have consecutive codes, so no other code lies between
  simp only [rank, isNumberType_iff] at h ⊢
  split_ifs at h ⊢ <;> omega

/-- Nothing is equal to a value of another class. -/
theorem equals_of_rank_ne {a b : MsgPack} (h : rank a ≠ rank b) : equals a b = false := by
  rw [(value_path (not_number_of_rank_ne h)).1, Value.equals, type_of_rank_ne h, Bool.false_and]

/-- Inside a class other than the numbers the payload decides. -/
theorem compare_of_type_eq {a b : MsgPack} (ha : ¬ IsNumber a) (h : a.type = b.type) :
    equals a b = payload_equals equals a b ∧ less a b = payload_less less a b := by
  have hpath := value_path (a := a) (b := b) (Or.inl ha)
  rw [hpath.1, hpath.2, Value.equals, Value.less, h]
  simp

/-- Different types have different tags. -/
theorem code_injective : Function.Injective MsgPackType.code := by
  intro t u h
  cases t <;> cases u <;> first | rfl | exact absurd h (by decide)

/-- Off the numbers a class is a type. -/
theorem type_of_rank_eq {a c : MsgPack} (hc : ¬ IsNumber c) (h : rank a = rank c) :
    a.type = c.type := by
  have hlo : MsgPackType.FLOAT32.code = 9 := rfl
  have hhi : MsgPackType.UINT64.code = 47 := rfl
  apply code_injective
  -- a type other than the numbers does not share the code of their class
  simp only [rank, IsNumber, isNumberType_iff] at hc h
  split_ifs at h <;> omega

/-- The numbers are one class. -/
theorem isNumber_of_rank_eq {a c : MsgPack} (hc : IsNumber c) (h : rank a = rank c) :
    IsNumber a := by
  by_contra ha
  have htype := type_of_rank_eq ha h.symm
  rw [IsNumber, htype] at hc
  exact ha hc

/-- `operator<` of `std::string` and of `std::vector<uint8_t>`. -/
abbrev bytesLess : List UInt8 → List UInt8 → Bool := lexLess fun c d => decide (c < d)

/-- `operator==` of strings and of byte vectors. -/
abbrev bytesEq (v w : List UInt8) : Bool := v.isEqv w fun c d => decide (c = d)

/-- It is equality. -/
theorem bytesEq_iff (v w : List UInt8) : bytesEq v w = true ↔ v = w := by
  have h : bytesEq v w = true ↔ v.map id = w.map id :=
    isEqv_iff_map fun c _ d _ => (decide_eq_true_iff (p := c = d))
  rwa [List.map_id, List.map_id] at h

theorem compare_bool (v w : Bool) :
    less (.bool v) (.bool w) = decide (v < w) ∧ equals (.bool v) (.bool w) = decide (v = w) := by
  have h := compare_of_type_eq (a := .bool v) (b := .bool w) Bool.false_ne_true rfl
  exact ⟨h.2, h.1⟩

/-- Strings compare as byte strings. -/
theorem compare_string (v w : List UInt8) :
    less (.string v) (.string w) = bytesLess v w ∧
      equals (.string v) (.string w) = bytesEq v w := by
  have h := compare_of_type_eq (a := .string v) (b := .string w) Bool.false_ne_true rfl
  exact ⟨h.2, h.1⟩

theorem compare_binary (v w : List UInt8) :
    less (.binary v) (.binary w) = bytesLess v w ∧
      equals (.binary v) (.binary w) = bytesEq v w := by
  have h := compare_of_type_eq (a := .binary v) (b := .binary w) Bool.false_ne_true rfl
  exact ⟨h.2, h.1⟩

theorem compare_extension (p q : Int8 × List UInt8) :
    less (.extension p.1 p.2) (.extension q.1 q.2)
        = pairLess (fun c d => decide (c < d)) bytesLess p q ∧
      equals (.extension p.1 p.2) (.extension q.1 q.2)
        = pairEq (fun c d => decide (c = d)) bytesEq p q := by
  have h := compare_of_type_eq (a := .extension p.1 p.2) (b := .extension q.1 q.2)
    Bool.false_ne_true rfl
  exact ⟨h.2, h.1⟩

/-- Arrays compare item by item. -/
theorem compare_array (v w : List MsgPack) :
    less (.array v) (.array w) = lexLess less v w ∧
      equals (.array v) (.array w) = v.isEqv w equals := by
  have h := compare_of_type_eq (a := .array v) (b := .array w) Bool.false_ne_true rfl
  exact ⟨h.2, h.1⟩

/-- Objects compare entry by entry, in iteration order. -/
theorem compare_object (v w : List (MsgPack × MsgPack)) :
    less (.object v) (.object w) = lexLess (pairLess less less) v w ∧
      equals (.object v) (.object w) = v.isEqv w (pairEq equals equals) := by
  have h := compare_of_type_eq (a := .object v) (b := .object w) Bool.false_ne_true rfl
  exact ⟨h.2, h.1⟩

/-- The classes other than the numbers have one constructor each. -/
theorem exists_of_type {a : MsgPack} :
    (a.type = .NUL → MsgPack.nul = a) ∧
    (a.type = .BOOL → ∃ v, MsgPack.bool v = a) ∧
    (a.type = .STRING → ∃ v, MsgPack.string v = a) ∧
    (a.type = .BINARY → ∃ v, MsgPack.binary v = a) ∧
    (a.type = .ARRAY → ∃ v, MsgPack.array v = a) ∧
    (a.type = .OBJECT → ∃ v, MsgPack.object v = a) ∧
    (a.type = .EXTENSION → ∃ p : Int8 × List UInt8, MsgPack.extension p.1 p.2 = a) := by
  cases a <;> simp [MsgPack.type]

theorem compare_nul : less .nul .nul = false ∧ equals .nul .nul = true := by decide

/-! ## Trichotomy -/

/-- Only a float that holds NaN is NaN as a `double`. -/
theorem isNaN_float64_value (a : MsgPack) : a.float64_value.isNaN = a.isNaN := by
  cases a <;> rfl

/-- Two numbers that hold no NaN: integers compare as integers, the rest on the
line of doubles. -/
private theorem number_cases {a b : MsgPack} (ha : IsNumber a) (hb : IsNumber b)
    (hna : a.isNaN = false) (hnb : b.isNaN = false) :
    (∃ m n, a.integer? = some m ∧ b.integer? = some n ∧ less a b = decide (m < n) ∧
      less b a = decide (n < m) ∧ equals a b = decide (m = n)) ∨
    ((a.integer? = none ∨ b.integer? = none) ∧
      less a b = decide (a.float64_value.line < b.float64_value.line) ∧
      less b a = decide (b.float64_value.line < a.float64_value.line) ∧
      equals a b = decide (a.float64_value.line = b.float64_value.line)) := by
  have hna' := (isNaN_float64_value a).trans hna
  have hnb' := (isNaN_float64_value b).trans hnb
  have hfloat : (a.integer? = none ∨ b.integer? = none) →
      less a b = decide (a.float64_value.line < b.float64_value.line) ∧
      less b a = decide (b.float64_value.line < a.float64_value.line) ∧
      equals a b = decide (a.float64_value.line = b.float64_value.line) := by
    intro h
    rw [(compare_of_float ha hb h).1, (compare_of_float ha hb h).2,
      (compare_of_float hb ha h.symm).2, Double.less_eq_line hna' hnb',
      Double.less_eq_line hnb' hna', Double.equals_eq_line hna' hnb']
    exact ⟨rfl, rfl, rfl⟩
  -- two integers, or a float on one side
  rcases hm : a.integer? with _ | m
  · exact Or.inr ⟨Or.inl rfl, hfloat (Or.inl hm)⟩
  rcases hn : b.integer? with _ | n
  · exact Or.inr ⟨Or.inr rfl, hfloat (Or.inr hn)⟩
  exact Or.inl ⟨m, n, rfl, rfl, less_of_integers hm hn, less_of_integers hn hm,
    equals_of_integers hm hn⟩

/-- The numbers without NaN are trichotomous. -/
theorem trichotomous_numbers :
    TrichotomousOn {a | IsNumber a ∧ a.isNaN = false} less equals where
  asymm a ha b hb hab := by
    rcases number_cases ha.1 hb.1 ha.2 hb.2 with ⟨m, n, -, -, h1, h2, -⟩ | ⟨-, h1, h2, -⟩
    · rw [h1] at hab
      rw [h2]
      exact decide_eq_false (lt_asymm (of_decide_eq_true hab))
    · rw [h1] at hab
      rw [h2]
      exact decide_eq_false (lt_asymm (of_decide_eq_true hab))
  eq_iff a ha b hb := by
    rcases number_cases ha.1 hb.1 ha.2 hb.2 with ⟨m, n, -, -, h1, h2, h3⟩ | ⟨-, h1, h2, h3⟩
    · -- on the integers
      rw [Incomp, h1, h2, h3]
      simp only [decide_eq_true_eq, decide_eq_false_iff_not]
      omega
    · -- on the line of doubles
      rw [Incomp, h1, h2, h3]
      simp only [decide_eq_true_eq, decide_eq_false_iff_not, not_lt]
      exact ⟨fun h => ⟨h.ge, h.le⟩, fun h => le_antisymm h.2 h.1⟩

/-- So are byte strings. -/
private theorem trichotomous_bytes :
    TrichotomousOn (Set.univ : Set UInt8) (fun c d => decide (c < d))
      (fun c d => decide (c = d)) :=
  TrichotomousOn.of_key UInt8.toNat (fun _ _ _ _ => decide_eq_decide.mpr UInt8.lt_iff_toNat_lt)
    (fun _ _ _ _ => decide_eq_decide.mpr UInt8.toNat_inj.symm)

private theorem trichotomous_tags :
    TrichotomousOn (Set.univ : Set Int8) (fun c d => decide (c < d)) (fun c d => decide (c = d)) :=
  TrichotomousOn.of_key Int8.toInt (fun _ _ _ _ => decide_eq_decide.mpr Int8.lt_iff_toInt_lt)
    (fun _ _ _ _ => decide_eq_decide.mpr Int8.toInt_inj.symm)

private theorem trichotomous_unit :
    TrichotomousOn (Set.univ : Set Unit) (fun _ _ => false) (fun _ _ => true) :=
  TrichotomousOn.of_key (fun _ => (0 : ℕ)) (fun _ _ _ _ => rfl) (fun _ _ _ _ => rfl)

/-- The values below `d` levels high whose nodes satisfy `P`. -/
def valuesBelow (P : MsgPack → Prop) (d : ℕ) : Set MsgPack := {a | a.All P ∧ a.height < d}

section Below

variable {P : MsgPack → Prop} {d : ℕ}

/-- The items of an array lie one level below it. -/
theorem items_below {v : List MsgPack} (h : .array v ∈ valuesBelow P (d + 1)) :
    v ∈ listsOver (valuesBelow P d) := by
  intro x hx
  have hlt := MsgPack.height_lt_array hx
  exact ⟨(MsgPack.all_array.mp h.1).2 x hx, by have := h.2; omega⟩

/-- The keys and values of an object lie one level below it. -/
theorem entries_below {v : List (MsgPack × MsgPack)} (h : .object v ∈ valuesBelow P (d + 1)) :
    v ∈ listsOver {e | e.1 ∈ valuesBelow P d ∧ e.2 ∈ valuesBelow P d} := by
  intro e he
  have hlt := MsgPack.height_lt_object he
  have hall := (MsgPack.all_object.mp h.1).2 e he
  exact ⟨⟨hall.1, by have := h.2; omega⟩, ⟨hall.2, by have := h.2; omega⟩⟩

/-- The values of a class other than the numbers are the images of its payloads;
those of arrays and objects are made of values of the level below. -/
private theorem class_cases {motive : Set MsgPack → Prop} {c : MsgPack} (hc : ¬ IsNumber c)
    (hmono : ∀ s t : Set MsgPack, (∀ a ∈ t, a ∈ s) → motive s → motive t)
    (nul : motive ((fun _ => .nul) '' (Set.univ : Set Unit)))
    (bool : motive (MsgPack.bool '' Set.univ))
    (string : motive (MsgPack.string '' listsOver Set.univ))
    (binary : motive (MsgPack.binary '' listsOver Set.univ))
    (extension : motive ((fun p : Int8 × List UInt8 => .extension p.1 p.2) ''
      {p | p.1 ∈ Set.univ ∧ p.2 ∈ listsOver Set.univ}))
    (array : motive (MsgPack.array '' listsOver (valuesBelow P d)))
    (object : motive (MsgPack.object ''
      listsOver {e | e.1 ∈ valuesBelow P d ∧ e.2 ∈ valuesBelow P d})) :
    motive {a | a ∈ valuesBelow P (d + 1) ∧ rank a = rank c} := by
  have htype : ∀ a ∈ {a | a ∈ valuesBelow P (d + 1) ∧ rank a = rank c}, a.type = c.type :=
    fun a ha => type_of_rank_eq hc ha.2
  have huniv : ∀ v : List UInt8, v ∈ listsOver Set.univ := fun v x _ => trivial
  cases c <;> first | exact absurd rfl hc | skip
  case nul =>
    refine hmono _ _ (fun a ha => ?_) nul
    exact (Set.mem_image _ _ _).mpr ⟨(), trivial, exists_of_type.1 (htype a ha)⟩
  case bool =>
    refine hmono _ _ (fun a ha => ?_) bool
    obtain ⟨v, rfl⟩ := exists_of_type.2.1 (htype a ha)
    exact ⟨v, trivial, rfl⟩
  case string =>
    refine hmono _ _ (fun a ha => ?_) string
    obtain ⟨v, rfl⟩ := exists_of_type.2.2.1 (htype a ha)
    exact ⟨v, huniv v, rfl⟩
  case binary =>
    refine hmono _ _ (fun a ha => ?_) binary
    obtain ⟨v, rfl⟩ := exists_of_type.2.2.2.1 (htype a ha)
    exact ⟨v, huniv v, rfl⟩
  case array =>
    refine hmono _ _ (fun a ha => ?_) array
    obtain ⟨v, rfl⟩ := exists_of_type.2.2.2.2.1 (htype a ha)
    exact ⟨v, items_below ha.1, rfl⟩
  case object =>
    refine hmono _ _ (fun a ha => ?_) object
    obtain ⟨v, rfl⟩ := exists_of_type.2.2.2.2.2.1 (htype a ha)
    exact ⟨v, entries_below ha.1, rfl⟩
  case extension =>
    refine hmono _ _ (fun a ha => ?_) extension
    obtain ⟨p, rfl⟩ := exists_of_type.2.2.2.2.2.2 (htype a ha)
    exact ⟨p, ⟨trivial, huniv p.2⟩, rfl⟩

/-- An equality that goes by the shape of values, as `operator==` does: across classes
it is false, and inside a class other than the numbers it is that of the payloads. -/
structure FollowsShape (eq : MsgPack → MsgPack → Bool) : Prop where
  rank_ne : ∀ {a b}, rank a ≠ rank b → eq a b = false
  payload : ∀ {a b}, ¬ IsNumber a → a.type = b.type → eq a b = payload_equals eq a b

theorem followsShape_equals : FollowsShape equals where
  rank_ne := equals_of_rank_ne
  payload ha h := (compare_of_type_eq ha h).1

/-- One more level: the classes, arrays and objects by the level below. -/
theorem FollowsShape.trichotomous_step {eq : MsgPack → MsgPack → Bool} (heq : FollowsShape eq)
    (hnumbers : TrichotomousOn {a | IsNumber a ∧ P a} less eq)
    (ih : TrichotomousOn (valuesBelow P d) less eq) :
    TrichotomousOn (valuesBelow P (d + 1)) less eq := by
  refine TrichotomousOn.of_rank rank (fun _ _ _ _ => less_of_rank_ne)
    (fun _ _ _ _ => heq.rank_ne) ?_
  intro c hc
  by_cases hnum : IsNumber c
  · exact hnumbers.mono fun a ha => ⟨isNumber_of_rank_eq hnum ha.2, ha.1.1.self⟩
  have hno : ¬ false = true := Bool.false_ne_true
  refine class_cases (motive := fun s => TrichotomousOn s less eq) hnum
    (fun s t hts hs => hs.mono hts) ?_ ?_ ?_ ?_ ?_ ?_ ?_
  · exact trichotomous_unit.image _ fun _ _ => ⟨compare_nul.1, heq.payload hno rfl⟩
  · exact (TrichotomousOn.of_key id (fun _ _ _ _ => rfl) (fun _ _ _ _ => rfl)).image _
      fun v w => ⟨(compare_bool v w).1, heq.payload hno rfl⟩
  · exact trichotomous_bytes.lex.image _
      fun v w => ⟨(compare_string v w).1, heq.payload hno rfl⟩
  · exact trichotomous_bytes.lex.image _
      fun v w => ⟨(compare_binary v w).1, heq.payload hno rfl⟩
  · exact (trichotomous_tags.pair trichotomous_bytes.lex).image _
      fun v w => ⟨(compare_extension v w).1, heq.payload hno rfl⟩
  · exact ih.lex.image _ fun v w => ⟨(compare_array v w).1, heq.payload hno rfl⟩
  · exact (ih.pair ih).lex.image _ fun v w => ⟨(compare_object v w).1, heq.payload hno rfl⟩

end Below

/-- A trichotomy of numbers extends to the values over them, by induction on levels. -/
theorem FollowsShape.trichotomous {P : MsgPack → Prop} {eq : MsgPack → MsgPack → Bool}
    (heq : FollowsShape eq) (hnumbers : TrichotomousOn {a | IsNumber a ∧ P a} less eq) :
    TrichotomousOn {a | a.All P} less eq := by
  apply TrichotomousOn.of_height MsgPack.height
  intro d
  show TrichotomousOn (valuesBelow P d) less eq
  induction d with
  | zero => exact ⟨fun a ha => absurd ha.2 (Nat.not_lt_zero _),
      fun a ha => absurd ha.2 (Nat.not_lt_zero _)⟩
  | succ d ih => exact heq.trichotomous_step hnumbers ih

/-- Without NaN exactly one of `a < b`, `a == b` and `b < a` holds. -/
theorem trichotomous : TrichotomousOn {a | a.NaNFree} less equals :=
  followsShape_equals.trichotomous trichotomous_numbers

/-! ## Strict weak orders -/

/-- Two different integers convert to the double the float `f` holds. -/
def RoundsTogether (f i j : MsgPack) : Prop :=
  ∃ m n : ℤ, i.integer? = some m ∧ j.integer? = some n ∧ m ≠ n ∧
    f.real? = some (ofInt m) ∧ f.real? = some (ofInt n)

/-- No float of `N` is hit by two different integers of `N`. -/
def Apart (N : Set MsgPack) : Prop :=
  ∀ f ∈ N, ∀ i ∈ N, ∀ j ∈ N, ¬ RoundsTogether f i j

/-- Every number in the tree, at any depth, is one of `N`. -/
abbrev NumbersIn (N : Set MsgPack) (a : MsgPack) : Prop := a.All fun n => IsNumber n → n ∈ N

/-- The place of a number on the line of doubles. -/
private def place (a : MsgPack) : WithBot (WithTop ℤ) := a.float64_value.line

section Numbers

variable {a b c : MsgPack}

private abbrev Ordinary (a : MsgPack) : Prop := IsNumber a ∧ a.isNaN = false

private theorem place_of_integer {m : ℤ} (h : a.integer? = some m) : place a = (ofInt m).line := by
  rw [place, float64_value_of_integer h]

private theorem place_le_of_less (ha : Ordinary a) (hb : Ordinary b) (h : less a b = true) :
    place a ≤ place b := by
  rcases number_cases ha.1 hb.1 ha.2 hb.2 with ⟨m, n, hm, hn, h1, -⟩ | ⟨-, h1, -⟩
  · rw [h1] at h
    rw [place_of_integer hm, place_of_integer hn]
    exact line_ofInt_mono (of_decide_eq_true h).le
  · rw [h1] at h
    exact (of_decide_eq_true h).le

private theorem less_of_place_lt (ha : Ordinary a) (hb : Ordinary b) (h : place a < place b) :
    less a b = true := by
  rcases number_cases ha.1 hb.1 ha.2 hb.2 with ⟨m, n, hm, hn, h1, -⟩ | ⟨-, h1, -⟩
  · rw [h1]
    rw [place_of_integer hm, place_of_integer hn] at h
    refine decide_eq_true (not_le.mp fun hle => ?_)
    exact absurd h (not_lt.mpr (line_ofInt_mono hle))
  · rw [h1]
    exact decide_eq_true h

private theorem place_eq_of_incomp (ha : Ordinary a) (hb : Ordinary b) (h : Incomp less a b) :
    place a = place b := by
  refine le_antisymm (not_lt.mp fun hlt => ?_) (not_lt.mp fun hlt => ?_)
  · have hba := less_of_place_lt hb ha hlt
    rw [h.2] at hba
    cases hba
  · have hab := less_of_place_lt ha hb hlt
    rw [h.1] at hab
    cases hab

/-- In one place only two integers are told apart. -/
private theorem cases_of_place_eq (ha : Ordinary a) (hb : Ordinary b) (h : place a = place b) :
    (∃ m n, a.integer? = some m ∧ b.integer? = some n ∧ less a b = decide (m < n) ∧
      less b a = decide (n < m)) ∨
    ((a.integer? = none ∨ b.integer? = none) ∧ Incomp less a b) := by
  rcases number_cases ha.1 hb.1 ha.2 hb.2 with ⟨m, n, hm, hn, h1, h2, -⟩ | ⟨hnone, h1, h2, -⟩
  · exact Or.inl ⟨m, n, hm, hn, h1, h2⟩
  · refine Or.inr ⟨hnone, ?_, ?_⟩
    · rw [h1]
      exact decide_eq_false (not_lt.mpr h.ge)
    · rw [h2]
      exact decide_eq_false (not_lt.mpr h.le)

/-- On numbers `<` is transitive as it stands. -/
theorem less_trans_numbers (ha : Ordinary a) (hb : Ordinary b) (hc : Ordinary c)
    (hab : less a b = true) (hbc : less b c = true) : less a c = true := by
  have h1 := place_le_of_less ha hb hab
  have h2 := place_le_of_less hb hc hbc
  -- comparing moves up the line of doubles, and strictly so somewhere in general
  rcases lt_or_eq_of_le (le_trans h1 h2) with hlt | heq
  · exact less_of_place_lt ha hc hlt
  -- all three in one place, so all three are integers
  have h1' : place a = place b := le_antisymm h1 (heq ▸ h2)
  have h2' : place b = place c := le_antisymm h2 (heq ▸ h1)
  rcases cases_of_place_eq ha hb h1' with ⟨m, n, hm, hn, hab', -⟩ | ⟨-, hinc⟩
  · rcases cases_of_place_eq hb hc h2' with ⟨n', k, hn', hk, hbc', -⟩ | ⟨-, hinc⟩
    · rw [hn] at hn'
      cases hn'
      rw [hab'] at hab
      rw [hbc'] at hbc
      rw [less_of_integers hm hk]
      exact decide_eq_true (lt_trans (of_decide_eq_true hab) (of_decide_eq_true hbc))
    · rw [hinc.1] at hbc
      cases hbc
  · rw [hinc.1] at hab
    cases hab

/-- A float is its place: there is no other value of class float in it. -/
private theorem real_of_place_eq {n : ℤ} (hb : Ordinary b) (hnone : b.integer? = none)
    (h : place b = (ofInt n).line) : b.real? = some (ofInt n) := by
  have hvalue : b.real? = some b.float64_value := by
    have hnum := hb.1
    cases b <;> simp_all [IsNumber, MsgPack.type, isNumberType, MsgPack.integer?,
      MsgPack.float64_value, MsgPack.real?]
  rw [hvalue, Double.line_inj ((isNaN_float64_value b).trans hb.2) (isNaN_ofInt n) h]

/-- Incomparability is transitive unless two integers meet in a float. -/
theorem incomp_trans_numbers (ha : Ordinary a) (hb : Ordinary b) (hc : Ordinary c)
    (hapart : ¬ RoundsTogether b a c) (hab : Incomp less a b) (hbc : Incomp less b c) :
    Incomp less a c := by
  have h1 := place_eq_of_incomp ha hb hab
  have h2 := place_eq_of_incomp hb hc hbc
  rcases cases_of_place_eq ha hc (h1.trans h2) with ⟨m, k, hm, hk, hac, hca⟩ | ⟨-, hinc⟩
  · have hmk : m = k := by
      -- two integers in the place of `b`: apart from them `b` is a float, which is excluded
      rcases hn : b.integer? with _ | n
      · by_contra hne
        have hfm := real_of_place_eq hb hn (h1.symm.trans (place_of_integer hm))
        have hfk := real_of_place_eq hb hn (h2.trans (place_of_integer hk))
        exact hapart ⟨m, k, hm, hk, hne, hfm, hfk⟩
      · simp only [Incomp, less_of_integers hm hn, less_of_integers hn hm,
          less_of_integers hn hk, less_of_integers hk hn, decide_eq_false_iff_not] at hab hbc
        omega
    rw [Incomp, hac, hca, hmk]
    exact ⟨decide_eq_false (lt_irrefl k), decide_eq_false (lt_irrefl k)⟩
  · exact hinc

end Numbers

/-- Numbers are strictly weakly ordered where no float among them stands for two integers. -/
theorem strictWeak_numbers {N : Set MsgPack} (h : Apart N) :
    StrictWeakOn {a | Ordinary a ∧ a ∈ N} less :=
  StrictWeakOn.intro (fun _ ha => trichotomous_numbers.irrefl ha.1)
    (fun _ ha _ hb _ hc => less_trans_numbers ha.1 hb.1 hc.1)
    (fun a ha b hb c hc => incomp_trans_numbers ha.1 hb.1 hc.1 (h b hb.2 a ha.2 c hc.2))

private theorem strictWeak_bytes :
    StrictWeakOn (Set.univ : Set UInt8) (fun c d => decide (c < d)) :=
  StrictWeakOn.of_key UInt8.toNat fun _ _ _ _ => decide_eq_decide.mpr UInt8.lt_iff_toNat_lt

private theorem strictWeak_tags :
    StrictWeakOn (Set.univ : Set Int8) (fun c d => decide (c < d)) :=
  StrictWeakOn.of_key Int8.toInt fun _ _ _ _ => decide_eq_decide.mpr Int8.lt_iff_toInt_lt

private theorem strictWeak_unit : StrictWeakOn (Set.univ : Set Unit) (fun _ _ => false) :=
  StrictWeakOn.of_key (fun _ => (0 : ℕ)) fun _ _ _ _ => rfl

/-- One more level, as for the trichotomy. -/
theorem strictWeak_step {P : MsgPack → Prop} {N : Set MsgPack} {d : ℕ}
    (hP : ∀ a, P a → a.isNaN = false ∧ (IsNumber a → a ∈ N)) (hN : Apart N)
    (ih : StrictWeakOn (valuesBelow P d) less) : StrictWeakOn (valuesBelow P (d + 1)) less := by
  apply StrictWeakOn.of_rank rank (fun _ _ _ _ => less_of_rank_ne)
  intro c hc
  by_cases hnum : IsNumber c
  · apply (strictWeak_numbers hN).mono
    intro a ha
    have hself := hP a ha.1.1.self
    have hnum' := isNumber_of_rank_eq hnum ha.2
    exact ⟨⟨hnum', hself.1⟩, hself.2 hnum'⟩
  refine class_cases (motive := fun s => StrictWeakOn s less) hnum
    (fun s t hts hs => hs.mono hts) ?_ ?_ ?_ ?_ ?_ ?_ ?_
  · exact strictWeak_unit.image _ fun _ _ => compare_nul.1
  · exact (StrictWeakOn.of_key id fun _ _ _ _ => rfl).image _ fun v w => (compare_bool v w).1
  · exact strictWeak_bytes.lex.image _ fun v w => (compare_string v w).1
  · exact strictWeak_bytes.lex.image _ fun v w => (compare_binary v w).1
  · exact (strictWeak_tags.pair strictWeak_bytes.lex).image _ fun p q => (compare_extension p q).1
  · exact ih.lex.image _ fun v w => (compare_array v w).1
  · exact (ih.pair ih).lex.image _ fun v w => (compare_object v w).1

/-- A strict weak order on the values whose numbers are NaN-free and apart. -/
theorem strictWeak {N : Set MsgPack} (hN : Apart N) :
    StrictWeakOn {a | a.NaNFree ∧ NumbersIn N a} less := by
  have hboth : ∀ d, StrictWeakOn
      (valuesBelow (fun n => n.isNaN = false ∧ (IsNumber n → n ∈ N)) d) less := by
    intro d
    induction d with
    | zero =>
        refine StrictWeakOn.intro ?_ ?_ ?_ <;> intro a ha <;>
          exact absurd ha.2 (Nat.not_lt_zero _)
    | succ d ih => exact strictWeak_step (fun _ h => h) hN ih
  apply StrictWeakOn.of_height MsgPack.height
  intro d
  apply (hboth d).mono
  intro a ha
  exact ⟨fun n hn => ⟨ha.1.1 n hn, ha.1.2 n hn⟩, ha.2⟩

/-- Integers never meet in a float where there is none. -/
theorem apart_of_no_float : Apart {a | a.isFloat = false} := by
  rintro f hf i - j - ⟨m, n, -, -, -, hfm, -⟩
  cases f <;> simp_all [MsgPack.real?, MsgPack.isFloat, MsgPack.is_float32, MsgPack.is_float64,
    MsgPack.type]

/-- `std::map` may rely on `operator<` for keys without floats. -/
theorem strictWeak_floatFree : StrictWeakOn {a | a.FloatFree} less :=
  (strictWeak apart_of_no_float).mono fun _ ha => ⟨MsgPack.FloatFree.naNFree ha,
    MsgPack.All.imp ha fun _ h _ => h⟩

end Msgpack11.KeyOrder
