/-
IEEE 754 values as exact numbers: rounding an integer to a given precision,
the binary64 values with their comparisons, and the decoding of binary32 and
binary64 bit patterns.

Every finite binary64 value is an integer multiple of `2^-1074`, so a finite
value is kept as that integer. Comparisons are then comparisons of integers
and evaluate in the kernel; nothing here is a real number.

Rounding is to nearest, ties to even. What the users of this file need from it
is not its error but its order: it is monotone, and it is the identity on
integers of at most `p` bits, so it never carries an integer past one of those
(`roundInt_lt_iff`, `lt_roundInt_iff`).
-/
import Mathlib.Data.Nat.Log
import Mathlib.Order.WithBot
import Mathlib.Data.Int.Order.Basic
import Mathlib.Data.Int.ConditionallyCompleteOrder
import Mathlib.Order.ConditionallyCompleteLattice.Basic
import Mathlib.Tactic.Common
import Mathlib.Tactic.Ring

set_option autoImplicit false

namespace Msgpack11.Floating

/-! ## Rounding a quotient -/

/-- The integer nearest to `m / d`, the even one of two equally near. -/
def roundHalfEven (m d : ℕ) : ℕ :=
  if 2 * (m % d) < d then m / d
  else if d < 2 * (m % d) then m / d + 1
  else if m / d % 2 = 0 then m / d else m / d + 1

theorem div_le_roundHalfEven (m d : ℕ) : m / d ≤ roundHalfEven m d := by
  unfold roundHalfEven
  split_ifs <;> omega

theorem roundHalfEven_le_div_add_one (m d : ℕ) : roundHalfEven m d ≤ m / d + 1 := by
  unfold roundHalfEven
  split_ifs <;> omega

/-- On one quotient the decision only moves up as the remainder grows. -/
theorem roundHalfEven_mono {m n d : ℕ} (h : m ≤ n) :
    roundHalfEven m d ≤ roundHalfEven n d := by
  have hq : m / d ≤ n / d := Nat.div_le_div_right h
  rcases Nat.lt_or_ge (m / d) (n / d) with hlt | hge
  · -- a larger quotient leaves room for rounding up
    exact le_trans (roundHalfEven_le_div_add_one m d) (le_trans hlt (div_le_roundHalfEven n d))
  · -- on the same quotient the remainders decide
    have heq : m / d = n / d := le_antisymm hq hge
    have hr : m % d ≤ n % d := by
      have hm := Nat.div_add_mod m d
      have hn := Nat.div_add_mod n d
      rw [heq] at hm
      omega
    unfold roundHalfEven
    rw [heq]
    split_ifs <;> omega

/-! ## Rounding to a precision -/

/-- Nearest natural number with at most `p` significant bits, ties to even. -/
def roundNat (p m : ℕ) : ℕ :=
  if m < 2 ^ p then m
  else roundHalfEven m (2 ^ (Nat.log2 m + 1 - p)) * 2 ^ (Nat.log2 m + 1 - p)

/-- Integers of at most `p` bits are exact. -/
theorem roundNat_of_lt {p m : ℕ} (h : m < 2 ^ p) : roundNat p m = m := if_pos h

/-- Above the exact range the result stays in the binade of the argument, its
upper end included. -/
theorem roundNat_binade {p m : ℕ} (hp : 0 < p) (h : 2 ^ p ≤ m) :
    2 ^ Nat.log2 m ≤ roundNat p m ∧ roundNat p m ≤ 2 ^ (Nat.log2 m + 1) := by
  have hm : m ≠ 0 := by
    have := Nat.two_pow_pos p
    omega
  have hlo : 2 ^ Nat.log2 m ≤ m := Nat.log2_self_le hm
  have hhi : m < 2 ^ (Nat.log2 m + 1) := Nat.lt_log2_self
  have hpl : p ≤ Nat.log2 m := (Nat.le_log2 hm).mpr h
  obtain ⟨e, he⟩ : ∃ e, Nat.log2 m + 1 - p = e := ⟨_, rfl⟩
  have hsplit : 2 ^ Nat.log2 m = 2 ^ (p - 1) * 2 ^ e := by
    rw [← Nat.pow_add]
    congr 1
    omega
  have hsplit' : 2 ^ (Nat.log2 m + 1) = 2 ^ p * 2 ^ e := by
    rw [← Nat.pow_add]
    congr 1
    omega
  have hpos : 0 < 2 ^ e := Nat.two_pow_pos e
  -- the quotient keeps the leading `p` bits
  have hqlo : 2 ^ (p - 1) ≤ m / 2 ^ e := by
    rw [Nat.le_div_iff_mul_le hpos, ← hsplit]
    exact hlo
  have hqhi : m / 2 ^ e < 2 ^ p := by
    rw [Nat.div_lt_iff_lt_mul hpos, ← hsplit']
    exact hhi
  rw [roundNat, if_neg (by omega), he, hsplit, hsplit']
  constructor
  · exact Nat.mul_le_mul_right _ (le_trans hqlo (div_le_roundHalfEven _ _))
  · exact Nat.mul_le_mul_right _ (le_trans (roundHalfEven_le_div_add_one _ _) hqhi)

/-- Rounding keeps the order. -/
theorem roundNat_mono {p m n : ℕ} (hp : 0 < p) (h : m ≤ n) : roundNat p m ≤ roundNat p n := by
  rcases Nat.lt_or_ge n (2 ^ p) with hn | hn
  · rw [roundNat_of_lt hn, roundNat_of_lt (lt_of_le_of_lt h hn)]
    exact h
  have hn0 : n ≠ 0 := by
    have := Nat.two_pow_pos p
    omega
  have hnlo := (roundNat_binade hp hn).1
  rcases Nat.lt_or_ge m (2 ^ p) with hm | hm
  · -- below the exact range: `m < 2^p ≤ 2^(log2 n)`
    have hpl : p ≤ Nat.log2 n := (Nat.le_log2 hn0).mpr hn
    have hpow : 2 ^ p ≤ 2 ^ Nat.log2 n := Nat.pow_le_pow_right (by omega) hpl
    rw [roundNat_of_lt hm]
    omega
  have hm0 : m ≠ 0 := by
    have := Nat.two_pow_pos p
    omega
  have hlog : Nat.log2 m ≤ Nat.log2 n :=
    (Nat.le_log2 hn0).mpr (le_trans (Nat.log2_self_le hm0) h)
  rcases Nat.lt_or_ge (Nat.log2 m) (Nat.log2 n) with hlt | hge
  · -- different binades: the upper end of the lower one separates them
    have hmhi := (roundNat_binade hp hm).2
    have hpow : 2 ^ (Nat.log2 m + 1) ≤ 2 ^ Nat.log2 n := Nat.pow_le_pow_right (by omega) hlt
    omega
  · -- the same binade, hence the same unit
    have heq : Nat.log2 m = Nat.log2 n := le_antisymm hlog hge
    rw [roundNat, roundNat, if_neg (by omega), if_neg (by omega), heq]
    exact Nat.mul_le_mul_right _ (roundHalfEven_mono h)

/-- Nearest integer with at most `p` significant bits, ties to even. -/
def roundInt (p : ℕ) (n : ℤ) : ℤ :=
  if 0 ≤ n then roundNat p n.toNat else -(roundNat p (-n).toNat : ℤ)

/-- So are negative integers of at most `p` bits. -/
theorem roundInt_of_natAbs_lt {p : ℕ} {n : ℤ} (h : n.natAbs < 2 ^ p) : roundInt p n = n := by
  unfold roundInt
  split_ifs with hn
  · rw [roundNat_of_lt (by omega)]
    omega
  · rw [roundNat_of_lt (by omega)]
    omega

/-- On both sides of zero. -/
theorem roundInt_mono {p : ℕ} {m n : ℤ} (hp : 0 < p) (h : m ≤ n) :
    roundInt p m ≤ roundInt p n := by
  unfold roundInt
  split_ifs with hm hn hn
  · exact_mod_cast roundNat_mono hp (by omega)
  · omega
  · have : (0 : ℤ) ≤ roundNat p n.toNat := Int.natCast_nonneg _
    have : (0 : ℤ) ≤ roundNat p (-m).toNat := Int.natCast_nonneg _
    omega
  · -- of two negative integers the magnitudes are ordered the other way
    have hle : roundNat p (-n).toNat ≤ roundNat p (-m).toNat := roundNat_mono hp (by omega)
    omega

/-- Rounding does not carry an integer up to or past an exact one. -/
theorem roundInt_lt_iff {p : ℕ} {m n : ℤ} (hp : 0 < p) (hn : n.natAbs + 1 < 2 ^ p) :
    roundInt p m < n ↔ m < n := by
  constructor
  · intro h
    by_contra hge
    -- rounding is monotone and leaves `n` alone
    have hmono := roundInt_mono hp (not_lt.mp hge)
    rw [roundInt_of_natAbs_lt (n := n) (by omega)] at hmono
    omega
  · intro h
    -- `m` is at most `n - 1`, which rounding leaves alone too
    have hmono := roundInt_mono hp (show m ≤ n - 1 by omega)
    rw [roundInt_of_natAbs_lt (n := n - 1) (by omega)] at hmono
    omega

/-- Rounding does not carry an integer down to or past an exact one. -/
theorem lt_roundInt_iff {p : ℕ} {m n : ℤ} (hp : 0 < p) (hn : n.natAbs + 1 < 2 ^ p) :
    n < roundInt p m ↔ n < m := by
  constructor
  · intro h
    by_contra hge
    have hmono := roundInt_mono hp (not_lt.mp hge)
    rw [roundInt_of_natAbs_lt (n := n) (by omega)] at hmono
    omega
  · intro h
    -- `n + 1` is exact, and `m` is at least that
    have hmono := roundInt_mono hp (show n + 1 ≤ m by omega)
    rw [roundInt_of_natAbs_lt (n := n + 1) (by omega)] at hmono
    omega

/-! ## binary64 values -/

/-- A binary64 value. A finite one is its multiple of `2^-1074`, the least
positive subnormal; the two zeros are one value. -/
inductive Double where
  | nan
  | infinity (negative : Bool)
  | finite (units : ℤ)
  deriving DecidableEq, Repr

namespace Double

/-- The `<` of IEEE 754: false as soon as an operand is NaN. -/
def less : Double → Double → Bool
  | .infinity a, .infinity b => a && !b
  | .infinity a, .finite _ => a
  | .finite _, .infinity b => !b
  | .finite m, .finite n => decide (m < n)
  | _, _ => false

/-- The `==` of IEEE 754: false as soon as an operand is NaN. -/
def equals : Double → Double → Bool
  | .infinity a, .infinity b => a == b
  | .finite m, .finite n => decide (m = n)
  | _, _ => false

/-- `std::isnan`. -/
def isNaN : Double → Bool
  | .nan => true
  | _ => false

/-- A value that is not NaN, on the extended line of multiples of `2^-1074`. -/
def line : Double → WithBot (WithTop ℤ)
  | .nan => ⊥
  | .infinity true => ⊥
  | .infinity false => ((⊤ : WithTop ℤ) : WithBot (WithTop ℤ))
  | .finite n => (((n : ℤ) : WithTop ℤ) : WithBot (WithTop ℤ))

@[simp] theorem less_nan_left (b : Double) : less .nan b = false := by cases b <;> rfl

@[simp] theorem less_nan_right (a : Double) : less a .nan = false := by cases a <;> rfl

/-- Off NaN the comparisons are those of the extended line. -/
theorem less_eq_line {a b : Double} (ha : a.isNaN = false) (hb : b.isNaN = false) :
    less a b = decide (a.line < b.line) := by
  rcases a with _ | (_ | _) | m <;> rcases b with _ | (_ | _) | n <;>
    simp_all [less, isNaN, line, lt_top_iff_ne_top]

/-- And equality is that of places on the line. -/
theorem equals_eq_line {a b : Double} (ha : a.isNaN = false) (hb : b.isNaN = false) :
    equals a b = decide (a.line = b.line) := by
  rcases a with _ | (_ | _) | m <;> rcases b with _ | (_ | _) | n <;>
    simp_all [equals, isNaN, line]

/-- A place on the line is the value itself. -/
theorem line_inj {a b : Double} (ha : a.isNaN = false) (hb : b.isNaN = false)
    (h : a.line = b.line) : a = b := by
  rcases a with _ | (_ | _) | m <;> rcases b with _ | (_ | _) | n <;>
    simp_all [isNaN, line]

end Double

/-! ## Bit patterns and conversions -/

/-- The value of a binary64 bit pattern. -/
def ofBinary64 (bits : UInt64) : Double :=
  let negative : Bool := bits.toNat / 2 ^ 63 % 2 = 1
  let exponent := bits.toNat / 2 ^ 52 % 2 ^ 11
  let fraction := bits.toNat % 2 ^ 52
  if exponent = 2047 then
    if fraction = 0 then .infinity negative else .nan
  else
    let magnitude : ℕ :=
      if exponent = 0 then fraction else (2 ^ 52 + fraction) * 2 ^ (exponent - 1)
    .finite (if negative then -(magnitude : ℤ) else magnitude)

/-- The value of a binary32 bit pattern, as binary64: the conversion is exact,
one unit of binary32 being `2^-149 = 2^925 * 2^-1074`. -/
def ofBinary32 (bits : UInt32) : Double :=
  let negative : Bool := bits.toNat / 2 ^ 31 % 2 = 1
  let exponent := bits.toNat / 2 ^ 23 % 2 ^ 8
  let fraction := bits.toNat % 2 ^ 23
  if exponent = 255 then
    if fraction = 0 then .infinity negative else .nan
  else
    let magnitude : ℕ :=
      (if exponent = 0 then fraction else (2 ^ 23 + fraction) * 2 ^ (exponent - 1)) * 2 ^ 925
    .finite (if negative then -(magnitude : ℤ) else magnitude)

/-- The conversion of a binary64 value to binary32, as binary64 again: to nearest, ties to
even, with 24 significant bits but none below `2^-149 = 2^925 * 2^-1074`, and to an
infinity from `2^128` on. -/
def Double.toBinary32 : Double → Double
  | .finite units =>
      let shift := max 925 (Nat.log2 units.natAbs + 1 - 24)
      let magnitude : ℕ := roundHalfEven units.natAbs (2 ^ shift) * 2 ^ shift
      if magnitude < 2 ^ 1202 then .finite (if units < 0 then -(magnitude : ℤ) else magnitude)
      else .infinity (decide (units < 0))
  | x => x

/-- A tenth in either format, the greatest double and the least. -/
example : (ofBinary64 0x3fb999999999999a).toBinary32 = ofBinary32 0x3dcccccd ∧
    (ofBinary64 0x7fefffffffffffff).toBinary32 = .infinity false ∧
    (ofBinary64 0x0000000000000001).toBinary32 = ofBinary32 0 := by decide +kernel

/-- One, in multiples of `2^-1074`. -/
def one : ℤ := 2 ^ 1074

theorem one_pos : 0 < one := Int.pow_pos (by decide)

/-- The conversion of an integer below `2^1024` in magnitude: round to 53
significant bits. -/
def ofInt (n : ℤ) : Double := .finite (roundInt 53 n * one)

@[simp] theorem isNaN_ofInt (n : ℤ) : (ofInt n).isNaN = false := rfl

/-- The conversion is monotone. -/
theorem line_ofInt_mono {m n : ℤ} (h : m ≤ n) : (ofInt m).line ≤ (ofInt n).line := by
  have hround : roundInt 53 m ≤ roundInt 53 n := roundInt_mono (by omega) h
  have hscale : roundInt 53 m * one ≤ roundInt 53 n * one :=
    Int.mul_le_mul_of_nonneg_right hround one_pos.le
  rw [ofInt, ofInt, Double.line, Double.line]
  exact WithBot.coe_le_coe.mpr (WithTop.coe_le_coe.mpr hscale)

/-- Converted integers compare as rounded integers. -/
theorem less_ofInt (m n : ℤ) :
    Double.less (ofInt m) (ofInt n) = decide (roundInt 53 m < roundInt 53 n) := by
  simp only [ofInt, Double.less, decide_eq_decide]
  exact Int.mul_lt_mul_right one_pos

/-- The same of equality. -/
theorem equals_ofInt (m n : ℤ) :
    Double.equals (ofInt m) (ofInt n) = decide (roundInt 53 m = roundInt 53 n) := by
  simp only [ofInt, Double.equals, decide_eq_decide]
  exact Int.mul_eq_mul_right_iff one_pos.ne'

/-- The first integer that binary64 cannot hold rounds to its even neighbour. -/
example : ofInt (2 ^ 53 + 1) = ofInt (2 ^ 53) := by decide +kernel

/-- One and a half, as binary32 and as binary64. -/
example : ofBinary32 0x3fc00000 = ofBinary64 0x3ff8000000000000 := by decide +kernel

end Msgpack11.Floating
