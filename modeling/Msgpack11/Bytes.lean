/-
Numbers as byte strings: the base-256 digits of a natural number, most
significant first, and the bytes a fundamental object occupies in the memory of
a host of either byte order.

The digit functions are each other's inverse between the numbers below `256^w`
and the byte strings of length `w` (`ofBE_toBE`, `toBE_ofBE`). A big-endian host
stores the digits as they are, a little-endian one stores them reversed.
-/
import Mathlib.Tactic.Common
import Mathlib.Tactic.Ring

set_option autoImplicit false

namespace Msgpack11.Bytes

/-! ## Base-256 digits -/

/-- The number whose base-256 digits are the given bytes, most significant first. -/
def ofBE : List UInt8 → ℕ
  | [] => 0
  | b :: bs => b.toNat * 256 ^ bs.length + ofBE bs

/-- The low `w` base-256 digits of a number, most significant first. -/
def toBE : ℕ → ℕ → List UInt8
  | 0, _ => []
  | w + 1, v => UInt8.ofNat (v / 256 ^ w) :: toBE w v

@[simp] theorem toBE_zero (v : ℕ) : toBE 0 v = [] := rfl

@[simp] theorem toBE_length (w v : ℕ) : (toBE w v).length = w := by
  induction w with
  | zero => rfl
  | succ w ih => simp [toBE, ih]

theorem ofBE_lt (bs : List UInt8) : ofBE bs < 256 ^ bs.length := by
  induction bs with
  | nil => simp [ofBE]
  | cons b bs ih =>
      -- the first digit is at most 255, the others spell less than `256 ^ bs.length`
      have hb : b.toNat + 1 ≤ 256 := b.toNat_lt
      have hmul : (b.toNat + 1) * 256 ^ bs.length ≤ 256 * 256 ^ bs.length :=
        Nat.mul_le_mul_right _ hb
      rw [Nat.add_mul, Nat.one_mul] at hmul
      rw [ofBE, List.length_cons, Nat.pow_succ, Nat.mul_comm (256 ^ bs.length) 256]
      omega

/-- Reading back what was written loses only the digits above the width. -/
theorem ofBE_toBE_mod (w v : ℕ) : ofBE (toBE w v) = v % 256 ^ w := by
  induction w with
  | zero => simp [ofBE, Nat.mod_one]
  | succ w ih =>
      rw [toBE, ofBE, toBE_length, ih, UInt8.toNat_ofNat']
      have hpow : 256 ^ (w + 1) = 256 ^ w * 256 := Nat.pow_succ 256 w
      rw [hpow, Nat.mod_mul, Nat.mul_comm, Nat.add_comm]

theorem ofBE_toBE {w v : ℕ} (h : v < 256 ^ w) : ofBE (toBE w v) = v := by
  rw [ofBE_toBE_mod, Nat.mod_eq_of_lt h]

/-- The digits below a position do not see what is added above it. -/
theorem toBE_add_mul (w k v : ℕ) : toBE w (k * 256 ^ w + v) = toBE w v := by
  induction w generalizing k with
  | zero => rfl
  | succ w ih =>
      have hpow : k * 256 ^ (w + 1) = k * 256 * 256 ^ w := by
        rw [Nat.pow_succ, Nat.mul_comm (256 ^ w), Nat.mul_assoc]
      have hpos : 0 < 256 ^ w := Nat.pow_pos (by omega)
      -- what is added is a multiple of a higher power: it leaves the quotient modulo 256
      rw [toBE, toBE, hpow, ih (k * 256), Nat.add_comm (k * 256 * 256 ^ w) v,
        Nat.add_mul_div_right _ _ hpos]
      congr 1
      apply UInt8.toNat_inj.mp
      rw [UInt8.toNat_ofNat', UInt8.toNat_ofNat', Nat.add_mul_mod_self_right]

/-- Writing what was read restores the bytes. -/
theorem toBE_ofBE (bs : List UInt8) : toBE bs.length (ofBE bs) = bs := by
  induction bs with
  | nil => rfl
  | cons b bs ih =>
      have hlt := ofBE_lt bs
      have hpos : 0 < 256 ^ bs.length := Nat.pow_pos (by omega)
      -- the quotient by the power is the first byte, the remainder spells the others
      rw [List.length_cons, toBE, ofBE, toBE_add_mul, ih, Nat.add_comm,
        Nat.add_mul_div_right _ _ hpos, Nat.div_eq_of_lt hlt, Nat.zero_add, UInt8.ofNat_toNat]

theorem toBE_one (v : ℕ) : toBE 1 v = [UInt8.ofNat v] := by simp [toBE]

/-- The digits, spelt out. -/
theorem map_toNat_toBE (w v : ℕ) :
    (toBE w v).map UInt8.toNat = (List.range w).map fun i => v / 256 ^ (w - 1 - i) % 256 := by
  induction w with
  | zero => rfl
  | succ w ih =>
      rw [toBE, List.map_cons, ih, List.range_succ_eq_map, List.map_cons, List.map_map,
        UInt8.toNat_ofNat']
      congr 1
      apply List.map_congr_left
      intro i hi
      rw [Function.comp_apply, show w + 1 - 1 - (i + 1) = w - 1 - i by omega]

/-! ## Two's complement -/

/-- The number whose base-256 digits a `w`-byte object holding the integer `n` has. -/
def residue (w : ℕ) (n : ℤ) : ℕ := (n % 256 ^ w).toNat

/-- The contents of a `w`-byte object holding the integer `n`. -/
def digits (w : ℕ) (n : ℤ) : List UInt8 := toBE w (residue w n)

@[simp] theorem digits_length (w : ℕ) (n : ℤ) : (digits w n).length = w := toBE_length w _

theorem residue_lt (w : ℕ) (n : ℤ) : residue w n < 256 ^ w := by
  have hpow : (0 : ℤ) < 256 ^ w := Int.pow_pos (by decide)
  have hlt := Int.emod_lt_of_pos n hpow
  have hnonneg := Int.emod_nonneg n hpow.ne'
  have hcast : ((256 ^ w : ℕ) : ℤ) = 256 ^ w := by push_cast; rfl
  unfold residue
  omega

theorem ofBE_digits (w : ℕ) (n : ℤ) : ofBE (digits w n) = residue w n :=
  ofBE_toBE (residue_lt w n)

theorem residue_natCast {w v : ℕ} (h : v < 256 ^ w) : residue w (v : ℤ) = v := by
  have hcast : (256 : ℤ) ^ w = ((256 ^ w : ℕ) : ℤ) := by push_cast; rfl
  rw [residue, hcast, ← Int.natCast_emod, Nat.mod_eq_of_lt h]
  rfl

/-- An integer in the signed range of the width is the balanced residue of its residue. -/
theorem bmod_residue {w : ℕ} {n : ℤ} (hlo : -(256 ^ w / 2) ≤ n) (hhi : n < (256 ^ w + 1) / 2) :
    ((residue w n : ℕ) : ℤ).bmod (256 ^ w) = n := by
  have hcast : ((256 ^ w : ℕ) : ℤ) = 256 ^ w := by push_cast; rfl
  have hpos : (0 : ℤ) < 256 ^ w := Int.pow_pos (by decide)
  have hnonneg := Int.emod_nonneg n hpos.ne'
  rw [residue, Int.toNat_of_nonneg hnonneg, ← hcast, Int.emod_bmod]
  exact Int.bmod_eq_of_le (by rw [hcast]; exact hlo) (by rw [hcast]; exact hhi)

/-- The bits of a signed number are its residue. -/
theorem toNat_eq_emod {w : ℕ} (x : BitVec w) : (x.toNat : ℤ) = x.toInt % 2 ^ w := by
  have hlt := x.isLt
  have hpow : ((2 ^ w : ℕ) : ℤ) = 2 ^ w := by push_cast; rfl
  rw [BitVec.toInt_eq_toNat_cond]
  split_ifs with h
  · -- the sign bit is clear
    rw [Int.emod_eq_of_lt (by omega) (by omega)]
  · -- the sign bit is set, and the two readings differ by `2 ^ w`
    rw [hpow, Int.sub_emod_right, Int.emod_eq_of_lt (by omega) (by omega)]

/-! ## Objects in memory -/

/-- The bytes, by increasing address, of a `w`-byte object holding `v`. -/
def storage (is_big_endian : Bool) (w v : ℕ) : List UInt8 :=
  if is_big_endian then toBE w v else (toBE w v).reverse

/-- The number an object with these bytes holds. -/
def contents (is_big_endian : Bool) (bytes : List UInt8) : ℕ :=
  if is_big_endian then ofBE bytes else ofBE bytes.reverse

/-- Index of the most significant byte in the storage: the `offsets` tables. -/
def offset (is_big_endian : Bool) (w : ℕ) : ℤ := if is_big_endian then 0 else w - 1

/-- Step from a byte to the next less significant one: the `directions` tables. -/
def direction (is_big_endian : Bool) : ℤ := if is_big_endian then 1 else -1

end Msgpack11.Bytes
