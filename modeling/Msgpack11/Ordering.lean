/-
What `std::map<MsgPack, MsgPack>` gets from `operator<`.

Without floats it gets everything it asks for, and `operator==` is exactly the
equivalence it works with (`ordering_of_floatFree`). With floats the exact
comparison of 64-bit integers and the rounding one of everything else are glued
together, and the outcome is a strict weak order on just those sets of numbers
in which no two integers round to one float (`less_strictWeak_iff`); `2^53`, its
double and `2^53 + 1` are the first such set.
-/
import Msgpack11.KeyOrder

set_option autoImplicit false

namespace Msgpack11.Ordering

open Msgpack11.Floating Msgpack11.StrictWeak Msgpack11.Compare Msgpack11.KeyOrder

/-! ## Without floats -/

section Equivalence

variable {a b c : MsgPack}

theorem equals_iff_incomp (ha : a.NaNFree) (hb : b.NaNFree) :
    equals a b = true ↔ Incomp less a b := trichotomous.eq_iff a ha b hb

theorem equals_refl (ha : a.NaNFree) : equals a a = true := trichotomous.eq_refl ha

theorem equals_comm (ha : a.NaNFree) (hb : b.NaNFree) (hab : equals a b = true) :
    equals b a = true := trichotomous.eq_symm ha hb hab

theorem equals_trans (ha : a.FloatFree) (hb : b.FloatFree) (hc : c.FloatFree)
    (hab : equals a b = true) (hbc : equals b c = true) : equals a c = true := by
  rw [equals_iff_incomp ha.naNFree hb.naNFree] at hab
  rw [equals_iff_incomp hb.naNFree hc.naNFree] at hbc
  rw [equals_iff_incomp ha.naNFree hc.naNFree]
  exact strictWeak_floatFree.incomp_trans ha hb hc hab hbc

/-- `operator<` only sees the class of its left operand. -/
theorem less_congr_left (ha : a.FloatFree) (hb : b.FloatFree) (hc : c.FloatFree)
    (hab : equals a b = true) : less a c = less b c := by
  have hinc := (equals_iff_incomp ha.naNFree hb.naNFree).mp hab
  rw [Bool.eq_iff_iff]
  constructor
  · exact strictWeak_floatFree.lt_of_incomp_of_lt hb ha hc hinc.symm
  · exact strictWeak_floatFree.lt_of_incomp_of_lt ha hb hc hinc

theorem less_congr_right (ha : a.FloatFree) (hb : b.FloatFree) (hc : c.FloatFree)
    (hbc : equals b c = true) : less a b = less a c := by
  have hinc := (equals_iff_incomp hb.naNFree hc.naNFree).mp hbc
  rw [Bool.eq_iff_iff]
  constructor
  · intro h
    exact strictWeak_floatFree.lt_of_lt_of_incomp ha hb hc h hinc
  · intro h
    exact strictWeak_floatFree.lt_of_lt_of_incomp ha hc hb h hinc.symm

/-- The three outcomes exclude each other and one of them holds. -/
theorem exactly_one (ha : a.NaNFree) (hb : b.NaNFree) :
    (less a b = true ∧ equals a b = false ∧ less b a = false) ∨
      (less a b = false ∧ equals a b = true ∧ less b a = false) ∨
      (less a b = false ∧ equals a b = false ∧ less b a = true) := by
  have heq := equals_iff_incomp ha hb
  have hasymm := trichotomous.asymm a ha b hb
  unfold Incomp at heq
  cases hab : less a b <;> cases hba : less b a <;> cases hcmp : equals a b <;> simp_all

end Equivalence

/-- On values without floats `==` is an equivalence, `<` a strict order of its
classes, and any two values compare in exactly one way. -/
theorem ordering_of_floatFree {a b c : MsgPack} (ha : a.FloatFree) (hb : b.FloatFree)
    (hc : c.FloatFree) :
    (equals a a = true ∧ (equals a b = true → equals b a = true) ∧
      (equals a b = true → equals b c = true → equals a c = true)) ∧
    (less a a = false ∧ (less a b = true → less b c = true → less a c = true)) ∧
    ((less a b = true ∧ equals a b = false ∧ less b a = false) ∨
      (less a b = false ∧ equals a b = true ∧ less b a = false) ∨
      (less a b = false ∧ equals a b = false ∧ less b a = true)) ∧
    (equals a b = true ↔ less a b = false ∧ less b a = false) ∧
    (equals a b = true → less a c = less b c ∧ less c a = less c b) := by
  refine ⟨⟨equals_refl ha.naNFree, equals_comm ha.naNFree hb.naNFree, equals_trans ha hb hc⟩,
    ⟨strictWeak_floatFree.irrefl ha, strictWeak_floatFree.trans ha hb hc⟩,
    exactly_one ha.naNFree hb.naNFree, equals_iff_incomp ha.naNFree hb.naNFree, ?_⟩
  intro hab
  exact ⟨less_congr_left ha hb hc hab, less_congr_right hc ha hb hab⟩

/-- A map keyed by an integer, the same map with the key in another type, and a
larger one. -/
theorem ordering_of_nested_maps :
    let a : MsgPack := .object [(.uint8 7, .nul)]
    let b : MsgPack := .object [(.int64 7, .nul)]
    let c : MsgPack := .object [(.array [.int16 (-1)], .bool true)]
    (equals a b = true → less a c = less b c ∧ less c a = less c b) ∧
      (less a b = true → less b c = true → less a c = true) :=
  ⟨(ordering_of_floatFree (by decide) (by decide) (by decide)).2.2.2.2,
    (ordering_of_floatFree (by decide) (by decide) (by decide)).2.1.2⟩

/-! ## With floats -/

/-- A number is its own only node. -/
theorem leaf_of_number {a : MsgPack} (h : IsNumber a) : a.isLeaf = true := by
  cases a <;> simp_all [IsNumber, isNumberType, MsgPack.isLeaf, MsgPack.is_array,
    MsgPack.is_object, MsgPack.type]

private theorem isNumber_of_real {f : MsgPack} {d : Double} (h : f.real? = some d) :
    IsNumber f := by
  cases f <;> simp_all [MsgPack.real?, IsNumber, MsgPack.type, isNumberType]

/-- Two integers that round to one float are each incomparable to it, and not to
each other. -/
theorem not_incomp_trans_of_roundsTogether {f i j : MsgPack} (h : RoundsTogether f i j) :
    Incomp less i f ∧ Incomp less f j ∧ ¬ Incomp less i j := by
  obtain ⟨m, n, hm, hn, hne, hfm, hfn⟩ := h
  have hf : IsNumber f := isNumber_of_real hfm
  have hnone : f.integer? = none := by
    cases f <;> simp_all [MsgPack.real?, MsgPack.integer?]
  have hreal : f.float64_value = ofInt m := by
    simp [MsgPack.float64_value, hnone, hfm]
  have hmn : ofInt m = ofInt n := by
    rw [hfm] at hfn
    exact Option.some.inj hfn
  have hself : ∀ k : ℤ, Double.less (ofInt k) (ofInt k) = false := by simp [less_ofInt]
  -- against the float both integers go through `double`, against each other neither does
  refine ⟨⟨?_, ?_⟩, ⟨?_, ?_⟩, ?_⟩
  · rw [(compare_of_float (isNumber_of_integer hm) hf (Or.inr hnone)).2,
      float64_value_of_integer hm, hreal, hself]
  · rw [(compare_of_float hf (isNumber_of_integer hm) (Or.inl hnone)).2,
      float64_value_of_integer hm, hreal, hself]
  · rw [(compare_of_float hf (isNumber_of_integer hn) (Or.inl hnone)).2,
      float64_value_of_integer hn, hreal, hmn, hself]
  · rw [(compare_of_float (isNumber_of_integer hn) hf (Or.inr hnone)).2,
      float64_value_of_integer hn, hreal, hmn, hself]
  · simp only [Incomp, less_of_integers hm hn, less_of_integers hn hm, decide_eq_false_iff_not]
    omega

/-- The values a set of numbers can occur in. -/
private theorem values_of_number {N : Set MsgPack} {a : MsgPack} (ha : a ∈ N) (hnum : IsNumber a)
    (hnan : a.isNaN = false) : a.NaNFree ∧ NumbersIn N a :=
  ⟨(MsgPack.all_leaf (leaf_of_number hnum)).mpr hnan,
    (MsgPack.all_leaf (leaf_of_number hnum)).mpr fun _ => ha⟩

/-- For any set `N` of numbers: `operator<` is a strict weak order on the NaN-free
values with numbers from `N`, at any nesting, exactly when no float of `N` is hit by
two different integers of `N`. -/
theorem less_strictWeak_iff (N : Set MsgPack) :
    (∀ a b c : MsgPack, a.NaNFree ∧ NumbersIn N a → b.NaNFree ∧ NumbersIn N b →
      c.NaNFree ∧ NumbersIn N c →
        less a a = false ∧ (less a b = true → less b c = true → less a c = true) ∧
          (Incomp less a b → Incomp less b c → Incomp less a c)) ↔
      ∀ f ∈ N, ∀ i ∈ N, ∀ j ∈ N, ¬ RoundsTogether f i j := by
  constructor
  · -- a float hit twice is a counterexample by itself
    intro h f hf i hi j hj hround
    have hbad := not_incomp_trans_of_roundsTogether hround
    obtain ⟨m, n, hm, hn, -, hfm, -⟩ := hround
    have hnan : f.isNaN = false := by simp [MsgPack.isNaN, hfm]
    have hint : ∀ {k : MsgPack} {l : ℤ}, k.integer? = some l → k.isNaN = false := by
      intro k l hk
      cases k <;> simp_all [MsgPack.integer?, MsgPack.isNaN, MsgPack.real?]
    exact hbad.2.2 ((h i f j (values_of_number hi (isNumber_of_integer hm) (hint hm))
      (values_of_number hf (isNumber_of_real hfm) hnan)
      (values_of_number hj (isNumber_of_integer hn) (hint hn))).2.2 hbad.1 hbad.2.1)
  · intro hN a b c ha hb hc
    have hweak := strictWeak hN
    exact ⟨hweak.irrefl ha, hweak.trans ha hb hc, hweak.incomp_trans ha hb hc⟩

/-- The first integers to meet in a double: neither differs from it, and they differ. -/
theorem less_not_strictWeak :
    let a : MsgPack := .int64 (2 ^ 53)
    let b : MsgPack := .float64 0x4340000000000000
    let c : MsgPack := .int64 (2 ^ 53 + 1)
    (a.NaNFree ∧ b.NaNFree ∧ c.NaNFree) ∧
      Incomp less a b ∧ Incomp less b c ∧ less a c = true := by
  decide +kernel

end Msgpack11.Ordering
