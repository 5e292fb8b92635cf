/-
The comparison operators on all values, NaN and float keys included, and what the
wire does to them.

`operator==` is the finer relation: it holds where neither value is below the other
and there is no NaN in either (`equals_iff`). The operators `!=`, `<=`, `>` and `>=`
are written in terms of these two, so `<=` is total and does not imply `<` or `==`.

A value that has been sent has its integers in other types. No comparison sees that
(`unseen`), whatever else is in the values; so a received object has its entries in the
order of the one that was sent (`denote_canon_of_sorted`), also where its keys have
floats in them.
-/
import Msgpack11.NaNKeys
import Msgpack11.RoundTrip

set_option autoImplicit false

namespace Msgpack11.Comparisons

open Msgpack11.Floating Msgpack11.StrictWeak Msgpack11.SortedUnique Msgpack11.Compare
open Msgpack11.KeyOrder Msgpack11.Ordering Msgpack11.NaNKeys Msgpack11.Canonical Msgpack11.Shortest
open Msgpack11.Parse Msgpack11.Parser Msgpack11.Grammar Msgpack11.Outcomes Msgpack11.RoundTrip

/-! ## The derived operators -/

/-- `operator!=`. -/
def not_equals (a b : MsgPack) : Bool := !equals a b

/-- `operator<=`. -/
def less_equal (a b : MsgPack) : Bool := !less b a

/-- `operator>`. -/
def greater (a b : MsgPack) : Bool := less b a

/-- `operator>=`. -/
def greater_equal (a b : MsgPack) : Bool := !less a b

/-! ## Equality -/

/-- No two values are below each other, NaN or not. -/
theorem less_asymm (a b : MsgPack) (h : less a b = true) : less b a = false :=
  trichotomous_agree.asymm a trivial b trivial h

/-- Two values of one class are two numbers, or of one type that is none of a number. -/
theorem class_cases {a b : MsgPack} (h : rank a = rank b) :
    IsNumber a ∧ IsNumber b ∨ ¬ IsNumber a ∧ ¬ IsNumber b ∧ a.type = b.type := by
  by_cases hb : IsNumber b
  · exact Or.inl ⟨isNumber_of_rank_eq hb h, hb⟩
  · have htype := type_of_rank_eq hb h
    refine Or.inr ⟨?_, hb, htype⟩
    rwa [IsNumber, htype]

theorem isNaN_of_not_number {a : MsgPack} (h : ¬ IsNumber a) : a.isNaN = false := by
  cases a <;> first | rfl | exact absurd rfl h

/-- A NaN is equal to no number. -/
theorem not_isNaN_of_equals {a b : MsgPack} (ha : IsNumber a) (hb : IsNumber b)
    (h : equals a b = true) : a.isNaN = false ∧ b.isNaN = false := by
  have hfloat : ∀ {c : MsgPack}, c.isNaN = true → c.integer? = none := by
    intro c hc
    cases c <;> first | rfl | exact absurd hc Bool.false_ne_true
  by_contra hnan
  rw [not_and_or, Bool.not_eq_false, Bool.not_eq_false] at hnan
  rw [(compare_of_float ha hb (hnan.imp hfloat hfloat)).1] at h
  rw [← isNaN_float64_value, ← isNaN_float64_value b] at hnan
  generalize a.float64_value = c at h hnan
  generalize b.float64_value = d at h hnan
  cases c <;> cases d <;> simp_all [Double.equals, Double.isNaN]

/-- Only values of one class are equal. -/
theorem rank_eq_of_equals {a b : MsgPack} (h : equals a b = true) : rank a = rank b := by
  by_contra hne
  rw [equals_of_rank_ne hne] at h
  cases h

/-- Nothing with a NaN in it is equal to anything. -/
theorem naNFree_of_equals {a b : MsgPack} (h : equals a b = true) : a.NaNFree ∧ b.NaNFree := by
  have hclass := class_cases (rank_eq_of_equals h)
  induction a using MsgPack.induction generalizing b with
  | leaf a hleaf =>
      rcases hclass with ⟨ha, hb⟩ | ⟨ha, hb, htype⟩
      · have hnan := not_isNaN_of_equals ha hb h
        exact ⟨(MsgPack.all_leaf hleaf).mpr hnan.1,
          (MsgPack.all_leaf (leaf_of_number hb)).mpr hnan.2⟩
      · have hleaf' : b.isLeaf = true := by
          rwa [MsgPack.isLeaf, MsgPack.is_array, MsgPack.is_object, ← htype]
        exact ⟨(MsgPack.all_leaf hleaf).mpr (isNaN_of_not_number ha),
          (MsgPack.all_leaf hleaf').mpr (isNaN_of_not_number hb)⟩
  | array xs ih =>
      obtain ⟨hnum, -⟩ | ⟨-, -, htype⟩ := hclass
      · cases hnum
      obtain ⟨ys, rfl⟩ := exists_of_type.2.2.2.2.1 htype.symm
      rw [(compare_array xs ys).2] at h
      have hall := forall_of_isEqv h fun x hx y hxy =>
        ih x hx hxy (class_cases (rank_eq_of_equals hxy))
      exact ⟨MsgPack.all_array.mpr ⟨rfl, hall.1⟩, MsgPack.all_array.mpr ⟨rfl, hall.2⟩⟩
  | object es ih =>
      obtain ⟨hnum, -⟩ | ⟨-, -, htype⟩ := hclass
      · cases hnum
      obtain ⟨fs, rfl⟩ := exists_of_type.2.2.2.2.2.1 htype.symm
      rw [(compare_object es fs).2] at h
      have hentry : ∀ e ∈ es, ∀ f, pairEq equals equals e f = true →
          (e.1.NaNFree ∧ e.2.NaNFree) ∧ (f.1.NaNFree ∧ f.2.NaNFree) := by
        intro e he f hef
        rw [pairEq, Bool.and_eq_true] at hef
        have hkey := (ih e he).1 hef.1 (class_cases (rank_eq_of_equals hef.1))
        have hvalue := (ih e he).2 hef.2 (class_cases (rank_eq_of_equals hef.2))
        exact ⟨⟨hkey.1, hvalue.1⟩, hkey.2, hvalue.2⟩
      have hall := forall_of_isEqv h hentry
      exact ⟨MsgPack.all_object.mpr ⟨rfl, hall.1⟩, MsgPack.all_object.mpr ⟨rfl, hall.2⟩⟩

/-- Equality says that there is no NaN and that neither value is below the other. -/
theorem equals_iff (a b : MsgPack) :
    equals a b = true ↔ a.NaNFree ∧ b.NaNFree ∧ Incomp less a b := by
  constructor
  · intro h
    have hnan := naNFree_of_equals h
    exact ⟨hnan.1, hnan.2, (equals_iff_incomp hnan.1 hnan.2).mp h⟩
  · rintro ⟨ha, hb, hinc⟩
    exact (equals_iff_incomp ha hb).mpr hinc

/-! ## Narrowed values -/

/-- What holds no integer itself is left as it is, or is a container. -/
theorem narrowed_of_no_integer {x : MsgPack} (h : x.integer? = none) :
    narrowed x = x ∨ (∃ xs, x = .array xs) ∨ ∃ es, x = .object es := by
  by_cases hleaf : x.isLeaf = true
  · exact Or.inl (narrowed_of_leaf hleaf h)
  · cases x <;> first | exact absurd rfl hleaf | skip
    case array xs => exact Or.inr (Or.inl ⟨xs, rfl⟩)
    case object es => exact Or.inr (Or.inr ⟨es, rfl⟩)

/-- Narrowing keeps the integer. -/
theorem integer_narrowed (x : MsgPack) : (narrowed x).integer? = x.integer? := by
  rcases hn : x.integer? with _ | n
  · rcases narrowed_of_no_integer hn with heq | ⟨xs, rfl⟩ | ⟨es, rfl⟩
    · rw [heq, hn]
    · rfl
    · rfl
  · rw [narrowed_of_integer hn, integer_narrow (fits_of_integer hn)]

/-- And with it what it is as a `double`. -/
theorem float64_value_narrowed (x : MsgPack) : (narrowed x).float64_value = x.float64_value := by
  rcases hn : x.integer? with _ | n
  · rcases narrowed_of_no_integer hn with heq | ⟨xs, rfl⟩ | ⟨es, rfl⟩
    · rw [heq]
    · rfl
    · rfl
  · have hn' := (integer_narrowed x).trans hn
    rw [float64_value_of_integer hn, float64_value_of_integer hn']

/-- Only integers change their types. -/
theorem type_narrowed {x : MsgPack} (h : x.integer? = none) : (narrowed x).type = x.type := by
  rcases narrowed_of_no_integer h with heq | ⟨xs, rfl⟩ | ⟨es, rfl⟩
  · rw [heq]
  · rfl
  · rfl

/-- A number stays a number. -/
theorem isNumber_narrowed (x : MsgPack) : IsNumber (narrowed x) ↔ IsNumber x := by
  rcases hn : x.integer? with _ | n
  · rw [IsNumber, type_narrowed hn]
  · have hn' := (integer_narrowed x).trans hn
    exact iff_of_true (isNumber_of_integer hn') (isNumber_of_integer hn)

theorem isLeaf_narrowed (x : MsgPack) : (narrowed x).isLeaf = x.isLeaf := by
  rcases hn : x.integer? with _ | n
  · rw [MsgPack.isLeaf, MsgPack.is_array, MsgPack.is_object, type_narrowed hn]
    rfl
  · have hn' := (integer_narrowed x).trans hn
    rw [leaf_of_number (isNumber_of_integer hn), leaf_of_number (isNumber_of_integer hn')]

/-- And nothing changes its class. -/
theorem rank_narrowed (x : MsgPack) : rank (narrowed x) = rank x := by
  rcases hn : x.integer? with _ | n
  · rw [rank, rank, type_narrowed hn]
  · have hn' := (integer_narrowed x).trans hn
    rw [rank, rank, if_pos (isNumber_of_integer hn), if_pos (isNumber_of_integer hn')]

/-- Numbers compare by the integer or by the double they hold. -/
theorem compare_narrowed_numbers {a b : MsgPack} (ha : IsNumber a) (hb : IsNumber b) :
    equals (narrowed a) (narrowed b) = equals a b ∧ less (narrowed a) (narrowed b) = less a b := by
  have ha' := (isNumber_narrowed a).mpr ha
  have hb' := (isNumber_narrowed b).mpr hb
  have hm' := integer_narrowed a
  have hn' := integer_narrowed b
  by_cases hfloat : a.integer? = none ∨ b.integer? = none
  · have hfloat' : (narrowed a).integer? = none ∨ (narrowed b).integer? = none := by
      rwa [hm', hn']
    have h := compare_of_float ha hb hfloat
    have h' := compare_of_float ha' hb' hfloat'
    rw [h'.1, h'.2, h.1, h.2, float64_value_narrowed, float64_value_narrowed]
    exact ⟨rfl, rfl⟩
  · rw [not_or, ← Ne, ← Ne, Option.ne_none_iff_exists', Option.ne_none_iff_exists'] at hfloat
    obtain ⟨⟨m, hm⟩, n, hn⟩ := hfloat
    rw [hm] at hm'
    rw [hn] at hn'
    rw [equals_of_integers hm' hn', equals_of_integers hm hn, less_of_integers hm' hn',
      less_of_integers hm hn]
    exact ⟨rfl, rfl⟩

/-- Off the numbers a leaf is its own narrowing. -/
theorem narrowed_of_not_number {x : MsgPack} (hleaf : x.isLeaf = true) (h : ¬ IsNumber x) :
    narrowed x = x := by
  apply narrowed_of_leaf hleaf
  rcases hn : x.integer? with _ | n
  · rfl
  · exact absurd (isNumber_of_integer hn) h

/-- Narrowing the two values changes no comparison of them. -/
def Unseen (a b : MsgPack) : Prop :=
  equals (narrowed a) (narrowed b) = equals a b ∧ less (narrowed a) (narrowed b) = less a b ∧
    less (narrowed b) (narrowed a) = less b a

theorem unseen_array {xs ys : List MsgPack} (h : ∀ x ∈ xs, ∀ y, Unseen x y) :
    Unseen (.array xs) (.array ys) := by
  have hrows : ∀ x ∈ xs, ∀ y ∈ ys, less (narrowed x) (narrowed y) = less x y ∧
      less (narrowed y) (narrowed x) = less y x := fun x hx y _ => (h x hx y).2
  have hcols : ∀ y ∈ ys, ∀ x ∈ xs, less (narrowed y) (narrowed x) = less y x ∧
      less (narrowed x) (narrowed y) = less x y := fun y hy x hx => (hrows x hx y hy).symm
  simp only [Unseen, narrowed, narrowedItems_eq_map]
  refine ⟨?_, ?_, ?_⟩
  · rw [(compare_array _ _).2, (compare_array xs ys).2, isEqv_map_map]
    exact isEqv_congr fun x hx y _ => (h x hx y).1
  · rw [(compare_array _ _).1, (compare_array xs ys).1, lexLess_map]
    exact lexLess_congr hrows
  · rw [(compare_array _ _).1, (compare_array ys xs).1, lexLess_map]
    exact lexLess_congr hcols

theorem unseen_object {es fs : List (MsgPack × MsgPack)}
    (h : ∀ e ∈ es, (∀ y, Unseen e.1 y) ∧ ∀ y, Unseen e.2 y) :
    Unseen (.object es) (.object fs) := by
  let g : MsgPack × MsgPack → MsgPack × MsgPack := fun e => (narrowed e.1, narrowed e.2)
  have hrows : ∀ e ∈ es, ∀ f ∈ fs, pairLess less less (g e) (g f) = pairLess less less e f ∧
      pairLess less less (g f) (g e) = pairLess less less f e := by
    intro e he f _
    have hkey := (h e he).1 f.1
    have hvalue := (h e he).2 f.2
    simp only [g, pairLess, hkey.2.1, hkey.2.2, hvalue.2.1, hvalue.2.2, and_self]
  have hcols : ∀ f ∈ fs, ∀ e ∈ es, pairLess less less (g f) (g e) = pairLess less less f e ∧
      pairLess less less (g e) (g f) = pairLess less less e f :=
    fun f hf e he => (hrows e he f hf).symm
  simp only [Unseen, narrowed, narrowedEntries_eq_map]
  refine ⟨?_, ?_, ?_⟩
  · rw [(compare_object _ _).2, (compare_object es fs).2, isEqv_map_map]
    apply isEqv_congr
    intro e he f _
    rw [pairEq, pairEq, ((h e he).1 f.1).1, ((h e he).2 f.2).1]
  · rw [(compare_object _ _).1, (compare_object es fs).1, lexLess_map]
    exact lexLess_congr hrows
  · rw [(compare_object _ _).1, (compare_object fs es).1, lexLess_map]
    exact lexLess_congr hcols

theorem unseen_of_rank_ne {a b : MsgPack} (h : rank a ≠ rank b) : Unseen a b := by
  have h' : rank (narrowed a) ≠ rank (narrowed b) := by
    rwa [rank_narrowed, rank_narrowed]
  refine ⟨?_, ?_, ?_⟩
  · rw [equals_of_rank_ne h, equals_of_rank_ne h']
  · rw [less_of_rank_ne h, less_of_rank_ne h', rank_narrowed, rank_narrowed]
  · rw [less_of_rank_ne (Ne.symm h), less_of_rank_ne (Ne.symm h'), rank_narrowed, rank_narrowed]

/-- No comparison sees that integers have changed their types. By induction on the left
operand; a list is compared from both sides. -/
theorem unseen (a b : MsgPack) : Unseen a b := by
  induction a using MsgPack.induction generalizing b with
  | leaf a hleaf =>
      by_cases hrank : rank a = rank b
      · rcases class_cases hrank with ⟨ha, hb⟩ | ⟨ha, hb, htype⟩
        · have hab := compare_narrowed_numbers ha hb
          exact ⟨hab.1, hab.2, (compare_narrowed_numbers hb ha).2⟩
        · have hleaf' : b.isLeaf = true := by
            rwa [MsgPack.isLeaf, MsgPack.is_array, MsgPack.is_object, ← htype]
          rw [Unseen, narrowed_of_not_number hleaf ha, narrowed_of_not_number hleaf' hb]
          exact ⟨rfl, rfl, rfl⟩
      · exact unseen_of_rank_ne hrank
  | array xs ih =>
      by_cases hrank : rank (.array xs) = rank b
      · obtain ⟨hnum, -⟩ | ⟨-, -, htype⟩ := class_cases hrank
        · cases hnum
        obtain ⟨ys, rfl⟩ := exists_of_type.2.2.2.2.1 htype.symm
        exact unseen_array ih
      · exact unseen_of_rank_ne hrank
  | object es ih =>
      by_cases hrank : rank (.object es) = rank b
      · obtain ⟨hnum, -⟩ | ⟨-, -, htype⟩ := class_cases hrank
        · cases hnum
        obtain ⟨fs, rfl⟩ := exists_of_type.2.2.2.2.2.1 htype.symm
        exact unseen_object ih
      · exact unseen_of_rank_ne hrank

/-- Equality does not see narrowing, on either side. -/
theorem equals_narrowed_narrowed (a b : MsgPack) :
    equals (narrowed a) (narrowed b) = equals a b := (unseen a b).1

/-- Nor does the order. -/
theorem less_narrowed_narrowed (a b : MsgPack) :
    less (narrowed a) (narrowed b) = less a b := (unseen a b).2.1

/-! ## What comes back -/

/-- What the canonical encoding denotes, whatever its keys are: the entries are sent in
their order, so each one is inserted at the end. -/
theorem denote_canon_of_sorted {x : MsgPack} (h : MapsSorted x) :
    (canon x).denote = narrowed x := by
  induction x using MsgPack.induction with
  | leaf x hleaf =>
      have hkeys : x.KeysFloatFree := by
        rw [MsgPack.KeysFloatFree, MsgPack.all_leaf hleaf, MsgPack.object_items_of_leaf hleaf]
        simp
      exact denote_canon h hkeys
  | array xs ih =>
      rw [MapsSorted, MsgPack.all_array] at h
      rw [canon, Wire.denote, narrowed, Wire.denoteItems_eq_map, canonItems_eq_map,
        narrowedItems_eq_map, List.map_map]
      congr 1
      apply List.map_congr_left
      intro x hx
      exact ih x hx (h.2 x hx)
  | object es ih =>
      rw [MapsSorted, MsgPack.all_object] at h
      have hentries : Wire.denoteEntries (canonEntries es) = narrowedEntries es := by
        rw [Wire.denoteEntries_eq_map, canonEntries_eq_map, narrowedEntries_eq_map, List.map_map]
        apply List.map_congr_left
        intro e he
        exact Prod.ext ((ih e he).1 (h.2 e he).1) ((ih e he).2 (h.2 e he).2)
      have hsorted : Sorted entryLess ([] ++ narrowedEntries es) := by
        rw [List.nil_append, narrowedEntries_eq_map, Sorted, List.pairwise_map]
        refine h.1.imp ?_
        intro e f hef
        rw [entryLess, less_narrowed_narrowed]
        exact hef
      rw [canon, Wire.denote, hentries, narrowed,
        hsorted.insertAll_eq_append fun e f => less_asymm e.1 f.1, List.nil_append]

/-! ## Result -/

/-- The operators on any two values. `<` is asymmetric, so `<=` is total. `==` is `<=` both
ways and no NaN in either value. `<=` is `<` or `==` exactly if the values differ in
order or have no NaN in them; so every value is `<=` itself, and `==` itself exactly
without NaN. -/
theorem operators_on_all_values (a b : MsgPack) :
    (greater a b = true → less a b = false) ∧
      (less_equal a b = true ∨ greater_equal a b = true) ∧
      (equals a b = true ↔ a.NaNFree ∧ b.NaNFree ∧ less_equal a b = true ∧
        greater_equal a b = true) ∧
      (less_equal a b = (less a b || equals a b) ↔
        less a b = true ∨ greater a b = true ∨ a.NaNFree ∧ b.NaNFree) ∧
      less_equal a a = true ∧ (not_equals a a = true ↔ ¬ a.NaNFree) := by
  have hasymm := less_asymm a b
  have hasymm' := less_asymm b a
  have heq := equals_iff a b
  have hself : Incomp less a a :=
    ⟨trichotomous_agree.irrefl trivial, trichotomous_agree.irrefl trivial⟩
  have heqself := equals_iff a a
  unfold greater less_equal greater_equal not_equals
  unfold Incomp at heq hself heqself
  refine ⟨hasymm', ?_, ?_, ?_, ?_, ?_⟩
  · cases hab : less a b
    · exact Or.inr rfl
    · rw [hasymm hab]
      exact Or.inl rfl
  · rw [heq, Bool.not_eq_true', Bool.not_eq_true', and_comm (a := less a b = false)]
  · by_cases hnan : a.NaNFree ∧ b.NaNFree
    · refine iff_of_true ?_ (Or.inr (Or.inr hnan))
      rw [Bool.eq_iff_iff, Bool.or_eq_true, heq]
      cases hab : less a b <;> cases hba : less b a <;> simp_all
    · have hne : equals a b = false := by
        rw [← Bool.not_eq_true, heq]
        rintro ⟨ha, hb, -⟩
        exact hnan ⟨ha, hb⟩
      rw [hne, Bool.or_false]
      cases hab : less a b <;> cases hba : less b a <;> simp_all
  · rw [hself.1]
    rfl
  · rw [Bool.not_eq_true', ← Bool.not_eq_true, heqself]
    simp [hself]

end Msgpack11.Comparisons
