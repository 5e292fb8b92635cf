/-
Strict weak orders given by a Boolean comparator, and how they pass through
lexicographic comparison.

A sorted container asks its comparator to be a strict weak order on the keys
it holds, which is a statement about a *set* of keys and not about the type.
Mathlib's `IsStrictWeakOrder` is taken at the subtype of that set, so every
result below is relative to a set `s`.

Two facts travel together through a lexicographic comparison:

| | what it says |
|---|---|
| `TrichotomousOn s lt eq` | exactly one of `lt a b`, `eq a b`, `lt b a`, for any two |
| `StrictWeakOn s lt`      | transitivity of `lt` and of incomparability, for any three |

The first needs nothing but itself elementwise. The second is the delicate
one: transitivity of `lt` on lists already uses transitivity of
incomparability on the elements.
-/
import Mathlib.Order.Defs.Unbundled
import Mathlib.Order.Defs.LinearOrder
import Mathlib.Data.Set.Basic
import Mathlib.Tactic.Common

set_option autoImplicit false

namespace Msgpack11.StrictWeak

variable {α β : Type*}

/-! ## The two notions -/

/-- Neither element is below the other. -/
def Incomp (lt : α → α → Bool) (a b : α) : Prop := lt a b = false ∧ lt b a = false

/-- `lt` is a strict weak order on the set `s`. -/
abbrev StrictWeakOn (s : Set α) (lt : α → α → Bool) : Prop :=
  IsStrictWeakOrder s (fun a b => lt a b = true)

/-- On the set `s`, exactly one of `lt a b`, `eq a b` and `lt b a` holds. -/
structure TrichotomousOn (s : Set α) (lt eq : α → α → Bool) : Prop where
  asymm : ∀ a ∈ s, ∀ b ∈ s, lt a b = true → lt b a = false
  eq_iff : ∀ a ∈ s, ∀ b ∈ s, eq a b = true ↔ Incomp lt a b

instance (lt : α → α → Bool) (a b : α) : Decidable (Incomp lt a b) :=
  inferInstanceAs (Decidable (_ ∧ _))

/-- It does not matter which is named first. -/
theorem Incomp.symm {lt : α → α → Bool} {a b : α} (h : Incomp lt a b) : Incomp lt b a :=
  ⟨h.2, h.1⟩

namespace StrictWeakOn

variable {s : Set α} {lt : α → α → Bool}

/-- The form the elementwise proofs build a strict weak order in. -/
theorem intro (hirr : ∀ a ∈ s, lt a a = false)
    (htrans : ∀ a ∈ s, ∀ b ∈ s, ∀ c ∈ s, lt a b = true → lt b c = true → lt a c = true)
    (hinc : ∀ a ∈ s, ∀ b ∈ s, ∀ c ∈ s, Incomp lt a b → Incomp lt b c → Incomp lt a c) :
    StrictWeakOn s lt where
  irrefl a := by simp [hirr a.1 a.2]
  trans a b c hab hbc := htrans a a.2 b b.2 c c.2 hab hbc
  incomp_trans a b c hab hbc := by
    have h := hinc a a.2 b b.2 c c.2 (by simpa [Incomp] using hab) (by simpa [Incomp] using hbc)
    simpa [Incomp] using h

theorem irrefl (h : StrictWeakOn s lt) {a : α} (ha : a ∈ s) : lt a a = false := by
  have := h.toIsStrictOrder.toIrrefl.irrefl ⟨a, ha⟩
  simpa using this

theorem trans (h : StrictWeakOn s lt) {a b c : α} (ha : a ∈ s) (hb : b ∈ s) (hc : c ∈ s)
    (hab : lt a b = true) (hbc : lt b c = true) : lt a c = true :=
  h.toIsStrictOrder.toIsTrans.trans ⟨a, ha⟩ ⟨b, hb⟩ ⟨c, hc⟩ hab hbc

theorem incomp_trans (h : StrictWeakOn s lt) {a b c : α} (ha : a ∈ s) (hb : b ∈ s) (hc : c ∈ s)
    (hab : Incomp lt a b) (hbc : Incomp lt b c) : Incomp lt a c := by
  have := h.2 ⟨a, ha⟩ ⟨b, hb⟩ ⟨c, hc⟩ (by simpa [Incomp] using hab)
    (by simpa [Incomp] using hbc)
  simpa [Incomp] using this

/-- A strict weak order is asymmetric. -/
theorem asymm (h : StrictWeakOn s lt) {a b : α} (ha : a ∈ s) (hb : b ∈ s)
    (hab : lt a b = true) : lt b a = false := by
  by_contra hba
  -- otherwise `a` would be below itself
  have hself := h.trans ha hb ha hab (by simpa using hba)
  rw [h.irrefl ha] at hself
  cases hself

/-- An element incomparable to the lower end of a strict pair is below its upper end. -/
theorem lt_of_incomp_of_lt (h : StrictWeakOn s lt) {a b c : α} (ha : a ∈ s) (hb : b ∈ s)
    (hc : c ∈ s) (hab : Incomp lt a b) (hbc : lt b c = true) : lt a c = true := by
  by_contra hac
  have hca : lt c a = false := by
    by_contra hca
    have hba := h.trans hb hc ha hbc (by simpa using hca)
    rw [hab.2] at hba
    cases hba
  -- if `a` and `c` were incomparable, so would `b` and `c` be
  have hcb := h.incomp_trans hc ha hb ⟨hca, by simpa using hac⟩ hab
  rw [hcb.2] at hbc
  cases hbc

/-- An element incomparable to the upper end of a strict pair is above its lower end. -/
theorem lt_of_lt_of_incomp (h : StrictWeakOn s lt) {a b c : α} (ha : a ∈ s) (hb : b ∈ s)
    (hc : c ∈ s) (hab : lt a b = true) (hbc : Incomp lt b c) : lt a c = true := by
  by_contra hac
  have hca : lt c a = false := by
    by_contra hca
    have hcb := h.trans hc ha hb (by simpa using hca) hab
    rw [hbc.2] at hcb
    cases hcb
  have hba := h.incomp_trans hb hc ha hbc ⟨hca, by simpa using hac⟩
  rw [hba.2] at hab
  cases hab

theorem mono {t : Set α} (h : StrictWeakOn s lt) (hts : ∀ a ∈ t, a ∈ s) : StrictWeakOn t lt :=
  intro (fun _ ha => h.irrefl (hts _ ha))
    (fun _ ha _ hb _ hc => h.trans (hts _ ha) (hts _ hb) (hts _ hc))
    (fun _ ha _ hb _ hc => h.incomp_trans (hts _ ha) (hts _ hb) (hts _ hc))

/-- The image of a strictly weakly ordered set, compared by the origins. -/
theorem image {t : Set β} {lt' : β → β → Bool} (g : β → α) (h : StrictWeakOn t lt')
    (hlt : ∀ x y, lt (g x) (g y) = lt' x y) : StrictWeakOn (g '' t) lt := by
  apply intro
  · rintro _ ⟨x, hx, rfl⟩
    rw [hlt x x]
    exact h.irrefl hx
  · rintro _ ⟨x, hx, rfl⟩ _ ⟨y, hy, rfl⟩ _ ⟨z, hz, rfl⟩
    rw [hlt x y, hlt y z, hlt x z]
    exact h.trans hx hy hz
  · rintro _ ⟨x, hx, rfl⟩ _ ⟨y, hy, rfl⟩ _ ⟨z, hz, rfl⟩
    simp only [Incomp, hlt]
    exact h.incomp_trans hx hy hz

/-- Values split into classes by a rank; across classes the rank decides. -/
theorem of_rank (rank : α → ℕ)
    (hne : ∀ a ∈ s, ∀ b ∈ s, rank a ≠ rank b → lt a b = decide (rank a < rank b))
    (heq : ∀ c ∈ s, StrictWeakOn {a | a ∈ s ∧ rank a = rank c} lt) : StrictWeakOn s lt := by
  -- a comparison never goes against the ranks, and incomparable elements share one
  have hle : ∀ a ∈ s, ∀ b ∈ s, lt a b = true → rank a ≤ rank b := by
    intro a ha b hb hab
    by_contra hgt
    rw [hne a ha b hb (by omega)] at hab
    have := of_decide_eq_true hab
    omega
  have hrank : ∀ a ∈ s, ∀ b ∈ s, Incomp lt a b → rank a = rank b := by
    intro a ha b hb hab
    by_contra hr
    have h1 := hab.1
    have h2 := hab.2
    rw [hne a ha b hb hr] at h1
    rw [hne b hb a ha (Ne.symm hr)] at h2
    have h1' := of_decide_eq_false h1
    have h2' := of_decide_eq_false h2
    omega
  apply intro
  · intro a ha
    exact (heq a ha).irrefl ⟨ha, rfl⟩
  · intro a ha b hb c hc hab hbc
    have h1 := hle a ha b hb hab
    have h2 := hle b hb c hc hbc
    by_cases hr : rank a = rank c
    · exact (heq c hc).trans ⟨ha, hr⟩ ⟨hb, by omega⟩ ⟨hc, rfl⟩ hab hbc
    · rw [hne a ha c hc hr]
      exact decide_eq_true (by omega)
  · intro a ha b hb c hc hab hbc
    have h1 := hrank a ha b hb hab
    have h2 := hrank b hb c hc hbc
    exact (heq c hc).incomp_trans ⟨ha, h1.trans h2⟩ ⟨hb, h2⟩ ⟨hc, rfl⟩ hab hbc

/-- It is enough to look at each set of bounded height. -/
theorem of_height (height : α → ℕ)
    (h : ∀ d, StrictWeakOn {a | a ∈ s ∧ height a < d} lt) : StrictWeakOn s lt := by
  apply intro
  · intro a ha
    exact (h (height a + 1)).irrefl ⟨ha, by omega⟩
  · intro a ha b hb c hc
    exact (h (height a + height b + height c + 1)).trans ⟨ha, by omega⟩ ⟨hb, by omega⟩
      ⟨hc, by omega⟩
  · intro a ha b hb c hc
    exact (h (height a + height b + height c + 1)).incomp_trans ⟨ha, by omega⟩ ⟨hb, by omega⟩
      ⟨hc, by omega⟩

/-- Comparing by a key in a linear order. -/
theorem of_key [LinearOrder β] (key : α → β)
    (hlt : ∀ a ∈ s, ∀ b ∈ s, lt a b = decide (key a < key b)) : StrictWeakOn s lt := by
  apply intro
  · intro a ha
    rw [hlt a ha a ha]
    exact decide_eq_false (lt_irrefl _)
  · intro a ha b hb c hc hab hbc
    rw [hlt a ha b hb] at hab
    rw [hlt b hb c hc] at hbc
    rw [hlt a ha c hc]
    exact decide_eq_true (lt_trans (of_decide_eq_true hab) (of_decide_eq_true hbc))
  · intro a ha b hb c hc hab hbc
    simp only [Incomp, hlt a ha b hb, hlt b hb a ha, hlt b hb c hc, hlt c hc b hb, hlt a ha c hc,
      hlt c hc a ha, decide_eq_false_iff_not, not_lt] at hab hbc ⊢
    exact ⟨le_trans hbc.1 hab.1, le_trans hab.2 hbc.2⟩

end StrictWeakOn

namespace TrichotomousOn

variable {s : Set α} {lt eq : α → α → Bool}

theorem irrefl (h : TrichotomousOn s lt eq) {a : α} (ha : a ∈ s) : lt a a = false := by
  by_contra hne
  have htrue : lt a a = true := by simpa using hne
  rw [h.asymm a ha a ha htrue] at htrue
  cases htrue

/-- Each element is equal to itself. -/
theorem eq_refl (h : TrichotomousOn s lt eq) {a : α} (ha : a ∈ s) : eq a a = true :=
  (h.eq_iff a ha a ha).mpr ⟨h.irrefl ha, h.irrefl ha⟩

/-- Equality is symmetric. -/
theorem eq_symm (h : TrichotomousOn s lt eq) {a b : α} (ha : a ∈ s) (hb : b ∈ s)
    (hab : eq a b = true) : eq b a = true :=
  (h.eq_iff b hb a ha).mpr ((h.eq_iff a ha b hb).mp hab).symm

theorem mono {t : Set α} (h : TrichotomousOn s lt eq) (hts : ∀ a ∈ t, a ∈ s) :
    TrichotomousOn t lt eq where
  asymm a ha b hb := h.asymm a (hts a ha) b (hts b hb)
  eq_iff a ha b hb := h.eq_iff a (hts a ha) b (hts b hb)

theorem image {t : Set β} {lt' eq' : β → β → Bool} (g : β → α) (h : TrichotomousOn t lt' eq')
    (hcmp : ∀ x y, lt (g x) (g y) = lt' x y ∧ eq (g x) (g y) = eq' x y) :
    TrichotomousOn (g '' t) lt eq where
  asymm := by
    rintro _ ⟨x, hx, rfl⟩ _ ⟨y, hy, rfl⟩
    rw [(hcmp x y).1, (hcmp y x).1]
    exact h.asymm x hx y hy
  eq_iff := by
    rintro _ ⟨x, hx, rfl⟩ _ ⟨y, hy, rfl⟩
    rw [Incomp, (hcmp x y).1, (hcmp y x).1, (hcmp x y).2]
    exact h.eq_iff x hx y hy

theorem of_rank (rank : α → ℕ)
    (hne : ∀ a ∈ s, ∀ b ∈ s, rank a ≠ rank b → lt a b = decide (rank a < rank b))
    (hneq : ∀ a ∈ s, ∀ b ∈ s, rank a ≠ rank b → eq a b = false)
    (heq : ∀ c ∈ s, TrichotomousOn {a | a ∈ s ∧ rank a = rank c} lt eq) :
    TrichotomousOn s lt eq where
  asymm a ha b hb hab := by
    by_cases hr : rank a = rank b
    · exact (heq b hb).asymm a ⟨ha, hr⟩ b ⟨hb, rfl⟩ hab
    · rw [hne a ha b hb hr] at hab
      rw [hne b hb a ha (Ne.symm hr)]
      have := of_decide_eq_true hab
      exact decide_eq_false (by omega)
  eq_iff a ha b hb := by
    by_cases hr : rank a = rank b
    · exact (heq b hb).eq_iff a ⟨ha, hr⟩ b ⟨hb, rfl⟩
    · rw [hneq a ha b hb hr]
      simp only [Incomp, hne a ha b hb hr, hne b hb a ha (Ne.symm hr), decide_eq_false_iff_not]
      constructor
      · intro hfalse
        cases hfalse
      · intro hno
        omega

theorem of_height (height : α → ℕ)
    (h : ∀ d, TrichotomousOn {a | a ∈ s ∧ height a < d} lt eq) : TrichotomousOn s lt eq where
  asymm a ha b hb := (h (height a + height b + 1)).asymm a ⟨ha, by omega⟩ b ⟨hb, by omega⟩
  eq_iff a ha b hb := (h (height a + height b + 1)).eq_iff a ⟨ha, by omega⟩ b ⟨hb, by omega⟩

theorem of_key [LinearOrder β] (key : α → β)
    (hlt : ∀ a ∈ s, ∀ b ∈ s, lt a b = decide (key a < key b))
    (heq : ∀ a ∈ s, ∀ b ∈ s, eq a b = decide (key a = key b)) : TrichotomousOn s lt eq where
  asymm a ha b hb hab := by
    rw [hlt a ha b hb] at hab
    rw [hlt b hb a ha]
    exact decide_eq_false (lt_asymm (of_decide_eq_true hab))
  eq_iff a ha b hb := by
    simp only [Incomp, hlt a ha b hb, hlt b hb a ha, heq a ha b hb, decide_eq_true_eq,
      decide_eq_false_iff_not, not_lt]
    exact ⟨fun h => ⟨h.ge, h.le⟩, fun h => le_antisymm h.2 h.1⟩

end TrichotomousOn

/-! ## Lexicographic comparison of pairs -/

/-- `operator<` of `std::pair` and of a two-element `std::tuple`. -/
def pairLess (lt : α → α → Bool) (lt' : β → β → Bool) (p q : α × β) : Bool :=
  if lt p.1 q.1 then true else if lt q.1 p.1 then false else lt' p.2 q.2

/-- `operator==` of `std::pair` and of a two-element `std::tuple`. -/
def pairEq (eq : α → α → Bool) (eq' : β → β → Bool) (p q : α × β) : Bool :=
  eq p.1 q.1 && eq' p.2 q.2

/-- The second components decide where the first do not. -/
theorem pairLess_iff (lt : α → α → Bool) (lt' : β → β → Bool) (p q : α × β) :
    pairLess lt lt' p q = true ↔
      lt p.1 q.1 = true ∨ (Incomp lt p.1 q.1 ∧ lt' p.2 q.2 = true) := by
  unfold pairLess Incomp
  cases lt p.1 q.1 <;> cases lt q.1 p.1 <;> simp

/-- Pairs are incomparable where both components are. -/
theorem incomp_pairLess_iff (lt : α → α → Bool) (lt' : β → β → Bool) (p q : α × β) :
    Incomp (pairLess lt lt') p q ↔ Incomp lt p.1 q.1 ∧ Incomp lt' p.2 q.2 := by
  unfold Incomp pairLess
  cases lt p.1 q.1 <;> cases lt q.1 p.1 <;> simp

section Pair

variable {s : Set α} {t : Set β} {lt eq : α → α → Bool} {lt' eq' : β → β → Bool}

/-- Pairs of trichotomous components are trichotomous. -/
theorem TrichotomousOn.pair (h : TrichotomousOn s lt eq) (h' : TrichotomousOn t lt' eq') :
    TrichotomousOn {p : α × β | p.1 ∈ s ∧ p.2 ∈ t} (pairLess lt lt') (pairEq eq eq') where
  asymm p hp q hq hpq := by
    rw [pairLess_iff] at hpq
    rw [Bool.eq_false_iff, ne_eq, pairLess_iff]
    -- the second components decide only where the first are incomparable
    rintro (hqp | ⟨hinc, hqp⟩)
    · rcases hpq with hlt | ⟨hinc, -⟩
      · rw [h.asymm _ hp.1 _ hq.1 hlt] at hqp
        cases hqp
      · rw [hinc.2] at hqp
        cases hqp
    · rcases hpq with hlt | ⟨-, hlt⟩
      · rw [hinc.2] at hlt
        cases hlt
      · rw [h'.asymm _ hp.2 _ hq.2 hlt] at hqp
        cases hqp
  eq_iff p hp q hq := by
    have h1 := h.eq_iff _ hp.1 _ hq.1
    have h2 := h'.eq_iff _ hp.2 _ hq.2
    simp only [pairEq, Bool.and_eq_true, h1, h2]
    unfold Incomp pairLess
    cases lt p.1 q.1 <;> cases lt q.1 p.1 <;> simp

/-- Pairs of strictly weakly ordered components are strictly weakly ordered. -/
theorem StrictWeakOn.pair (h : StrictWeakOn s lt) (h' : StrictWeakOn t lt') :
    StrictWeakOn {p : α × β | p.1 ∈ s ∧ p.2 ∈ t} (pairLess lt lt') := by
  apply StrictWeakOn.intro
  · intro p hp
    simp [pairLess, h.irrefl hp.1, h'.irrefl hp.2]
  · intro p hp q hq r hr hpq hqr
    rw [pairLess_iff] at hpq hqr ⊢
    -- each of the two comparisons is decided by a first or by a second component
    rcases hpq with hpq | ⟨hpq, hpq'⟩
    · rcases hqr with hqr | ⟨hqr, -⟩
      · exact Or.inl (h.trans hp.1 hq.1 hr.1 hpq hqr)
      · exact Or.inl (h.lt_of_lt_of_incomp hp.1 hq.1 hr.1 hpq hqr)
    · rcases hqr with hqr | ⟨hqr, hqr'⟩
      · exact Or.inl (h.lt_of_incomp_of_lt hp.1 hq.1 hr.1 hpq hqr)
      · exact Or.inr ⟨h.incomp_trans hp.1 hq.1 hr.1 hpq hqr,
          h'.trans hp.2 hq.2 hr.2 hpq' hqr'⟩
  · intro p hp q hq r hr hpq hqr
    rw [incomp_pairLess_iff] at hpq hqr ⊢
    exact ⟨h.incomp_trans hp.1 hq.1 hr.1 hpq.1 hqr.1, h'.incomp_trans hp.2 hq.2 hr.2 hpq.2 hqr.2⟩

end Pair

/-! ## Lexicographic comparison of lists -/

/-- `std::lexicographical_compare`, the `operator<` of `std::vector` and `std::map`. -/
def lexLess (lt : α → α → Bool) : List α → List α → Bool
  | [], [] => false
  | [], _ :: _ => true
  | _ :: _, [] => false
  | x :: xs, y :: ys => if lt x y then true else if lt y x then false else lexLess lt xs ys

@[simp] theorem lexLess_nil_nil (lt : α → α → Bool) : lexLess lt [] [] = false := rfl

@[simp] theorem lexLess_nil_cons (lt : α → α → Bool) (y : α) (ys : List α) :
    lexLess lt [] (y :: ys) = true := rfl

@[simp] theorem lexLess_cons_nil (lt : α → α → Bool) (x : α) (xs : List α) :
    lexLess lt (x :: xs) [] = false := rfl

/-- On nonempty lists the comparison is that of the pairs of head and tail. -/
theorem lexLess_cons_cons (lt : α → α → Bool) (x y : α) (xs ys : List α) :
    lexLess lt (x :: xs) (y :: ys) = pairLess lt (lexLess lt) (x, xs) (y, ys) := rfl

/-- The comparison only looks at pairs of elements, one from each list. -/
theorem lexLess_congr {lt lt' : α → α → Bool} :
    ∀ {xs ys : List α}, (∀ x ∈ xs, ∀ y ∈ ys, lt x y = lt' x y ∧ lt y x = lt' y x) →
      lexLess lt xs ys = lexLess lt' xs ys
  | [], [], _ => rfl
  | [], _ :: _, _ => rfl
  | _ :: _, [], _ => rfl
  | x :: xs, y :: ys, h => by
      have hxy := h x (by simp) y (by simp)
      have hrest : lexLess lt xs ys = lexLess lt' xs ys :=
        lexLess_congr fun a ha b hb => h a (by simp [ha]) b (by simp [hb])
      simp only [lexLess, hxy.1, hxy.2, hrest]

/-- Likewise the elementwise equality of `std::vector` and `std::map`. -/
theorem isEqv_congr {eq eq' : α → α → Bool} :
    ∀ {xs ys : List α}, (∀ x ∈ xs, ∀ y ∈ ys, eq x y = eq' x y) →
      xs.isEqv ys eq = xs.isEqv ys eq'
  | [], [], _ => rfl
  | [], _ :: _, _ => rfl
  | _ :: _, [], _ => rfl
  | x :: xs, y :: ys, h => by
      have hrest : xs.isEqv ys eq = xs.isEqv ys eq' :=
        isEqv_congr fun a ha b hb => h a (by simp [ha]) b (by simp [hb])
      simp only [List.isEqv, h x (by simp) y (by simp), hrest]

/-- Images of lists compare by the comparison of the images. -/
theorem lexLess_map {lt : α → α → Bool} {f : β → α} :
    ∀ xs ys : List β, lexLess lt (xs.map f) (ys.map f) = lexLess (fun x y => lt (f x) (f y)) xs ys
  | [], [] => rfl
  | [], _ :: _ => rfl
  | _ :: _, [] => rfl
  | x :: xs, y :: ys => by simp only [List.map_cons, lexLess, lexLess_map xs ys]

/-- Images of lists are equal by the equality of the images. -/
theorem isEqv_map_map {eq : α → α → Bool} {f : β → α} :
    ∀ xs ys : List β, (xs.map f).isEqv (ys.map f) eq = xs.isEqv ys fun x y => eq (f x) (f y)
  | [], [] => rfl
  | [], _ :: _ => rfl
  | _ :: _, [] => rfl
  | x :: xs, y :: ys => by simp only [List.map_cons, List.isEqv, isEqv_map_map xs ys]

/-- Where equality of elements is equality of their images, so is that of lists. -/
theorem isEqv_iff_map {γ : Type*} {eq : α → α → Bool} {f : α → γ} :
    ∀ {xs ys : List α}, (∀ x ∈ xs, ∀ y ∈ ys, (eq x y = true ↔ f x = f y)) →
      (xs.isEqv ys eq = true ↔ xs.map f = ys.map f)
  | [], [], _ => by simp [List.isEqv]
  | [], _ :: _, _ => by simp [List.isEqv]
  | _ :: _, [], _ => by simp [List.isEqv]
  | x :: xs, y :: ys, h => by
      have hxy := h x (by simp) y (by simp)
      have hrest : xs.isEqv ys eq = true ↔ xs.map f = ys.map f :=
        isEqv_iff_map fun a ha b hb => h a (by simp [ha]) b (by simp [hb])
      rw [List.isEqv, Bool.and_eq_true, hxy, hrest, List.map_cons, List.map_cons, List.cons.injEq]

/-- Lists related element by element are equal when related elements are. -/
theorem isEqv_of_forall₂ {R : α → α → Prop} {eq : α → α → Bool} {xs ys : List α}
    (h : List.Forall₂ R xs ys) (heq : ∀ x ∈ xs, ∀ y ∈ ys, R x y → eq x y = true) :
    xs.isEqv ys eq = true := by
  induction h with
  | nil => rfl
  | cons hxy _ ih =>
      rw [List.isEqv, heq _ (by simp) _ (by simp) hxy,
        ih fun a ha b hb => heq a (by simp [ha]) b (by simp [hb])]
      rfl

/-- What equality of elements says of both sides holds throughout equal lists. -/
theorem forall_of_isEqv {P Q : α → Prop} {eq : α → α → Bool} :
    ∀ {xs ys : List α}, xs.isEqv ys eq = true → (∀ x ∈ xs, ∀ y, eq x y = true → P x ∧ Q y) →
      (∀ x ∈ xs, P x) ∧ ∀ y ∈ ys, Q y
  | [], [], _, _ => by simp
  | [], _ :: _, h, _ => by cases h
  | _ :: _, [], h, _ => by cases h
  | x :: xs, y :: ys, h, hpq => by
      rw [List.isEqv, Bool.and_eq_true] at h
      have hrest := forall_of_isEqv h.2 fun a ha => hpq a (List.mem_cons_of_mem _ ha)
      have hxy := hpq x (List.mem_cons_self ..) y h.1
      exact ⟨List.forall_mem_cons.mpr ⟨hxy.1, hrest.1⟩, List.forall_mem_cons.mpr ⟨hxy.2, hrest.2⟩⟩

/-- The lists whose elements all lie in `s`. -/
def listsOver (s : Set α) : Set (List α) := {l | ∀ x ∈ l, x ∈ s}

@[simp] theorem mem_listsOver {s : Set α} {l : List α} : l ∈ listsOver s ↔ ∀ x ∈ l, x ∈ s :=
  Iff.rfl

section Lists

variable {s : Set α} {lt eq : α → α → Bool}

/-- Lists of trichotomous elements are trichotomous. -/
theorem TrichotomousOn.lex (h : TrichotomousOn s lt eq) :
    TrichotomousOn (listsOver s) (lexLess lt) (fun xs ys => xs.isEqv ys eq) where
  asymm xs := by
    induction xs with
    | nil => intro _ ys _ hlt; cases ys <;> simp_all
    | cons x xs ih =>
        intro hxs ys hys hlt
        cases ys with
        | nil => simp at hlt
        | cons y ys =>
            simp only [mem_listsOver, List.forall_mem_cons] at hxs hys
            simp only [lexLess] at hlt ⊢
            -- the heads decide unless they are incomparable
            by_cases hxy : lt x y = true
            · simp [hxy, h.asymm x hxs.1 y hys.1 hxy]
            · by_cases hyx : lt y x = true
              · simp [hxy, hyx] at hlt
              · simp only [hxy, hyx, if_false, Bool.false_eq_true] at hlt ⊢
                exact ih hxs.2 ys hys.2 hlt
  eq_iff xs := by
    induction xs with
    | nil => intro _ ys _; cases ys <;> simp [Incomp, List.isEqv]
    | cons x xs ih =>
        intro hxs ys hys
        cases ys with
        | nil => simp [Incomp, List.isEqv]
        | cons y ys =>
            simp only [mem_listsOver, List.forall_mem_cons] at hxs hys
            rw [List.isEqv, Bool.and_eq_true, h.eq_iff x hxs.1 y hys.1, ih hxs.2 ys hys.2]
            exact (incomp_pairLess_iff lt (lexLess lt) (x, xs) (y, ys)).symm

/-- The heart of the matter: element by element, a strict weak order stays one. -/
theorem StrictWeakOn.lex (h : StrictWeakOn s lt) : StrictWeakOn (listsOver s) (lexLess lt) := by
  apply StrictWeakOn.intro
  · intro xs hxs
    induction xs with
    | nil => rfl
    | cons x xs ih =>
        simp only [mem_listsOver, List.forall_mem_cons] at hxs
        simp [lexLess, h.irrefl hxs.1, ih hxs.2]
  · intro xs
    induction xs with
    | nil => intro _ ys _ zs _ hxy hyz; cases ys <;> cases zs <;> simp_all
    | cons x xs ih =>
        intro hxs ys hys zs hzs hxy hyz
        cases ys with
        | nil => simp at hxy
        | cons y ys =>
            cases zs with
            | nil => simp at hyz
            | cons z zs =>
                simp only [mem_listsOver, List.forall_mem_cons] at hxs hys hzs
                -- as for pairs of a head and a tail, the tails being compared by the induction
                rw [lexLess_cons_cons, pairLess_iff] at hxy hyz ⊢
                dsimp only at hxy hyz ⊢
                rcases hxy with hxy | ⟨hxy, hxy'⟩
                · rcases hyz with hyz | ⟨hyz, -⟩
                  · exact Or.inl (h.trans hxs.1 hys.1 hzs.1 hxy hyz)
                  · exact Or.inl (h.lt_of_lt_of_incomp hxs.1 hys.1 hzs.1 hxy hyz)
                · rcases hyz with hyz | ⟨hyz, hyz'⟩
                  · exact Or.inl (h.lt_of_incomp_of_lt hxs.1 hys.1 hzs.1 hxy hyz)
                  · exact Or.inr ⟨h.incomp_trans hxs.1 hys.1 hzs.1 hxy hyz,
                      ih hxs.2 ys hys.2 zs hzs.2 hxy' hyz'⟩
  · intro xs
    induction xs with
    | nil => intro _ ys _ zs _ hxy hyz; cases ys <;> cases zs <;> simp_all [Incomp]
    | cons x xs ih =>
        intro hxs ys hys zs hzs hxy hyz
        cases ys with
        | nil => simp [Incomp] at hxy
        | cons y ys =>
            cases zs with
            | nil => simp [Incomp] at hyz
            | cons z zs =>
                simp only [mem_listsOver, List.forall_mem_cons] at hxs hys hzs
                have hxy' := (incomp_pairLess_iff lt (lexLess lt) (x, xs) (y, ys)).mp hxy
                have hyz' := (incomp_pairLess_iff lt (lexLess lt) (y, ys) (z, zs)).mp hyz
                exact (incomp_pairLess_iff lt (lexLess lt) (x, xs) (z, zs)).mpr
                  ⟨h.incomp_trans hxs.1 hys.1 hzs.1 hxy'.1 hyz'.1,
                    ih hxs.2 ys hys.2 zs hzs.2 hxy'.2 hyz'.2⟩

end Lists

end Msgpack11.StrictWeak
