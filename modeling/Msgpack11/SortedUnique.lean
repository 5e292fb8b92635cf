/-
Insertion into an ordered container of unique keys, the way `std::map::insert`
and `std::set::insert` are documented: an element equivalent to one already
there is discarded, any other is put in its place.

The container is the list of its elements in iteration order. Elements are
compared by a Boolean `lt`; two are *equivalent* when neither is below the
other, which is `StrictWeak.Incomp`. A map is the case where the elements are
entries and `lt` looks at their keys.

The documented behaviour is that of an `lt` which is a strict weak order on the
elements; for any other `std::map` promises nothing. `insert`, `place` and `find`
follow a real container only there. Elsewhere a search tree meets a few of the
elements and decides by these, while the operations below go through the list from
the front, so elements may be kept, dropped and placed otherwise.

Results come in two strengths. Which elements survive a run of insertions when
no two are equivalent (`insertAll_perm`, `length_insertAll_lt`) needs nothing of
`lt`. That the outcome is sorted, that it keeps exactly the first of each class
and that it does not depend on the order of insertion needs `lt` to be a strict
weak order on the elements inserted.
-/
import Msgpack11.StrictWeak
import Mathlib.Algebra.Order.BigOperators.Group.List
import Mathlib.Algebra.Order.Ring.Nat
import Mathlib.Data.List.Sort
import Mathlib.Data.List.Perm.Basic
import Mathlib.Data.List.Induction

set_option autoImplicit false

namespace Msgpack11.SortedUnique

open Msgpack11.StrictWeak

variable {α : Type*}

/-! ## The operations -/

/-- Put `e` before the first element above it. -/
def place (lt : α → α → Bool) (e : α) : List α → List α
  | [] => [e]
  | x :: xs => if lt e x then e :: x :: xs else x :: place lt e xs

/-- Insert `e` unless an equivalent element is already there. -/
def insert (lt : α → α → Bool) (m : List α) (e : α) : List α :=
  if m.any (fun x => decide (Incomp lt x e)) then m else place lt e m

/-- Insert the elements of a list, one after the other. -/
def insertAll (lt : α → α → Bool) (m es : List α) : List α := es.foldl (insert lt) m

/-- Find the element equivalent to `x`: only the first one that is not below `x` can be. -/
def find (lt : α → α → Bool) : List α → α → Option α
  | [], _ => none
  | y :: ys, x => if lt y x then find lt ys x else if lt x y then none else some y

/-- Strictly increasing: the state of a container whose `lt` is a strict weak order. -/
def Sorted (lt : α → α → Bool) (m : List α) : Prop := m.Pairwise (fun x y => lt x y = true)

instance (lt : α → α → Bool) (m : List α) : Decidable (Sorted lt m) :=
  inferInstanceAs (Decidable (List.Pairwise _ _))

variable {lt : α → α → Bool}

@[simp] theorem insertAll_nil (m : List α) : insertAll lt m [] = m := rfl

@[simp] theorem insertAll_cons (m : List α) (e : α) (es : List α) :
    insertAll lt m (e :: es) = insertAll lt (insert lt m e) es := rfl

theorem insertAll_append (m es es' : List α) :
    insertAll lt m (es ++ es') = insertAll lt (insertAll lt m es) es' := by
  simp [insertAll]

/-! ## What needs no assumption on the comparator -/

theorem place_perm (e : α) (m : List α) : (place lt e m).Perm (e :: m) := by
  induction m with
  | nil => exact List.Perm.refl _
  | cons x xs ih =>
      rw [place]
      split_ifs with h
      · exact List.Perm.refl _
      · exact (ih.cons x).trans (List.Perm.swap e x xs)

@[simp] theorem mem_place {e x : α} {m : List α} : x ∈ place lt e m ↔ x = e ∨ x ∈ m := by
  rw [(place_perm e m).mem_iff, List.mem_cons]

theorem insert_of_equiv {m : List α} {e x : α} (hx : x ∈ m) (h : Incomp lt x e) :
    insert lt m e = m := by
  rw [insert, if_pos]
  exact List.any_eq_true.mpr ⟨x, hx, decide_eq_true h⟩

theorem insert_of_not_equiv {m : List α} {e : α} (h : ∀ x ∈ m, ¬ Incomp lt x e) :
    insert lt m e = place lt e m := by
  rw [insert, if_neg]
  intro hany
  obtain ⟨x, hx, hinc⟩ := List.any_eq_true.mp hany
  exact h x hx (of_decide_eq_true hinc)

/-- Either way the outcome holds the old elements and nothing but them and the new one. -/
theorem insert_cases (lt : α → α → Bool) (m : List α) (e : α) :
    (insert lt m e = m ∧ ∃ x ∈ m, Incomp lt x e) ∨
      (insert lt m e = place lt e m ∧ ∀ x ∈ m, ¬ Incomp lt x e) := by
  by_cases h : ∃ x ∈ m, Incomp lt x e
  · obtain ⟨x, hx, hinc⟩ := h
    exact Or.inl ⟨insert_of_equiv hx hinc, x, hx, hinc⟩
  · have hno : ∀ x ∈ m, ¬ Incomp lt x e := fun x hx hinc => h ⟨x, hx, hinc⟩
    exact Or.inr ⟨insert_of_not_equiv hno, hno⟩

theorem mem_of_mem_insert {m : List α} {e x : α} (h : x ∈ insert lt m e) : x = e ∨ x ∈ m := by
  rcases insert_cases lt m e with ⟨heq, -⟩ | ⟨heq, -⟩
  · rw [heq] at h
    exact Or.inr h
  · rw [heq] at h
    exact mem_place.mp h

theorem mem_insert_of_mem {m : List α} {e x : α} (h : x ∈ m) : x ∈ insert lt m e := by
  rcases insert_cases lt m e with ⟨heq, -⟩ | ⟨heq, -⟩
  · rwa [heq]
  · rw [heq]
    exact mem_place.mpr (Or.inr h)

theorem mem_of_mem_insertAll {es m : List α} {x : α} (h : x ∈ insertAll lt m es) :
    x ∈ m ∨ x ∈ es := by
  induction es generalizing m with
  | nil => exact Or.inl h
  | cons e es ih =>
      rcases ih h with hm | hes
      · rcases mem_of_mem_insert hm with rfl | hm
        · exact Or.inr (List.mem_cons_self ..)
        · exact Or.inl hm
      · exact Or.inr (List.mem_cons_of_mem _ hes)

theorem mem_of_mem_insertAll_nil {es : List α} {x : α} (h : x ∈ insertAll lt [] es) : x ∈ es := by
  rcases mem_of_mem_insertAll h with hnil | hes
  · cases hnil
  · exact hes

theorem mem_insertAll_of_mem {es m : List α} {x : α} (h : x ∈ m) : x ∈ insertAll lt m es := by
  induction es generalizing m with
  | nil => exact h
  | cons e es ih => exact ih (mem_insert_of_mem h)

/-- Pairwise inequivalent elements are all kept. -/
theorem insertAll_perm {es m : List α} (hes : es.Pairwise (fun x y => ¬ Incomp lt x y))
    (hm : ∀ x ∈ m, ∀ e ∈ es, ¬ Incomp lt x e) : (insertAll lt m es).Perm (m ++ es) := by
  induction es generalizing m with
  | nil => simp
  | cons e es ih =>
      obtain ⟨he, hes⟩ := List.pairwise_cons.mp hes
      -- `e` is new, so it is put in its place
      have hplace : insert lt m e = place lt e m :=
        insert_of_not_equiv fun x hx => hm x hx e (List.mem_cons_self ..)
      rw [insertAll_cons, hplace]
      have hrest : ∀ x ∈ place lt e m, ∀ e' ∈ es, ¬ Incomp lt x e' := by
        intro x hx e' he'
        rcases mem_place.mp hx with rfl | hx
        · exact he e' he'
        · exact hm x hx e' (List.mem_cons_of_mem _ he')
      calc (insertAll lt (place lt e m) es).Perm (place lt e m ++ es) := ih hes hrest
        _ |>.Perm ((e :: m) ++ es) := (place_perm e m).append_right es
        _ |>.Perm (m ++ e :: es) := by simpa using List.perm_middle.symm

theorem insertAll_nil_perm {es : List α} (hes : es.Pairwise (fun x y => ¬ Incomp lt x y)) :
    (insertAll lt [] es).Perm es := by
  have h := insertAll_perm (m := []) hes (by simp)
  rwa [List.nil_append] at h

/-- Whatever the elements weigh, the container weighs at most what was put into it. -/
theorem sum_insertAll_le (lt : α → α → Bool) (f : α → ℕ) (m es : List α) :
    ((insertAll lt m es).map f).sum ≤ (m.map f).sum + (es.map f).sum := by
  induction es generalizing m with
  | nil => simp
  | cons e es ih =>
      have hstep : ((insert lt m e).map f).sum ≤ (m.map f).sum + f e := by
        rcases insert_cases lt m e with ⟨heq, -⟩ | ⟨heq, -⟩
        · rw [heq]
          omega
        · rw [heq, ((place_perm e m).map f).sum_nat, List.map_cons, List.sum_cons]
          omega
      have hrest := ih (insert lt m e)
      rw [insertAll_cons, List.map_cons, List.sum_cons]
      omega

theorem length_insertAll_le (lt : α → α → Bool) (m es : List α) :
    (insertAll lt m es).length ≤ m.length + es.length := by
  have h := sum_insertAll_le lt (fun _ => 1) m es
  simpa using h

/-- Two equivalent elements cost at least one of the insertions its element. -/
theorem length_insertAll_lt {es m : List α}
    (h : ¬ es.Pairwise (fun x y => ¬ Incomp lt x y) ∨ ∃ x ∈ m, ∃ e ∈ es, Incomp lt x e) :
    (insertAll lt m es).length < m.length + es.length := by
  induction es generalizing m with
  | nil => simp at h
  | cons e es ih =>
      rw [insertAll_cons, List.length_cons]
      rcases insert_cases lt m e with ⟨heq, -⟩ | ⟨heq, hno⟩
      · -- `e` is discarded, which already costs one element
        have := length_insertAll_le lt m es
        rw [heq]
        omega
      · -- `e` is kept: the two equivalent elements are still to meet
        have hlen : (place lt e m).length = m.length + 1 := by
          rw [(place_perm e m).length_eq, List.length_cons]
        have hclash : ¬ es.Pairwise (fun x y => ¬ Incomp lt x y) ∨
            ∃ x ∈ place lt e m, ∃ e' ∈ es, Incomp lt x e' := by
          rcases h with hpair | ⟨x, hx, e', he', hinc⟩
          · by_cases htail : es.Pairwise (fun x y => ¬ Incomp lt x y)
            · have hhead : ¬ ∀ e' ∈ es, ¬ Incomp lt e e' :=
                fun hall => hpair (List.pairwise_cons.mpr ⟨hall, htail⟩)
              simp only [not_forall, not_not] at hhead
              obtain ⟨e', he', hinc⟩ := hhead
              exact Or.inr ⟨e, mem_place.mpr (Or.inl rfl), e', he', hinc⟩
            · exact Or.inl htail
          · rcases List.mem_cons.mp he' with rfl | he'
            · exact absurd hinc (hno x hx)
            · exact Or.inr ⟨x, mem_place.mpr (Or.inr hx), e', he', hinc⟩
        have := ih hclash
        rw [heq]
        omega

/-- What is found is there, and equivalent. -/
theorem find_some {m : List α} {x y : α} (h : find lt m x = some y) : y ∈ m ∧ Incomp lt y x := by
  induction m with
  | nil => cases h
  | cons z zs ih =>
      rw [find] at h
      split_ifs at h with hzx hxz
      · obtain ⟨hy, hinc⟩ := ih h
        exact ⟨List.mem_cons_of_mem _ hy, hinc⟩
      · obtain rfl := Option.some.inj h
        exact ⟨List.mem_cons_self .., by simpa using hzx, by simpa using hxz⟩

/-! ## Over a strict weak order -/

/-- Elements may be replaced by others that compare alike with what is looked up. -/
theorem find_map {f : α → α} {m : List α} {x : α}
    (h : ∀ y ∈ m, lt (f y) x = lt y x ∧ lt x (f y) = lt x y) :
    find lt (m.map f) x = (find lt m x).map f := by
  induction m with
  | nil => rfl
  | cons y ys ih =>
      rw [List.forall_mem_cons] at h
      rw [List.map_cons, find, find, h.1.1, h.1.2, ih h.2]
      by_cases hyx : lt y x = true
      · rw [if_pos hyx, if_pos hyx]
      · rw [if_neg hyx, if_neg hyx]
        by_cases hxy : lt x y = true
        · rw [if_pos hxy, if_pos hxy]
          rfl
        · rw [if_neg hxy, if_neg hxy]
          rfl

section Ordered

variable {s : Set α}

theorem Sorted.place (hlt : StrictWeakOn s lt) {m : List α} {e : α} (hm : ∀ x ∈ m, x ∈ s)
    (he : e ∈ s) (hno : ∀ x ∈ m, ¬ Incomp lt x e) (h : Sorted lt m) :
    Sorted lt (place lt e m) := by
  induction m with
  | nil => exact List.pairwise_singleton _ _
  | cons x xs ih =>
      obtain ⟨hx, hxs⟩ := List.pairwise_cons.mp h
      rw [SortedUnique.place]
      split_ifs with hex
      · -- `e` goes before `x`, hence before all that follows
        refine List.pairwise_cons.mpr ⟨?_, h⟩
        intro y hy
        rcases List.mem_cons.mp hy with rfl | hy
        · exact hex
        · exact hlt.trans he (hm x (by simp)) (hm y (by simp [hy])) hex (hx y hy)
      · -- `e` goes somewhere behind `x`, and is above it as they are not equivalent
        have hxe : lt x e = true := by
          by_contra hxe
          exact hno x (by simp) ⟨by simpa using hxe, by simpa using hex⟩
        refine List.pairwise_cons.mpr ⟨?_, ih (fun y hy => hm y (by simp [hy]))
          (fun y hy => hno y (by simp [hy])) hxs⟩
        intro y hy
        rcases mem_place.mp hy with rfl | hy
        · exact hxe
        · exact hx y hy

/-- Only the elements that stay have to be compared properly: the others change nothing. -/
theorem Sorted.insertAll_of_kept (hlt : StrictWeakOn s lt) {es m : List α}
    (hkept : ∀ x ∈ SortedUnique.insertAll lt m es, x ∈ s) (h : Sorted lt m) :
    Sorted lt (SortedUnique.insertAll lt m es) := by
  induction es generalizing m with
  | nil => exact h
  | cons e es ih =>
      rw [insertAll_cons] at hkept ⊢
      apply ih hkept
      rcases insert_cases lt m e with ⟨heq, -⟩ | ⟨heq, hno⟩
      · rwa [heq]
      · -- what is in the container now is in it at the end
        have hplaced : ∀ x ∈ SortedUnique.place lt e m, x ∈ s := by
          intro x hx
          rw [← heq] at hx
          exact hkept x (mem_insertAll_of_mem hx)
        rw [heq]
        exact h.place hlt (fun x hx => hplaced x (mem_place.mpr (Or.inr hx)))
          (hplaced e (mem_place.mpr (Or.inl rfl))) hno

theorem Sorted.insertAll (hlt : StrictWeakOn s lt) {es m : List α} (hm : ∀ x ∈ m, x ∈ s)
    (hes : ∀ x ∈ es, x ∈ s) (h : Sorted lt m) : Sorted lt (insertAll lt m es) := by
  refine h.insertAll_of_kept hlt ?_
  intro x hx
  rcases mem_of_mem_insertAll hx with hx | hx
  · exact hm x hx
  · exact hes x hx

theorem Sorted.nil : Sorted lt [] := List.Pairwise.nil

/-- No two elements of a sorted container are equivalent. -/
theorem Sorted.pairwise_not_equiv {m : List α} (h : Sorted lt m) :
    m.Pairwise (fun x y => ¬ Incomp lt x y) := by
  refine List.Pairwise.imp ?_ h
  intro x y hxy hinc
  rw [hinc.1] at hxy
  cases hxy

/-- What is there is found: the elements before it are below it, and so below `x`. -/
theorem Sorted.find_of_equiv (hlt : StrictWeakOn s lt) {m : List α} {x y : α}
    (hm : ∀ a ∈ m, a ∈ s) (hx : x ∈ s) (h : Sorted lt m) (hy : y ∈ m) (hinc : Incomp lt y x) :
    find lt m x = some y := by
  induction m with
  | nil => cases hy
  | cons z zs ih =>
      obtain ⟨hz, hzs⟩ := List.pairwise_cons.mp h
      rcases List.mem_cons.mp hy with rfl | hyzs
      · rw [find, if_neg (by simp [hinc.1]), if_neg (by simp [hinc.2])]
      · have hzx := hlt.lt_of_lt_of_incomp (hm z (List.mem_cons_self ..)) (hm y hy) hx
          (hz y hyzs) hinc
        rw [find, if_pos hzx]
        exact ih (fun a ha => hm a (List.mem_cons_of_mem _ ha)) hzs hyzs

/-- A sorted container is determined by its elements. -/
theorem Sorted.eq_of_perm (hlt : StrictWeakOn s lt) {m m' : List α} (hm : ∀ x ∈ m, x ∈ s)
    (h : Sorted lt m) (h' : Sorted lt m') (hp : m.Perm m') : m = m' := by
  refine List.Perm.eq_of_pairwise ?_ h h' hp
  intro x y hx hy hxy hyx
  have hxs := hm x hx
  have hys := hm y (hp.mem_iff.mpr hy)
  rw [hlt.asymm hxs hys hxy] at hyx
  cases hyx

/-- Inserting a sorted list into an empty container rebuilds the list. -/
theorem Sorted.insertAll_self (hlt : StrictWeakOn s lt) {m : List α} (hm : ∀ x ∈ m, x ∈ s)
    (h : Sorted lt m) : SortedUnique.insertAll lt [] m = m := by
  have hperm : (SortedUnique.insertAll lt [] m).Perm m :=
    insertAll_nil_perm h.pairwise_not_equiv
  refine Sorted.eq_of_perm hlt ?_ (Sorted.nil.insertAll hlt (by simp) hm) h hperm
  intro x hx
  exact hm x (hperm.mem_iff.mp hx)

/-- What is above everything goes to the end. -/
theorem insert_end (hasymm : ∀ x y, lt x y = true → lt y x = false) {m : List α} {e : α}
    (hm : ∀ x ∈ m, lt x e = true) : SortedUnique.insert lt m e = m ++ [e] := by
  have hno : ∀ x ∈ m, ¬ Incomp lt x e := by
    rintro x hx ⟨hfalse, -⟩
    rw [hm x hx] at hfalse
    cases hfalse
  rw [insert_of_not_equiv hno]
  clear hno
  induction m with
  | nil => rfl
  | cons x m ih =>
      rw [List.forall_mem_cons] at hm
      rw [SortedUnique.place, hasymm x e hm.1, if_neg Bool.false_ne_true, ih hm.2]
      rfl

/-- So a sorted list can be inserted behind a container of any asymmetric comparator. -/
theorem Sorted.insertAll_eq_append (hasymm : ∀ x y, lt x y = true → lt y x = false)
    {m es : List α} (h : Sorted lt (m ++ es)) : SortedUnique.insertAll lt m es = m ++ es := by
  induction es generalizing m with
  | nil => rw [insertAll_nil, List.append_nil]
  | cons e es ih =>
      have hm : ∀ x ∈ m, lt x e = true :=
        fun x hx => (List.pairwise_append.mp h).2.2 x hx e (List.mem_cons_self ..)
      rw [List.append_cons] at h
      rw [insertAll_cons, insert_end hasymm hm, ih h, List.append_assoc]
      rfl

/-- Pairwise inequivalent elements build the same container in whatever order. -/
theorem insertAll_eq_of_perm (hlt : StrictWeakOn s lt) {es es' : List α}
    (hes : ∀ x ∈ es, x ∈ s) (hne : es.Pairwise (fun x y => ¬ Incomp lt x y))
    (hp : es.Perm es') : insertAll lt [] es = insertAll lt [] es' := by
  have hne' : es'.Pairwise (fun x y => ¬ Incomp lt x y) :=
    hp.pairwise hne fun hxy hyx => hxy hyx.symm
  have h1 : (insertAll lt [] es).Perm es := insertAll_nil_perm hne
  have h2 : (insertAll lt [] es').Perm es' := insertAll_nil_perm hne'
  have hes' : ∀ x ∈ es', x ∈ s := fun x hx => hes x (hp.mem_iff.mpr hx)
  refine Sorted.eq_of_perm hlt ?_ (Sorted.nil.insertAll hlt (by simp) hes)
    (Sorted.nil.insertAll hlt (by simp) hes') (h1.trans (hp.trans h2.symm))
  intro x hx
  exact hes x (h1.mem_iff.mp hx)

/-- A class is represented in the container exactly when it was ever inserted. -/
theorem exists_equiv_insertAll_iff (hlt : StrictWeakOn s lt) {es : List α}
    (hes : ∀ x ∈ es, x ∈ s) {e : α} (he : e ∈ s) :
    (∃ x ∈ insertAll lt [] es, Incomp lt x e) ↔ ∃ x ∈ es, Incomp lt x e := by
  constructor
  · rintro ⟨x, hx, hinc⟩
    exact ⟨x, mem_of_mem_insertAll_nil hx, hinc⟩
  · rintro ⟨x, hx, hinc⟩
    obtain ⟨pre, post, rfl⟩ := List.append_of_mem hx
    have hxs : x ∈ s := hes x hx
    rw [insertAll_append, insertAll_cons]
    rcases insert_cases lt (insertAll lt [] pre) x with ⟨heq, y, hy, hyx⟩ | ⟨heq, -⟩
    · -- `x` was discarded for an equivalent element, which represents it
      have hys : y ∈ s := hes y (List.mem_append_left _ (mem_of_mem_insertAll_nil hy))
      rw [heq]
      exact ⟨y, mem_insertAll_of_mem hy, hlt.incomp_trans hys hxs he hyx hinc⟩
    · rw [heq]
      exact ⟨x, mem_insertAll_of_mem (mem_place.mpr (Or.inl rfl)), hinc⟩

/-- Nothing is below the head of a sorted container and equivalent to an element of it. -/
theorem Sorted.not_lt_head (hlt : StrictWeakOn s lt) {x y z : α} {m : List α} (hx : x ∈ s)
    (hm : ∀ a ∈ y :: m, a ∈ s) (h : Sorted lt (y :: m)) (hz : z ∈ y :: m) (hinc : Incomp lt x z) :
    lt x y = false := by
  rcases List.mem_cons.mp hz with rfl | hzm
  · exact hinc.1
  · have hyz := (List.pairwise_cons.mp h).1 z hzm
    by_contra hxy
    rw [Bool.not_eq_false] at hxy
    have hxz := hlt.trans hx (hm y (List.mem_cons_self ..)) (hm z hz) hxy hyz
    rw [hinc.1] at hxz
    cases hxz

/-- An element equivalent to one of the tail is not equivalent to the head. -/
theorem Sorted.mem_tail_of_equiv (hlt : StrictWeakOn s lt) {x x' y z : α} {m m' : List α}
    (hm : ∀ a ∈ x :: m, a ∈ s) (hm' : ∀ a ∈ y :: m', a ∈ s) (h : Sorted lt (x :: m))
    (hxy : Incomp lt x y) (hx' : x' ∈ m) (hz : z ∈ y :: m') (hinc : Incomp lt x' z) : z ∈ m' := by
  rcases List.mem_cons.mp hz with rfl | hz
  · have hlt' := (List.pairwise_cons.mp h).1 x' hx'
    have hxx' := hlt.incomp_trans (hm x (List.mem_cons_self ..)) (hm' z (List.mem_cons_self ..))
      (hm x' (List.mem_cons_of_mem _ hx')) hxy hinc.symm
    rw [hxx'.1] at hlt'
    cases hlt'
  · exact hz

/-- Two sorted containers of the same classes agree position by position. -/
theorem Sorted.forall₂_equiv (hlt : StrictWeakOn s lt) {m m' : List α} (hm : ∀ a ∈ m, a ∈ s)
    (hm' : ∀ a ∈ m', a ∈ s) (h : Sorted lt m) (h' : Sorted lt m')
    (hsub : ∀ x ∈ m, ∃ y ∈ m', Incomp lt x y) (hsub' : ∀ y ∈ m', ∃ x ∈ m, Incomp lt y x) :
    List.Forall₂ (Incomp lt) m m' := by
  induction m generalizing m' with
  | nil =>
      cases m' with
      | nil => exact List.Forall₂.nil
      | cons y ys =>
          obtain ⟨x, hx, -⟩ := hsub' y (List.mem_cons_self ..)
          cases hx
  | cons x xs ih =>
      cases m' with
      | nil =>
          obtain ⟨y, hy, -⟩ := hsub x (List.mem_cons_self ..)
          cases hy
      | cons y ys =>
          -- the heads are the least elements of the same classes
          have hxy : Incomp lt x y := by
            obtain ⟨z, hz, hxz⟩ := hsub x (List.mem_cons_self ..)
            obtain ⟨w, hw, hyw⟩ := hsub' y (List.mem_cons_self ..)
            exact ⟨h'.not_lt_head hlt (hm x (List.mem_cons_self ..)) hm' hz hxz,
              h.not_lt_head hlt (hm' y (List.mem_cons_self ..)) hm hw hyw⟩
          refine List.Forall₂.cons hxy (ih ?_ ?_ (List.pairwise_cons.mp h).2
            (List.pairwise_cons.mp h').2 ?_ ?_)
          · exact fun a ha => hm a (List.mem_cons_of_mem _ ha)
          · exact fun a ha => hm' a (List.mem_cons_of_mem _ ha)
          · intro x' hx'
            obtain ⟨z, hz, hinc⟩ := hsub x' (List.mem_cons_of_mem _ hx')
            exact ⟨z, h.mem_tail_of_equiv hlt hm hm' hxy hx' hz hinc, hinc⟩
          · intro y' hy'
            obtain ⟨z, hz, hinc⟩ := hsub' y' (List.mem_cons_of_mem _ hy')
            exact ⟨z, h'.mem_tail_of_equiv hlt hm' hm hxy.symm hy' hz hinc, hinc⟩

/-- The classes of a container do not depend on the order of insertion, whichever
elements represent them. -/
theorem insertAll_forall₂_of_perm (hlt : StrictWeakOn s lt) {es es' : List α}
    (hes : ∀ x ∈ es, x ∈ s) (hp : es.Perm es') :
    List.Forall₂ (Incomp lt) (insertAll lt [] es) (insertAll lt [] es') := by
  have hes' : ∀ x ∈ es', x ∈ s := fun x hx => hes x (hp.mem_iff.mpr hx)
  have hself : ∀ {x : α}, x ∈ s → Incomp lt x x := fun hx => ⟨hlt.irrefl hx, hlt.irrefl hx⟩
  refine Sorted.forall₂_equiv hlt (fun a ha => hes a (mem_of_mem_insertAll_nil ha))
    (fun a ha => hes' a (mem_of_mem_insertAll_nil ha))
    (Sorted.nil.insertAll hlt (by simp) hes) (Sorted.nil.insertAll hlt (by simp) hes') ?_ ?_
  · intro x hx
    have hxs := hes x (mem_of_mem_insertAll_nil hx)
    obtain ⟨y, hy, hyx⟩ := (exists_equiv_insertAll_iff hlt hes' hxs).mpr
      ⟨x, hp.mem_iff.mp (mem_of_mem_insertAll_nil hx), hself hxs⟩
    exact ⟨y, hy, hyx.symm⟩
  · intro y hy
    have hys := hes' y (mem_of_mem_insertAll_nil hy)
    obtain ⟨x, hx, hxy⟩ := (exists_equiv_insertAll_iff hlt hes hys).mpr
      ⟨y, hp.mem_iff.mpr (mem_of_mem_insertAll_nil hy), hself hys⟩
    exact ⟨x, hx, hxy.symm⟩

/-- `x` occurs in `es` with nothing equivalent to it before. -/
def FirstOccurrence (lt : α → α → Bool) (es : List α) (x : α) : Prop :=
  ∃ pre post, es = pre ++ x :: post ∧ ∀ y ∈ pre, ¬ Incomp lt y x

/-- The container holds exactly the first element of each class inserted. -/
theorem mem_insertAll_iff (hlt : StrictWeakOn s lt) {es : List α} (hes : ∀ x ∈ es, x ∈ s)
    (x : α) : x ∈ insertAll lt [] es ↔ FirstOccurrence lt es x := by
  constructor
  · intro hx
    induction es using List.reverseRecOn with
    | nil => simp at hx
    | append_singleton es e ih =>
        have hes' : ∀ x ∈ es, x ∈ s := fun y hy => hes y (by simp [hy])
        have hprev : x ∈ insertAll lt [] es → FirstOccurrence lt (es ++ [e]) x := by
          intro hmem
          obtain ⟨pre, post, heq, hpre⟩ := ih hes' hmem
          exact ⟨pre, post ++ [e], by rw [heq]; simp, hpre⟩
        -- by induction on the last insertion: it was kept only if its class was new
        rw [insertAll_append, insertAll_cons, insertAll_nil] at hx
        rcases insert_cases lt (insertAll lt [] es) e with ⟨heq, -⟩ | ⟨heq, hno⟩
        · rw [heq] at hx
          exact hprev hx
        · rw [heq] at hx
          rcases mem_place.mp hx with rfl | hx
          · refine ⟨es, [], rfl, ?_⟩
            intro y hy hinc
            obtain ⟨z, hz, hzx⟩ := (exists_equiv_insertAll_iff hlt hes'
              (hes x (by simp))).mpr ⟨y, hy, hinc⟩
            exact hno z hz hzx
          · exact hprev hx
  · rintro ⟨pre, post, rfl, hpre⟩
    rw [insertAll_append, insertAll_cons]
    -- once in the container an element stays
    apply mem_insertAll_of_mem
    have hno : ∀ y ∈ insertAll lt [] pre, ¬ Incomp lt y x :=
      fun y hy => hpre y (mem_of_mem_insertAll_nil hy)
    rw [insert_of_not_equiv hno]
    exact mem_place.mpr (Or.inl rfl)

/-- To look an element up is to look through what was inserted, from the beginning. -/
theorem find_insertAll (hlt : StrictWeakOn s lt) {es : List α} (hes : ∀ x ∈ es, x ∈ s) {x : α}
    (hx : x ∈ s) :
    find lt (insertAll lt [] es) x = es.find? fun e => decide (Incomp lt e x) := by
  rcases hfind : es.find? (fun e => decide (Incomp lt e x)) with _ | e
  · -- nothing equivalent was inserted
    rcases hkept : find lt (insertAll lt [] es) x with _ | y
    · rfl
    · obtain ⟨hy, hyx⟩ := find_some hkept
      have hno := List.find?_eq_none.mp hfind y (mem_of_mem_insertAll_nil hy)
      exact absurd (decide_eq_true hyx) hno
  · obtain ⟨hex, pre, post, hsplit, hpre⟩ := List.find?_eq_some_iff_append.mp hfind
    have hinc : Incomp lt e x := of_decide_eq_true hex
    have he : e ∈ es := by
      rw [hsplit]
      exact List.mem_append_right _ (List.mem_cons_self ..)
    -- the first equivalent to `x` is the first of its own class
    have hfirst : FirstOccurrence lt es e := by
      refine ⟨pre, post, hsplit, ?_⟩
      intro y hy hye
      have hys : y ∈ es := by
        rw [hsplit]
        exact List.mem_append_left _ hy
      have hyx := hlt.incomp_trans (hes y hys) (hes e he) hx hye hinc
      simpa [hyx] using hpre y hy
    have hmem := (mem_insertAll_iff hlt hes e).mpr hfirst
    exact (Sorted.nil.insertAll hlt (by simp) hes).find_of_equiv hlt
      (fun y hy => hes y (mem_of_mem_insertAll_nil hy)) hx hmem hinc

end Ordered

end Msgpack11.SortedUnique
