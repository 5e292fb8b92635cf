/-
Assignment in a sorted map: `m[k] = v`.

The entries of the map are a sorted container of pairs that are compared by their keys
(`byKey`). Assigning under a key that is there replaces the value, under a new one it
inserts an entry. So of all assignments under one key the last one counts
(`find_assignAll`), where of all insertions it is the first. Assigned in the order of
their keys, entries are simply put one after the other (`assignAll_eq_append`).
-/
import Msgpack11.SortedUnique

set_option autoImplicit false

namespace Msgpack11.SortedMap

open Msgpack11.StrictWeak Msgpack11.SortedUnique

variable {κ ν : Type*}

/-! ## The operations -/

/-- The comparison of entries by their keys. -/
def byKey (lt : κ → κ → Bool) (e e' : κ × ν) : Bool := lt e.1 e'.1

/-- `m[k] = v`. An equivalent key stays as it is and gets the new value. -/
def assign (lt : κ → κ → Bool) (m : List (κ × ν)) (k : κ) (v : ν) : List (κ × ν) :=
  if m.any (fun e => decide (Incomp lt e.1 k)) then
    m.map fun e => if Incomp lt e.1 k then (e.1, v) else e
  else place (byKey lt) (k, v) m

/-- Assign under each key of a list in turn. -/
def assignAll (lt : κ → κ → Bool) (m es : List (κ × ν)) : List (κ × ν) :=
  es.foldl (fun m e => assign lt m e.1 e.2) m

variable {lt : κ → κ → Bool}

@[simp] theorem assignAll_nil (m : List (κ × ν)) : assignAll lt m [] = m := rfl

@[simp] theorem assignAll_cons (m : List (κ × ν)) (e : κ × ν) (es : List (κ × ν)) :
    assignAll lt m (e :: es) = assignAll lt (assign lt m e.1 e.2) es := rfl

/-- Two lists are assigned one after the other. -/
theorem assignAll_append (m es es' : List (κ × ν)) :
    assignAll lt m (es ++ es') = assignAll lt (assignAll lt m es) es' := by
  simp [assignAll]

/-- Either a key is there already and its value is replaced, or an entry is new. -/
theorem assign_cases (lt : κ → κ → Bool) (m : List (κ × ν)) (k : κ) (v : ν) :
    ((∃ e ∈ m, Incomp lt e.1 k) ∧
        assign lt m k v = m.map fun e => if Incomp lt e.1 k then (e.1, v) else e) ∨
      (∀ e ∈ m, ¬ Incomp (byKey lt) e (k, v)) ∧
        assign lt m k v = place (byKey lt) (k, v) m := by
  by_cases h : ∃ e ∈ m, Incomp lt e.1 k
  · refine Or.inl ⟨h, ?_⟩
    rw [assign, if_pos]
    obtain ⟨e, he, hinc⟩ := h
    exact List.any_eq_true.mpr ⟨e, he, decide_eq_true hinc⟩
  · have hno : ∀ e ∈ m, ¬ Incomp lt e.1 k := fun e he hinc => h ⟨e, he, hinc⟩
    refine Or.inr ⟨hno, ?_⟩
    rw [assign, if_neg]
    intro hany
    obtain ⟨e, he, hinc⟩ := List.any_eq_true.mp hany
    exact hno e he (of_decide_eq_true hinc)

/-- An entry of the map after an assignment: a key that was there or is assigned, and the
value that was there or is assigned. -/
theorem mem_of_mem_assign {m : List (κ × ν)} {k : κ} {v : ν} {e : κ × ν}
    (h : e ∈ assign lt m k v) :
    (e.1 = k ∨ ∃ e' ∈ m, e'.1 = e.1) ∧ (e.2 = v ∨ e ∈ m) := by
  rcases assign_cases lt m k v with ⟨-, heq⟩ | ⟨-, heq⟩
  · rw [heq] at h
    obtain ⟨e', he', rfl⟩ := List.mem_map.mp h
    by_cases hinc : Incomp lt e'.1 k
    · rw [if_pos hinc]
      exact ⟨Or.inr ⟨e', he', rfl⟩, Or.inl rfl⟩
    · rw [if_neg hinc]
      exact ⟨Or.inr ⟨e', he', rfl⟩, Or.inr he'⟩
  · rw [heq] at h
    rcases mem_place.mp h with rfl | hm
    · exact ⟨Or.inl rfl, Or.inl rfl⟩
    · exact ⟨Or.inr ⟨e, hm, rfl⟩, Or.inr hm⟩

/-! ## In the order of the keys -/

section Ordered

variable {s : Set κ}

/-- Entries are ordered as their keys are. -/
theorem strictWeakOn_byKey (h : StrictWeakOn s lt) :
    StrictWeakOn {e : κ × ν | e.1 ∈ s} (byKey lt) :=
  StrictWeakOn.intro (fun _ ha => h.irrefl ha) (fun _ ha _ hb _ hc => h.trans ha hb hc)
    (fun _ ha _ hb _ hc => h.incomp_trans ha hb hc)

/-- No key comes from elsewhere. -/
theorem key_mem_assign {m : List (κ × ν)} {k : κ} {v : ν} (hm : ∀ e ∈ m, e.1 ∈ s) (hk : k ∈ s) :
    ∀ e ∈ assign lt m k v, e.1 ∈ s := by
  intro e he
  rcases (mem_of_mem_assign he).1 with heq | ⟨e', he', heq⟩
  · rwa [heq]
  · rw [← heq]
    exact hm e' he'

/-- An assignment keeps the order of the keys. -/
theorem sorted_assign (hlt : StrictWeakOn s lt) {m : List (κ × ν)} {k : κ} (v : ν)
    (hm : ∀ e ∈ m, e.1 ∈ s) (hk : k ∈ s) (h : Sorted (byKey lt) m) :
    Sorted (byKey lt) (assign lt m k v) := by
  rcases assign_cases lt m k v with ⟨-, heq⟩ | ⟨hno, heq⟩
  · rw [heq]
    refine List.pairwise_map.mpr (List.Pairwise.imp ?_ h)
    intro e e' hlt'
    -- the keys are what they were
    split_ifs <;> exact hlt'
  · rw [heq]
    exact h.place (strictWeakOn_byKey hlt) hm hk hno

theorem key_mem_assignAll {m es : List (κ × ν)} (hm : ∀ e ∈ m, e.1 ∈ s)
    (hes : ∀ e ∈ es, e.1 ∈ s) : ∀ e ∈ assignAll lt m es, e.1 ∈ s := by
  induction es generalizing m with
  | nil => exact hm
  | cons e es ih =>
      rw [List.forall_mem_cons] at hes
      exact ih (key_mem_assign hm hes.1) hes.2

/-- However its entries are assigned, a map stays sorted. -/
theorem sorted_assignAll (hlt : StrictWeakOn s lt) {m es : List (κ × ν)}
    (hm : ∀ e ∈ m, e.1 ∈ s) (hes : ∀ e ∈ es, e.1 ∈ s) (h : Sorted (byKey lt) m) :
    Sorted (byKey lt) (assignAll lt m es) := by
  induction es generalizing m with
  | nil => exact h
  | cons e es ih =>
      rw [List.forall_mem_cons] at hes
      exact ih (key_mem_assign hm hes.1) hes.2 (sorted_assign hlt e.2 hm hes.1 h)

/-- A new entry does not hide the others. -/
theorem find_place_of_not_equiv (hlt : StrictWeakOn s lt) {m : List (κ × ν)} {e x : κ × ν}
    (hm : ∀ a ∈ m, a.1 ∈ s) (he : e.1 ∈ s) (hx : x.1 ∈ s) (h : Sorted (byKey lt) m)
    (hno : ∀ a ∈ m, ¬ Incomp (byKey lt) a e) (hex : ¬ Incomp (byKey lt) e x) :
    find (byKey lt) (place (byKey lt) e m) x = find (byKey lt) m x := by
  have hbyKey := strictWeakOn_byKey (ν := ν) hlt
  have hplace : ∀ a ∈ place (byKey lt) e m, a.1 ∈ s := by
    intro a ha
    rcases mem_place.mp ha with rfl | ha
    · exact he
    · exact hm a ha
  have hsorted := h.place hbyKey hm he hno
  apply Option.ext
  intro y
  constructor
  · intro hy
    obtain ⟨hmem, hyx⟩ := find_some hy
    rcases mem_place.mp hmem with rfl | hmem
    · exact absurd hyx hex
    · exact h.find_of_equiv hbyKey hm hx hmem hyx
  · intro hy
    obtain ⟨hmem, hyx⟩ := find_some hy
    exact hsorted.find_of_equiv hbyKey hplace hx (mem_place.mpr (Or.inr hmem)) hyx

/-- What is found after an assignment: the value assigned, if it was under that key. -/
theorem find_assign (hlt : StrictWeakOn s lt) {m : List (κ × ν)} {k : κ} (v : ν) {x : κ × ν}
    (hm : ∀ e ∈ m, e.1 ∈ s) (hk : k ∈ s) (hx : x.1 ∈ s) (h : Sorted (byKey lt) m) :
    (find (byKey lt) (assign lt m k v) x).map Prod.snd =
      if Incomp lt k x.1 then some v else (find (byKey lt) m x).map Prod.snd := by
  have hbyKey := strictWeakOn_byKey (ν := ν) hlt
  rcases assign_cases lt m k v with ⟨⟨e, he, hek⟩, heq⟩ | ⟨hno, heq⟩
  · have hmap : find (byKey lt) (m.map fun e => if Incomp lt e.1 k then (e.1, v) else e) x =
        (find (byKey lt) m x).map fun e => if Incomp lt e.1 k then (e.1, v) else e := by
      apply find_map
      intro y _
      split_ifs <;> exact ⟨rfl, rfl⟩
    rw [heq, hmap]
    by_cases hkx : Incomp lt k x.1
    · -- the entry under `k` is the one that is looked for
      have hex : Incomp lt e.1 x.1 := hlt.incomp_trans (hm e he) hk hx hek hkx
      rw [if_pos hkx, h.find_of_equiv hbyKey hm hx he hex, Option.map_some, if_pos hek]
      rfl
    · rw [if_neg hkx]
      rcases hfind : find (byKey lt) m x with _ | y
      · rfl
      · obtain ⟨hy, hyx⟩ := find_some hfind
        have hyk : ¬ Incomp lt y.1 k := fun hyk =>
          hkx (hlt.incomp_trans hk (hm y hy) hx hyk.symm hyx)
        rw [Option.map_some, if_neg hyk]
  · rw [heq]
    by_cases hkx : Incomp lt k x.1
    · have hplace : ∀ a ∈ place (byKey lt) (k, v) m, a.1 ∈ s := by
        intro a ha
        rcases mem_place.mp ha with rfl | ha
        · exact hk
        · exact hm a ha
      rw [if_pos hkx, (h.place hbyKey hm hk hno).find_of_equiv hbyKey hplace hx
        (mem_place.mpr (Or.inl rfl)) hkx]
      rfl
    · have hplace : find (byKey lt) (place (byKey lt) (k, v) m) x = find (byKey lt) m x :=
        find_place_of_not_equiv hlt hm hk hx h hno hkx
      rw [if_neg hkx, hplace]

/-- To look a key up is to look through what was assigned, from the end. -/
theorem find_assignAll (hlt : StrictWeakOn s lt) {es : List (κ × ν)} (hes : ∀ e ∈ es, e.1 ∈ s)
    {x : κ × ν} (hx : x.1 ∈ s) :
    (find (byKey lt) (assignAll lt [] es) x).map Prod.snd =
      (es.reverse.find? fun e => decide (Incomp lt e.1 x.1)).map Prod.snd := by
  induction es using List.reverseRecOn with
  | nil => rfl
  | append_singleton es e ih =>
      have hes' : ∀ e ∈ es, e.1 ∈ s := fun y hy => hes y (List.mem_append_left _ hy)
      have he : e.1 ∈ s := hes e (List.mem_append_right _ (List.mem_singleton_self e))
      have hkeys : ∀ e ∈ assignAll lt [] es, e.1 ∈ s := key_mem_assignAll (by simp) hes'
      have hsorted : Sorted (byKey lt) (assignAll lt [] es) :=
        sorted_assignAll hlt (by simp) hes' Sorted.nil
      rw [assignAll_append, assignAll_cons, assignAll_nil, find_assign hlt e.2 hkeys he hx hsorted,
        List.reverse_append, List.reverse_singleton, List.singleton_append]
      by_cases hinc : Incomp lt e.1 x.1
      · rw [if_pos hinc, List.find?_cons, decide_eq_true hinc]
        rfl
      · rw [if_neg hinc, List.find?_cons, decide_eq_false hinc]
        exact ih hes'

end Ordered

end Msgpack11.SortedMap
