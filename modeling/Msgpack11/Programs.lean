/-
Programs that pass on a state and may not come to an end, as values of
`StateT σ Option`, and what is true of the results that they do return.

`Yields m Q` is a postcondition that needs no precondition: it is kept whatever the
state is that `m` finds. So it goes through a program along its binds (`Yields.bind`),
and through loops that collect results (`Yields.collect`, `Yields.forEach`).
-/
import Mathlib.Tactic.Common

set_option autoImplicit false

namespace Msgpack11.Programs

variable {σ α β : Type}

/-! ## Postconditions -/

/-- Whatever the state, a result of `m` satisfies `Q`. -/
def Yields (m : StateT σ Option α) (Q : α → Prop) : Prop := ∀ s a s', m s = some (a, s') → Q a

/-- A bind hands on the result and the state, if there are any. -/
theorem bind_apply (m : StateT σ Option α) (f : α → StateT σ Option β) (s : σ) :
    (m >>= f) s = (m s).bind fun p => f p.1 p.2 := rfl

namespace Yields

variable {m : StateT σ Option α} {P Q : α → Prop}

/-- Nothing is asked of the results. -/
theorem any : Yields m fun _ => True := fun _ _ _ _ => trivial

/-- A postcondition may be weakened. -/
theorem imp (h : Yields m P) (hPQ : ∀ a, P a → Q a) : Yields m Q :=
  fun s a s' heq => hPQ a (h s a s' heq)

/-- A program that returns at once. -/
theorem pure {a : α} (h : Q a) : Yields (σ := σ) (pure a) Q := by
  intro s b s' heq
  cases heq
  exact h

/-- A program that returns nothing. -/
theorem failure : Yields (σ := σ) failure Q := by
  intro s a s' heq
  cases heq

/-- What a program yields is what the next one may rely on. -/
theorem bind {f : α → StateT σ Option β} {R : β → Prop} (hm : Yields m P)
    (hf : ∀ a, P a → Yields (f a) R) : Yields (m >>= f) R := by
  intro s b s'' heq
  rw [bind_apply] at heq
  obtain ⟨⟨a, s'⟩, h, h'⟩ := Option.bind_eq_some_iff.mp heq
  exact hf a (hm s a s' h) s' b s'' h'

/-- Either branch, under its condition. -/
theorem ite {c : Prop} [Decidable c] {m' : StateT σ Option α} (h : c → Yields m Q)
    (h' : ¬ c → Yields m' Q) : Yields (if c then m else m') Q := by
  by_cases hc : c
  · rw [if_pos hc]
    exact h hc
  · rw [if_neg hc]
    exact h' hc

/-- What follows a program has to agree on its results only. -/
theorem bind_congr {f g : α → StateT σ Option β} (hm : Yields m P) (h : ∀ a, P a → f a = g a) :
    m >>= f = m >>= g := by
  funext s
  rw [bind_apply, bind_apply]
  rcases hs : m s with _ | ⟨a, s'⟩
  · rfl
  · rw [Option.bind_some, Option.bind_some, h a (hm s a s' hs)]

end Yields

/-! ## Loops -/

/-- Run a program a number of times. -/
def collect (m : StateT σ Option α) : ℕ → StateT σ Option (List α)
  | 0 => pure []
  | n + 1 => do
      let a ← m
      let as ← collect m n
      return a :: as

/-- Run a program for each element of a list. -/
def forEach (f : α → StateT σ Option β) : List α → StateT σ Option (List (α × β))
  | [] => pure []
  | a :: as => do
      let b ← f a
      let es ← forEach f as
      return (a, b) :: es

theorem Yields.collect {m : StateT σ Option α} {Q : α → Prop} (h : Yields m Q) (n : ℕ) :
    Yields (Programs.collect m n) fun as => as.length = n ∧ ∀ a ∈ as, Q a := by
  induction n with
  | zero => exact Yields.pure ⟨rfl, by simp⟩
  | succ n ih =>
      refine h.bind fun a ha => ih.bind fun as has => Yields.pure ⟨?_, ?_⟩
      · rw [List.length_cons, has.1]
      · rw [List.forall_mem_cons]
        exact ⟨ha, has.2⟩

theorem Yields.forEach {f : α → StateT σ Option β} {Q : β → Prop} (h : ∀ a, Yields (f a) Q)
    (as : List α) :
    Yields (Programs.forEach f as) fun es => es.map Prod.fst = as ∧ ∀ e ∈ es, Q e.2 := by
  induction as with
  | nil => exact Yields.pure ⟨rfl, by simp⟩
  | cons a as ih =>
      refine (h a).bind fun b hb => ih.bind fun es hes => Yields.pure ⟨?_, ?_⟩
      · rw [List.map_cons, hes.1]
      · rw [List.forall_mem_cons]
        exact ⟨hb, hes.2⟩

end Msgpack11.Programs
