/-
Machines that emit events, simulation between them, and the queue.

A machine is a step function: an action is refused, or it changes the state and
emits events. What an observer of a run sees is the list of events, its trace.
One machine simulates another when each of its steps can be matched by a run of
the other with the same events; then every trace of the first is a trace of the
second (`Simulates.run`).

The queue serves its elements in order. Its traces have one law, `Fifo.conservation`:
what was queued before and what was pushed is what was served, in order, followed
by what is still queued. `Fifo.sticky` is the queue that closes at the first pop it
cannot serve and ignores what comes after.
-/
import Mathlib.Tactic.Common
import Mathlib.Data.List.Basic

set_option autoImplicit false

namespace Msgpack11.Machines

variable {σ τ α β γ ε : Type}

/-! ## Runs -/

/-- A run: all actions are taken, one after the other, and the events are collected. -/
def run (step : σ → α → Option (σ × List ε)) (s : σ) : List α → Option (σ × List ε)
  | [] => some (s, [])
  | a :: as => do
      let (s', events) ← step s a
      let (s'', more) ← run step s' as
      pure (s'', events ++ more)

section Run

variable {step : σ → α → Option (σ × List ε)}

@[simp] theorem run_nil (s : σ) : run step s [] = some (s, []) := rfl

/-- A run is a step and a run from where the step leads. -/
theorem run_cons_eq_some {s u : σ} {a : α} {as : List α} {tr : List ε} :
    run step s (a :: as) = some (u, tr) ↔
      ∃ t events more, step s a = some (t, events) ∧ run step t as = some (u, more) ∧
        tr = events ++ more := by
  rw [run]
  constructor
  · intro h
    obtain ⟨⟨t, events⟩, hstep, h⟩ := Option.bind_eq_some_iff.mp h
    obtain ⟨⟨u', more⟩, hrun, h⟩ := Option.bind_eq_some_iff.mp h
    cases h
    exact ⟨t, events, more, hstep, hrun, rfl⟩
  · rintro ⟨t, events, more, hstep, hrun, rfl⟩
    simp only [hstep, hrun, Option.bind_eq_bind, Option.bind_some]
    rfl

/-- Two runs, one from where the other has led, are one. -/
theorem run_append {s t u : σ} {as bs : List α} {tr tr' : List ε}
    (h : run step s as = some (t, tr)) (h' : run step t bs = some (u, tr')) :
    run step s (as ++ bs) = some (u, tr ++ tr') := by
  induction as generalizing s tr with
  | nil =>
      cases h
      exact h'
  | cons a as ih =>
      obtain ⟨v, events, more, hstep, hrun, rfl⟩ := run_cons_eq_some.mp h
      rw [List.cons_append, run_cons_eq_some]
      exact ⟨v, events, more ++ tr', hstep, ih hrun, List.append_assoc ..⟩

/-- What every step preserves holds after every run. `I` may speak of the events so far. -/
theorem run_invariant {I : σ → List ε → Prop} {s u : σ} {as : List α} {tr : List ε}
    (hstep : ∀ s a t events seen, I s seen → step s a = some (t, events) →
      I t (seen ++ events)) (seen : List ε) (hs : I s seen) (h : run step s as = some (u, tr)) :
    I u (seen ++ tr) := by
  induction as generalizing s seen tr with
  | nil =>
      cases h
      rwa [List.append_nil]
  | cons a as ih =>
      obtain ⟨t, events, more, hfirst, hrun, rfl⟩ := run_cons_eq_some.mp h
      have ht := hstep s a t events seen hs hfirst
      rw [← List.append_assoc]
      exact ih _ ht hrun

end Run

/-! ## Simulation -/

/-- Every step of the first machine is matched by a run of the second, from related
states to related states and with the same events. -/
def Simulates (step : σ → α → Option (σ × List ε)) (step' : τ → γ → Option (τ × List ε))
    (R : σ → τ → Prop) : Prop :=
  ∀ s t a s' events, R s t → step s a = some (s', events) →
    ∃ cs t', run step' t cs = some (t', events) ∧ R s' t'

/-- So is every run. -/
theorem Simulates.run {step : σ → α → Option (σ × List ε)}
    {step' : τ → γ → Option (τ × List ε)} {R : σ → τ → Prop} (h : Simulates step step' R)
    {s s' : σ} {t : τ} {as : List α} {tr : List ε} (hR : R s t)
    (hrun : Machines.run step s as = some (s', tr)) :
    ∃ cs t', Machines.run step' t cs = some (t', tr) ∧ R s' t' := by
  induction as generalizing s t tr with
  | nil =>
      cases hrun
      exact ⟨[], t, rfl, hR⟩
  | cons a as ih =>
      obtain ⟨v, events, more, hfirst, hrest, rfl⟩ := run_cons_eq_some.mp hrun
      obtain ⟨cs, t₁, hcs, hR₁⟩ := h s t a v events hR hfirst
      obtain ⟨ds, t₂, hds, hR₂⟩ := ih hR₁ hrest
      exact ⟨cs ++ ds, t₂, run_append hcs hds, hR₂⟩

/-! ## The queue -/

namespace Fifo

/-- What is done with a queue. -/
inductive Action (α : Type) where
  | push (a : α)
  | pop

/-- The elements pushed in a trace, in order. -/
def pushed (tr : List (α ⊕ β)) : List α := tr.filterMap Sum.getLeft?

/-- What was served in a trace, in order. -/
def served (tr : List (α ⊕ β)) : List β := tr.filterMap Sum.getRight?

@[simp] theorem pushed_nil : pushed ([] : List (α ⊕ β)) = [] := rfl

@[simp] theorem served_nil : served ([] : List (α ⊕ β)) = [] := rfl

@[simp] theorem pushed_append (tr tr' : List (α ⊕ β)) :
    pushed (tr ++ tr') = pushed tr ++ pushed tr' := List.filterMap_append ..

@[simp] theorem served_append (tr tr' : List (α ⊕ β)) :
    served (tr ++ tr') = served tr ++ served tr' := List.filterMap_append ..

@[simp] theorem pushed_inl (a : α) (tr : List (α ⊕ β)) :
    pushed (.inl a :: tr) = a :: pushed tr := rfl

@[simp] theorem served_inl (a : α) (tr : List (α ⊕ β)) : served (.inl a :: tr) = served tr := rfl

@[simp] theorem pushed_inr (b : β) (tr : List (α ⊕ β)) : pushed (.inr b :: tr) = pushed tr := rfl

@[simp] theorem served_inr (b : β) (tr : List (α ⊕ β)) :
    served (.inr b :: tr) = b :: served tr := rfl

variable (serve : α → Option β)

/-- The queue. A pop is refused when there is nothing to serve, or nothing is made of the
first element. -/
def step : List α → Action α → Option (List α × List (α ⊕ β))
  | q, .push a => some (q ++ [a], [.inl a])
  | [], .pop => none
  | a :: q, .pop => (serve a).map fun b => (q, [.inr b])

/-- What a queue does, said once. -/
theorem step_cases {q q' : List α} {c : Action α} {tr : List (α ⊕ β)}
    (h : step serve q c = some (q', tr)) :
    (∃ a, c = .push a ∧ q' = q ++ [a] ∧ tr = [.inl a]) ∨
      (∃ a b, c = .pop ∧ q = a :: q' ∧ serve a = some b ∧ tr = [.inr b]) := by
  cases c with
  | push a =>
      cases h
      exact Or.inl ⟨a, rfl, rfl, rfl⟩
  | pop =>
      rcases q with _ | ⟨a, q⟩
      · cases h
      · rw [step, Option.map_eq_some_iff] at h
        obtain ⟨b, hb, heq⟩ := h
        cases heq
        exact Or.inr ⟨a, b, rfl, rfl, hb, rfl⟩

/-- Nothing is lost, invented, duplicated or reordered. -/
theorem conservation {q q' : List α} {cs : List (Action α)} {tr : List (α ⊕ β)}
    (h : run (step serve) q cs = some (q', tr)) :
    ∃ done, q ++ pushed tr = done ++ q' ∧ done.map serve = (served tr).map some := by
  have hinv : ∀ r c r' events seen, (∃ done, q ++ pushed seen = done ++ r ∧
      done.map serve = (served seen).map some) → step serve r c = some (r', events) →
      ∃ done, q ++ pushed (seen ++ events) = done ++ r' ∧
        done.map serve = (served (seen ++ events)).map some := by
    rintro r c r' events seen ⟨done, hdone, hserved⟩ hstep
    rcases step_cases serve hstep with ⟨a, -, rfl, rfl⟩ | ⟨a, b, -, rfl, hb, rfl⟩
    · refine ⟨done, ?_, ?_⟩
      · simp [← List.append_assoc, hdone]
      · simpa using hserved
    · -- the first element moves to those that are done
      refine ⟨done ++ [a], ?_, ?_⟩
      · simp [hdone]
      · simp [hserved, hb]
  have hend := run_invariant hinv [] ⟨[], by simp, rfl⟩ h
  rwa [List.nil_append] at hend

/-- Started empty, the queue has served a beginning of what was pushed. -/
theorem served_take {q' : List α} {cs : List (Action α)} {tr : List (α ⊕ β)}
    (h : run (step serve) [] cs = some (q', tr)) :
    ∃ k, k ≤ (pushed tr).length ∧ ((pushed tr).take k).map serve = (served tr).map some ∧
      (pushed tr).drop k = q' := by
  obtain ⟨done, hdone, hserved⟩ := conservation serve h
  rw [List.nil_append] at hdone
  refine ⟨done.length, ?_, ?_, ?_⟩
  · rw [hdone, List.length_append]
    omega
  · rw [hdone, List.take_left, hserved]
  · rw [hdone, List.drop_left]

/-! ### A queue that closes -/

/-- The queue that closes at the first pop it cannot serve. -/
def sticky : Option (List α) → Action α → Option (List α) × List (α ⊕ β)
  | none, _ => (none, [])
  | some q, c =>
      match step serve q c with
      | some (q', tr) => (some q', tr)
      | none => (none, [])

/-- All actions on the queue that closes, and the events of all. -/
def stickyRun (q : Option (List α)) : List (Action α) → Option (List α) × List (α ⊕ β)
  | [] => (q, [])
  | c :: cs =>
      let (q', tr) := sticky serve q c
      let (q'', tr') := stickyRun q' cs
      (q'', tr ++ tr')

end Fifo

end Msgpack11.Machines
