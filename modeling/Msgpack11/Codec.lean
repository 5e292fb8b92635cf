/-
Readers against encoders: what it means that a reader decodes a format, and how
its two failures answer to the strings it was given.

An encoder is a function to `Option (List UInt8)`, `none` on what has no
encoding. `Decodes g f P` says that the reader `g` accepts the encodings of the
values that satisfy `P`, each followed by anything, and nothing else. Two facts
about the format are corollaries for every such reader: an encoding followed by
more bytes can be taken apart in one way only (`Decodes.unique`), and so no
encoding is a proper prefix of another (`Decodes.prefix_free`).

What an encoding costs is its `size`. A list costs what its elements cost
(`length_concat`), so a bound for each element is a bound for the list
(`sum_le_length_concat`).

A failed read is one of two kinds. `FailsAt g s` says that `g` rejects `s` at its
last byte and not before; `Resumes g S` says that a read that ran out of input
can be completed, unless the input is one of `S`. Both pass through the loop
`Reader.times`.
-/
import Msgpack11.Streams
import Mathlib.Algebra.Order.BigOperators.Group.List
import Mathlib.Algebra.Order.Ring.Nat

set_option autoImplicit false

namespace Msgpack11.Codec

open Msgpack11.Streams

variable {α β : Type}

/-! ## Encoders -/

/-- One encoding after the other. -/
def cat (x y : Option (List UInt8)) : Option (List UInt8) :=
  match x, y with
  | some a, some b => some (a ++ b)
  | _, _ => none

/-- The encodings of the elements of a list, one after the other. -/
def concat (f : α → Option (List UInt8)) : List α → Option (List UInt8)
  | [] => some []
  | a :: as => cat (f a) (concat f as)

theorem concat_map (f : β → Option (List UInt8)) (g : α → β) (as : List α) :
    concat f (as.map g) = concat (fun a => f (g a)) as := by
  induction as with
  | nil => rfl
  | cons a as ih => rw [List.map_cons, concat, concat, ih]

theorem cat_eq_some {x y : Option (List UInt8)} {e : List UInt8} :
    cat x y = some e ↔ ∃ a b, x = some a ∧ y = some b ∧ e = a ++ b := by
  cases x <;> cases y <;> simp [cat, eq_comm]

@[simp] theorem concat_nil (f : α → Option (List UInt8)) : concat f [] = some [] := rfl

theorem concat_cons_eq_some {f : α → Option (List UInt8)} {a : α} {as : List α}
    {e : List UInt8} : concat f (a :: as) = some e ↔
      ∃ e₁ e₂, f a = some e₁ ∧ concat f as = some e₂ ∧ e = e₁ ++ e₂ := cat_eq_some

/-- In an encoded list every element has an encoding. -/
theorem encoded_of_mem {f : α → Option (List UInt8)} {as : List α} {e : List UInt8}
    (h : concat f as = some e) {a : α} (ha : a ∈ as) : ∃ e', f a = some e' := by
  induction as generalizing e with
  | nil => cases ha
  | cons b bs ih =>
      obtain ⟨e₁, e₂, h₁, h₂, -⟩ := concat_cons_eq_some.mp h
      rcases List.mem_cons.mp ha with rfl | ha
      · exact ⟨e₁, h₁⟩
      · exact ih h₂ ha

/-- How many bytes there are, none where there is no encoding. -/
def size (x : Option (List UInt8)) : ℕ := (x.getD []).length

@[simp] theorem size_some (e : List UInt8) : size (some e) = e.length := rfl

theorem size_cat_le (x y : Option (List UInt8)) : size (cat x y) ≤ size x + size y := by
  cases x <;> cases y <;> simp [cat]

theorem size_concat_le (f : α → Option (List UInt8)) (as : List α) :
    size (concat f as) ≤ (as.map fun a => size (f a)).sum := by
  induction as with
  | nil => simp
  | cons a as ih =>
      rw [List.map_cons, List.sum_cons]
      exact Nat.le_trans (size_cat_le _ _) (Nat.add_le_add_left ih _)

/-- Where the whole list has an encoding, its size is the sum. -/
theorem length_concat {f : α → Option (List UInt8)} {as : List α} {e : List UInt8}
    (h : concat f as = some e) : e.length = (as.map fun a => size (f a)).sum := by
  induction as generalizing e with
  | nil =>
      cases h
      rfl
  | cons a as ih =>
      obtain ⟨e₁, e₂, h₁, h₂, rfl⟩ := concat_cons_eq_some.mp h
      rw [List.length_append, List.map_cons, List.sum_cons, h₁, ih h₂, size_some]

/-- What is bounded by the encoding of each element is bounded by that of the list. -/
theorem sum_le_length_concat {f : α → Option (List UInt8)} {as : List α} {e : List UInt8}
    (h : concat f as = some e) {g : α → ℕ}
    (hg : ∀ a ∈ as, ∀ e', f a = some e' → g a ≤ e'.length) : (as.map g).sum ≤ e.length := by
  rw [length_concat h]
  apply List.sum_le_sum
  intro a ha
  obtain ⟨e', he'⟩ := encoded_of_mem h ha
  rw [he', size_some]
  exact hg a ha e' he'

/-! ## Decoding -/

/-- `g` accepts exactly the encodings by `f` of the values with `P`, and reads
each of them whatever follows it. -/
structure Decodes (g : Reader α) (f : α → Option (List UInt8)) (P : α → Prop) : Prop where
  complete : ∀ {a e} (r : List UInt8), f a = some e → P a → g (e ++ r) = .ok (a, r)
  sound : ∀ {s a r}, g s = .ok (a, r) → P a ∧ ∃ e, f a = some e ∧ s = e ++ r

namespace Decodes

variable {g : Reader α} {f : α → Option (List UInt8)} {P : α → Prop}

/-- A string begins with at most one encoding. -/
theorem unique (h : Decodes g f P) {a b : α} {e e' r r' : List UInt8} (ha : f a = some e)
    (hb : f b = some e') (hPa : P a) (hPb : P b) (heq : e ++ r = e' ++ r') :
    a = b ∧ e = e' ∧ r = r' := by
  have h1 := h.complete r ha hPa
  have h2 := h.complete r' hb hPb
  rw [heq, h2] at h1
  obtain ⟨rfl, rfl⟩ := Prod.mk.inj (Except.ok.inj h1)
  exact ⟨rfl, List.append_cancel_right heq, rfl⟩

theorem prefix_free (h : Decodes g f P) {a b : α} {e t : List UInt8} (ha : f a = some e)
    (hb : f b = some (e ++ t)) (hPa : P a) (hPb : P b) : t = [] := by
  have heq : e ++ t = (e ++ t) ++ [] := (List.append_nil _).symm
  exact (h.unique ha hb hPa hPb heq).2.2

/-- A loop decodes the lists of its count. -/
theorem times (h : Decodes g f P) (n : ℕ) :
    Decodes (Reader.times g n) (concat f) (fun as => as.length = n ∧ ∀ a ∈ as, P a) := by
  induction n with
  | zero =>
      constructor
      · rintro as e r hf ⟨hlen, -⟩
        rw [List.length_eq_zero_iff] at hlen
        subst hlen
        cases hf
        rfl
      · intro s as r hok
        cases hok
        exact ⟨⟨rfl, fun a ha => by cases ha⟩, [], rfl, rfl⟩
  | succ n ih =>
      constructor
      · rintro as e r hf ⟨hlen, hP⟩
        rcases as with _ | ⟨a, as⟩
        · cases hlen
        -- the first element is read, then the rest of the list
        obtain ⟨e₁, e₂, h1, h2, rfl⟩ := concat_cons_eq_some.mp hf
        rw [List.forall_mem_cons] at hP
        have hfirst := h.complete (e₂ ++ r) h1 hP.1
        have hrest := ih.complete r h2 ⟨by simpa using hlen, hP.2⟩
        rw [List.append_assoc, Reader.times, Reader.run_bind_of_ok hfirst,
          Reader.run_bind_of_ok hrest]
        rfl
      · intro s as r hok
        -- what a round consumed is the encoding of its element
        obtain ⟨a, r₁, h1, hok⟩ := Reader.bind_ok hok
        obtain ⟨as', r₂, h2, hok⟩ := Reader.bind_ok hok
        cases hok
        obtain ⟨hPa, e₁, hf₁, rfl⟩ := h.sound h1
        obtain ⟨⟨hlen, hPs⟩, e₂, hf₂, rfl⟩ := ih.sound h2
        refine ⟨⟨by rw [List.length_cons, hlen], List.forall_mem_cons.mpr ⟨hPa, hPs⟩⟩,
          e₁ ++ e₂, concat_cons_eq_some.mpr ⟨e₁, e₂, hf₁, hf₂, rfl⟩, ?_⟩
        rw [List.append_assoc]

/-- Two decoders in a row decode the pairs. -/
theorem pair {g' : Reader β} {f' : β → Option (List UInt8)} {P' : β → Prop}
    (h : Decodes g f P) (h' : Decodes g' f' P') :
    Decodes (Reader.pair g g') (fun p => cat (f p.1) (f' p.2)) (fun p => P p.1 ∧ P' p.2) := by
  constructor
  · rintro ⟨a, b⟩ e r hf ⟨hPa, hPb⟩
    obtain ⟨e₁, e₂, h1, h2, rfl⟩ := cat_eq_some.mp hf
    have hfirst := h.complete (e₂ ++ r) h1 hPa
    have hsecond := h'.complete r h2 hPb
    rw [List.append_assoc, Reader.pair, Reader.run_bind_of_ok hfirst,
      Reader.run_bind_of_ok hsecond]
    rfl
  · intro s p r hok
    obtain ⟨a, r₁, h1, hok⟩ := Reader.bind_ok hok
    obtain ⟨b, r₂, h2, hok⟩ := Reader.bind_ok hok
    cases hok
    obtain ⟨hPa, e₁, hf₁, rfl⟩ := h.sound h1
    obtain ⟨hPb, e₂, hf₂, rfl⟩ := h'.sound h2
    refine ⟨⟨hPa, hPb⟩, e₁ ++ e₂, cat_eq_some.mpr ⟨e₁, e₂, hf₁, hf₂, rfl⟩, ?_⟩
    rw [List.append_assoc]

end Decodes

/-- A loop over pairs reads twice as many elements. -/
theorem times_two_mul (g : Reader α) (n : ℕ) :
    Reader.times g (2 * n) =
      Reader.times (Reader.pair g g) n >>= fun ps => pure (ps.flatMap fun p => [p.1, p.2]) := by
  induction n with
  | zero => rfl
  | succ n ih =>
      show Reader.times g (2 * n + 1 + 1) = _
      simp only [Reader.times, ih, Reader.pair, bind_assoc, pure_bind, List.flatMap_cons,
        List.cons_append, List.nil_append]

theorem times_pair_error_iff {g : Reader α} {n : ℕ} {s : List UInt8} {x : Failure} :
    Reader.times (Reader.pair g g) n s = .error x ↔ Reader.times g (2 * n) s = .error x := by
  rw [times_two_mul, Reader.run_bind]
  cases Reader.times (Reader.pair g g) n s <;> simp

/-! ## Rejected encodings -/

/-- Encodings of values outside `P` are format errors, whatever follows. -/
def Rejects (g : Reader α) (f : α → Option (List UInt8)) (P : α → Prop) : Prop :=
  ∀ {a e} (r : List UInt8), f a = some e → ¬ P a → g (e ++ r) = .error .formatError

theorem Rejects.pair {g : Reader α} {g' : Reader β} {f : α → Option (List UInt8)}
    {f' : β → Option (List UInt8)} {P : α → Prop} {P' : β → Prop} (hd : Decodes g f P)
    (h : Rejects g f P) (h' : Rejects g' f' P') :
    Rejects (Reader.pair g g') (fun p => cat (f p.1) (f' p.2)) (fun p => P p.1 ∧ P' p.2) := by
  intro p e r hf hbad
  obtain ⟨e₁, e₂, h1, h2, rfl⟩ := cat_eq_some.mp hf
  rw [List.append_assoc]
  -- the first component is read if it is good, and stops the reader if not
  by_cases hP : P p.1
  · have hP' : ¬ P' p.2 := fun hP' => hbad ⟨hP, hP'⟩
    rw [Reader.pair, Reader.run_bind_of_ok (hd.complete (e₂ ++ r) h1 hP)]
    exact Reader.run_bind_of_error (h' r h2 hP')
  · exact Reader.run_bind_of_error (h (e₂ ++ r) h1 hP)

/-- The first bad element of a list stops the loop over it. -/
theorem Rejects.times {g : Reader α} {f : α → Option (List UInt8)} {P : α → Prop}
    (hd : Decodes g f P) (h : Rejects g f P) {as : List α} {body : List UInt8}
    (hf : concat f as = some body) (hbad : ∃ a ∈ as, ¬ P a) (r : List UInt8) :
    Reader.times g as.length (body ++ r) = .error .formatError := by
  induction as generalizing body with
  | nil =>
      obtain ⟨a, ha, -⟩ := hbad
      cases ha
  | cons a as ih =>
      obtain ⟨e₁, e₂, h1, h2, rfl⟩ := concat_cons_eq_some.mp hf
      rw [List.append_assoc, List.length_cons, Reader.times]
      by_cases hP : P a
      · have hrest : ∃ a ∈ as, ¬ P a := by
          obtain ⟨b, hb, hPb⟩ := hbad
          rcases List.mem_cons.mp hb with rfl | hb
          · exact absurd hP hPb
          · exact ⟨b, hb, hPb⟩
        rw [Reader.run_bind_of_ok (hd.complete (e₂ ++ r) h1 hP)]
        exact Reader.run_bind_of_error (ih h2 hrest)
      · exact Reader.run_bind_of_error (h (e₂ ++ r) h1 hP)

/-! ## Format errors -/

/-- `g` rejects `s` having read all of it, and asks for more on every shorter prefix. -/
structure FailsAt (g : Reader α) (s : List UInt8) : Prop where
  error : g s = .error .formatError
  before : ∀ p t, s = p ++ t → t ≠ [] → g p = .error .endOfBuffer

/-- On a proper prefix of what it reads to the end, a stable reader asks for more. -/
theorem endOfBuffer_of_shorter {g : Reader α} (hg : Stable g) {p t : List UInt8} {a : α}
    (h : g (p ++ t) = .ok (a, [])) (ht : t ≠ []) : g p = .error .endOfBuffer := by
  rcases hp : g p with (_ | _) | ⟨b, r⟩
  · rfl
  · rw [hg.invalid t hp] at h
    cases h
  · rw [hg.ok t hp] at h
    have hnil := congrArg Prod.snd (Except.ok.inj h)
    exact absurd (List.append_eq_nil_iff.mp hnil).2 ht

namespace FailsAt

variable {g : Reader α} {h : α → Reader β}

theorem bind (hg : Stable g) {s₁ s₂ : List UInt8} {a : α} (h1 : g s₁ = .ok (a, []))
    (h2 : FailsAt (h a) s₂) : FailsAt (g >>= h) (s₁ ++ s₂) := by
  have hrun : ∀ q, (g >>= h) (s₁ ++ q) = h a q := by
    intro q
    have hok := hg.ok q h1
    rw [List.nil_append] at hok
    exact Reader.run_bind_of_ok hok
  refine ⟨(hrun s₂).trans h2.error, ?_⟩
  intro p t hpt ht
  -- a prefix ends in the second part or in the first
  rcases List.append_eq_append_iff.mp hpt with ⟨q, hp, hq⟩ | ⟨q, hs, hq⟩
  · rw [hp, hrun]
    exact h2.before q t hq ht
  · by_cases hnil : q = []
    · -- the prefix ends where the first reader does
      rw [hnil, List.append_nil] at hs
      rw [hnil, List.nil_append] at hq
      have hempty := h2.before [] s₂ rfl (by rw [← hq]; exact ht)
      rw [← hs, ← List.append_nil s₁, hrun]
      exact hempty
    · rw [hs] at h1
      exact Reader.run_bind_of_error (endOfBuffer_of_shorter hg h1 hnil)

/-- A failing first reader makes the sequence fail with it. -/
theorem bind_left {s : List UInt8} (hg : FailsAt g s) : FailsAt (g >>= h) s :=
  ⟨Reader.run_bind_of_error hg.error,
    fun p t hpt ht => Reader.run_bind_of_error (hg.before p t hpt ht)⟩

/-- A loop fails where one of its rounds does. -/
theorem times {f : α → Option (List UInt8)} {P : α → Prop} (hd : Decodes g f P) (hg : Stable g)
    {as : List α} {body s : List UInt8} {n : ℕ} (hf : concat f as = some body)
    (hP : ∀ a ∈ as, P a) (hlen : as.length < n) (hs : FailsAt g s) :
    FailsAt (Reader.times g n) (body ++ s) := by
  induction as generalizing body n with
  | nil =>
      cases hf
      obtain ⟨m, rfl⟩ := Nat.exists_eq_succ_of_ne_zero (Nat.ne_of_gt hlen)
      exact hs.bind_left
  | cons a as ih =>
      obtain ⟨m, rfl⟩ := Nat.exists_eq_succ_of_ne_zero (Nat.ne_of_gt (Nat.zero_lt_of_lt hlen))
      obtain ⟨e₁, e₂, h1, h2, rfl⟩ := concat_cons_eq_some.mp hf
      rw [List.forall_mem_cons] at hP
      have hfirst := hd.complete [] h1 hP.1
      rw [List.append_nil] at hfirst
      have hrest := ih h2 hP.2 (Nat.lt_of_succ_lt_succ hlen)
      rw [List.append_assoc]
      exact FailsAt.bind hg hfirst hrest.bind_left

end FailsAt

/-! ## Input that ran out -/

/-- What `g` asks for more of can be completed to something it reads to the end,
unless it is one of `S`. -/
def Resumes (g : Reader α) (S : List UInt8 → Prop) : Prop :=
  ∀ s, g s = .error .endOfBuffer → (∃ t a, g (s ++ t) = .ok (a, [])) ∨ S s

/-- A loop over a reader that some input `z` satisfies. -/
theorem Resumes.times {g : Reader α} {f : α → Option (List UInt8)} {P : α → Prop}
    (hd : Decodes g f P) (hg : Stable g) {S : List UInt8 → Prop} (hr : Resumes g S) {z : List UInt8}
    {b : α} (hz : g z = .ok (b, [])) (n : ℕ) :
    Resumes (Reader.times g n) fun s => ∃ as body s', concat f as = some body ∧
      (∀ a ∈ as, P a) ∧ as.length < n ∧ S s' ∧ s = body ++ s' := by
  have hfill : ∀ n, ∃ t bs, Reader.times g n t = .ok (bs, []) := by
    intro n
    induction n with
    | zero => exact ⟨[], [], rfl⟩
    | succ n ih =>
        obtain ⟨t, bs, ht⟩ := ih
        refine ⟨z ++ t, b :: bs, ?_⟩
        rw [Reader.times, Reader.run_bind_of_ok (hg.ok t hz), List.nil_append,
          Reader.run_bind_of_ok ht]
        rfl
  -- the loop ran out in its first round or in a later one
  intro s herr
  induction n generalizing s with
  | zero => cases herr
  | succ n ih =>
      rcases Reader.bind_error herr with hfirst | ⟨a, r, hfirst, hrest⟩
      · rcases hr s hfirst with ⟨t, a, ht⟩ | hS
        · -- complete the round, then fill the others
          obtain ⟨t', bs, ht'⟩ := hfill n
          refine Or.inl ⟨t ++ t', a :: bs, ?_⟩
          rw [← List.append_assoc, Reader.times, Reader.run_bind_of_ok (hg.ok t' ht),
            List.nil_append, Reader.run_bind_of_ok ht']
          rfl
        · exact Or.inr ⟨[], [], s, rfl, by simp, Nat.succ_pos n, hS, rfl⟩
      · have hrest' : Reader.times g n r = .error .endOfBuffer := by
          rcases Reader.bind_error hrest with herr' | ⟨_, _, -, hpure⟩
          · exact herr'
          · cases hpure
        obtain ⟨hPa, e, hfa, rfl⟩ := hd.sound hfirst
        rcases ih r hrest' with ⟨t, bs, ht⟩ | ⟨as, body, s', hfas, hPas, hlen, hS, rfl⟩
        · refine Or.inl ⟨t, a :: bs, ?_⟩
          rw [Reader.times, Reader.run_bind_of_ok (hg.ok t hfirst), Reader.run_bind_of_ok ht]
          rfl
        · refine Or.inr ⟨a :: as, e ++ body, s', concat_cons_eq_some.mpr ⟨e, body, hfa, hfas, rfl⟩,
            List.forall_mem_cons.mpr ⟨hPa, hPas⟩, Nat.succ_lt_succ hlen, hS, ?_⟩
          rw [List.append_assoc]

/-- Reading bytes can always go on. -/
theorem take_resumes (n : ℕ) : Resumes (Reader.take n) fun _ => False := by
  intro s herr
  have hlt := (Reader.take_error herr).2
  refine Or.inl ⟨List.replicate (n - s.length) 0, s ++ List.replicate (n - s.length) 0, ?_⟩
  have hlen : (s ++ List.replicate (n - s.length) (0 : UInt8)).length = n := by
    rw [List.length_append, List.length_replicate]
    omega
  have h := Reader.take_append [] hlen
  rwa [List.append_nil] at h

end Msgpack11.Codec
