/-
Cutting a byte string into the messages of a self-delimiting format.

A reader is *framed* when it asks for more on the empty input, when what it reads
does not depend on what follows, and when what it has read can be cut off and
read alone. For such a reader every byte string has one greedy split: messages,
each accepted to its last byte, and a rest that does not begin with a message
(`exists_greedy`, `Greedy.unique`).

A greedy split can be continued on more input from its rest alone
(`Greedy.append`). So a client that sees the input in pieces and keeps only the
rest between them ends up with the split of the whole, wherever the pieces were
cut.
-/
import Msgpack11.Codec

set_option autoImplicit false

namespace Msgpack11.Framing

open Msgpack11.Streams Msgpack11.Codec

variable {α : Type}

/-- What it takes to read messages one after the other. -/
structure Framed (g : Reader α) : Prop where
  stable : Stable g
  nil : ∀ p, g [] ≠ .ok p
  cut : ∀ {s a r}, g s = .ok (a, r) → ∃ e, s = e ++ r ∧ g e = .ok (a, [])

/-- A decoder of a format without empty encodings is framed. -/
theorem Framed.of_decodes {g : Reader α} {f : α → Option (List UInt8)} {P : α → Prop}
    (hd : Decodes g f P) (hg : Stable g) (hnil : ∀ p, g [] ≠ .ok p) : Framed g := by
  refine ⟨hg, hnil, ?_⟩
  intro s a r hok
  obtain ⟨hP, e, he, rfl⟩ := hd.sound hok
  have halone := hd.complete [] he hP
  rw [List.append_nil] at halone
  exact ⟨e, rfl, halone⟩

/-- A message is not empty. -/
theorem Framed.length_pos {g : Reader α} (hg : Framed g) {e : List UInt8} {p : α × List UInt8}
    (h : g e = .ok p) : 0 < e.length := by
  apply List.length_pos_iff.mpr
  intro hnil
  rw [hnil] at h
  exact hg.nil _ h

/-- `s` is the messages `fs`, each with its value, and a rest that begins with none. -/
structure Greedy (g : Reader α) (s : List UInt8) (fs : List (List UInt8 × α))
    (rest : List UInt8) : Prop where
  split : s = (fs.map Prod.fst).flatten ++ rest
  accepted : ∀ f ∈ fs, g f.1 = .ok (f.2, [])
  stuck : ∀ p t a, rest = p ++ t → g p ≠ .ok (a, [])

namespace Greedy

variable {g : Reader α} {s t rest rest' : List UInt8} {fs fs' : List (List UInt8 × α)}

/-- Nothing but the rest of a split matters for what follows. -/
theorem append (h : Greedy g s fs rest) (h' : Greedy g (rest ++ t) fs' rest') :
    Greedy g (s ++ t) (fs ++ fs') rest' := by
  refine ⟨?_, ?_, h'.stuck⟩
  · rw [h.split, List.append_assoc, h'.split, List.map_append, List.flatten_append,
      List.append_assoc]
  · intro f hf
    rcases List.mem_append.mp hf with hf | hf
    · exact h.accepted f hf
    · exact h'.accepted f hf

theorem nil (hg : Framed g) : Greedy g [] [] [] := by
  refine ⟨rfl, by simp, ?_⟩
  intro p t a hpt
  rw [(List.append_eq_nil_iff.mp hpt.symm).1]
  exact hg.nil _

/-- The split after a first message. -/
theorem cons {e : List UInt8} {a : α} (ha : g e = .ok (a, [])) (h : Greedy g s fs rest) :
    Greedy g (e ++ s) ((e, a) :: fs) rest := by
  refine ⟨?_, List.forall_mem_cons.mpr ⟨ha, h.accepted⟩, h.stuck⟩
  rw [h.split, List.map_cons, List.flatten_cons, List.append_assoc]

/-- Conversely, the first message is what is read first. -/
theorem uncons (hg : Framed g) {f : List UInt8 × α} (h : Greedy g s (f :: fs) rest) :
    ∃ r, s = f.1 ++ r ∧ g s = .ok (f.2, r) ∧ Greedy g r fs rest := by
  have hsplit := h.split
  rw [List.map_cons, List.flatten_cons, List.append_assoc] at hsplit
  have hok := hg.stable.ok ((fs.map Prod.fst).flatten ++ rest)
    (h.accepted f (List.mem_cons_self ..))
  rw [← hsplit, List.nil_append] at hok
  exact ⟨_, hsplit, hok, rfl, fun x hx => h.accepted x (List.mem_cons_of_mem _ hx), h.stuck⟩

/-- Where reading fails the split ends. -/
theorem of_error (hg : Framed g) {x : Failure} (hx : g s = .error x) : Greedy g s [] s := by
  refine ⟨rfl, by simp, ?_⟩
  intro p t a hpt hok
  have hmore := hg.stable.ok t hok
  rw [← hpt, hx] at hmore
  cases hmore

theorem rest_error (hg : Framed g) (h : Greedy g s fs rest) : ∃ x, g rest = .error x := by
  rcases hrest : g rest with x | ⟨a, r⟩
  · exact ⟨x, rfl⟩
  · obtain ⟨e, he, hok⟩ := hg.cut hrest
    exact absurd hok (h.stuck e r a he)

/-- What has a first message can be read. -/
theorem not_stuck (hg : Framed g) {f : List UInt8 × α} (h : Greedy g s (f :: fs) rest)
    (h' : Greedy g s [] rest') : False := by
  obtain ⟨r, hs, -, -⟩ := h.uncons hg
  exact h'.stuck f.1 r f.2 (h'.split.symm.trans hs) (h.accepted f (List.mem_cons_self ..))

/-- A string has one greedy split. -/
theorem unique (hg : Framed g) (h : Greedy g s fs rest) (h' : Greedy g s fs' rest') :
    fs = fs' ∧ rest = rest' := by
  induction fs generalizing s fs' with
  | nil =>
      rcases fs' with _ | ⟨f', fs'⟩
      · exact ⟨rfl, h.split.symm.trans h'.split⟩
      · exact (h'.not_stuck hg h).elim
  | cons f fs ih =>
      rcases fs' with _ | ⟨f', fs'⟩
      · exact (h.not_stuck hg h').elim
      obtain ⟨r, hs, hok, hrest⟩ := h.uncons hg
      obtain ⟨r', hs', hok', hrest'⟩ := h'.uncons hg
      -- both read the same string, so both first messages end at the same place
      rw [hok, Except.ok.injEq, Prod.mk.injEq] at hok'
      obtain ⟨hvalue, rfl⟩ := hok'
      have hfirst : f = f' := Prod.ext (List.append_cancel_right (hs.symm.trans hs')) hvalue
      obtain ⟨rfl, hr⟩ := ih hrest hrest'
      exact ⟨by rw [hfirst], hr⟩

end Greedy

/-- Every string has a greedy split. -/
theorem exists_greedy {g : Reader α} (hg : Framed g) (s : List UInt8) :
    ∃ fs rest, Greedy g s fs rest := by
  obtain ⟨n, hn⟩ : ∃ n, s.length ≤ n := ⟨s.length, Nat.le_refl _⟩
  induction n generalizing s with
  | zero =>
      rw [List.eq_nil_of_length_eq_zero (Nat.le_zero.mp hn)]
      exact ⟨[], [], Greedy.nil hg⟩
  | succ n ih =>
      rcases hs : g s with x | ⟨a, r⟩
      · exact ⟨[], s, Greedy.of_error hg hs⟩
      · obtain ⟨e, rfl, he⟩ := hg.cut hs
        -- what is left is shorter
        have hpos := hg.length_pos he
        rw [List.length_append] at hn
        obtain ⟨fs, rest, h⟩ := ih r (by omega)
        exact ⟨(e, a) :: fs, rest, h.cons he⟩

end Msgpack11.Framing
