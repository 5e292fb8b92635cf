/-
What `parse_multi` does: it is the greedy split of its input.

The loop's condition mixes the position with the two failure bits. On a stream
that has not failed it says that input is left (`continues_iff`), so the loop
goes round once for each message and once more if a rest is left, and every round
consumes at least one byte. `parse_multi_loop_eq` gives its outcome for a known
split, and the rest of the file is about splits.

The stop position is written after each value. It is the end of the last message
when there is one, and the caller's old value when there is none: on an empty
input, and on one that fails in its first message. Hence the exact conditions in
`parse_multi_greedy` and `stop_pos_resumes_iff`.
-/
import Msgpack11.Outcomes
import Msgpack11.Framing

set_option autoImplicit false

namespace Msgpack11.MultiParse

open Msgpack11.Streams Msgpack11.Codec Msgpack11.Compare Msgpack11.Framing Msgpack11.Parser
open Msgpack11.Parse Msgpack11.WireReader Msgpack11.Grammar Msgpack11.Outcomes

/-- Messages follow one another without a separator. -/
theorem framed_message : Framed message :=
  Framed.of_decodes (decodes (max_depth + 1)) (stable (max_depth + 1)) fun p h => by cases h

section Loop

variable (is_big_endian : Bool)

/-- The stream of a string of which `rest` is left to read. -/
abbrev unread (size : ℕ) (rest : List UInt8) : IStream := ⟨size, rest, false, false⟩

/-- The loop goes on as long as input is left. -/
theorem continues_iff {size : ℕ} {rest : List UInt8} (vec : List MsgPack) (pos : ℕ)
    (err : String) :
    parse_multi_continues size ⟨unread size rest, vec, pos, err⟩ = true ↔ rest ≠ [] := by
  -- on a stream that has not failed the position is what has been consumed
  rw [← List.length_pos_iff]
  simp only [parse_multi_continues, IStream.tellg, IStream.eof, IStream.fail, Bool.not_false,
    Bool.and_true, decide_eq_true_eq, if_false, Bool.false_eq_true]
  omega

/-- A round that reads a message. -/
theorem body_of_message {size : ℕ} {e r : List UInt8} {w : Wire} (vec : List MsgPack) (pos : ℕ)
    (err : String) (h : message (e ++ r) = .ok (w, r)) :
    parse_multi_body is_big_endian ⟨unread size (e ++ r), vec, pos, err⟩
      = ⟨unread size r, vec ++ [w.denote], size - r.length, err⟩ := by
  have hgood : (unread size (e ++ r)).good = true := rfl
  have hparse := parse_msgpack_of_message is_big_endian hgood h
  simp only [parse_multi_body, parse_stream, hparse, IStream.eof, IStream.fail, IStream.tellg,
    Bool.not_false, if_true, if_false, Bool.false_eq_true]
  congr 1
  omega

/-- A round that fails keeps the values and the position. -/
theorem body_of_failure (size : ℕ) {rest : List UInt8} {x : Failure} (vec : List MsgPack) (pos : ℕ)
    (err : String) (h : message rest = .error x) :
    ∃ ss, ss.failbit = true ∧ parse_multi_body is_big_endian ⟨unread size rest, vec, pos, err⟩
      = ⟨ss, vec, pos, errorText x⟩ := by
  have hgood : (unread size rest).good = true := rfl
  obtain ⟨-, hfail, heof⟩ := parse_msgpack_of_failure is_big_endian hgood h
  refine ⟨_, hfail, ?_⟩
  simp only [parse_multi_body, parse_stream, IStream.eof, IStream.fail, hfail, heof,
    Bool.not_true, if_false, Bool.false_eq_true]
  cases x <;> rfl

/-- The text `parse` leaves in the caller's variable. -/
def textAfter (rest : List UInt8) (err : String) : String :=
  if rest = [] then err else (parse is_big_endian rest err).2

theorem textAfter_of_error {rest : List UInt8} {x : Failure} (err : String) (hne : rest ≠ [])
    (h : message rest = .error x) :
    textAfter is_big_endian rest err = errorText x := by
  rw [textAfter, if_neg hne, fails_of_message h]

/-- The stream the loop leaves: at the end of the input, or failed on a rest. -/
def LeftAt (size : ℕ) (rest : List UInt8) (ss : IStream) : Prop :=
  if rest = [] then ss = unread size [] else ss.fail = true

/-- On what does not begin with a message the loop stops, at once or after a round. -/
theorem parse_multi_loop_stuck {size : ℕ} {rest : List UInt8} {x : Failure}
    (hx : message rest = .error x) (n : ℕ) (hn : rest.length < n) (vec : List MsgPack) (pos : ℕ)
    (err : String) :
    ∃ ss, LeftAt size rest ss ∧
      parse_multi_loop is_big_endian size n ⟨unread size rest, vec, pos, err⟩
        = some ⟨ss, vec, pos, textAfter is_big_endian rest err⟩ := by
  obtain ⟨m, rfl⟩ := Nat.exists_eq_succ_of_ne_zero (Nat.ne_of_gt (Nat.zero_lt_of_lt hn))
  by_cases hnil : rest = []
  · -- nothing is left, and nothing more is read
    have hstop : ¬ parse_multi_continues size ⟨unread size rest, vec, pos, err⟩ = true :=
      fun h => (continues_iff vec pos err).mp h hnil
    refine ⟨unread size rest, ?_, ?_⟩
    · rw [LeftAt, if_pos hnil, hnil]
    · rw [parse_multi_loop, if_neg hstop, textAfter, if_pos hnil]
  · -- one more round, which fails and ends the loop
    obtain ⟨ss, hfail, hbody⟩ := body_of_failure is_big_endian size vec pos err hx
    have hlen := List.length_pos_iff.mpr hnil
    obtain ⟨k, rfl⟩ := Nat.exists_eq_succ_of_ne_zero (show m ≠ 0 by omega)
    have hstop : ¬ parse_multi_continues size ⟨ss, vec, pos, errorText x⟩ = true := by
      simp [parse_multi_continues, IStream.fail, hfail]
    refine ⟨ss, ?_, ?_⟩
    · rw [LeftAt, if_neg hnil]
      exact hfail
    · rw [parse_multi_loop, if_pos ((continues_iff vec pos err).mpr hnil), hbody,
        parse_multi_loop, if_neg hstop, textAfter_of_error is_big_endian err hnil hx]

/-- The outcome of the loop from a state in the middle of its run, by induction on
the messages that are left. -/
theorem parse_multi_loop_eq {size : ℕ} {fs : List (List UInt8 × Wire)} {s rest : List UInt8}
    (hs : Greedy message s fs rest) (hsize : s.length ≤ size) (n : ℕ) (hn : s.length < n)
    (vec : List MsgPack) (pos : ℕ) (err : String) :
    ∃ ss, LeftAt size rest ss ∧
      parse_multi_loop is_big_endian size n ⟨unread size s, vec, pos, err⟩
        = some ⟨ss, vec ++ fs.map fun f => f.2.denote, if fs = [] then pos else size - rest.length,
            textAfter is_big_endian rest err⟩ := by
  induction fs generalizing s n vec pos with
  | nil =>
      have hrest : s = rest := hs.split
      subst hrest
      obtain ⟨x, hx⟩ := hs.rest_error framed_message
      rw [List.map_nil, List.append_nil, if_pos rfl]
      exact parse_multi_loop_stuck is_big_endian hx n hn vec pos err
  | cons f fs ih =>
      obtain ⟨m, rfl⟩ := Nat.exists_eq_succ_of_ne_zero (Nat.ne_of_gt (Nat.zero_lt_of_lt hn))
      obtain ⟨r, rfl, hmessage, htail⟩ := hs.uncons framed_message
      have hpos := framed_message.length_pos (hs.accepted f (List.mem_cons_self ..))
      rw [List.length_append] at hsize hn
      have hne : f.1 ++ r ≠ [] := by
        apply List.ne_nil_of_length_pos
        rw [List.length_append]
        omega
      have hcontinue : parse_multi_continues size ⟨unread size (f.1 ++ r), vec, pos, err⟩ = true :=
        (continues_iff vec pos err).mpr hne
      obtain ⟨ss, hleft, hloop⟩ := ih htail (by omega) m (by omega) (vec ++ [f.2.denote])
        (size - r.length)
      refine ⟨ss, hleft, ?_⟩
      rw [parse_multi_loop, if_pos hcontinue, body_of_message is_big_endian vec pos err hmessage,
        hloop]
      have hstop : (if fs = [] then size - r.length else size - rest.length)
          = size - rest.length := by
        split_ifs with hfs
        · rw [htail.split, hfs, List.map_nil, List.flatten_nil, List.nil_append]
        · rfl
      rw [hstop, if_neg (List.cons_ne_nil f fs), List.map_cons, List.append_assoc,
        List.singleton_append]

end Loop

/-! ## The greedy split -/

/-- The value of an accepted string. -/
def valueOf (is_big_endian : Bool) (e : List UInt8) : MsgPack := (parse is_big_endian e "").1

/-- `s` is a row of accepted strings and a rest that is empty or begins with none. -/
structure IsSplit (is_big_endian : Bool) (s : List UInt8) (es : List (List UInt8))
    (rest : List UInt8) : Prop where
  split : s = es.flatten ++ rest
  accepted : ∀ e ∈ es, Accepts is_big_endian e
  stuck : rest = [] ∨ ∀ p t, rest = p ++ t → ¬ Accepts is_big_endian p

section Split

variable {is_big_endian : Bool}

theorem not_accepts_nil : ¬ Accepts is_big_endian [] := fun h => by cases h

theorem valueOf_of_message {e : List UInt8} {w : Wire} (h : message e = .ok (w, [])) :
    valueOf is_big_endian e = w.denote := by
  rw [valueOf, parse_eq, h]

/-- The splits of the model are the greedy splits of the reader. -/
theorem IsSplit.of_greedy {s rest : List UInt8} {fs : List (List UInt8 × Wire)}
    (h : Greedy message s fs rest) : IsSplit is_big_endian s (fs.map Prod.fst) rest := by
  refine ⟨h.split, ?_, Or.inr ?_⟩
  · intro e he
    obtain ⟨f, hf, rfl⟩ := List.mem_map.mp he
    exact accepts_iff.mpr ⟨f.2, h.accepted f hf⟩
  · intro p t hpt hacc
    obtain ⟨w, hw⟩ := accepts_iff.mp hacc
    exact h.stuck p t w hpt hw

theorem IsSplit.greedy {s rest : List UInt8} {es : List (List UInt8)}
    (h : IsSplit is_big_endian s es rest) :
    ∃ fs : List (List UInt8 × Wire), fs.map Prod.fst = es ∧ Greedy message s fs rest := by
  -- an accepted string is read whole
  have hread : ∀ es : List (List UInt8), (∀ e ∈ es, Accepts is_big_endian e) →
      ∃ fs : List (List UInt8 × Wire), fs.map Prod.fst = es ∧
        ∀ f ∈ fs, message f.1 = .ok (f.2, []) := by
    intro es hes
    induction es with
    | nil => exact ⟨[], rfl, by simp⟩
    | cons e es ih =>
        rw [List.forall_mem_cons] at hes
        obtain ⟨w, hw⟩ := accepts_iff.mp hes.1
        obtain ⟨fs, hfs, hok⟩ := ih hes.2
        exact ⟨(e, w) :: fs, by rw [List.map_cons, hfs], List.forall_mem_cons.mpr ⟨hw, hok⟩⟩
  obtain ⟨fs, hfs, hok⟩ := hread es h.accepted
  refine ⟨fs, hfs, by rw [hfs]; exact h.split, hok, ?_⟩
  intro p t w hpt hw
  have hacc : Accepts is_big_endian p := accepts_iff.mpr ⟨w, hw⟩
  rcases h.stuck with hnil | hno
  · rw [hnil] at hpt
    rw [(List.append_eq_nil_iff.mp hpt.symm).1] at hacc
    exact not_accepts_nil hacc
  · exact hno p t hpt hacc

theorem map_denote_eq_map_valueOf (is_big_endian : Bool) {fs : List (List UInt8 × Wire)}
    (h : ∀ f ∈ fs, message f.1 = .ok (f.2, [])) :
    fs.map (fun f => f.2.denote) = (fs.map Prod.fst).map (valueOf is_big_endian) := by
  rw [List.map_map]
  apply List.map_congr_left
  intro f hf
  exact (valueOf_of_message (h f hf)).symm

/-- Every input has a split. -/
theorem exists_isSplit (is_big_endian : Bool) (s : List UInt8) :
    ∃ es rest, IsSplit is_big_endian s es rest := by
  obtain ⟨fs, rest, h⟩ := exists_greedy framed_message s
  exact ⟨_, rest, IsSplit.of_greedy h⟩

theorem IsSplit.unique {s rest rest' : List UInt8} {es es' : List (List UInt8)}
    (h : IsSplit is_big_endian s es rest) (h' : IsSplit is_big_endian s es' rest') :
    es' = es ∧ rest' = rest := by
  obtain ⟨fs, rfl, hfs⟩ := h.greedy
  obtain ⟨fs', rfl, hfs'⟩ := h'.greedy
  obtain ⟨rfl, rfl⟩ := hfs.unique framed_message hfs'
  exact ⟨rfl, rfl⟩

/-- The loop on a whole input, whatever number of rounds it is allowed. -/
theorem IsSplit.loop {s rest : List UInt8} {es : List (List UInt8)}
    (h : IsSplit is_big_endian s es rest) (pos : ℕ) (err : String) (n : ℕ) (hn : s.length < n) :
    ∃ ss, LeftAt s.length rest ss ∧
      parse_multi_loop is_big_endian s.length n ⟨IStream.ofString s, [], pos, err⟩
        = some ⟨ss, es.map (valueOf is_big_endian), if es = [] then pos else es.flatten.length,
            if rest = [] then err else (parse is_big_endian rest err).2⟩ := by
  obtain ⟨fs, hes, hfs⟩ := h.greedy
  obtain ⟨ss, hleft, hloop⟩ := parse_multi_loop_eq is_big_endian hfs (Nat.le_refl _) n
    hn [] pos err
  refine ⟨ss, hleft, hloop.trans ?_⟩
  have hlen : s.length - rest.length = es.flatten.length := by
    rw [h.split, List.length_append]
    omega
  have hempty : fs = [] ↔ es = [] := by
    rw [← hes, List.map_eq_nil_iff]
  simp only [List.nil_append, hlen, hempty, ← hes,
    map_denote_eq_map_valueOf is_big_endian hfs.accepted, textAfter]

theorem IsSplit.parse_multi {s rest : List UInt8} {es : List (List UInt8)}
    (h : IsSplit is_big_endian s es rest) (pos : ℕ) (err : String) :
    Parse.parse_multi is_big_endian s pos err
      = some (es.map (valueOf is_big_endian), if es = [] then pos else es.flatten.length,
          if rest = [] then err else (parse is_big_endian rest err).2) := by
  obtain ⟨ss, -, hloop⟩ := h.loop pos err (s.length + 1) (Nat.lt_succ_self _)
  rw [Parse.parse_multi, hloop]
  rfl

end Split

/-! ## Lists of values -/

/-- `x` comes back from its encoding `e`: `e` is accepted in full, as a value equal
to `x` if `x` holds no NaN. -/
structure RoundTrips (is_big_endian : Bool) (x : MsgPack) (e : List UInt8) : Prop where
  dumped : Dump.dump is_big_endian x = .ok e
  accepted : Accepts is_big_endian e
  equal : x.NaNFree → equals (valueOf is_big_endian e) x = true

/-- A row of accepted strings is its own greedy split. -/
theorem isSplit_flatten {is_big_endian : Bool} {es : List (List UInt8)}
    (h : ∀ e ∈ es, Accepts is_big_endian e) : IsSplit is_big_endian es.flatten es [] :=
  ⟨(List.append_nil _).symm, h, Or.inl rfl⟩

/-- The encodings of a list of values are its own greedy split. -/
theorem isSplit_of_roundTrips {is_big_endian : Bool} {xs : List MsgPack} {es : List (List UInt8)}
    (h : List.Forall₂ (RoundTrips is_big_endian) xs es) :
    IsSplit is_big_endian es.flatten es [] := by
  apply isSplit_flatten
  intro e he
  induction h with
  | nil => cases he
  | cons hx _ ih =>
      rcases List.mem_cons.mp he with rfl | he
      · exact hx.accepted
      · exact ih he

/-- What `parse_multi` returns for the encodings of `xs`: their values, no error,
and the end of the input. -/
def ReturnsAll (is_big_endian : Bool) (xs : List MsgPack) (es : List (List UInt8)) (pos : ℕ)
    (err : String) : Prop :=
  ∃ vs, parse_multi is_big_endian es.flatten pos err = some (vs, es.flatten.length, err) ∧
    List.Forall₂ (fun x v => x.NaNFree → equals v x = true) xs vs

theorem returnsAll_iff {is_big_endian : Bool} {xs : List MsgPack} {es : List (List UInt8)}
    (h : List.Forall₂ (RoundTrips is_big_endian) xs es) (pos : ℕ) (err : String) :
    ReturnsAll is_big_endian xs es pos err ↔ xs ≠ [] ∨ pos = 0 := by
  have hmulti := (isSplit_of_roundTrips h).parse_multi pos err
  rw [if_pos rfl] at hmulti
  have hvalues : List.Forall₂ (fun x v => x.NaNFree → equals v x = true) xs
      (es.map (valueOf is_big_endian)) := by
    rw [List.forall₂_map_right_iff]
    exact h.imp fun x e hx => hx.equal
  have hempty : es = [] ↔ xs = [] := by
    rw [← List.length_eq_zero_iff, ← List.length_eq_zero_iff, h.length_eq]
  rw [ReturnsAll, hmulti]
  constructor
  · rintro ⟨vs, heq, -⟩
    by_cases hxs : xs = []
    · -- the loop never ran, so the position is the caller's
      rw [if_pos (hempty.mpr hxs), hempty.mpr hxs] at heq
      simp only [Option.some.injEq, Prod.mk.injEq, List.flatten_nil, List.length_nil] at heq
      exact Or.inr heq.2.1
    · exact Or.inl hxs
  · intro hcond
    refine ⟨_, ?_, hvalues⟩
    split_ifs with hes
    · have hpos : pos = 0 := hcond.resolve_left fun hxs => hxs (hempty.mp hes)
      rw [hpos, hes]
      rfl
    · rfl

/-! ## Results -/

/-- The loop of `parse_multi` terminates on every input, and returns the values of
its one greedy split, the text of the rest and, if there is a value, the end of the
last. On the encodings of a list of values that come back it returns the list, and
their end as the position exactly if the list is not empty or the caller's variable
was `0`. -/
theorem parse_multi_greedy (is_big_endian : Bool) (pos : ℕ) (err : String) :
    (∀ s, ∃ es rest, IsSplit is_big_endian s es rest ∧
      (∀ es' rest', IsSplit is_big_endian s es' rest' → es' = es ∧ rest' = rest) ∧
      (∀ n, s.length < n → ∃ ss,
        parse_multi_loop is_big_endian s.length n ⟨IStream.ofString s, [], pos, err⟩
          = some ⟨ss, es.map (valueOf is_big_endian), if es = [] then pos else es.flatten.length,
              if rest = [] then err else (parse is_big_endian rest err).2⟩) ∧
      parse_multi is_big_endian s pos err
        = some (es.map (valueOf is_big_endian), if es = [] then pos else es.flatten.length,
            if rest = [] then err else (parse is_big_endian rest err).2)) ∧
    (∀ xs es, List.Forall₂ (RoundTrips is_big_endian) xs es →
      (ReturnsAll is_big_endian xs es pos err ↔ xs ≠ [] ∨ pos = 0)) := by
  refine ⟨?_, fun xs es h => returnsAll_iff h pos err⟩
  intro s
  obtain ⟨es, rest, h⟩ := exists_isSplit is_big_endian s
  refine ⟨es, rest, h, fun es' rest' h' => h.unique h', ?_, h.parse_multi pos err⟩
  intro n hn
  obtain ⟨ss, -, hloop⟩ := h.loop pos err n hn
  exact ⟨ss, hloop⟩

/-- Nothing was sent and the variable held `7`: the position returned is past the
end of the input. -/
theorem parse_multi_nothing_sent :
    List.Forall₂ (RoundTrips false) [] [] ∧ ¬ ReturnsAll false [] [] 7 "" ∧
      parse_multi false [] 7 "" = some ([], 7, "") := by
  have hsplit : IsSplit false [] [] [] := ⟨rfl, by simp, Or.inl rfl⟩
  have hmulti := hsplit.parse_multi 7 ""
  refine ⟨List.Forall₂.nil, ?_, hmulti⟩
  rintro ⟨vs, heq, -⟩
  rw [show parse_multi false [].flatten 7 "" = _ from hmulti] at heq
  simp at heq

/-! ## The stop position -/

/-- The loop of `parse_multi` ends at the end of `s`, on a stream that has not failed. -/
def ReadsAll (is_big_endian : Bool) (s : List UInt8) : Prop :=
  ∀ pos err, ∃ st, parse_multi_loop is_big_endian s.length (s.length + 1)
    ⟨IStream.ofString s, [], pos, err⟩ = some st ∧ st.ss.rest = [] ∧ st.ss.fail = false

/-- The position `parse_multi` returns is one to resume at: it lies in the input, and
the input up to it has the same values and is read to its end. -/
def StopsToResume (is_big_endian : Bool) (s : List UInt8) (pos : ℕ) (err : String) : Prop :=
  ∃ values stop text, parse_multi is_big_endian s pos err = some (values, stop, text) ∧
    stop ≤ s.length ∧
    (∀ pos' err', ∃ stop' text',
      parse_multi is_big_endian (s.take stop) pos' err' = some (values, stop', text')) ∧
    ReadsAll is_big_endian (s.take stop)

/-- The input begins with a value. -/
def BeginsWithValue (is_big_endian : Bool) (s : List UInt8) : Prop :=
  ∃ e t, s = e ++ t ∧ Accepts is_big_endian e

section StopPos

variable {is_big_endian : Bool} {s rest : List UInt8} {es : List (List UInt8)}

theorem IsSplit.readsAll_iff (h : IsSplit is_big_endian s es rest) :
    ReadsAll is_big_endian s ↔ rest = [] := by
  constructor
  · intro hreads
    obtain ⟨st, hst, -, hfail⟩ := hreads 0 ""
    obtain ⟨ss, hleft, hloop⟩ := h.loop 0 "" (s.length + 1) (Nat.lt_succ_self _)
    rw [hloop, Option.some.injEq] at hst
    rw [← hst] at hfail
    -- a rest would have failed the stream
    by_contra hrest
    rw [LeftAt, if_neg hrest] at hleft
    rw [hleft] at hfail
    cases hfail
  · intro hrest pos err
    obtain ⟨ss, hleft, hloop⟩ := h.loop pos err (s.length + 1) (Nat.lt_succ_self _)
    rw [LeftAt, if_pos hrest] at hleft
    refine ⟨_, hloop, ?_, ?_⟩
    · rw [hleft]
    · rw [hleft]
      rfl

theorem IsSplit.beginsWithValue_iff (h : IsSplit is_big_endian s es rest) :
    BeginsWithValue is_big_endian s ↔ es ≠ [] := by
  constructor
  · rintro ⟨e, t, heq, hacc⟩ hes
    have hrest : rest = e ++ t := by
      rw [← heq, h.split, hes]
      rfl
    rcases h.stuck with hnil | hno
    · rw [hnil] at hrest
      rw [(List.append_eq_nil_iff.mp hrest.symm).1] at hacc
      exact not_accepts_nil hacc
    · exact hno e t hrest hacc
  · intro hes
    obtain ⟨e, es', rfl⟩ := List.exists_cons_of_ne_nil hes
    refine ⟨e, es'.flatten ++ rest, ?_, h.accepted e (List.mem_cons_self ..)⟩
    rw [h.split, List.flatten_cons, List.append_assoc]

/-- Up to the end of the last value. -/
theorem IsSplit.stopsToResume (h : IsSplit is_big_endian s es rest) (hes : es ≠ []) (pos : ℕ)
    (err : String) : StopsToResume is_big_endian s pos err := by
  have hmulti := h.parse_multi pos err
  have htake : s.take es.flatten.length = es.flatten := by
    rw [h.split, List.take_left]
  have hvalues := isSplit_flatten h.accepted
  rw [if_neg hes] at hmulti
  refine ⟨_, _, _, hmulti, ?_, ?_, ?_⟩
  · rw [h.split, List.length_append]
    omega
  · intro pos' err'
    rw [htake]
    exact ⟨_, _, hvalues.parse_multi pos' err'⟩
  · rw [htake]
    exact hvalues.readsAll_iff.mpr rfl

/-- Without a value the position is the caller's, and there is nothing before it that
has been read. -/
theorem IsSplit.stopsToResume_iff (h : IsSplit is_big_endian s [] rest) (pos : ℕ) (err : String) :
    StopsToResume is_big_endian s pos err ↔ pos = 0 := by
  have hmulti := h.parse_multi pos err
  rw [if_pos rfl, List.map_nil] at hmulti
  constructor
  · rintro ⟨values, stop, text, hrun, hle, -, hreads⟩
    rw [hmulti, Option.some.injEq, Prod.mk.injEq, Prod.mk.injEq] at hrun
    obtain ⟨-, rfl, -⟩ := hrun
    -- the beginning of the input has no value either, so it is its own rest
    have htake : IsSplit is_big_endian (s.take pos) [] (s.take pos) := by
      refine ⟨rfl, by simp, Or.inr ?_⟩
      intro p t hpt hacc
      refine h.beginsWithValue_iff.mp ⟨p, t ++ s.drop pos, ?_, hacc⟩ rfl
      rw [← List.append_assoc, ← hpt, List.take_append_drop]
    have hnil := congrArg List.length (htake.readsAll_iff.mp hreads)
    rw [List.length_take, List.length_nil] at hnil
    omega
  · rintro rfl
    have hempty : IsSplit is_big_endian [] [] [] := ⟨rfl, by simp, Or.inl rfl⟩
    exact ⟨_, _, _, hmulti, Nat.zero_le _, fun pos' err' => ⟨_, _, hempty.parse_multi pos' err'⟩,
      hempty.readsAll_iff.mpr rfl⟩

end StopPos

/-- The position is one to resume at exactly if the input begins with a value or the
caller's variable held `0`, and it is independent of the variable exactly if the input
begins with a value. -/
theorem stop_pos_resumes_iff (is_big_endian : Bool) (s : List UInt8) (pos : ℕ) (err : String) :
    (StopsToResume is_big_endian s pos err ↔ BeginsWithValue is_big_endian s ∨ pos = 0) ∧
    ∀ pos' err', ((parse_multi is_big_endian s pos err).map (fun r => r.2.1)
        = (parse_multi is_big_endian s pos' err').map (fun r => r.2.1) ↔
      BeginsWithValue is_big_endian s ∨ pos = pos') := by
  obtain ⟨es, rest, h⟩ := exists_isSplit is_big_endian s
  rw [h.beginsWithValue_iff]
  by_cases hes : es = []
  · subst hes
    refine ⟨by simp [h.stopsToResume_iff pos err], ?_⟩
    intro pos' err'
    rw [h.parse_multi pos err, h.parse_multi pos' err']
    simp
  · refine ⟨by simp [hes, h.stopsToResume hes pos err], ?_⟩
    intro pos' err'
    rw [h.parse_multi pos err, h.parse_multi pos' err']
    simp [hes]

/-- An array of two of which one byte is missing, with `1` left in the variable: the
client drops the header of the array. -/
theorem stop_pos_drops_unparsed :
    ¬ StopsToResume false [0x92, 0x01] 1 "" ∧
      parse_multi false [0x92, 0x01] 1 "" = some ([], 1, "end of buffer.") ∧
      parse_multi false [0x92, 0x01] 0 "" = some ([], 0, "end of buffer.") := by
  have hprefix : ∀ k < 3, ¬ Accepts false ([0x92, 0x01].take k) := by
    unfold Accepts
    decide +kernel
  have hsplit : IsSplit false [0x92, 0x01] [] [0x92, 0x01] := by
    refine ⟨rfl, by simp, Or.inr ?_⟩
    intro p t hpt hacc
    have hlen := congrArg List.length hpt
    rw [List.length_append] at hlen
    refine hprefix p.length (by simp at hlen; omega) ?_
    rw [hpt, List.take_left]
    exact hacc
  have htext : (parse false [0x92, 0x01] "").2 = "end of buffer." := by decide +kernel
  refine ⟨?_, ?_, ?_⟩
  · rw [hsplit.stopsToResume_iff 1 ""]
    exact Nat.one_ne_zero
  · rw [hsplit.parse_multi 1 "", htext]
    rfl
  · rw [hsplit.parse_multi 0 "", htext]
    rfl

/-! ## Pieces -/

/-- A client's buffer is the rest of what it has received, its output the values. -/
def Follows (is_big_endian : Bool) (s : List UInt8) (c : Client) : Prop :=
  ∃ es, IsSplit is_big_endian s es c.buffer ∧ c.output = es.map (valueOf is_big_endian)

section Client

variable {is_big_endian : Bool}

/-- Splits continue from their rest. -/
theorem IsSplit.append {s t rest rest' : List UInt8} {es es' : List (List UInt8)}
    (h : IsSplit is_big_endian s es rest) (h' : IsSplit is_big_endian (rest ++ t) es' rest') :
    IsSplit is_big_endian (s ++ t) (es ++ es') rest' := by
  obtain ⟨fs, rfl, hfs⟩ := h.greedy
  obtain ⟨fs', rfl, hfs'⟩ := h'.greedy
  rw [← List.map_append]
  exact IsSplit.of_greedy (hfs.append hfs')

/-- One piece. -/
theorem receive_follows {s : List UInt8} {c : Client} (h : Follows is_big_endian s c)
    (chunk : List UInt8) :
    ∃ c', c.receive is_big_endian chunk = some c' ∧ Follows is_big_endian (s ++ chunk) c' := by
  obtain ⟨es, hsplit, houtput⟩ := h
  obtain ⟨es', rest', hsplit'⟩ := exists_isSplit is_big_endian
    (c.buffer ++ chunk)
  have hmulti := hsplit'.parse_multi 0 c.err
  -- the bytes before the reported position are those of the new messages
  have hdrop : (c.buffer ++ chunk).drop (if es' = [] then 0 else es'.flatten.length) = rest' := by
    rw [hsplit'.split]
    split_ifs with hnil
    · rw [hnil]
      rfl
    · exact List.drop_left' rfl
  obtain ⟨text, htext⟩ : ∃ text, (if rest' = [] then c.err else
      (parse is_big_endian rest' c.err).2) = text := ⟨_, rfl⟩
  rw [htext] at hmulti
  refine ⟨⟨rest', c.output ++ es'.map (valueOf is_big_endian), text⟩, ?_, es ++ es',
    hsplit.append hsplit', ?_⟩
  · rw [Client.receive]
    simp only [hmulti, Option.bind_eq_bind, Option.bind_some, hdrop]
    rfl
  · rw [List.map_append, houtput]

/-- All pieces, by induction on them. -/
theorem receiveAll_follows {s : List UInt8} {c : Client} (h : Follows is_big_endian s c)
    (chunks : List (List UInt8)) :
    ∃ c', c.receiveAll is_big_endian chunks = some c' ∧
      Follows is_big_endian (s ++ chunks.flatten) c' := by
  induction chunks generalizing s c with
  | nil => exact ⟨c, rfl, by rw [List.flatten_nil, List.append_nil]; exact h⟩
  | cons chunk chunks ih =>
      obtain ⟨c₁, hreceive, hfollows⟩ := receive_follows h chunk
      obtain ⟨c₂, hrest, hfollows'⟩ := ih hfollows
      refine ⟨c₂, ?_, ?_⟩
      · rw [Client.receiveAll, hreceive]
        exact hrest
      · rwa [List.flatten_cons, ← List.append_assoc]

theorem follows_nil (is_big_endian : Bool) (err : String) :
    Follows is_big_endian [] ⟨[], [], err⟩ :=
  ⟨[], ⟨rfl, by simp, Or.inl rfl⟩, rfl⟩

end Client

/-- However the input is cut into pieces, the client ends with the output of one
call on the whole input and with a buffer that is what that call leaves unconsumed. -/
theorem client_independent_of_chunks (is_big_endian : Bool) (chunks : List (List UInt8))
    (err err' : String) :
    ∃ values stop text c,
      parse_multi is_big_endian chunks.flatten 0 err = some (values, stop, text) ∧
      Client.receiveAll is_big_endian ⟨[], [], err'⟩ chunks = some c ∧
      c.output = values ∧ c.buffer = chunks.flatten.drop stop ∧
      ∃ es, IsSplit is_big_endian chunks.flatten es c.buffer ∧
        values = es.map (valueOf is_big_endian) := by
  obtain ⟨c, hc, es, hsplit, houtput⟩ := receiveAll_follows
    (follows_nil is_big_endian err') chunks
  rw [List.nil_append] at hsplit
  have hmulti := hsplit.parse_multi 0 err
  refine ⟨_, _, _, c, hmulti, hc, houtput, ?_, es, hsplit, rfl⟩
  -- dropping the messages leaves the rest of the split, which is the buffer
  rw [hsplit.split]
  split_ifs with hnil
  · rw [hnil]
    rfl
  · exact (List.drop_left' rfl).symm

end Msgpack11.MultiParse
