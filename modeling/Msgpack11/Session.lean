/-
A sender and a client of `parse_multi` with a byte stream between them.

The sender dumps values into the stream, which carries the bytes on in pieces of any
size; the client buffers, parses and drops as in `Client.receive`. The two hosts need
not be of one kind, and the sender may go on while earlier bytes are still under way.
A value on which `dump` throws is not sent.

Over the bytes there is a queue of values: what has been sent and not yet been
output. `session_simulates` says that the session is that queue, whatever the
interleaving; `session_delivers` spells out what follows for a state, including that
the client is never late, and `session_drained` for the end. The error text is another
matter: it tells of any piece that ended inside a value (`session_err`).
-/
import Msgpack11.Delivery
import Msgpack11.Insertion
import Msgpack11.Machines
import Msgpack11.Reading
import Mathlib.Data.List.TakeWhile

set_option autoImplicit false

namespace Msgpack11.Session

open Msgpack11.Parser Msgpack11.Parse Msgpack11.Outcomes Msgpack11.MultiParse Msgpack11.Machines
open Msgpack11.Delivery Msgpack11.Reading

/-! ## The parties -/

/-- Bytes under way, and the client. -/
structure Link where
  channel : List UInt8
  client : Client

/-- The sender sends a value, or the next `n` bytes arrive. -/
inductive Action where
  | send (x : MsgPack)
  | arrive (n : ℕ)

/-- Nothing has happened, and the client's error variable holds `err`. -/
def start (err : String) : Link := ⟨[], ⟨[], [], err⟩⟩

section Steps

variable (is_big_endian is_big_endian' : Bool)

/-- One step. The events are the values sent and the values output. -/
def step (s : Link) : Action → Option (Link × List (MsgPack ⊕ MsgPack))
  | .send x =>
      match Dump.dump is_big_endian x with
      | .ok bytes => some ({ s with channel := s.channel ++ bytes }, [.inl x])
      | .error _ => some (s, [])
  | .arrive n => do
      let client ← s.client.receive is_big_endian' (s.channel.take n)
      let news := client.output.drop s.client.output.length
      pure (⟨s.channel.drop n, client⟩, news.map .inr)

/-- The values sent in a run: those that could be dumped. -/
def sent : List Action → List MsgPack
  | [] => []
  | .send x :: as =>
      match Dump.dump is_big_endian x with
      | .ok _ => x :: sent as
      | .error _ => sent as
  | .arrive _ :: as => sent as

end Steps

variable {is_big_endian is_big_endian' : Bool}

/-! ## What a step does -/

/-- Steps, said once. -/
theorem step_cases (is_big_endian is_big_endian' : Bool) (s : Link) (a : Action) :
    (∃ x, a = .send x ∧ x.LengthsFit ∧ step is_big_endian is_big_endian' s a =
        some ({ s with channel := s.channel ++ wire is_big_endian x }, [.inl x])) ∨
    (∃ x, a = .send x ∧ (∀ bytes, Dump.dump is_big_endian x ≠ .ok bytes) ∧
        step is_big_endian is_big_endian' s a = some (s, [])) ∨
    (∃ n es rest, a = .arrive n ∧
        IsSplit is_big_endian' (s.client.buffer ++ s.channel.take n) es rest ∧
        step is_big_endian is_big_endian' s a =
          some (⟨s.channel.drop n, rest, s.client.output ++ es.map (valueOf is_big_endian'),
            textAfter is_big_endian' rest s.client.err⟩,
            es.map fun e => .inr (valueOf is_big_endian' e))) := by
  rcases a with x | n
  · rcases hdump : Dump.dump is_big_endian x with text | bytes
    · refine Or.inr (Or.inl ⟨x, rfl, ?_, ?_⟩)
      · intro bytes heq
        rw [hdump] at heq
        cases heq
      · rw [step, hdump]
    · refine Or.inl ⟨x, rfl, Insertion.lengthsFit_of_dump hdump, ?_⟩
      rw [step, wire, hdump]
  · obtain ⟨es, rest, hsplit⟩ := exists_isSplit is_big_endian'
      (s.client.buffer ++ s.channel.take n)
    refine Or.inr (Or.inr ⟨n, es, rest, rfl, hsplit, ?_⟩)
    rw [step, receive_eq hsplit]
    simp only [Option.bind_eq_bind, Option.bind_some, List.drop_left, List.map_map]
    rfl

/-! ## The session is a queue -/

/-- The queue of a session: what is buffered and under way are the values in it, and
of the first one, if it can be delivered, some byte is still under way. -/
structure Queued (is_big_endian : Bool) (s : Link) (q : List MsgPack) : Prop where
  bytes : s.client.buffer ++ s.channel = row is_big_endian q
  fit : ∀ x ∈ q, x.LengthsFit
  prompt : ∀ x xs, q = x :: xs → x.height ≤ max_depth →
    s.client.buffer.length < (wire is_big_endian x).length

theorem queued_start (is_big_endian : Bool) (err : String) : Queued is_big_endian (start err) [] :=
  ⟨rfl, by simp, fun _ _ h => by cases h⟩

/-- What is served one by one, in order. -/
theorem run_pops (is_big_endian is_big_endian' : Bool) {done left : List MsgPack}
    (h : ∀ x ∈ done, x.height ≤ max_depth) :
    run (Fifo.step (serve is_big_endian is_big_endian')) (done ++ left)
        (List.replicate done.length .pop) =
      some (left, done.map fun x => .inr (echo is_big_endian is_big_endian' x)) := by
  induction done with
  | nil => rfl
  | cons x done ih =>
      rw [List.forall_mem_cons] at h
      rw [List.length_cons, List.replicate_succ, List.cons_append, run_cons_eq_some]
      refine ⟨done ++ left, [.inr (echo is_big_endian is_big_endian' x)], _, ?_, ih h.2, rfl⟩
      rw [Fifo.step, serve, if_pos h.1]
      rfl

/-- A value sent is a push, a piece that arrives as many pops as it completes values. -/
theorem session_simulates (is_big_endian is_big_endian' : Bool) :
    Simulates (step is_big_endian is_big_endian')
      (Fifo.step (serve is_big_endian is_big_endian')) (Queued is_big_endian) := by
  intro s q a s' events hq hstep
  rcases step_cases is_big_endian is_big_endian' s a with
    ⟨x, -, hx, heq⟩ | ⟨x, -, -, heq⟩ | ⟨n, es, rest, -, hsplit, heq⟩
  · rw [hstep] at heq
    cases heq
    refine ⟨[.push x], q ++ [x], rfl, ?_, ?_, ?_⟩
    · rw [← List.append_assoc, hq.bytes, row_append, row_cons, row_nil, List.append_nil]
    · intro y hy
      rcases List.mem_append.mp hy with hy | hy
      · exact hq.fit y hy
      · rw [List.mem_singleton.mp hy]
        exact hx
    · intro y ys hy hheight
      rcases q with _ | ⟨z, q⟩
      · -- the buffer is empty, and a value is not
        cases hy
        have hnil := (List.append_eq_nil_iff.mp hq.bytes).1
        rw [hnil]
        exact List.length_pos_iff.mpr (wire_ne_nil is_big_endian hx)
      · cases hy
        exact hq.prompt _ _ rfl hheight
  · rw [hstep] at heq
    cases heq
    exact ⟨[], q, rfl, hq⟩
  · rw [hstep] at heq
    cases heq
    have hrow : s.client.buffer ++ s.channel.take n ++ s.channel.drop n = row is_big_endian q := by
      rw [List.append_assoc, List.take_append_drop, hq.bytes]
    obtain ⟨done, left, rfl, rfl, hdone, hleft⟩ := split_of_row hq.fit hrow hsplit
    refine ⟨List.replicate done.length .pop, left, ?_, hleft, ?_, ?_⟩
    · rw [run_pops is_big_endian is_big_endian' hdone, List.map_map]
      rfl
    · exact fun x hx => hq.fit x (List.mem_append_right _ hx)
    · rintro x xs rfl hheight
      have hx := hq.fit x (List.mem_append_right _ (List.mem_cons_self ..))
      exact shorter_of_stuck hsplit hx hheight hleft

/-! ## Runs -/

section Runs

variable {s t : Link} {as : List Action} {tr : List (MsgPack ⊕ MsgPack)}

/-- Every run goes through. -/
theorem exists_run (is_big_endian is_big_endian' : Bool) (s : Link) (as : List Action) :
    ∃ t tr, run (step is_big_endian is_big_endian') s as = some (t, tr) := by
  induction as generalizing s with
  | nil => exact ⟨s, [], rfl⟩
  | cons a as ih =>
      obtain ⟨t, events, hstep⟩ : ∃ t events,
          step is_big_endian is_big_endian' s a = some (t, events) := by
        rcases step_cases is_big_endian is_big_endian' s a
          with ⟨x, -, -, heq⟩ | ⟨x, -, -, heq⟩ | ⟨n, es, rest, -, -, heq⟩
        all_goals exact ⟨_, _, heq⟩
      obtain ⟨u, more, hrun⟩ := ih t
      exact ⟨u, events ++ more, run_cons_eq_some.mpr ⟨t, events, more, hstep, hrun, rfl⟩⟩

/-- What is pushed in a run is what was sent. -/
theorem pushed_run (h : run (step is_big_endian is_big_endian') s as = some (t, tr)) :
    Fifo.pushed tr = sent is_big_endian as := by
  induction as generalizing s tr with
  | nil =>
      cases h
      rfl
  | cons a as ih =>
      obtain ⟨u, events, more, hstep, hrun, rfl⟩ := run_cons_eq_some.mp h
      rw [Fifo.pushed_append, ih hrun]
      rcases step_cases is_big_endian is_big_endian' s a with
        ⟨x, rfl, hx, heq⟩ | ⟨x, rfl, hx, heq⟩ | ⟨n, es, rest, rfl, -, heq⟩
      · rw [hstep] at heq
        cases heq
        rw [sent, dump_wire is_big_endian hx]
        rfl
      · rw [hstep] at heq
        cases heq
        rcases hdump : Dump.dump is_big_endian x with text | bytes
        · rw [sent, hdump]
          rfl
        · exact absurd hdump (hx bytes)
      · rw [hstep] at heq
        cases heq
        simp [sent, Fifo.pushed, List.filterMap_map, Function.comp_def]

/-- What is served in a run is what the client has output since. -/
theorem output_run (h : run (step is_big_endian is_big_endian') s as = some (t, tr)) :
    t.client.output = s.client.output ++ Fifo.served tr := by
  have hinv : ∀ u a v events seen, u.client.output = s.client.output ++ Fifo.served seen →
      step is_big_endian is_big_endian' u a = some (v, events) →
      v.client.output = s.client.output ++ Fifo.served (seen ++ events) := by
    intro u a v events seen hu hstep
    rcases step_cases is_big_endian is_big_endian' u a with
      ⟨x, -, -, heq⟩ | ⟨x, -, -, heq⟩ | ⟨n, es, rest, -, -, heq⟩
    all_goals
      rw [hstep] at heq
      cases heq
      rw [Fifo.served_append, ← List.append_assoc, ← hu]
    · simp
    · simp
    · simp [Fifo.served, List.filterMap_map, Function.comp_def]
  have hend := run_invariant hinv [] (by simp) h
  rwa [List.nil_append] at hend

end Runs

/-- The queue at the end of a run: the first `k` values sent have been output. -/
theorem exists_queued (err : String) {as : List Action} {s : Link}
    {tr : List (MsgPack ⊕ MsgPack)}
    (hrun : run (step is_big_endian is_big_endian') (start err) as = some (s, tr)) :
    ∃ k, s.client.output =
        ((sent is_big_endian as).take k).map (echo is_big_endian is_big_endian') ∧
      (∀ x ∈ (sent is_big_endian as).take k, x.height ≤ max_depth) ∧
      Queued is_big_endian s ((sent is_big_endian as).drop k) := by
  obtain ⟨cs, q, hfifo, hq⟩ := (session_simulates is_big_endian is_big_endian').run
    (queued_start is_big_endian err) hrun
  obtain ⟨k, -, hserved, rfl⟩ := Fifo.served_take _ hfifo
  have houtput : s.client.output = Fifo.served tr := output_run hrun
  rw [pushed_run hrun] at hserved hq
  -- what was served could be served
  have hheight : ∀ x ∈ (sent is_big_endian as).take k, x.height ≤ max_depth := by
    intro x hx
    have hmem := List.mem_map_of_mem (f := serve is_big_endian is_big_endian') hx
    rw [hserved] at hmem
    obtain ⟨y, -, hy⟩ := List.mem_map.mp hmem
    by_contra hdeep
    rw [serve, if_neg hdeep] at hy
    cases hy
  refine ⟨k, ?_, hheight, hq⟩
  rw [houtput]
  apply List.map_injective_iff.mpr (Option.some_injective MsgPack)
  rw [← hserved, List.map_map]
  apply List.map_congr_left
  intro x hx
  rw [serve, if_pos (hheight x hx)]
  rfl

/-! ## The error text -/

/-- The client's buffer is empty in every state of the run. -/
def AlwaysEmpty (is_big_endian is_big_endian' : Bool) (s : Link) : List Action → Prop
  | [] => s.client.buffer = []
  | a :: as => s.client.buffer = [] ∧
      ∀ t events, step is_big_endian is_big_endian' s a = some (t, events) →
        AlwaysEmpty is_big_endian is_big_endian' t as

theorem AlwaysEmpty.now {s : Link} {as : List Action}
    (h : AlwaysEmpty is_big_endian is_big_endian' s as) : s.client.buffer = [] := by
  cases as with
  | nil => exact h
  | cons a as => exact h.1

/-- What is buffered of a value that is not too deep asks for more. -/
theorem textAfter_of_queued {s : Link} {x : MsgPack} {xs : List MsgPack}
    (hq : Queued is_big_endian s (x :: xs)) (hheight : x.height ≤ max_depth)
    (hbuffer : s.client.buffer ≠ []) (err : String) :
    textAfter is_big_endian' s.client.buffer err = "end of buffer." := by
  have hx := hq.fit x (List.mem_cons_self ..)
  have hbytes := hq.bytes
  rw [row_cons] at hbytes
  -- the buffer ends inside the first value
  have hbeginning : s.client.buffer <+: wire is_big_endian x :=
    List.prefix_of_prefix_length_le (List.prefix_append _ s.channel)
      ⟨row is_big_endian xs, hbytes.symm⟩ (hq.prompt x xs rfl hheight).le
  obtain ⟨t, ht⟩ := hbeginning
  have hne : t ≠ [] := by
    rintro rfl
    have hlt := hq.prompt x xs rfl hheight
    rw [← ht, List.append_nil] at hlt
    exact lt_irrefl _ hlt
  have hacc : Accepts is_big_endian' (s.client.buffer ++ t) := by
    rw [ht]
    exact accepts_of_encoding (encoding_wire is_big_endian hx hheight)
  exact textAfter_of_error is_big_endian' (x := .endOfBuffer) err hbuffer
    ((message_endOfBuffer_iff is_big_endian').mpr (Or.inl ⟨t, hne, hacc⟩))

/-- One step: the text is left alone, or a piece has ended inside a value. -/
theorem err_step {s t : Link} {a : Action} {events : List (MsgPack ⊕ MsgPack)}
    {q : List MsgPack} (hq : Queued is_big_endian t q) (hheight : ∀ x ∈ q, x.height ≤ max_depth)
    (hstep : step is_big_endian is_big_endian' s a = some (t, events)) :
    t.client.err = s.client.err ∧ (t.client.buffer = [] ∨ t.client.buffer = s.client.buffer) ∨
      t.client.err = "end of buffer." ∧ t.client.buffer ≠ [] := by
  rcases step_cases is_big_endian is_big_endian' s a with
    ⟨x, -, -, heq⟩ | ⟨x, -, -, heq⟩ | ⟨n, es, rest, -, -, heq⟩
  all_goals
    rw [hstep] at heq
    cases heq
  · exact Or.inl ⟨rfl, Or.inr rfl⟩
  · exact Or.inl ⟨rfl, Or.inr rfl⟩
  · by_cases hrest : rest = []
    · exact Or.inl ⟨if_pos hrest, Or.inl hrest⟩
    · rcases q with _ | ⟨x, xs⟩
      · exact absurd (List.append_eq_nil_iff.mp hq.bytes).1 hrest
      · exact Or.inr ⟨textAfter_of_queued hq (hheight x (List.mem_cons_self ..)) hrest _, hrest⟩

/-- The queue after a step holds what it held before and what was pushed. -/
theorem queued_step {s t : Link} {a : Action} {events : List (MsgPack ⊕ MsgPack)}
    {q : List MsgPack} (hq : Queued is_big_endian s q)
    (hstep : step is_big_endian is_big_endian' s a = some (t, events)) :
    ∃ q', Queued is_big_endian t q' ∧ ∀ x ∈ q', x ∈ q ∨ x ∈ Fifo.pushed events := by
  obtain ⟨cs, q', hrun, hq'⟩ :=
    session_simulates is_big_endian is_big_endian' s q a t events hq hstep
  obtain ⟨done, hdone, -⟩ := Fifo.conservation _ hrun
  refine ⟨q', hq', ?_⟩
  intro x hx
  rw [← List.mem_append, hdone]
  exact List.mem_append_right _ hx

/-- A run, by induction on its actions. Wherever the buffer is not empty the text already
tells of it. -/
theorem err_run {s t : Link} {as : List Action} {tr : List (MsgPack ⊕ MsgPack)}
    {q : List MsgPack} (hq : Queued is_big_endian s q) (hheight : ∀ x ∈ q, x.height ≤ max_depth)
    (hsent : ∀ x ∈ sent is_big_endian as, x.height ≤ max_depth)
    (herr : s.client.buffer ≠ [] → s.client.err = "end of buffer.")
    (hrun : run (step is_big_endian is_big_endian') s as = some (t, tr)) :
    (AlwaysEmpty is_big_endian is_big_endian' s as → t.client.err = s.client.err) ∧
      (¬ AlwaysEmpty is_big_endian is_big_endian' s as → t.client.err = "end of buffer.") := by
  induction as generalizing s tr q with
  | nil =>
      cases hrun
      exact ⟨fun _ => rfl, herr⟩
  | cons a as ih =>
      obtain ⟨u, events, more, hstep, hrest, rfl⟩ := run_cons_eq_some.mp hrun
      obtain ⟨q', hq', hmem⟩ := queued_step hq hstep
      have hpushed :
          Fifo.pushed events ++ sent is_big_endian as = sent is_big_endian (a :: as) := by
        rw [← pushed_run hrest, ← pushed_run hrun, Fifo.pushed_append]
      have hheight' : ∀ x ∈ q', x.height ≤ max_depth := by
        intro x hx
        rcases hmem x hx with hx | hx
        · exact hheight x hx
        · apply hsent
          rw [← hpushed]
          exact List.mem_append_left _ hx
      have hsent' : ∀ x ∈ sent is_big_endian as, x.height ≤ max_depth := by
        intro x hx
        apply hsent
        rw [← hpushed]
        exact List.mem_append_right _ hx
      have hone := err_step hq' hheight' hstep
      have herr' : u.client.buffer ≠ [] → u.client.err = "end of buffer." := by
        intro hne
        rcases hone with ⟨heq, hnil | hsame⟩ | ⟨heq, -⟩
        · exact absurd hnil hne
        · rw [heq]
          exact herr (by rwa [← hsame])
        · exact heq
      obtain ⟨hkept, hset⟩ := ih hq' hheight' hsent' herr' hrest
      constructor
      · rintro ⟨-, hall⟩
        have hempty := hall u events hstep
        rw [hkept hempty]
        rcases hone with ⟨heq, -⟩ | ⟨-, hne⟩
        · exact heq
        · exact absurd hempty.now hne
      · intro hno
        by_cases hnow : s.client.buffer = []
        · apply hset
          intro hall
          apply hno
          refine ⟨hnow, ?_⟩
          intro t' events' hstep'
          rw [hstep] at hstep'
          cases hstep'
          exact hall
        · -- the text told of it before the step, and still does
          have hu : u.client.err = "end of buffer." := by
            rcases hone with ⟨heq, -⟩ | ⟨heq, -⟩
            · rw [heq, herr hnow]
            · exact heq
          by_cases hall : AlwaysEmpty is_big_endian is_big_endian' u as
          · rw [hkept hall, hu]
          · exact hset hall

/-! ## Results -/

/-- In every state of every run the client has output the first values sent, in order and
each as `parse` makes it of its own dump; what is buffered and under way are the others.
The client is never late: of the next value, unless it is too deep for the parser, some
byte has not arrived. -/
theorem session_delivers (is_big_endian is_big_endian' : Bool) (err : String)
    (as : List Action) :
    ∃ s tr k, run (step is_big_endian is_big_endian') (start err) as = some (s, tr) ∧
      s.client.output =
        ((sent is_big_endian as).take k).map (echo is_big_endian is_big_endian') ∧
      (∀ x ∈ (sent is_big_endian as).take k, x.height ≤ max_depth) ∧
      s.client.buffer ++ s.channel = row is_big_endian ((sent is_big_endian as).drop k) ∧
      ∀ x xs, (sent is_big_endian as).drop k = x :: xs → x.height ≤ max_depth →
        s.client.buffer.length < (wire is_big_endian x).length := by
  obtain ⟨s, tr, hrun⟩ := exists_run is_big_endian is_big_endian' (start err) as
  obtain ⟨k, houtput, hheight, hq⟩ := exists_queued err hrun
  exact ⟨s, tr, k, hrun, houtput, hheight, hq.bytes, fun x xs hx => hq.prompt x xs hx⟩

/-- When nothing is under way any more, the client has output every value sent before the
first one that is too deep, and it is left with nothing if there is none. -/
theorem session_drained (is_big_endian is_big_endian' : Bool) (err : String)
    (as : List Action) :
    ∃ s tr, run (step is_big_endian is_big_endian') (start err) as = some (s, tr) ∧
      (s.channel = [] →
        s.client.output =
          ((sent is_big_endian as).takeWhile fun x => decide (x.height ≤ max_depth)).map
            (echo is_big_endian is_big_endian') ∧
        (s.client.buffer = [] ↔ ∀ x ∈ sent is_big_endian as, x.height ≤ max_depth)) := by
  obtain ⟨s, tr, hrun⟩ := exists_run is_big_endian is_big_endian' (start err) as
  obtain ⟨k, houtput, hheight, hq⟩ := exists_queued err hrun
  refine ⟨s, tr, hrun, ?_⟩
  intro hempty
  have hbytes := hq.bytes
  rw [hempty, List.append_nil] at hbytes
  have hall : ((sent is_big_endian as).take k).takeWhile (fun x => decide (x.height ≤ max_depth))
      = (sent is_big_endian as).take k :=
    List.takeWhile_eq_self_iff.mpr fun x hx => decide_eq_true (hheight x hx)
  rcases hleft : (sent is_big_endian as).drop k with _ | ⟨x, xs⟩
  · -- everything has been output
    have htake : (sent is_big_endian as).take k = sent is_big_endian as := by
      conv_rhs => rw [← List.take_append_drop k (sent is_big_endian as), hleft, List.append_nil]
    rw [htake] at hall hheight houtput
    rw [hleft] at hbytes
    exact ⟨by rw [hall]; exact houtput, iff_of_true hbytes hheight⟩
  · -- the next value has arrived whole, so it is too deep
    have hdeep : ¬ x.height ≤ max_depth := by
      intro hle
      have hlt := hq.prompt x xs hleft hle
      rw [hbytes, hleft, row_cons, List.length_append] at hlt
      omega
    have hx := hq.fit x (by rw [hleft]; exact List.mem_cons_self ..)
    constructor
    · rw [← List.take_append_drop k (sent is_big_endian as), hleft,
        List.takeWhile_append_of_pos fun y hy => decide_eq_true (hheight y hy),
        List.takeWhile_cons_of_neg (by simpa using hdeep), List.append_nil, houtput]
    · refine iff_of_false ?_ ?_
      · rw [hbytes, hleft, row_cons]
        intro hnil
        exact wire_ne_nil is_big_endian hx (List.append_eq_nil_iff.mp hnil).1
      · intro hle
        exact hdeep (hle x (List.mem_of_mem_drop (by rw [hleft]; exact List.mem_cons_self ..)))

/-- The error variable after a run keeps its text if the buffer has been empty all the
time, and says `end of buffer.` from the first piece that ended inside a value on, even
when everything has been delivered since. -/
theorem session_err (is_big_endian is_big_endian' : Bool) (err : String) {as : List Action}
    (hsent : ∀ x ∈ sent is_big_endian as, x.height ≤ max_depth) :
    ∃ s tr, run (step is_big_endian is_big_endian') (start err) as = some (s, tr) ∧
      (AlwaysEmpty is_big_endian is_big_endian' (start err) as → s.client.err = err) ∧
      (¬ AlwaysEmpty is_big_endian is_big_endian' (start err) as →
        s.client.err = "end of buffer.") := by
  obtain ⟨s, tr, hrun⟩ := exists_run is_big_endian is_big_endian' (start err) as
  exact ⟨s, tr, hrun, err_run (queued_start is_big_endian err) (by simp) hsent
    (fun hne => absurd rfl hne) hrun⟩

/-- An array of one in two pieces: it is output, nothing is left, and the text stays. -/
theorem session_err_stays :
    ∃ s tr, run (step false true) (start "") [.send (.array [.nul]), .arrive 1, .arrive 1]
        = some (s, tr) ∧ s.client.err = "end of buffer." ∧ s.client.buffer = [] := by
  have hsent : ∀ x ∈ sent false [.send (.array [.nul]), .arrive 1, .arrive 1],
      x.height ≤ max_depth := by decide
  obtain ⟨s, tr, hrun, -, hset⟩ := session_err false true "" hsent
  refine ⟨s, tr, hrun, hset ?_, ?_⟩
  · rintro ⟨-, hall⟩
    -- the array is under way, and then half of it is in the buffer
    obtain ⟨-, hall⟩ := hall ⟨[0x91, 0xc0], ⟨[], [], ""⟩⟩ [.inl (.array [.nul])] rfl
    have hhalf : (step false true ⟨[0x91, 0xc0], ⟨[], [], ""⟩⟩ (.arrive 1)).map
        (fun r => r.1.client.buffer) = some [0x91] := by decide +kernel
    obtain ⟨⟨t, events⟩, hstep, hbuffer⟩ := Option.map_eq_some_iff.mp hhalf
    rw [(hall t events hstep).now] at hbuffer
    cases hbuffer
  · have hend : (run (step false true) (start "") [.send (.array [.nul]), .arrive 1, .arrive 1]).map
        (fun r => r.1.client.buffer) = some [] := by decide +kernel
    rw [hrun] at hend
    exact Option.some.inj hend

end Msgpack11.Session
