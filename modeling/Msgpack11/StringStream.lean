/-
`operator<<` and `operator>>` on one `std::stringstream`.

On a stream that is written at its end, as a default-constructed one is, values are
inserted at the end of the buffer and extracted from its beginning, in any order of
calls. As long as every extraction finds a value the stream is a queue of values, each
of which comes out as `parse` makes it of its own dump. The first extraction that finds
none fails the stream for good: a failed stream is not written to either, so what is
inserted from then on is lost without a sign.

`stringstream_is_queue` says that this is all there is to it: every sequence of calls
that throws nothing does on the stream what it does on the queue that closes
(`Fifo.sticky`). A stream that was constructed from a string is no such queue, since it
is written from the first byte on.
-/
import Msgpack11.Delivery
import Msgpack11.Insertion
import Msgpack11.Machines

set_option autoImplicit false

namespace Msgpack11.StringStream

open Msgpack11.Streams Msgpack11.Parser Msgpack11.Grammar Msgpack11.MultiParse Msgpack11.Machines
open Msgpack11.Delivery Msgpack11.Canonical

/-! ## The calls -/

/-- A call on the stream: `ss << x`, or `ss >> y`. -/
inductive Call where
  | insert (x : MsgPack)
  | extract

section Calls

variable (is_big_endian : Bool)

/-- `operator>>`: the value and the stream after it. -/
def extract (ss : StringStream) : MsgPack × StringStream :=
  let (y, is) := parse_msgpack is_big_endian ss.input 0
  (y, ss.readTo is)

/-- One call. The events are the values the stream has taken and those it has given
without failing; an exception ends the session. -/
def step (ss : StringStream) : Call → Option (StringStream × List (MsgPack ⊕ MsgPack))
  | .insert x =>
      match (Insertion.dump is_big_endian x).run ss with
      | (.ok (), ss') => some (ss', if ss.good then [.inl x] else [])
      | (.error _, _) => none
  | .extract =>
      let (y, ss') := extract is_big_endian ss
      some (ss', if ss'.fail then [] else [.inr y])

/-- What a call is to a queue. -/
def Call.action : Call → Fifo.Action MsgPack
  | .insert x => .push x
  | .extract => .pop

/-- An open queue is a good stream that is written at its end, with its values in the
buffer; a closed one is a failed stream. -/
def Holds (ss : StringStream) : Option (List MsgPack) → Prop
  | some xs => ss.good = true ∧ ss.ppos = ss.content.length ∧
      ss.input.rest = row is_big_endian xs ∧ ∀ x ∈ xs, x.LengthsFit
  | none => ss.fail = true

/-- A default-constructed stream is an open queue without values. -/
theorem holds_default : Holds is_big_endian (.ofString []) (some []) := by
  refine ⟨rfl, rfl, rfl, ?_⟩
  intro x hx
  cases hx

end Calls

/-! ## Positions -/

section Positions

variable {ss : StringStream}

/-- A reader that has read nothing changes nothing. -/
theorem readTo_input (ss : StringStream) : ss.readTo ss.input = ss := by
  have hpos : ss.content.length - ss.input.rest.length = ss.gpos := by
    rw [StringStream.input, List.length_drop, Nat.sub_sub_self ss.gpos_le]
  rw [StringStream.readTo]
  simp only [hpos]
  rfl

/-- What a reader has left is what there is to read next. -/
theorem rest_readTo {is : IStream} (h : is.rest <:+ ss.content) :
    (ss.readTo is).input.rest = is.rest := (List.suffix_iff_eq_drop.mp h).symm

/-- At the end of the buffer values are added to those that can be read. -/
theorem put_of_end (hgood : ss.good = true) (hend : ss.ppos = ss.content.length)
    (bs : List UInt8) :
    (ss.put bs).ppos = (ss.put bs).content.length ∧
      (ss.put bs).input.rest = ss.input.rest ++ bs := by
  obtain ⟨hcontent, hgpos, hppos⟩ := StringStream.put_of_good hgood bs
  rw [hend, overwrite_end] at hcontent
  constructor
  · rw [hppos, hend, hcontent, List.length_append]
  · rw [StringStream.input, hcontent, hgpos, List.drop_append_of_le_length ss.gpos_le]
    rfl

end Positions

/-! ## One call -/

section Step

variable {is_big_endian : Bool} {ss : StringStream}

/-- An insertion that does not throw writes the encoding of its value. -/
theorem step_insert {x : MsgPack} (h : x.LengthsFit) (ss : StringStream) :
    step is_big_endian ss (.insert x) =
      some (ss.put (wire is_big_endian x), if ss.good then [.inl x] else []) := by
  rw [step, Insertion.puts_of_dump (dump_wire is_big_endian h) ss]
  rfl

theorem not_good_of_fail (h : ss.fail = true) : ss.good = false := by
  have hfail : ss.input.failbit = true := h
  exact IStream.not_good_of_fail hfail

/-- A failed stream gives nothing, and stays as it is. -/
theorem step_extract_of_fail (h : ss.fail = true) :
    step is_big_endian ss .extract = some (ss, []) := by
  have hinert : (parse_msgpack is_big_endian ss.input 0).2 = ss.input :=
    (Refinement.parse_msgpack_zero_refines is_big_endian).failed ss.input h
  simp only [step, extract, hinert, readTo_input, h, if_true]

/-- A message is consumed, and its value comes out. -/
theorem step_extract_of_message {w : Wire} {r : List UInt8} (hgood : ss.good = true)
    (h : message ss.input.rest = .ok (w, r)) :
    step is_big_endian ss .extract
      = some (ss.readTo { ss.input with rest := r }, [.inr w.denote]) := by
  have hgood' : ss.input.good = true := hgood
  have hok : (ss.readTo { ss.input with rest := r }).fail = false := (IStream.good_iff.mp hgood').2
  simp only [step, extract, parse_msgpack_of_message is_big_endian hgood' h, hok]
  rfl

/-- Where there is no message, the stream fails. -/
theorem step_extract_of_failure (is_big_endian : Bool) {x : Failure} (hgood : ss.good = true)
    (h : message ss.input.rest = .error x) :
    ∃ ss', step is_big_endian ss .extract = some (ss', []) ∧ ss'.fail = true := by
  have hgood' : ss.input.good = true := hgood
  obtain ⟨-, hfailed⟩ := parse_msgpack_of_failure is_big_endian hgood' h
  have hfail : (extract is_big_endian ss).2.fail = true := hfailed.1
  exact ⟨(extract is_big_endian ss).2, by simp only [step, hfail, if_true], hfail⟩

/-- Every call does on the stream what it does on the queue. -/
theorem step_holds {q : Option (List MsgPack)} {c : Call} (h : Holds is_big_endian ss q)
    (hc : ∀ x, c = .insert x → x.LengthsFit) :
    ∃ ss', step is_big_endian ss c =
        some (ss', (Fifo.sticky (serve is_big_endian is_big_endian) q c.action).2) ∧
      Holds is_big_endian ss' (Fifo.sticky (serve is_big_endian is_big_endian) q c.action).1 := by
  rcases q with _ | xs
  · -- a failed stream stays as it is
    have hfail : ss.fail = true := h
    rcases c with x | _
    · refine ⟨ss, ?_, h⟩
      rw [step_insert (hc x rfl), StringStream.put_of_not_good _ (not_good_of_fail hfail),
        not_good_of_fail hfail]
      rfl
    · exact ⟨ss, step_extract_of_fail h, h⟩
  obtain ⟨hgood, hend, hrest, hfit⟩ := h
  rcases c with x | _
  · have hx := hc x rfl
    obtain ⟨hend', hrest'⟩ := put_of_end hgood hend (wire is_big_endian x)
    refine ⟨ss.put (wire is_big_endian x), ?_, ?_, hend', ?_, ?_⟩
    · rw [step_insert hx, hgood]
      rfl
    · rw [StringStream.good_put, hgood]
    · rw [hrest', hrest, row_append, row_cons, row_nil, List.append_nil]
    · intro y hy
      rcases List.mem_append.mp hy with hy | hy
      · exact hfit y hy
      · rw [List.mem_singleton.mp hy]
        exact hx
  · rcases xs with _ | ⟨x, xs⟩
    · -- nothing to extract
      have hnil : message ss.input.rest = .error .endOfBuffer := by
        rw [hrest]
        rfl
      obtain ⟨ss', hstep, hfail⟩ := step_extract_of_failure is_big_endian hgood hnil
      exact ⟨ss', hstep, hfail⟩
    rw [List.forall_mem_cons] at hfit
    by_cases hheight : x.height ≤ max_depth
    · have hmsg : message ss.input.rest = .ok (canon x, row is_big_endian xs) := by
        rw [hrest, row_cons]
        exact message_wire is_big_endian hfit.1 hheight _
      have hsuffix : row is_big_endian xs <:+ ss.content := by
        have hleft : row is_big_endian xs <:+ ss.input.rest := by
          rw [hrest, row_cons]
          exact List.suffix_append _ _
        exact hleft.trans (List.drop_suffix _ _)
      refine ⟨ss.readTo { ss.input with rest := row is_big_endian xs }, ?_, ?_⟩
      · rw [step_extract_of_message hgood hmsg, Call.action, Fifo.sticky, Fifo.step, serve,
          if_pos hheight, echo_eq_denote hfit.1 hheight]
        rfl
      · rw [Call.action, Fifo.sticky, Fifo.step, serve, if_pos hheight]
        exact ⟨hgood, hend, rest_readTo hsuffix, hfit.2⟩
    · -- the first value is too deep
      have hmsg : message ss.input.rest = .error .formatError := by
        rw [hrest, row_cons]
        exact message_wire_deep is_big_endian hfit.1 (not_le.mp hheight) _
      obtain ⟨ss', hstep, hfail⟩ := step_extract_of_failure is_big_endian hgood hmsg
      refine ⟨ss', ?_, ?_⟩
      · rw [hstep, Call.action, Fifo.sticky, Fifo.step, serve, if_neg hheight]
        rfl
      · rw [Call.action, Fifo.sticky, Fifo.step, serve, if_neg hheight]
        exact hfail

end Step

/-! ## All calls -/

/-- Any calls, in any order, with values whose lengths fit, so that none throws: the
stream takes and gives what the queue that closes does, and is in the state that stands
for it. -/
theorem stringstream_is_queue (is_big_endian : Bool) {calls : List Call}
    (hfit : ∀ x, .insert x ∈ calls → x.LengthsFit) {ss : StringStream} {q : Option (List MsgPack)}
    (hq : Holds is_big_endian ss q) :
    ∃ ss', run (step is_big_endian) ss calls =
        some (ss', (Fifo.stickyRun (serve is_big_endian is_big_endian) q
          (calls.map Call.action)).2) ∧
      Holds is_big_endian ss' (Fifo.stickyRun (serve is_big_endian is_big_endian) q
        (calls.map Call.action)).1 := by
  induction calls generalizing ss q with
  | nil => exact ⟨ss, rfl, hq⟩
  | cons c calls ih =>
      have hc : ∀ x, c = .insert x → x.LengthsFit := by
        rintro x rfl
        exact hfit x (List.mem_cons_self ..)
      obtain ⟨ss₁, hstep, hq₁⟩ := step_holds hq hc
      obtain ⟨ss₂, hrun, hq₂⟩ := ih (fun x hx => hfit x (List.mem_cons_of_mem _ hx)) hq₁
      exact ⟨ss₂, run_cons_eq_some.mpr ⟨ss₁, _, _, hstep, hrun, rfl⟩, hq₂⟩

/-- One value goes through, the second extraction closes the stream, and the value
inserted after it is lost. -/
theorem stringstream_is_queue_closes :
    ∃ ss, run (step false) (.ofString [])
        [.insert (.bool true), .extract, .extract, .insert (.bool false), .extract]
      = some (ss, [.inl (.bool true), .inr (.bool true)]) ∧ ss.fail = true := by
  have hfit : ∀ x, Call.insert x ∈ [.insert (.bool true), .extract, .extract, .insert (.bool false),
      .extract] → x.LengthsFit := by
    intro x hx
    simp only [List.mem_cons, Call.insert.injEq, reduceCtorEq, List.not_mem_nil, or_false,
      false_or] at hx
    rcases hx with rfl | rfl <;> decide
  obtain ⟨ss, hrun, hholds⟩ := stringstream_is_queue false hfit (holds_default false)
  have hecho : serve false false (.bool true) = some (.bool true) := by
    have hecho : echo false false (.bool true) = .bool true :=
      echo_eq_narrowed (by decide) (by decide) (by decide +kernel)
    rw [serve, if_pos (by decide), hecho]
  refine ⟨ss, ?_, ?_⟩
  · rw [hrun]
    simp [Fifo.stickyRun, Fifo.sticky, Fifo.step, Call.action, hecho]
  · simpa [Fifo.stickyRun, Fifo.sticky, Fifo.step, Call.action, hecho, Holds] using hholds

end Msgpack11.StringStream
