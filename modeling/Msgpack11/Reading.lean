/-
Reading a stream to its end, and what a format error does to a reader.

`extract_all` is the loop `while (is >> x) v.push_back(x)`. It goes one call further
than `parse_multi`, into the failure that ends it, and comes back with the same
values (`extract_all_eq_parse_multi`).

A format error is final (`format_error_final`): whatever follows it, in one string or
in pieces, the values before it are all there are, and a client of `parse_multi` keeps
every further byte in its buffer.
-/
import Msgpack11.MultiParse

set_option autoImplicit false

namespace Msgpack11.Reading

open Msgpack11.Streams Msgpack11.Codec Msgpack11.Framing Msgpack11.Parser Msgpack11.Parse
open Msgpack11.Grammar Msgpack11.Outcomes Msgpack11.MultiParse

/-! ## Extraction until failure -/

section Extract

variable (is_big_endian : Bool)

/-- `while (is >> x) v.push_back(x)`, at most `n` calls. -/
def extract_all (is : IStream) : ℕ → List MsgPack → Option (List MsgPack × IStream)
  | 0, _ => none
  | n + 1, v =>
      let (x, is) := parse_msgpack is_big_endian is 0
      if is.fail then some (v, is) else extract_all is n (v ++ [x])

/-- The loop from a state in the middle of its run, by induction on the messages left. -/
theorem extract_all_eq {is : IStream} {fs : List (List UInt8 × Wire)} {rest : List UInt8}
    (hgood : is.good = true) (h : Greedy message is.rest fs rest) (n : ℕ) (hn : is.rest.length < n)
    (v : List MsgPack) :
    ∃ is' x, message rest = .error x ∧ FailedWith x is' ∧
      extract_all is_big_endian is n v = some (v ++ fs.map fun f => f.2.denote, is') := by
  induction fs generalizing is n v with
  | nil =>
      obtain ⟨m, rfl⟩ := Nat.exists_eq_succ_of_ne_zero (Nat.ne_of_gt (Nat.zero_lt_of_lt hn))
      obtain ⟨x, hx⟩ := h.rest_error framed_message
      have hrest : is.rest = rest := h.split
      rw [← hrest] at hx
      obtain ⟨-, hfailed⟩ := parse_msgpack_of_failure is_big_endian hgood hx
      have hfail : (parse_msgpack is_big_endian is 0).2.fail = true := hfailed.1
      refine ⟨_, x, by rw [← hrest]; exact hx, hfailed, ?_⟩
      simp only [extract_all, hfail, if_true, List.map_nil, List.append_nil]
  | cons f fs ih =>
      obtain ⟨m, rfl⟩ := Nat.exists_eq_succ_of_ne_zero (Nat.ne_of_gt (Nat.zero_lt_of_lt hn))
      obtain ⟨r, hr, hmessage, htail⟩ := h.uncons framed_message
      have hpos := framed_message.length_pos (h.accepted f (List.mem_cons_self ..))
      have hlen := congrArg List.length hr
      rw [List.length_append] at hlen
      have hgood' : ({ is with rest := r } : IStream).good = true := hgood
      obtain ⟨is', x, hx, hfailed, hloop⟩ := ih hgood' htail m (by simp only; omega)
        (v ++ [f.2.denote])
      have hok : ({ is with rest := r } : IStream).fail = false := (IStream.good_iff.mp hgood).2
      refine ⟨is', x, hx, hfailed, ?_⟩
      rw [extract_all, parse_msgpack_of_message is_big_endian hgood hmessage]
      simp only [hok, hloop, List.map_cons, List.append_assoc, List.singleton_append]
      rfl

end Extract

/-! ## A piece arrives -/

section Pieces

variable {is_big_endian : Bool}

/-- The client outputs the messages it can split off, and keeps the rest. -/
theorem receive_eq {c : Client} {chunk rest : List UInt8} {es : List (List UInt8)}
    (h : IsSplit is_big_endian (c.buffer ++ chunk) es rest) :
    c.receive is_big_endian chunk = some ⟨rest, c.output ++ es.map (valueOf is_big_endian),
      textAfter is_big_endian rest c.err⟩ := by
  have hmulti := h.parse_multi 0 c.err
  have hdrop : (c.buffer ++ chunk).drop (if es = [] then 0 else es.flatten.length) = rest := by
    rw [h.split]
    split_ifs with hnil
    · rw [hnil]
      rfl
    · exact List.drop_left' rfl
  rw [Client.receive]
  simp only [hmulti, Option.bind_eq_bind, Option.bind_some, hdrop]
  rfl

/-- After the last piece the text is that of the buffer. -/
theorem receiveAll_err {c c' : Client} {chunks : List (List UInt8)} (hne : chunks ≠ [])
    (h : c.receiveAll is_big_endian chunks = some c') :
    ∃ err, c'.err = textAfter is_big_endian c'.buffer err := by
  induction chunks generalizing c with
  | nil => exact absurd rfl hne
  | cons chunk chunks ih =>
      obtain ⟨es, rest, hsplit⟩ := exists_isSplit is_big_endian (c.buffer ++ chunk)
      rw [Client.receiveAll, receive_eq hsplit, Option.bind_eq_bind, Option.bind_some] at h
      by_cases hlast : chunks = []
      · rw [hlast, Client.receiveAll, Option.some.injEq] at h
        rw [← h]
        exact ⟨c.err, rfl⟩
      · exact ih hlast h

/-- The text `parse_multi` returns is a format error of its own only on a rest with one. -/
theorem rest_of_format_error {s rest : List UInt8} {es : List (List UInt8)} {pos : ℕ}
    {err : String} {values : List MsgPack} {stop : ℕ} (h : IsSplit is_big_endian s es rest)
    (herr : err ≠ "format error.")
    (hmulti : parse_multi is_big_endian s pos err = some (values, stop, "format error.")) :
    message rest = .error .formatError := by
  rw [h.parse_multi pos err, Option.some.injEq, Prod.mk.injEq, Prod.mk.injEq] at hmulti
  obtain ⟨-, -, htext⟩ := hmulti
  by_cases hrest : rest = []
  · rw [if_pos hrest] at htext
    exact absurd htext herr
  · rw [if_neg hrest] at htext
    obtain ⟨fs, -, hfs⟩ := h.greedy
    obtain ⟨x, hx⟩ := hfs.rest_error framed_message
    rw [fails_of_message hx] at htext
    cases x with
    | endOfBuffer => exact absurd htext (by decide)
    | formatError => exact hx

/-- What follows a format error changes nothing before it. -/
theorem IsSplit.append_of_format_error {s rest : List UInt8} {es : List (List UInt8)}
    (h : IsSplit is_big_endian s es rest) (hrest : message rest = .error .formatError)
    (t : List UInt8) : IsSplit is_big_endian (s ++ t) es (rest ++ t) := by
  have hmore : message (rest ++ t) = .error .formatError := framed_message.stable.invalid t hrest
  have hgreedy := Greedy.of_error framed_message hmore
  have hnone : IsSplit is_big_endian (rest ++ t) [] (rest ++ t) := IsSplit.of_greedy hgreedy
  have happend := h.append hnone
  rwa [List.append_nil] at happend

end Pieces

/-! ## Results -/

/-- On a good stream, wherever it is, the loop ends with the values that `parse_multi`
returns for what is left to read. The stream it leaves has failed: with the eofbit if
the input ended at a value or inside one, and without it after a format error. -/
theorem extract_all_eq_parse_multi (is_big_endian : Bool) {is : IStream} (hgood : is.good = true)
    (n : ℕ) (hn : is.rest.length < n) (pos : ℕ) (err : String) :
    ∃ values stop text is', parse_multi is_big_endian is.rest pos err = some (values, stop, text) ∧
      extract_all is_big_endian is n [] = some (values, is') ∧ is'.fail = true ∧
      (text = "format error." ∧ is'.eof = false ∨
        (text = err ∨ text = "end of buffer.") ∧ is'.eof = true) := by
  obtain ⟨fs, rest, hfs⟩ := exists_greedy framed_message is.rest
  obtain ⟨is', x, hx, ⟨hfail, heof⟩, hloop⟩ := extract_all_eq is_big_endian hgood hfs n hn []
  have hsplit : IsSplit is_big_endian is.rest _ rest := IsSplit.of_greedy hfs
  have hmulti := hsplit.parse_multi pos err
  rw [← map_denote_eq_map_valueOf is_big_endian hfs.accepted] at hmulti
  refine ⟨_, _, _, is', hmulti, hloop, hfail, ?_⟩
  by_cases hrest : rest = []
  · -- the loop has found the end of the input
    rw [hrest] at hx
    cases hx
    rw [if_pos hrest]
    exact Or.inr ⟨Or.inl rfl, heof⟩
  · rw [if_neg hrest, fails_of_message hx]
    cases x with
    | endOfBuffer => exact Or.inr ⟨Or.inr rfl, heof⟩
    | formatError => exact Or.inl ⟨rfl, heof⟩

/-- The loop on a stream with one value and half of another. -/
theorem extract_all_eq_parse_multi_half :
    ∃ values stop text is', parse_multi false [0xc3, 0x92, 0x01] 0 "" = some (values, stop, text) ∧
      extract_all false (IStream.ofString [0xc3, 0x92, 0x01]) 9 [] = some (values, is') ∧
      text = "end of buffer." ∧ is'.eof = true := by
  have hgood : (IStream.ofString [0xc3, 0x92, 0x01]).good = true := rfl
  obtain ⟨values, stop, text, is', hmulti, hloop, -, hend⟩ :=
    extract_all_eq_parse_multi false hgood 9 (by decide) 0 ""
  have hkind : (parse_multi false [0xc3, 0x92, 0x01] 0 "").map (fun r => r.2.2) =
      some "end of buffer." := by decide +kernel
  rw [show parse_multi false [0xc3, 0x92, 0x01] 0 "" = _ from hmulti] at hkind
  have htext : text = "end of buffer." := Option.some.inj hkind
  refine ⟨values, stop, text, is', hmulti, hloop, htext, ?_⟩
  rcases hend with ⟨hformat, -⟩ | ⟨-, heof⟩
  · rw [htext] at hformat
    exact absurd hformat (by decide)
  · exact heof

/-- A format error is final. Whatever is sent after it, in one string or in pieces, the
values before it are all there are; `parse_multi` goes on to return them with the same
stop position and error, and a client keeps every further byte in its buffer. -/
theorem format_error_final (is_big_endian : Bool) {s : List UInt8} {pos stop : ℕ} {err : String}
    {values : List MsgPack} (herr : err ≠ "format error.")
    (h : parse_multi is_big_endian s pos err = some (values, stop, "format error.")) :
    (∀ t err', parse_multi is_big_endian (s ++ t) pos err' =
      some (values, stop, "format error.")) ∧
    ∃ rest, rest ≠ [] ∧ ∀ t chunks err', chunks.flatten = s ++ t →
      Client.receiveAll is_big_endian ⟨[], [], err'⟩ chunks =
        some ⟨rest ++ t, values, "format error."⟩ := by
  obtain ⟨es, rest, hsplit⟩ := exists_isSplit is_big_endian s
  have hrest := rest_of_format_error hsplit herr h
  have hne : rest ≠ [] := by
    rintro rfl
    cases hrest
  have hmulti := h
  rw [hsplit.parse_multi pos err, Option.some.injEq, Prod.mk.injEq, Prod.mk.injEq] at hmulti
  obtain ⟨hvalues, hstop, -⟩ := hmulti
  have htext : ∀ t err', textAfter is_big_endian (rest ++ t) err' = "format error." := by
    intro t err'
    have hmore : message (rest ++ t) = .error .formatError := framed_message.stable.invalid t hrest
    exact textAfter_of_error is_big_endian err' (List.append_ne_nil_of_left_ne_nil hne t) hmore
  refine ⟨?_, rest, hne, ?_⟩
  · intro t err'
    have hmore := IsSplit.append_of_format_error hsplit hrest t
    rw [hmore.parse_multi pos err', hvalues, hstop]
    exact congrArg (fun text => some (values, stop, text)) (htext t err')
  · intro t chunks err' hchunks
    obtain ⟨c, hc, es', hsplit', houtput⟩ := receiveAll_follows
      (follows_nil is_big_endian err') chunks
    rw [List.nil_append, hchunks] at hsplit'
    obtain ⟨rfl, hbuffer⟩ := (IsSplit.append_of_format_error hsplit hrest t).unique hsplit'
    have hnonempty : chunks ≠ [] := by
      rintro rfl
      have hlen := congrArg List.length hchunks
      rw [hsplit.split, List.length_append, List.length_append] at hlen
      have hpos := List.length_pos_iff.mpr hne
      simp at hlen
      omega
    obtain ⟨err'', herr''⟩ := receiveAll_err hnonempty hc
    rw [hbuffer, htext] at herr''
    rw [hc, ← hvalues, ← houtput, ← hbuffer, ← herr'']

/-- A byte that begins no value, with two more pieces after it. -/
theorem format_error_final_c1 :
    ∃ values rest, (∃ stop, parse_multi false [0xc3, 0xc1] 0 "" =
        some (values, stop, "format error.")) ∧ rest ≠ [] ∧
      Client.receiveAll false ⟨[], [], ""⟩ [[0xc3, 0xc1], [0xc3], [0xc2]] =
        some ⟨rest ++ [0xc3, 0xc2], values, "format error."⟩ := by
  have htext : (parse_multi false [0xc3, 0xc1] 0 "").map (fun r => r.2.2) =
      some "format error." := by decide +kernel
  obtain ⟨⟨values, stop, text⟩, hmulti, hformat⟩ := Option.map_eq_some_iff.mp htext
  obtain rfl : text = "format error." := hformat
  obtain ⟨-, rest, hne, hclient⟩ := format_error_final false (by decide) hmulti
  exact ⟨values, rest, ⟨stop, hmulti⟩, hne, hclient [0xc3, 0xc2] _ "" rfl⟩

end Msgpack11.Reading
