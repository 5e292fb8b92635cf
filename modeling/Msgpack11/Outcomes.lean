/-
How `MsgPack::parse` fails.

Three outcomes are told apart by the error text: the caller's variable left
alone, `end of buffer.` and `format error.`. They follow the verdict of the
reader of the format (`parse_eq`), so what remains is to say what that verdict
depends on.

| outcome | the input |
|---|---|
| success          | begins with an encoding |
| `end of buffer.` | is the beginning of an accepted string, or of an overdeep one |
| `format error.`  | is neither, nor does it begin with an encoding |

A string is overdeep when it ends with the header of a non-empty array or map
whose items would lie below the depth limit. The parser does not look at a
header's level: it reads the header whole and rejects the first item. Before the
last byte of the header it therefore asks for input that cannot help
(`parse_outcomes`; `end_of_buffer_without_completion` is the shortest case in the
widest header).
-/
import Msgpack11.Parse
import Msgpack11.Grammar
import Msgpack11.Dump

set_option autoImplicit false

namespace Msgpack11.Outcomes

open Msgpack11.Streams Msgpack11.Codec Msgpack11.Parser Msgpack11.Parse Msgpack11.WireReader
open Msgpack11.Grammar Msgpack11.Format

/-! ## Verdicts -/

variable (is_big_endian : Bool)

/-- `parse` leaves the error text alone and returns a value that depends on the
input only. -/
def Succeeds (s : List UInt8) : Prop := ∃ v, ∀ err, parse is_big_endian s err = (v, err)

/-- `parse` returns `NUL` with the given error text. -/
def Fails (s : List UInt8) (message : String) : Prop :=
  ∀ err, parse is_big_endian s err = (.nul, message)

/-- `parse` succeeds and consumes all of `s`. -/
def Accepts (s : List UInt8) : Prop :=
  (parse_msgpack is_big_endian (IStream.ofString s) 0).2 = ⟨s.length, [], false, false⟩

/-- The error text of a failed read. -/
def errorText : Failure → String
  | .endOfBuffer => "end of buffer."
  | .formatError => "format error."

variable {is_big_endian}

/-- `parse` reports the verdict of the reader. -/
theorem parse_eq (s : List UInt8) (err : String) :
    parse is_big_endian s err = match message s with
      | .ok (w, _) => (w.denote, err)
      | .error x => (.nul, errorText x) := by
  rw [parse, parse_stream]
  rcases hmsg : message s with x | ⟨w, r⟩
  · obtain ⟨hnul, hfail, heof⟩ := parse_msgpack_of_failure is_big_endian
      (IStream.good_ofString s) hmsg
    rcases hp : parse_msgpack is_big_endian (IStream.ofString s) 0 with ⟨v, is'⟩
    rw [hp] at hnul hfail heof
    dsimp only at hnul hfail heof ⊢
    rw [hnul, IStream.eof, IStream.fail, heof, hfail]
    cases x <;> rfl
  · rw [parse_msgpack_of_message is_big_endian (IStream.good_ofString s) hmsg]
    rfl

theorem succeeds_of_message {s r : List UInt8} {w : Wire} (h : message s = .ok (w, r)) :
    Succeeds is_big_endian s := ⟨w.denote, fun err => by rw [parse_eq, h]⟩

theorem fails_of_message {s : List UInt8} {x : Failure} (h : message s = .error x) :
    Fails is_big_endian s (errorText x) := fun err => by rw [parse_eq, h]

/-- The three outcomes exclude each other. -/
theorem not_succeeds_of_fails {s : List UInt8} {text : String}
    (h : Fails is_big_endian s text) : ¬ Succeeds is_big_endian s := by
  rintro ⟨v, hv⟩
  -- a failure sets the text, a success returns whatever the variable held
  have h1 := (h "").symm.trans (hv "")
  have h2 := (h "x").symm.trans (hv "x")
  rw [Prod.mk.injEq] at h1 h2
  exact absurd (h1.2.symm.trans h2.2) (by decide)

theorem fails_iff {s : List UInt8} {x : Failure} :
    Fails is_big_endian s (errorText x) ↔ message s = .error x := by
  refine ⟨fun h => ?_, fails_of_message⟩
  rcases hmsg : message s with y | ⟨w, r⟩
  · have htext := (h "").symm.trans (fails_of_message hmsg "")
    rw [Prod.mk.injEq] at htext
    cases x <;> cases y <;> first | rfl | exact absurd htext.2 (by decide)
  · exact absurd (succeeds_of_message hmsg) (not_succeeds_of_fails h)

theorem succeeds_iff {s : List UInt8} :
    Succeeds is_big_endian s ↔ ∃ w r, message s = .ok (w, r) := by
  refine ⟨fun h => ?_, fun ⟨w, r, hmsg⟩ => succeeds_of_message hmsg⟩
  rcases hmsg : message s with x | ⟨w, r⟩
  · exact absurd h (not_succeeds_of_fails (fails_of_message hmsg))
  · exact ⟨w, r, rfl⟩

/-- A stream that has not failed is one the reader has read from. -/
theorem message_of_stream {s r : List UInt8}
    (h : (parse_msgpack is_big_endian (IStream.ofString s) 0).2 = ⟨s.length, r, false, false⟩) :
    ∃ w, message s = .ok (w, r) ∧
      (parse_msgpack is_big_endian (IStream.ofString s) 0).1 = w.denote := by
  rcases hmsg : message s with x | ⟨w, r'⟩
  · obtain ⟨-, hfail, -⟩ := parse_msgpack_of_failure is_big_endian (IStream.good_ofString s) hmsg
    rw [h] at hfail
    cases hfail
  · rw [parse_msgpack_of_message is_big_endian (IStream.good_ofString s) hmsg] at h ⊢
    have hr : r' = r := congrArg IStream.rest h
    exact ⟨w, by rw [hr], rfl⟩

theorem accepts_iff {s : List UInt8} :
    Accepts is_big_endian s ↔ ∃ w, message s = .ok (w, []) := by
  rw [Accepts]
  constructor
  · intro h
    obtain ⟨w, hmsg, -⟩ := message_of_stream h
    exact ⟨w, hmsg⟩
  · rintro ⟨w, hmsg⟩
    rw [parse_msgpack_of_message is_big_endian (IStream.good_ofString s) hmsg]
    rfl

/-- An encoding is accepted, and `parse` returns what it denotes. -/
theorem accepts_of_encoding {w : Wire} {e : List UInt8} (h : Encoding w e) :
    Accepts is_big_endian e := by
  have hmsg := message_of_encoding h []
  rw [List.append_nil] at hmsg
  exact accepts_iff.mpr ⟨w, hmsg⟩

theorem parse_of_encoding {w : Wire} {e : List UInt8} (h : Encoding w e) (err : String) :
    parse is_big_endian e err = (w.denote, err) := by
  have hmsg := message_of_encoding h []
  rw [List.append_nil] at hmsg
  simp only [parse_eq, hmsg]

/-- Conversely an accepted string is an encoding. -/
theorem encoding_of_accepts {e : List UInt8} (h : Accepts is_big_endian e) :
    ∃ w, Encoding w e := by
  obtain ⟨w, hmsg⟩ := accepts_iff.mp h
  obtain ⟨e', henc, hsplit⟩ := encoding_of_message hmsg
  rw [List.append_nil] at hsplit
  rw [hsplit]
  exact ⟨w, henc⟩

/-! ## What the verdict depends on -/

/-- The parser asks for more exactly inside accepted and inside overdeep strings. -/
theorem message_endOfBuffer_iff (is_big_endian : Bool) {s : List UInt8} :
    message s = .error .endOfBuffer ↔
      (∃ t, t ≠ [] ∧ Accepts is_big_endian (s ++ t)) ∨ Doomed (max_depth + 1) s := by
  constructor
  · intro h
    rcases resumes (max_depth + 1) s h with ⟨t, w, ht⟩ | hdoomed
    · refine Or.inl ⟨t, ?_, accepts_iff.mpr ⟨w, ht⟩⟩
      -- nothing to add would mean that `s` itself is accepted
      rintro rfl
      rw [List.append_nil] at ht
      rw [show read (max_depth + 1) s = .error .endOfBuffer from h] at ht
      cases ht
    · exact Or.inr hdoomed
  · rintro (⟨t, ht, hacc⟩ | ⟨t, ht, hdeep⟩)
    · obtain ⟨w, hw⟩ := accepts_iff.mp hacc
      exact endOfBuffer_of_shorter (stable (max_depth + 1)) hw ht
    · exact hdeep.failsAt.before s t rfl ht

/-- It is too late for a success exactly after a format error, or inside the header
of a container that lies too deep. -/
theorem message_formatError_iff {s : List UInt8} :
    message s = .error .formatError ↔
      (∀ t, ¬ Succeeds is_big_endian (s ++ t)) ∧ ¬ Doomed (max_depth + 1) s := by
  constructor
  · intro h
    refine ⟨fun t => not_succeeds_of_fails (fails_of_message ((stable _).invalid t h)), ?_⟩
    rintro ⟨t, ht, hdeep⟩
    -- inside an overdeep header the reader would still ask for more
    have hmore := hdeep.failsAt.before s t rfl ht
    rw [show read (max_depth + 1) s = .error .formatError from h] at hmore
    cases hmore
  · rintro ⟨hno, hdoomed⟩
    rcases hmsg : message s with (_ | _) | ⟨w, r⟩
    · rcases (message_endOfBuffer_iff is_big_endian).mp hmsg with
        ⟨t, -, hacc⟩ | hdeep
      · obtain ⟨w, hw⟩ := accepts_iff.mp hacc
        exact absurd (succeeds_of_message hw) (hno t)
      · exact absurd hdeep hdoomed
    · rfl
    · have hs := hno []
      rw [List.append_nil] at hs
      exact absurd (succeeds_of_message hmsg) hs

theorem accepts_prefix_free {s t : List UInt8} (h : Accepts is_big_endian s)
    (h' : Accepts is_big_endian (s ++ t)) : t = [] := by
  obtain ⟨w, hw, hheight⟩ := encoding_of_accepts h
  obtain ⟨w', hw', hheight'⟩ := encoding_of_accepts h'
  exact (decodes (max_depth + 1)).prefix_free hw hw' (Nat.lt_succ_of_le hheight)
    (Nat.lt_succ_of_le hheight')

/-! ## Outcomes -/

/-- `parse` has exactly one of three outcomes. It says `end of buffer.` on the
beginnings of accepted and of overdeep strings, and `format error.` on what has
no extension it succeeds on and is not the beginning of an overdeep string. -/
theorem parse_outcomes (is_big_endian : Bool) (s : List UInt8) :
    ((Succeeds is_big_endian s ∧ ¬ Fails is_big_endian s "end of buffer." ∧
          ¬ Fails is_big_endian s "format error.") ∨
        (¬ Succeeds is_big_endian s ∧ Fails is_big_endian s "end of buffer." ∧
          ¬ Fails is_big_endian s "format error.") ∨
        (¬ Succeeds is_big_endian s ∧ ¬ Fails is_big_endian s "end of buffer." ∧
          Fails is_big_endian s "format error.")) ∧
    (Fails is_big_endian s "end of buffer." ↔
      (∃ t, t ≠ [] ∧ Accepts is_big_endian (s ++ t)) ∨
        ∃ t, t ≠ [] ∧ Overdeep (max_depth + 1) (s ++ t)) ∧
    (Fails is_big_endian s "format error." ↔
      (∀ t, ¬ Succeeds is_big_endian (s ++ t)) ∧
        ¬ ∃ t, t ≠ [] ∧ Overdeep (max_depth + 1) (s ++ t)) ∧
    (∀ x e t, Dump.dump is_big_endian x = .ok e → Accepts is_big_endian e → e = s ++ t →
      t ≠ [] → Fails is_big_endian s "end of buffer.") ∧
    (∀ t, Accepts is_big_endian s → Accepts is_big_endian (s ++ t) → t = []) := by
  have heob : Fails is_big_endian s "end of buffer." ↔ message s = .error .endOfBuffer :=
    fails_iff (x := .endOfBuffer)
  have hfmt : Fails is_big_endian s "format error." ↔ message s = .error .formatError :=
    fails_iff (x := .formatError)
  refine ⟨?_, heob.trans (message_endOfBuffer_iff is_big_endian),
    hfmt.trans message_formatError_iff, ?_,
    fun t => accepts_prefix_free⟩
  · rw [heob, hfmt, succeeds_iff]
    rcases message s with (_ | _) | ⟨w, r⟩ <;> simp
  · rintro x e t - hacc rfl ht
    exact heob.mpr ((message_endOfBuffer_iff is_big_endian).mpr (Or.inl ⟨t, ht, hacc⟩))

/-- Arrays of one array each, down to a header at the depth limit. -/
theorem overdeep_nested {h : List UInt8} {n : ℕ} (hd : Overdeep n h) (m : ℕ) :
    Overdeep (n + m) (List.replicate m 0x91 ++ h) := by
  induction m with
  | zero => exact hd
  | succ m ih =>
      have hhead : header .array .fix 1 = some [0x91] := rfl
      have hbody : concat Wire.bytes [] = some [] := rfl
      have hinside := Overdeep.inside hhead hbody (by simp) (Nat.succ_pos 0) ih
      rw [List.nil_append, List.singleton_append] at hinside
      rw [List.replicate_succ, List.cons_append]
      exact hinside

/-- Two hundred nested arrays around an array whose 16-bit length has begun with a
nonzero byte: the parser asks for more, and no more input is accepted. -/
theorem end_of_buffer_without_completion :
    let s : List UInt8 := List.replicate 200 0x91 ++ [0xdc, 0x01]
    Fails false s "end of buffer." ∧ ¬ ∃ t, t ≠ [] ∧ Accepts false (s ++ t) := by
  intro s
  -- whatever the second byte of the length, the array is not empty
  have hdeep : ∀ b : UInt8, Overdeep (max_depth + 1) (s ++ [b]) := by
    intro b
    have htag : tagOf 0xdc = .wide .array .w16 := by decide
    have hhead := header_of_tagOf_wide (c := [0x01, b]) htag rfl
    have hpos : 0 < slots .array (Bytes.ofBE [0x01, b]) := by
      simp [slots, Bytes.ofBE]
    have h := overdeep_nested (Overdeep.here hhead hpos) 200
    rw [List.append_assoc]
    exact h
  constructor
  · exact fails_of_message (x := .endOfBuffer)
      ((hdeep 0).failsAt.before s [0] rfl (by simp))
  · rintro ⟨t, ht, hacc⟩
    obtain ⟨b, t, rfl⟩ := List.exists_cons_of_ne_nil ht
    obtain ⟨w, hw⟩ := accepts_iff.mp hacc
    have hbad := (stable (max_depth + 1)).invalid t (hdeep b).failsAt.error
    rw [List.append_assoc, List.singleton_append] at hbad
    rw [show read (max_depth + 1) (s ++ b :: t) = .ok (w, []) from hw] at hbad
    cases hbad

end Msgpack11.Outcomes
