/-
The parser accepts exactly its grammar.

`Encoding w e` is the grammar: the bytes `e` spell the derivation `w`, which is at
most `max_depth` container levels high. `parse_msgpack_grammar` says that the
parser accepts the byte strings with a prefix in the grammar, that the prefix and
its derivation are unique, that the parser consumes that prefix and returns what
it denotes, and that on everything else it returns `NUL` and nothing of what it
had built.

What an object denotes is the outcome of a run of insertions. For keys without
floats `object_keeps_first` says what that is: the entries are sorted, and they
are those whose key did not occur before.
-/
import Msgpack11.Refinement
import Msgpack11.Ordering

set_option autoImplicit false

namespace Msgpack11.Grammar

open Msgpack11.Streams Msgpack11.Codec Msgpack11.Compare Msgpack11.Parser Msgpack11.WireReader
open Msgpack11.StrictWeak Msgpack11.KeyOrder Msgpack11.Ordering

/-- `e` is the encoding of the derivation `w`, within the depth limit. -/
def Encoding (w : Wire) (e : List UInt8) : Prop := w.bytes = some e ∧ w.height ≤ max_depth

/-- The parser of whole messages, without its stream. -/
abbrev message : Reader Wire := read (max_depth + 1)

theorem message_of_encoding {w : Wire} {e : List UInt8} (h : Encoding w e) (r : List UInt8) :
    message (e ++ r) = .ok (w, r) :=
  (decodes (max_depth + 1)).complete r h.1 (Nat.lt_succ_of_le h.2)

theorem encoding_of_message {s r : List UInt8} {w : Wire} (h : message s = .ok (w, r)) :
    ∃ e, Encoding w e ∧ s = e ++ r := by
  obtain ⟨hheight, e, he, hs⟩ := (decodes (max_depth + 1)).sound h
  exact ⟨e, ⟨he, Nat.le_of_lt_succ hheight⟩, hs⟩

/-- A string begins with at most one encoding, of one derivation. -/
theorem encoding_unique {w w' : Wire} {e e' r r' : List UInt8} (h : Encoding w e)
    (h' : Encoding w' e') (heq : e ++ r = e' ++ r') : w = w' ∧ e = e' ∧ r = r' :=
  (decodes (max_depth + 1)).unique h.1 h'.1 (Nat.lt_succ_of_le h.2) (Nat.lt_succ_of_le h'.2) heq

/-! ## The stream after a parse -/

section Stream

variable (is_big_endian : Bool) {is : IStream}

/-- The parser returns through `fail`, or past a check that the stream has not failed. -/
theorem parse_msgpack_returns (is : IStream) (depth : ℕ) :
    (∃ is', parse_msgpack is_big_endian is depth = fail is') ∨
      (parse_msgpack is_big_endian is depth).2.fail = false := by
  rw [parse_msgpack_eq]
  unfold parse_msgpack_body
  split
  · exact Or.inl ⟨_, rfl⟩
  split
  dsimp only
  split
  · exact Or.inl ⟨_, rfl⟩
  split
  · exact Or.inl ⟨_, rfl⟩
  · next hcheck =>
      simp only [Bool.or_eq_true, not_or, Bool.not_eq_true] at hcheck
      exact Or.inr hcheck.1

/-- Whatever failed, the value is `NUL`. -/
theorem nul_of_fail {depth : ℕ} (h : (parse_msgpack is_big_endian is depth).2.fail = true) :
    (parse_msgpack is_big_endian is depth).1 = .nul := by
  rcases parse_msgpack_returns is_big_endian is depth with ⟨is', heq⟩ | hok
  · rw [heq]
    rfl
  · rw [hok] at h
    cases h

theorem parse_msgpack_of_message {w : Wire} {r : List UInt8} (hgood : is.good = true)
    (h : message is.rest = .ok (w, r)) :
    parse_msgpack is_big_endian is 0 = (w.denote, { is with rest := r }) :=
  (Refinement.parse_msgpack_zero_refines is_big_endian).ok is w r hgood h

theorem parse_msgpack_of_failure {x : Failure} (hgood : is.good = true)
    (h : message is.rest = .error x) :
    (parse_msgpack is_big_endian is 0).1 = .nul ∧
      FailedWith x (parse_msgpack is_big_endian is 0).2 := by
  have hfailed := (Refinement.parse_msgpack_zero_refines is_big_endian).error is x hgood h
  exact ⟨nul_of_fail is_big_endian hfailed.1, hfailed⟩

end Stream

/-! ## Objects -/

/-- Comparing entries by keys without floats is a strict weak order. -/
theorem strictWeak_entryLess : StrictWeakOn {e | e.1.FloatFree} entryLess :=
  StrictWeakOn.intro (fun _ ha => strictWeak_floatFree.irrefl ha)
    (fun _ ha _ hb _ hc => strictWeak_floatFree.trans ha hb hc)
    (fun _ ha _ hb _ hc => strictWeak_floatFree.incomp_trans ha hb hc)

/-- An object with keys without floats is sorted and maps each key to the value of
its first occurrence. -/
theorem object_keeps_first {es : List (Wire × Wire)}
    (hfree : ∀ e ∈ Wire.denoteEntries es, e.1.FloatFree) :
    SortedUnique.Sorted entryLess
        (SortedUnique.insertAll entryLess [] (Wire.denoteEntries es)) ∧
      ∀ e, e ∈ SortedUnique.insertAll entryLess [] (Wire.denoteEntries es) ↔
        ∃ pre post, Wire.denoteEntries es = pre ++ e :: post ∧
          ∀ e' ∈ pre, equals e'.1 e.1 = false := by
  refine ⟨SortedUnique.Sorted.nil.insertAll strictWeak_entryLess (by simp) hfree, ?_⟩
  intro e
  -- the container keeps the first of each class
  rw [SortedUnique.mem_insertAll_iff strictWeak_entryLess hfree]
  -- among these keys `==` is incomparability
  have hkeys : ∀ e' ∈ Wire.denoteEntries es, e ∈ Wire.denoteEntries es →
      (¬ Incomp entryLess e' e ↔ equals e'.1 e.1 = false) := by
    intro e' he' he
    have heq := equals_iff_incomp (hfree e' he').naNFree (hfree e he).naNFree
    rw [← Bool.not_eq_true, heq]
    rfl
  constructor
  · rintro ⟨pre, post, hsplit, hpre⟩
    refine ⟨pre, post, hsplit, fun e' he' => ?_⟩
    exact (hkeys e' (by rw [hsplit]; simp [he']) (by rw [hsplit]; simp)).mp (hpre e' he')
  · rintro ⟨pre, post, hsplit, hpre⟩
    refine ⟨pre, post, hsplit, fun e' he' => ?_⟩
    exact (hkeys e' (by rw [hsplit]; simp [he']) (by rw [hsplit]; simp)).mpr (hpre e' he')

/-! ## The grammar -/

/-- On a good stream the parser succeeds iff the input begins with an encoding; it
then consumes that encoding and returns what it denotes, whatever follows. In all
other cases it returns `NUL` and the stream has failed. -/
theorem parse_msgpack_grammar (is_big_endian : Bool) {is : IStream} (hgood : is.good = true) :
    ((parse_msgpack is_big_endian is 0).2.fail = false ↔
      ∃ w e r, Encoding w e ∧ is.rest = e ++ r) ∧
    (∀ w e r, Encoding w e → is.rest = e ++ r →
      parse_msgpack is_big_endian is 0 = (w.denote, { is with rest := r }) ∧
        ∀ w' e' r', Encoding w' e' → is.rest = e' ++ r' → w' = w ∧ e' = e ∧ r' = r) ∧
    ((¬ ∃ w e r, Encoding w e ∧ is.rest = e ++ r) →
      (parse_msgpack is_big_endian is 0).1 = .nul ∧
        (parse_msgpack is_big_endian is 0).2.fail = true) ∧
    (∀ form es, (∀ e ∈ Wire.denoteEntries es, e.1.FloatFree) →
      ∃ m, (Wire.object form es).denote = .object m ∧ SortedUnique.Sorted entryLess m ∧
        ∀ e, e ∈ m ↔ ∃ pre post, Wire.denoteEntries es = pre ++ e :: post ∧
          ∀ e' ∈ pre, equals e'.1 e.1 = false) := by
  -- an encoding is read back, and nothing else is accepted
  have haccept : ∀ w e r, Encoding w e → is.rest = e ++ r →
      parse_msgpack is_big_endian is 0 = (w.denote, { is with rest := r }) := by
    intro w e r henc hrest
    apply parse_msgpack_of_message is_big_endian hgood
    rw [hrest]
    exact message_of_encoding henc r
  have hreject : (¬ ∃ w e r, Encoding w e ∧ is.rest = e ++ r) →
      (parse_msgpack is_big_endian is 0).1 = .nul ∧
        (parse_msgpack is_big_endian is 0).2.fail = true := by
    intro hno
    rcases hmsg : message is.rest with x | ⟨w, r⟩
    · have hfailed := parse_msgpack_of_failure is_big_endian hgood hmsg
      exact ⟨hfailed.1, hfailed.2.1⟩
    · obtain ⟨e, henc, hrest⟩ := encoding_of_message hmsg
      exact absurd ⟨w, e, r, henc, hrest⟩ hno
  refine ⟨⟨?_, ?_⟩, ?_, hreject, ?_⟩
  · intro hok
    by_contra hno
    rw [(hreject hno).2] at hok
    cases hok
  · rintro ⟨w, e, r, henc, hrest⟩
    rw [haccept w e r henc hrest]
    exact (IStream.good_iff.mp hgood).2
  · intro w e r henc hrest
    refine ⟨haccept w e r henc hrest, ?_⟩
    intro w' e' r' henc' hrest'
    exact encoding_unique henc' henc (hrest'.symm.trans hrest)
  · intro form es hfree
    exact ⟨_, rfl, object_keeps_first hfree⟩

/-- A map with a repeated key, in an over-long form, and a byte that is not read. -/
theorem parse_msgpack_grammar_map :
    parse_msgpack false
        (IStream.ofString [0xde, 0x00, 0x02, 0x01, 0xc0, 0xd0, 0x01, 0xc3, 0xff]) 0 =
      ((Wire.object (.wide .w16) [(.fixint 1, .nil), (.arith .int8 [1], .bool true)]).denote,
        ⟨9, [0xff], false, false⟩) :=
  ((parse_msgpack_grammar false (IStream.good_ofString _)).2.1
    (.object (.wide .w16) [(.fixint 1, .nil), (.arith .int8 [1], .bool true)])
    [0xde, 0x00, 0x02, 0x01, 0xc0, 0xd0, 0x01, 0xc3] [0xff] ⟨by decide, by decide⟩ rfl).1

end Msgpack11.Grammar
