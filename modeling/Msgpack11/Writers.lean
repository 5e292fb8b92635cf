/-
Programs that write to a stream and may throw.

A `std::ostream` takes bytes one after the other as long as it is good; on one that is
not good nothing is written and nothing is reported (`OStream`). A `std::stringstream`
is one of them, and it is also read. It writes at a position of its own, which is its
first byte when it is constructed from a string: the string is overwritten there, not
extended (`StringStream.put`).

A stream keeps what was written before an exception, so a `StreamWriter` returns its
stream whether it throws or not. `Puts p out bs` says that the program `p` ends with
`out` and writes `bs`, on whatever stream. Its rules follow the shape of programs, and
say in particular that a program stops writing where it throws (`Puts.then_of_error`).
-/
import Msgpack11.Streams

set_option autoImplicit false

namespace Msgpack11.Streams

/-! ## Output streams -/

/-- A `std::ostream`: the bytes of a list are put one after the other (`os.put` and
`os.write`), as long as it is good. -/
class OStream (σ : Type) where
  good : σ → Bool
  put : σ → List UInt8 → σ
  put_nil : ∀ os, put os [] = os
  put_append : ∀ os bs cs, put os (bs ++ cs) = put (put os bs) cs
  put_of_not_good : ∀ os bs, good os = false → put os bs = os

/-! ## Overwriting -/

section Overwrite

variable {α : Type} {s : List α} {pos : ℕ}

/-- The list `s` with `bs` from the position `pos` on, longer if it ends before `bs` does. -/
def overwrite (s : List α) (pos : ℕ) (bs : List α) : List α :=
  s.take pos ++ bs ++ s.drop (pos + bs.length)

/-- Nothing is overwritten by nothing. -/
@[simp] theorem overwrite_nil (s : List α) (pos : ℕ) : overwrite s pos [] = s := by
  rw [overwrite, List.append_nil, List.length_nil, Nat.add_zero, List.take_append_drop]

/-- At the end of the list the bytes are appended. -/
theorem overwrite_end (s bs : List α) : overwrite s s.length bs = s ++ bs := by
  rw [overwrite, List.take_length, List.drop_eq_nil_of_le (Nat.le_add_right _ _), List.append_nil]

/-- The list does not get shorter. -/
theorem length_overwrite (h : pos ≤ s.length) (bs : List α) :
    (overwrite s pos bs).length = max s.length (pos + bs.length) := by
  rw [overwrite, List.length_append, List.length_append, List.length_take, List.length_drop]
  omega

/-- What comes later is written behind what came first. -/
theorem overwrite_append (h : pos ≤ s.length) (bs cs : List α) :
    overwrite s pos (bs ++ cs) = overwrite (overwrite s pos bs) (pos + bs.length) cs := by
  have hlen : (s.take pos ++ bs).length = pos + bs.length := by
    rw [List.length_append, List.length_take_of_le h]
  have htake : (overwrite s pos bs).take (pos + bs.length) = s.take pos ++ bs :=
    List.take_left' hlen
  have hdrop : (overwrite s pos bs).drop (pos + bs.length + cs.length)
      = s.drop (pos + bs.length + cs.length) := by
    rw [overwrite, ← hlen, List.drop_length_add_append, hlen, List.drop_drop]
  rw [overwrite, overwrite, htake, hdrop, List.length_append, ← Nat.add_assoc, List.append_assoc,
    List.append_assoc, List.append_assoc, List.append_assoc]

end Overwrite

/-! ## String streams -/

/-- A `std::stringstream`: the bytes it holds, how many of them have been read, and where
the next one is written. Neither position is behind the end. -/
structure StringStream where
  content : List UInt8
  gpos : ℕ
  ppos : ℕ
  eofbit : Bool
  failbit : Bool
  gpos_le : gpos ≤ content.length
  ppos_le : ppos ≤ content.length
  deriving DecidableEq, Repr

namespace StringStream

/-- `std::stringstream ss(in)`; it reads and writes from the first byte on. The
default-constructed stream is that of the empty string. -/
def ofString (s : List UInt8) : StringStream :=
  ⟨s, 0, 0, false, false, Nat.zero_le _, Nat.zero_le _⟩

/-- `ss.str()`. -/
def str (ss : StringStream) : List UInt8 := ss.content

/-- `ss.fail()`. -/
def fail (ss : StringStream) : Bool := ss.failbit

/-- `ss.good()`. -/
def good (ss : StringStream) : Bool := !ss.eofbit && !ss.failbit

/-- The stream as its readers see it. -/
def input (ss : StringStream) : IStream :=
  ⟨ss.content.length, ss.content.drop ss.gpos, ss.eofbit, ss.failbit⟩

example (s : List UInt8) : (ofString s).input = IStream.ofString s := rfl

/-- The stream after a reader that has left `is` of it. -/
def readTo (ss : StringStream) (is : IStream) : StringStream :=
  { ss with
    gpos := ss.content.length - is.rest.length
    eofbit := is.eofbit
    failbit := is.failbit
    gpos_le := Nat.sub_le _ _ }

/-- `ss.put` and `ss.write`: what stands at the position is overwritten. -/
def put (ss : StringStream) (bs : List UInt8) : StringStream :=
  if ss.good then
    { ss with
      content := overwrite ss.content ss.ppos bs
      ppos := ss.ppos + bs.length
      gpos_le := by
        rw [length_overwrite ss.ppos_le]
        exact Nat.le_trans ss.gpos_le (Nat.le_max_left _ _)
      ppos_le := by
        rw [length_overwrite ss.ppos_le]
        exact Nat.le_max_right _ _ }
  else ss

example : ((ofString [0x01, 0x02]).put [0xc0]).str = [0xc0, 0x02] := rfl

theorem put_of_good {ss : StringStream} (h : ss.good = true) (bs : List UInt8) :
    (ss.put bs).content = overwrite ss.content ss.ppos bs ∧ (ss.put bs).gpos = ss.gpos ∧
      (ss.put bs).ppos = ss.ppos + bs.length := by
  rw [put, if_pos h]
  exact ⟨rfl, rfl, rfl⟩

theorem put_of_not_good {ss : StringStream} (bs : List UInt8) (h : ss.good = false) :
    ss.put bs = ss := by
  rw [put, h]
  rfl

@[simp] theorem good_put (ss : StringStream) (bs : List UInt8) : (ss.put bs).good = ss.good := by
  unfold put
  split_ifs <;> rfl

theorem put_nil (ss : StringStream) : ss.put [] = ss := by
  unfold put
  split_ifs
  · simp
  · rfl

/-- Two writes are one. -/
theorem put_append (ss : StringStream) (bs cs : List UInt8) :
    ss.put (bs ++ cs) = (ss.put bs).put cs := by
  by_cases h : ss.good = true
  · have h' : (ss.put bs).good = true := (good_put ss bs).trans h
    rw [put, if_pos h, put, if_pos h']
    simp only [put, if_pos h, overwrite_append ss.ppos_le, List.length_append, Nat.add_assoc]
  · rw [Bool.not_eq_true] at h
    rw [put_of_not_good _ h, put_of_not_good _ h, put_of_not_good _ h]

end StringStream

instance : OStream StringStream where
  good := StringStream.good
  put := StringStream.put
  put_nil := StringStream.put_nil
  put_append := StringStream.put_append
  put_of_not_good _ bs h := StringStream.put_of_not_good bs h

end Msgpack11.Streams

namespace Msgpack11.Writers

open Msgpack11.Streams

variable {σ : Type}

/-! ## Programs -/

/-- A program that writes to a stream and may throw an exception with a text. -/
abbrev StreamWriter (σ : Type) := ExceptT String (StateM σ)

def put [OStream σ] (bs : List UInt8) : StreamWriter σ Unit := modify fun os => OStream.put os bs

/-- One program after the other, where the first has not thrown. -/
theorem run_then (p q : StreamWriter σ Unit) (os : σ) :
    (do p; q : StreamWriter σ Unit).run os = match p.run os with
      | (.ok _, os') => q.run os'
      | (.error text, os') => (.error text, os') := by
  have hbind : ∀ (x : StateM σ (Except String Unit)) f,
      (x >>= f : StateM σ (Except String Unit)) os = f (x os).1 (x os).2 := fun _ _ => rfl
  rw [ExceptT.run_bind, hbind]
  rcases p.run os with ⟨_ | _, os'⟩ <;> rfl

/-! ## What is written -/

variable [OStream σ]

/-- The program ends with `out` and writes `bs`, whatever the stream. -/
def Puts (p : StreamWriter σ Unit) (out : Except String Unit) (bs : List UInt8) : Prop :=
  ∀ os, p.run os = (out, OStream.put os bs)

namespace Puts

variable {p q : StreamWriter σ Unit} {out : Except String Unit} {bs cs : List UInt8}

theorem put (bs : List UInt8) : Puts (Writers.put bs : StreamWriter σ Unit) (.ok ()) bs :=
  fun _ => rfl

/-- An exception writes nothing. -/
theorem throw (text : String) :
    Puts (MonadExcept.throw text : StreamWriter σ Unit) (.error text) [] := by
  intro os
  rw [OStream.put_nil]
  rfl

/-- Nor does a program without statements. -/
theorem nothing : Puts (pure () : StreamWriter σ Unit) (.ok ()) [] := by
  intro os
  rw [OStream.put_nil]
  rfl

/-- Sequencing, past a program that does not throw. -/
theorem then_of_ok (hp : Puts p (.ok ()) bs) (hq : Puts q out cs) :
    Puts (do p; q) out (bs ++ cs) := by
  intro os
  rw [run_then, hp os, OStream.put_append]
  exact hq _

/-- After an exception nothing more is written. -/
theorem then_of_error {text : String} (hp : Puts p (.error text) bs) :
    Puts (do p; q) (.error text) bs := by
  intro os
  rw [run_then, hp os]

end Puts

end Msgpack11.Writers
