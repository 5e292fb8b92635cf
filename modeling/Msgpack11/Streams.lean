/-
Byte streams with sticky failure, and what it takes to reason about them as
plain readers.

A `std::istream` never stops a program: once an operation fails, the failbit
stays set, every further operation does nothing but set it again, and the code
runs on to its end on values that mean nothing. `IStream` models that, with
`get`, `read` and `tellg` as documented. A `Reader` is the other view: it stops
at the first failure and says which kind it was.

`Refines φ f g` says that the stream program `f` computes what the reader `g`
does, values related by `φ`. Its rules follow the shape of programs
(`Refines.pure`, `Refines.bind`, `Refines.repeatInto`), so a program is related
to its reader by composing the rules for its parts. The point of the third field
of `Refines` is the bind rule: what runs after a failure must leave the stream
as the failure left it.

`Stable` says that a reader's verdict survives more input: a value stays the
value, a format error stays one. `Advances` says that a program moves forward
only, in whatever state the stream is, so that it makes sense to ask how much it
consumed.
-/
import Mathlib.Tactic.Common
import Mathlib.Data.List.Basic
import Mathlib.Data.Int.Notation

set_option autoImplicit false

namespace Msgpack11.Streams

variable {α β γ δ : Type}

/-! ## The stream -/

/-- A `std::istream` over a string of `size` bytes of which `rest` is unread. -/
structure IStream where
  size : ℕ
  rest : List UInt8
  eofbit : Bool
  failbit : Bool
  deriving DecidableEq, Repr

namespace IStream

/-- `std::stringstream ss(in)`, as its readers see it. -/
def ofString (s : List UInt8) : IStream := ⟨s.length, s, false, false⟩

/-- `is.eof()`. -/
def eof (is : IStream) : Bool := is.eofbit

def fail (is : IStream) : Bool := is.failbit

def good (is : IStream) : Bool := !is.eofbit && !is.failbit

/-- `is.setstate(std::ios::failbit)`. -/
def setFailbit (is : IStream) : IStream := { is with failbit := true }

/-- `is.get()`: the next byte, or nothing for `EOF`. -/
def get (is : IStream) : Option UInt8 × IStream :=
  if is.good then
    match is.rest with
    | b :: r => (some b, { is with rest := r })
    | [] => (none, { is with eofbit := true, failbit := true })
  else (none, is.setFailbit)

/-- `is.read(p, n)` into a buffer of `n` zero bytes. -/
def read (is : IStream) (n : ℕ) : List UInt8 × IStream :=
  if is.good then
    if is.rest.length < n then
      (is.rest ++ List.replicate (n - is.rest.length) 0,
        { is with rest := [], eofbit := true, failbit := true })
    else (is.rest.take n, { is with rest := is.rest.drop n })
  else (List.replicate n 0, is.setFailbit)

/-- `is.tellg()`: the bytes consumed so far, or `-1` on a failed stream. -/
def tellg (is : IStream) : ℤ := if is.fail then -1 else (is.size : ℤ) - is.rest.length

@[simp] theorem good_ofString (s : List UInt8) : (ofString s).good = true := rfl

/-- To fail again changes nothing. -/
theorem setFailbit_of_fail {is : IStream} (h : is.failbit = true) : is.setFailbit = is := by
  cases is
  simp_all [setFailbit]

/-- A stream is good while neither bit is set. -/
theorem good_iff {is : IStream} :
    is.good = true ↔ is.eofbit = false ∧ is.failbit = false := by
  simp [good]

theorem not_good_of_fail {is : IStream} (h : is.failbit = true) : is.good = false := by
  simp [good, h]

/-- A failed stream gives no byte. -/
theorem get_of_fail {is : IStream} (h : is.failbit = true) : is.get = (none, is) := by
  rw [get, not_good_of_fail h, setFailbit_of_fail h]
  simp

/-- And it leaves a buffer of zeros as it is. -/
theorem read_of_fail {is : IStream} (n : ℕ) (h : is.failbit = true) :
    is.read n = (List.replicate n 0, is) := by
  rw [read, not_good_of_fail h, setFailbit_of_fail h]
  simp

end IStream

/-- A loop that calls `elem` on the stream `n` times and adds each value to what
it builds; it does not look at the stream itself. -/
def repeatInto (elem : IStream → α × IStream) (push : γ → α → γ) :
    ℕ → γ → IStream → γ × IStream
  | 0, acc, is => (acc, is)
  | n + 1, acc, is =>
      let (a, is) := elem is
      repeatInto elem push n (push acc a) is

@[simp] theorem repeatInto_succ (elem : IStream → α × IStream) (push : γ → α → γ) (n : ℕ)
    (acc : γ) (is : IStream) : repeatInto elem push (n + 1) acc is =
      repeatInto elem push n (push acc (elem is).1) (elem is).2 := rfl

/-- Pushing the elements of a list one by one appends them. -/
theorem foldl_push (f : α → β) (as : List α) (acc : List β) :
    as.foldl (fun acc a => acc ++ [f a]) acc = acc ++ as.map f := by
  rw [List.foldl_append_eq_append, ← List.flatMap_def, List.map_eq_flatMap]

/-! ## Readers -/

/-- Why a read stopped. -/
inductive Failure where
  | endOfBuffer
  | formatError
  deriving DecidableEq, Repr

/-- A computation that consumes bytes and stops at its first failure. -/
abbrev Reader (α : Type) := StateT (List UInt8) (Except Failure) α

namespace Reader

/-- One byte. -/
def byte : Reader UInt8 := fun
  | [] => .error .endOfBuffer
  | b :: r => .ok (b, r)

/-- Exactly `n` bytes. -/
def take (n : ℕ) : Reader (List UInt8) := fun s =>
  if s.length < n then .error .endOfBuffer else .ok (s.take n, s.drop n)

/-- What no input makes right. -/
def invalid : Reader α := fun _ => .error .formatError

/-- `n` values, one after the other. -/
def times (g : Reader α) : ℕ → Reader (List α)
  | 0 => pure []
  | n + 1 => do
      let a ← g
      let as ← times g n
      pure (a :: as)

/-- Two values, one after the other. -/
def pair (g : Reader α) (h : Reader β) : Reader (α × β) := do
  let a ← g
  let b ← h
  pure (a, b)

@[simp] theorem run_pure (a : α) (s : List UInt8) :
    (pure a : Reader α) s = .ok (a, s) := rfl

@[simp] theorem run_invalid (s : List UInt8) :
    (invalid : Reader α) s = .error .formatError := rfl

@[simp] theorem byte_cons (b : UInt8) (r : List UInt8) : byte (b :: r) = .ok (b, r) := rfl

@[simp] theorem byte_nil : byte [] = .error .endOfBuffer := rfl

/-- A read that there is enough for. -/
theorem take_append {bs : List UInt8} {n : ℕ} (r : List UInt8) (h : bs.length = n) :
    take n (bs ++ r) = .ok (bs, r) := by
  subst h
  simp [take]

/-- A read that there is not enough for. -/
theorem take_of_lt {n : ℕ} {s : List UInt8} (h : s.length < n) :
    take n s = .error .endOfBuffer := if_pos h

/-- What a read of `n` bytes returned is the `n` bytes it consumed. -/
theorem take_ok {n : ℕ} {s bs r : List UInt8} (h : take n s = .ok (bs, r)) :
    s = bs ++ r ∧ bs.length = n := by
  unfold take at h
  split_ifs at h with hlt
  · cases h
    rw [List.length_take]
    exact ⟨(List.take_append_drop n s).symm, by omega⟩

theorem take_error {n : ℕ} {s : List UInt8} {e : Failure} (h : take n s = .error e) :
    e = .endOfBuffer ∧ s.length < n := by
  unfold take at h
  split_ifs at h with hlt
  · cases h
    exact ⟨rfl, hlt⟩

/-- A bind stops at the first failure. -/
theorem run_bind (g : Reader α) (h : α → Reader β) (s : List UInt8) :
    (g >>= h) s = match g s with
      | .ok (a, r) => h a r
      | .error e => .error e := by
  show (g s >>= fun p => h p.1 p.2) = _
  cases g s <;> rfl

/-- Where a bind succeeds, both parts have. -/
theorem bind_ok {g : Reader α} {h : α → Reader β} {s r : List UInt8} {b : β}
    (hok : (g >>= h) s = .ok (b, r)) :
    ∃ a r', g s = .ok (a, r') ∧ h a r' = .ok (b, r) := by
  rw [run_bind] at hok
  cases hg : g s with
  | error e => simp [hg] at hok
  | ok p => exact ⟨p.1, p.2, rfl, by simpa [hg] using hok⟩

/-- Where it fails, one of them has. -/
theorem bind_error {g : Reader α} {h : α → Reader β} {s : List UInt8} {e : Failure}
    (herr : (g >>= h) s = .error e) :
    g s = .error e ∨ ∃ a r', g s = .ok (a, r') ∧ h a r' = .error e := by
  rw [run_bind] at herr
  cases hg : g s with
  | error e' => simp_all
  | ok p => exact Or.inr ⟨p.1, p.2, rfl, by simpa [hg] using herr⟩

theorem run_bind_of_ok {g : Reader α} {h : α → Reader β} {s r : List UInt8} {a : α}
    (hg : g s = .ok (a, r)) : (g >>= h) s = h a r := by
  rw [run_bind, hg]

theorem run_bind_of_error {g : Reader α} {h : α → Reader β} {s : List UInt8} {e : Failure}
    (hg : g s = .error e) : (g >>= h) s = .error e := by
  rw [run_bind, hg]

/-- Bytes one by one are bytes at once. -/
theorem times_byte (n : ℕ) : times byte n = take n := by
  induction n with
  | zero =>
      funext s
      rfl
  | succ n ih =>
      funext s
      rcases s with _ | ⟨b, s⟩
      · rfl
      rw [times, run_bind_of_ok (byte_cons b s), ih]
      -- the first byte is there, so the question is whether the others are
      by_cases hlt : s.length < n
      · have hlt' : (b :: s).length < n + 1 := Nat.succ_lt_succ hlt
        rw [run_bind_of_error (take_of_lt hlt), take_of_lt hlt']
      · have hlt' : ¬ (b :: s).length < n + 1 := fun h => hlt (Nat.lt_of_succ_lt_succ h)
        rw [run_bind, take, if_neg hlt, take, if_neg hlt']
        rfl

/-- One byte is a string of one byte. -/
theorem take_one : take 1 = byte >>= fun b => pure [b] := by
  rw [← times_byte]
  rfl

end Reader

/-! ## More input -/

/-- More input changes neither a value nor a format error. -/
structure Stable (g : Reader α) : Prop where
  ok : ∀ {s r a} t, g s = .ok (a, r) → g (s ++ t) = .ok (a, r ++ t)
  invalid : ∀ {s} t, g s = .error .formatError → g (s ++ t) = .error .formatError

namespace Stable

theorem pure (a : α) : Stable (Pure.pure a : Reader α) where
  ok t h := by
    cases h
    rfl
  invalid t h := by cases h

theorem invalid' : Stable (Reader.invalid : Reader α) where
  ok t h := by cases h
  invalid t _ := rfl

theorem byte : Stable Reader.byte where
  ok {s r a} t h := by
    cases s with
    | nil => cases h
    | cons b s => cases h; rfl
  invalid {s} t h := by cases s <;> cases h

theorem take (n : ℕ) : Stable (Reader.take n) where
  ok {s r bs} t h := by
    obtain ⟨rfl, hlen⟩ := Reader.take_ok h
    rw [List.append_assoc]
    exact Reader.take_append _ hlen
  invalid {s} t h := by cases (Reader.take_error h).1

theorem bind {g : Reader α} {h : α → Reader β} (hg : Stable g) (hh : ∀ a, Stable (h a)) :
    Stable (g >>= h) where
  ok t hok := by
    obtain ⟨a, r', h1, h2⟩ := Reader.bind_ok hok
    rw [Reader.run_bind_of_ok (hg.ok t h1)]
    exact (hh a).ok t h2
  invalid t herr := by
    rcases Reader.bind_error herr with h1 | ⟨a, r', h1, h2⟩
    · exact Reader.run_bind_of_error (hg.invalid t h1)
    · rw [Reader.run_bind_of_ok (hg.ok t h1)]
      exact (hh a).invalid t h2

theorem times {g : Reader α} (hg : Stable g) (n : ℕ) : Stable (Reader.times g n) := by
  induction n with
  | zero => exact Stable.pure []
  | succ n ih => exact hg.bind fun _ => ih.bind fun _ => Stable.pure _

theorem pair {g : Reader α} {h : Reader β} (hg : Stable g) (hh : Stable h) :
    Stable (Reader.pair g h) := hg.bind fun _ => hh.bind fun _ => Stable.pure _

end Stable

/-! ## Stream programs as readers -/

/-- The state a failed read leaves: the failbit, and the eofbit iff input ran out. -/
def FailedWith (e : Failure) (is : IStream) : Prop :=
  is.failbit = true ∧ is.eofbit = decide (e = .endOfBuffer)

/-- The stream program `f` computes what the reader `g` does, up to `φ` on values. -/
structure Refines (φ : β → α) (f : IStream → α × IStream) (g : Reader β) : Prop where
  ok : ∀ is b r, is.good = true → g is.rest = .ok (b, r) → f is = (φ b, { is with rest := r })
  error : ∀ is e, is.good = true → g is.rest = .error e → FailedWith e (f is).2
  failed : ∀ is : IStream, is.failbit = true → (f is).2 = is

/-- A program that leaves a failed stream alone. -/
def Inert (f : IStream → α × IStream) : Prop := ∀ is : IStream, is.failbit = true → (f is).2 = is

namespace Refines

theorem pure (φ : β → α) (b : β) : Refines φ (fun is => (φ b, is)) (Pure.pure b) where
  ok is b' r _ h := by
    cases h
    rfl
  error is e _ h := by cases h
  failed is _ := rfl

/-- `is.setstate(std::ios::failbit)` on a good stream is a format error. -/
theorem setFailbit (φ : β → α) (a : α) :
    Refines φ (fun is => (a, is.setFailbit)) Reader.invalid where
  ok is b r _ h := by cases h
  error is e hgood h := by
    cases h
    exact ⟨rfl, (IStream.good_iff.mp hgood).1⟩
  failed is h := IStream.setFailbit_of_fail h

/-- `is.get()` reads a byte. -/
theorem get : Refines some IStream.get Reader.byte where
  ok is b r hgood h := by
    cases hrest : is.rest with
    | nil => simp [hrest] at h
    | cons c s =>
        rw [hrest, Reader.byte_cons] at h
        cases h
        simp [IStream.get, hgood, hrest]
  error is e hgood h := by
    cases hrest : is.rest with
    | nil =>
        rw [hrest, Reader.byte_nil] at h
        cases h
        simp [IStream.get, hgood, hrest, FailedWith]
    | cons c s => simp [hrest] at h
  failed is h := by rw [IStream.get_of_fail h]

/-- `is.read(p, n)` reads `n` bytes. -/
theorem read (n : ℕ) : Refines id (fun is => is.read n) (Reader.take n) where
  ok is bs r hgood h := by
    obtain ⟨hrest, hlen⟩ := Reader.take_ok h
    have hle : ¬ is.rest.length < n := by
      rw [hrest, List.length_append]
      omega
    rw [IStream.read, if_pos hgood, if_neg hle, hrest, ← hlen]
    simp
  error is e hgood h := by
    obtain ⟨rfl, hlt⟩ := Reader.take_error h
    simp [IStream.read, hgood, hlt, FailedWith]
  failed is h := by rw [IStream.read_of_fail n h]

/-- Sequencing. The continuation may run on a value no reader returns, after a
failure; all it must do then is leave the stream alone. -/
theorem bind {φ : β → α} {ψ : δ → γ} {f : IStream → α × IStream} {g : Reader β}
    (f' : α → IStream → γ × IStream) {g' : β → Reader δ} (hf : Refines φ f g)
    (hf' : ∀ b, Refines ψ (f' (φ b)) (g' b)) (hinert : ∀ a, Inert (f' a)) :
    Refines ψ (fun is => f' (f is).1 (f is).2) (g >>= g') where
  ok is d r hgood h := by
    obtain ⟨b, r', h1, h2⟩ := Reader.bind_ok h
    have hstep := hf.ok is b r' hgood h1
    have hgood' : ({ is with rest := r' } : IStream).good = true := hgood
    simp only [hstep]
    exact (hf' b).ok _ d r hgood' h2
  error is e hgood h := by
    rcases Reader.bind_error h with h1 | ⟨b, r', h1, h2⟩
    · -- the first program failed, and the continuation leaves the stream as it is
      have hfail := hf.error is e hgood h1
      rw [hinert _ _ hfail.1]
      exact hfail
    · have hstep := hf.ok is b r' hgood h1
      have hgood' : ({ is with rest := r' } : IStream).good = true := hgood
      simp only [hstep]
      exact (hf' b).error _ e hgood' h2
  failed is h := by
    have hstep := hf.failed is h
    rw [hstep, hinert _ _ h]

/-- What is done with a value does not touch the stream. -/
theorem post {φ : β → α} {f : IStream → α × IStream} {g : Reader β} (k : α → γ)
    (h : Refines φ f g) : Refines (fun b => k (φ b)) (fun is => (k (f is).1, (f is).2)) g where
  ok is b r hgood hok := by
    rw [h.ok is b r hgood hok]
  error := h.error
  failed := h.failed

/-- Values may be renamed on the way out. -/
theorem map {φ : β → α} {ψ : δ → γ} {f : IStream → α × IStream} {g : Reader β}
    (k : α → γ) (l : β → δ) (hf : Refines φ f g) (hkl : ∀ b, k (φ b) = ψ (l b)) :
    Refines ψ (fun is => (k (f is).1, (f is).2)) (g >>= fun b => Pure.pure (l b)) :=
  hf.bind (fun a is => (k a, is))
    (fun b => by
      rw [show k (φ b) = ψ (l b) from hkl b]
      exact Refines.pure ψ (l b))
    (fun _ _ _ => rfl)

/-- Only the values the reader does return matter. -/
theorem congr_value {φ ψ : β → α} {f : IStream → α × IStream} {g : Reader β} (h : Refines φ f g)
    (heq : ∀ s b r, g s = .ok (b, r) → φ b = ψ b) : Refines ψ f g where
  ok is b r hgood hok := by
    rw [← heq _ _ _ hok]
    exact h.ok is b r hgood hok
  error := h.error
  failed := h.failed

/-- A reader that only renames its values is refined by what refines the renamed one. -/
theorem unmap {φ : β → α} {f : IStream → α × IStream} {g : Reader δ} (l : δ → β)
    (h : Refines φ f (g >>= fun b => Pure.pure (l b))) : Refines (fun b => φ (l b)) f g where
  ok is b r hgood hok := h.ok is (l b) r hgood (Reader.run_bind_of_ok hok)
  error is e hgood herr := h.error is e hgood (Reader.run_bind_of_error herr)
  failed := h.failed

/-- A check of the stream before a program lets good streams through. -/
theorem guarded {φ : β → α} {f : IStream → α × IStream} {g : Reader β} (a : α)
    (h : Refines φ f g) :
    Refines φ (fun is => if is.fail || is.eof then (a, is.setFailbit) else f is) g := by
  have hpass : ∀ is : IStream, is.good = true → (is.fail || is.eof) = false := by
    intro is hgood
    obtain ⟨heof, hfail⟩ := IStream.good_iff.mp hgood
    rw [IStream.fail, IStream.eof, heof, hfail]
    rfl
  refine ⟨?_, ?_, ?_⟩
  · intro is b r hgood hok
    simp only [hpass is hgood]
    exact h.ok is b r hgood hok
  · intro is e hgood herr
    simp only [hpass is hgood]
    exact h.error is e hgood herr
  · intro is hfail
    simp only [IStream.fail, hfail, Bool.true_or, if_true]
    exact IStream.setFailbit_of_fail hfail

/-- A check of the stream after a program replaces only values of failed reads. -/
theorem checked {φ : β → α} {f : IStream → α × IStream} {g : Reader β}
    (k : α × IStream → α × IStream) (hk : ∀ p, p.2.failbit = true → (k p).2 = p.2)
    (h : Refines φ f g) :
    Refines φ (fun is => if (f is).2.fail || (f is).2.eof then k (f is) else f is) g := by
  have hstream : ∀ is : IStream, (f is).2.failbit = true →
      (if (f is).2.fail || (f is).2.eof then k (f is) else f is).2 = (f is).2 := by
    intro is hfail
    rw [if_pos (by rw [IStream.fail, hfail]; rfl)]
    exact hk _ hfail
  refine ⟨?_, ?_, ?_⟩
  · intro is b r hgood hok
    have hrun := h.ok is b r hgood hok
    obtain ⟨heof, hfail⟩ := IStream.good_iff.mp hgood
    simp only [hrun, IStream.fail, IStream.eof, heof, hfail]
    rfl
  · intro is e hgood herr
    have hrun := h.error is e hgood herr
    rw [hstream is hrun.1]
    exact hrun
  · intro is hfail
    have hrun := h.failed is hfail
    rw [hstream is (by rw [hrun]; exact hfail)]
    exact hrun

theorem congr {φ : β → α} {f f' : IStream → α × IStream} {g : Reader β} (hf : Refines φ f g)
    (h : ∀ is, f' is = f is) : Refines φ f' g := by
  have heq : f' = f := funext h
  rwa [heq]

end Refines

/-- A loop over a program that leaves failed streams alone does so too. -/
theorem Inert.repeatInto {elem : IStream → α × IStream} (push : γ → α → γ) (h : Inert elem)
    (n : ℕ) : ∀ acc, Inert (repeatInto elem push n acc) := by
  induction n with
  | zero => exact fun _ _ _ => rfl
  | succ n ih =>
      intro acc is hfail
      rw [Streams.repeatInto, ih _ _ (by rw [h is hfail]; exact hfail), h is hfail]

/-- The loop over a refined element is the repeated reader, values folded in. -/
theorem Refines.repeatInto {φ : β → α} {elem : IStream → α × IStream} {g : Reader β}
    (push : γ → α → γ) (h : Refines φ elem g) (n : ℕ) : ∀ acc : γ,
    Refines (fun bs : List β => bs.foldl (fun acc b => push acc (φ b)) acc)
      (Streams.repeatInto elem push n acc) (Reader.times g n) := by
  induction n with
  | zero => exact fun acc => Refines.pure (fun bs : List β => bs.foldl _ acc) []
  | succ n ih =>
      intro acc
      have hinert : ∀ a, Inert (Streams.repeatInto elem push n (push acc a)) :=
        fun a => Inert.repeatInto push h.failed n _
      refine h.bind (fun a is => Streams.repeatInto elem push n (push acc a) is) ?_ hinert
      intro b
      have hrest := ih (push acc (φ b))
      exact (hrest.map (γ := γ) id (fun bs => b :: bs) (fun _ => rfl)).congr fun _ => rfl

/-! ## Consumption -/

/-- A program that only moves forward: what it leaves is the end of what there was. -/
def Advances (f : IStream → α × IStream) : Prop := ∀ is, (f is).2.rest <:+ is.rest

namespace Advances

theorem pure (a : α) : Advances fun is => (a, is) := fun _ => List.suffix_refl _

theorem setFailbit (a : α) : Advances fun is => (a, is.setFailbit) := fun _ => List.suffix_refl _

theorem get : Advances IStream.get := by
  intro is
  rw [IStream.get]
  split_ifs with hgood
  · cases hrest : is.rest with
    | nil => exact List.nil_suffix
    | cons b r => exact List.suffix_cons b r
  · exact List.suffix_refl _

theorem bind {f : IStream → α × IStream} (f' : α → IStream → γ × IStream) (hf : Advances f)
    (hf' : ∀ a, Advances (f' a)) : Advances fun is => f' (f is).1 (f is).2 :=
  fun is => (hf' _ _).trans (hf is)

theorem repeatInto {elem : IStream → α × IStream} (push : γ → α → γ) (h : Advances elem)
    (n : ℕ) : ∀ acc, Advances (repeatInto elem push n acc) := by
  induction n with
  | zero => exact fun acc => Advances.pure acc
  | succ n ih =>
      intro acc
      exact Advances.bind (fun a => Streams.repeatInto elem push n (push acc a)) h
        fun a => ih (push acc a)

end Advances

/-- A buffer holds what was read into it, and zeros where input ran out. -/
theorem read_split (is : IStream) (n : ℕ) :
    ∃ p k, is.rest = p ++ (is.read n).2.rest ∧ (is.read n).1 = p ++ List.replicate k 0 ∧
      p.length + k = n ∧ ((is.read n).2.failbit = false → k = 0) := by
  rw [IStream.read]
  split_ifs with hgood hshort
  · refine ⟨is.rest, n - is.rest.length, (List.append_nil _).symm, rfl, by omega, ?_⟩
    intro hfail
    cases hfail
  · refine ⟨is.rest.take n, 0, (List.take_append_drop n _).symm, (List.append_nil _).symm, ?_,
      fun _ => rfl⟩
    rw [List.length_take]
    omega
  · refine ⟨[], n, rfl, rfl, Nat.zero_add n, ?_⟩
    intro hfail
    cases hfail

section Loop

variable {elem : IStream → α × IStream} {filler : α} (push : γ → α → γ)

/-- On a failed stream a loop folds in nothing but what its element returns there. -/
theorem repeatInto_of_fail (hinert : Inert elem)
    (hfill : ∀ is, (elem is).2.failbit = true → (elem is).1 = filler) (n : ℕ) (acc : γ)
    {is : IStream} (h : is.failbit = true) :
    repeatInto elem push n acc is = ((List.replicate n filler).foldl push acc, is) := by
  induction n generalizing acc with
  | zero => rfl
  | succ n ih =>
      have hstay : (elem is).2 = is := hinert is h
      have hvalue : (elem is).1 = filler := hfill is (by rw [hstay, h])
      rw [repeatInto_succ, hstay, hvalue, ih]
      rfl

/-- Calls that do not fail, one after the other: the stream they begin on, the values
they return, and the stream after the last of them. -/
inductive Calls (elem : IStream → α × IStream) : IStream → List α → IStream → Prop where
  | done (is : IStream) : Calls elem is [] is
  | next {is is' : IStream} {as : List α} (ok : (elem is).2.failbit = false)
      (more : Calls elem (elem is).2 as is') : Calls elem is ((elem is).1 :: as) is'

/-- Calls that consume something whenever they do not fail are no more than the bytes
they consume. -/
theorem Calls.length_le {is is' : IStream} {as : List α}
    (hstep : ∀ is, (elem is).2.failbit = false → (elem is).2.rest.length < is.rest.length)
    (h : Calls elem is as is') : as.length + is'.rest.length ≤ is.rest.length := by
  induction h with
  | done is => exact Nat.le_of_eq (Nat.zero_add _)
  | next ok _ ih =>
      have hlt := hstep _ ok
      rw [List.length_cons]
      omega

/-- A loop folds in the values of the calls before the first that fails, and a filler for
that one and for each after it. These leave the stream as the failure left it. -/
theorem repeatInto_split (hinert : Inert elem)
    (hfill : ∀ is, (elem is).2.failbit = true → (elem is).1 = filler)
    (n : ℕ) (acc : γ) (is : IStream) :
    ∃ u k is', Calls elem is u is' ∧ u.length + k = n ∧
      (0 < k → (elem is').2.failbit = true) ∧
      repeatInto elem push n acc is = ((u ++ List.replicate k filler).foldl push acc,
        if k = 0 then is' else (elem is').2) := by
  induction n generalizing acc is with
  | zero => exact ⟨[], 0, is, Calls.done is, rfl, fun h => absurd h (Nat.lt_irrefl 0), rfl⟩
  | succ n ih =>
      rw [repeatInto_succ]
      by_cases hfail : (elem is).2.failbit = true
      · -- this round failed, and so will the others
        have hrest := repeatInto_of_fail push hinert hfill n (push acc (elem is).1) hfail
        refine ⟨[], n + 1, is, Calls.done is, Nat.zero_add _, fun _ => hfail, ?_⟩
        rw [hrest, hfill is hfail, if_neg (Nat.succ_ne_zero n)]
        rfl
      · rw [Bool.not_eq_true] at hfail
        obtain ⟨u, k, is', hcalls, hlen, hfirst, hloop⟩ := ih (push acc (elem is).1) (elem is).2
        refine ⟨(elem is).1 :: u, k, is', Calls.next hfail hcalls, ?_, hfirst, hloop⟩
        rw [List.length_cons]
        omega

end Loop

end Msgpack11.Streams
