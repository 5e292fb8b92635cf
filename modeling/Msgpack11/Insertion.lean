/-
`operator<<` on any output stream, and what it leaves there when it throws.

`Dump.dump` says what is written when nothing is thrown. The overloads check a
length before they write it, but the items of an array or a map are written as they
come, so an exception finds part of the value in the stream already. The writers
below put byte after byte where the source does; `puts_of_dump` says that without
an exception they write what `Dump.dump` returns, and `dump_eq_str` that the function
`dump()` of the header returns just that.

With one, `insertion_outcome` says which exception it is and what is left: the
length of the first node, in the order of the encoding, that has no field wide
enough, and the beginning of a message that every reader will wait to be completed.
-/
import Msgpack11.Writers
import Msgpack11.RoundTrip

set_option autoImplicit false

namespace Msgpack11.Insertion

open Msgpack11.Streams Msgpack11.Writers Msgpack11.Dump Msgpack11.Format Msgpack11.Shortest
open Msgpack11.Canonical Msgpack11.Outcomes Msgpack11.Parse Msgpack11.Parser Msgpack11.Grammar

/-! ## The overloads -/

section Overloads

variable {σ : Type} [OStream σ] (is_big_endian : Bool)

/-- The length of an overload: written, or an exception before anything is. -/
def announce (head : Except String (List UInt8)) : StreamWriter σ Unit :=
  match head with
  | .ok bs => put bs
  | .error text => throw text

/-- `dump(const std::string&, std::ostream&)`. -/
def dump_string (value : List UInt8) : StreamWriter σ Unit := do
  announce (dump_string_length is_big_endian value.length)
  put (value.flatMap fun c => dump_data is_big_endian 1 c.toNat)

/-- `dump(const MsgPack::binary&, std::ostream&)`. -/
def dump_binary (value : List UInt8) : StreamWriter σ Unit := do
  announce (dump_binary_length is_big_endian value.length)
  put value

/-- `dump(const MsgPack::extension&, std::ostream&)`. -/
def dump_extension (type : Int8) (data : List UInt8) : StreamWriter σ Unit := do
  announce (dump_extension_length is_big_endian data.length)
  put (type.toUInt8 :: data)

mutual

/-- `operator<<(std::ostream&, const MsgPack&)`. -/
def dump : MsgPack → StreamWriter σ Unit
  | .nul => put dump_nul
  | .float32 v => put (dump_float is_big_endian v)
  | .float64 v => put (dump_double is_big_endian v)
  | .int8 v => put (dump_int8 v)
  | .int16 v => put (dump_int16 is_big_endian v)
  | .int32 v => put (dump_int32 is_big_endian v)
  | .int64 v => put (dump_int64 is_big_endian v)
  | .uint8 v => put (dump_uint8 v)
  | .uint16 v => put (dump_uint16 is_big_endian v)
  | .uint32 v => put (dump_uint32 is_big_endian v)
  | .uint64 v => put (dump_uint64 is_big_endian v)
  | .bool v => put (dump_bool v)
  | .string v => dump_string is_big_endian v
  | .binary v => dump_binary is_big_endian v
  | .array v => do
      announce (dump_array_length is_big_endian v.length)
      dump_items v
  | .object v => do
      announce (dump_object_length is_big_endian v.length)
      dump_entries v
  | .extension t d => dump_extension is_big_endian t d

/-- The `for_each` of an array: `os << v`. -/
def dump_items : List MsgPack → StreamWriter σ Unit
  | [] => pure ()
  | v :: vs => do
      dump v
      dump_items vs

/-- The `for_each` of an object: `os << v.first; os << v.second`. -/
def dump_entries : List (MsgPack × MsgPack) → StreamWriter σ Unit
  | [] => pure ()
  | (k, v) :: es => do
      dump k
      dump v
      dump_entries es

end

end Overloads

/-! ## Keys and values in a row

An object is written like the array of its keys and values. -/

/-- The keys and values of a list of entries, in the order they are written. -/
def flat (es : List (MsgPack × MsgPack)) : List MsgPack := es.flatMap fun e => [e.1, e.2]

@[simp] theorem flat_nil : flat [] = [] := rfl

@[simp] theorem flat_cons (e : MsgPack × MsgPack) (es : List (MsgPack × MsgPack)) :
    flat (e :: es) = e.1 :: e.2 :: flat es := rfl

/-- There are twice as many of them as entries. -/
theorem length_flat (es : List (MsgPack × MsgPack)) : (flat es).length = 2 * es.length := by
  induction es with
  | nil => rfl
  | cons e es ih =>
      rw [flat_cons, List.length_cons, List.length_cons, ih, List.length_cons]
      omega

/-- A list of even length is one of keys and values. -/
theorem exists_flat {ys : List MsgPack} {n : ℕ} (h : ys.length = 2 * n) :
    ∃ es, flat es = ys ∧ es.length = n := by
  induction n generalizing ys with
  | zero => exact ⟨[], (List.eq_nil_of_length_eq_zero h).symm, rfl⟩
  | succ n ih =>
      rcases ys with _ | ⟨k, _ | ⟨v, ys⟩⟩
      · cases h
      · rw [List.length_singleton] at h
        omega
      · simp only [List.length_cons] at h
        have hrest : ys.length = 2 * n := by omega
        obtain ⟨es, rfl, hlen⟩ := ih hrest
        exact ⟨(k, v) :: es, rfl, by rw [List.length_cons, hlen]⟩

theorem mem_flat {es : List (MsgPack × MsgPack)} {x : MsgPack} :
    x ∈ flat es ↔ ∃ e ∈ es, x = e.1 ∨ x = e.2 := by
  simp [flat]

/-- An object has the nodes of that array. -/
theorem objectNodes_eq (es : List (MsgPack × MsgPack)) :
    MsgPack.objectNodes es = MsgPack.arrayNodes (flat es) := by
  induction es with
  | nil => rfl
  | cons e es ih =>
      rw [flat_cons, MsgPack.objectNodes, MsgPack.arrayNodes, MsgPack.arrayNodes, ih,
        List.append_assoc]

/-- And its height. -/
theorem objectHeight_eq (es : List (MsgPack × MsgPack)) :
    MsgPack.objectHeight es = MsgPack.arrayHeight (flat es) := by
  induction es with
  | nil => rfl
  | cons e es ih =>
      rw [flat_cons, MsgPack.objectHeight, MsgPack.arrayHeight, MsgPack.arrayHeight, ih, max_assoc]

section Flat

variable (is_big_endian : Bool)

/-- And it is dumped to the same bytes. -/
theorem dump_entries_eq (es : List (MsgPack × MsgPack)) :
    Dump.dump_entries is_big_endian es = Dump.dump_items is_big_endian (flat es) := by
  induction es with
  | nil => rfl
  | cons e es ih =>
      rw [flat_cons, Dump.dump_entries, Dump.dump_items, Dump.dump_items, ih]
      rcases Dump.dump is_big_endian e.1 with _ | k
      · rfl
      rcases Dump.dump is_big_endian e.2 with _ | v
      · rfl
      rcases Dump.dump_items is_big_endian (flat es) with _ | rest
      · rfl
      exact congrArg Except.ok (List.append_assoc ..)

/-- And written in the same way. -/
theorem puts_entries_iff {σ : Type} [OStream σ] {es : List (MsgPack × MsgPack)}
    {out : Except String Unit} {w : List UInt8} :
    Puts (dump_entries is_big_endian es : StreamWriter σ Unit) out w ↔
      Puts (dump_items is_big_endian (flat es) : StreamWriter σ Unit) out w := by
  have heq : (dump_entries is_big_endian es : StreamWriter σ Unit)
      = dump_items is_big_endian (flat es) := by
    induction es with
    | nil => rfl
    | cons e es ih => rw [flat_cons, dump_entries, dump_items, dump_items, ih]
  rw [heq]

end Flat

/-! ## Without an exception -/

section Regular

variable {σ : Type} [OStream σ] {is_big_endian : Bool}

/-- A length that fits is written. -/
theorem puts_announce {head : Except String (List UInt8)} {bs : List UInt8} (h : head = .ok bs) :
    Puts (announce head : StreamWriter σ Unit) (.ok ()) bs := by
  subst h
  exact Puts.put bs

theorem puts_announce_error {head : Except String (List UInt8)} {text : String}
    (h : head = .error text) : Puts (announce head : StreamWriter σ Unit) (.error text) [] := by
  subst h
  exact Puts.throw text

/-- A length and what follows it. -/
theorem puts_framed {head : Except String (List UInt8)} {p : StreamWriter σ Unit} {s : List UInt8}
    {body : Except String (List UInt8)} (h : (do let a ← head; let b ← body; return a ++ b) = .ok s)
    (hp : ∀ b, body = .ok b → Puts p (.ok ()) b) : Puts (do announce head; p) (.ok ()) s := by
  rcases head with _ | a
  · cases h
  rcases body with _ | b
  · cases h
  cases h
  exact Puts.then_of_ok (puts_announce rfl) (hp b rfl)

/-- A length and a payload that is written whole. -/
theorem puts_payload {head : Except String (List UInt8)} {body s : List UInt8}
    (h : (do let a ← head; return a ++ body) = .ok s) :
    Puts (do announce head; put body : StreamWriter σ Unit) (.ok ()) s := by
  have hp : ∀ b, (Except.ok body : Except String (List UInt8)) = .ok b →
      Puts (put body : StreamWriter σ Unit) (.ok ()) b := by
    rintro b ⟨⟩
    exact Puts.put body
  exact puts_framed h hp

/-- Items that are written one by one as they are dumped. -/
theorem puts_items_of_dump {xs : List MsgPack} {s : List UInt8}
    (hxs : ∀ x ∈ xs, ∀ s, Dump.dump is_big_endian x = .ok s →
      Puts (dump is_big_endian x : StreamWriter σ Unit) (.ok ()) s)
    (h : Dump.dump_items is_big_endian xs = .ok s) :
    Puts (dump_items is_big_endian xs : StreamWriter σ Unit) (.ok ()) s := by
  induction xs generalizing s with
  | nil =>
      cases h
      exact Puts.nothing
  | cons x xs ih =>
      rw [List.forall_mem_cons] at hxs
      rw [Dump.dump_items] at h
      rcases hx : Dump.dump is_big_endian x with _ | a
      · rw [hx] at h
        cases h
      rcases hrest : Dump.dump_items is_big_endian xs with _ | b
      · rw [hx, hrest] at h
        cases h
      rw [hx, hrest] at h
      cases h
      rw [dump_items]
      exact Puts.then_of_ok (hxs.1 a hx) (ih hxs.2 hrest)

/-- Without an exception the stream gets what `Dump.dump` returns. -/
theorem puts_of_dump {x : MsgPack} {s : List UInt8} (h : Dump.dump is_big_endian x = .ok s) :
    Puts (dump is_big_endian x : StreamWriter σ Unit) (.ok ()) s := by
  induction x using MsgPack.induction generalizing s with
  | leaf x hleaf =>
      cases x
      case string v => exact puts_payload h
      case binary v => exact puts_payload h
      case extension t d => exact puts_payload h
      case array => cases hleaf
      case object => cases hleaf
      all_goals
        cases h
        exact Puts.put _
  | array xs ih => exact puts_framed h fun b hb => puts_items_of_dump (fun x hx s => ih x hx) hb
  | object es ih =>
      refine puts_framed h fun b hb => ?_
      rw [dump_entries_eq] at hb
      refine (puts_entries_iff is_big_endian).mpr (puts_items_of_dump ?_ hb)
      intro x hx s hs
      obtain ⟨e, he, rfl | rfl⟩ := mem_flat.mp hx
      · exact (ih e he).1 hs
      · exact (ih e he).2 hs

end Regular

/-! ## With an exception -/

/-- No field is wide enough for the length of the node. -/
def tooLong (n : MsgPack) : Bool := decide (0xffffffff < n.length)

/-- What the overload of the node throws. -/
def lengthText (n : MsgPack) : String :=
  if n.is_object then "too long value." else "exceeded maximum data length"

/-- The lengths of a value fit if no node is too long. -/
theorem lengthsFit_iff {x : MsgPack} : x.LengthsFit ↔ x.nodes.find? tooLong = none := by
  simp [MsgPack.LengthsFit, MsgPack.All, tooLong]

/-- Every overload throws above the widest field, one of them another text. -/
theorem dump_length_error (is_big_endian : Bool) (f : Family) {n : ℕ} (h : 0xffffffff < n) :
    dump_length is_big_endian f n =
      .error (if f = .object then "too long value." else "exceeded maximum data length") := by
  cases f
  case string =>
    rw [dump_length, dump_string_length, if_neg (by omega), if_neg (by omega), if_neg (by omega),
      if_neg (by omega)]
    rfl
  case binary =>
    rw [dump_length, dump_binary_length, if_neg (by omega), if_neg (by omega), if_neg (by omega)]
    rfl
  case array =>
    rw [dump_length, dump_array_length, if_neg (by omega), if_neg (by omega), if_neg (by omega)]
    rfl
  case object =>
    rw [dump_length, dump_object_length, if_neg (by omega), if_neg (by omega), if_neg (by omega)]
    rfl
  case extension =>
    rw [dump_length, dump_extension_length, if_neg (by omega), if_neg (by omega),
      if_neg (by omega), if_neg (by omega), if_neg (by omega), if_neg (by omega),
      if_neg (by omega), if_neg (by omega)]
    rfl

section Exceptional

variable (σ : Type) [OStream σ] (is_big_endian : Bool)

/-- The write throws over its first node that is too long, and what it has written by
then is the beginning of the encoding of another value, no higher than this one. -/
def Stuck (x : MsgPack) : Prop :=
  ∃ n w y t, x.nodes.find? tooLong = some n ∧
    Dump.dump is_big_endian x = .error (lengthText n) ∧
    Puts (dump is_big_endian x : StreamWriter σ Unit) (.error (lengthText n)) w ∧
    y.LengthsFit ∧ y.height ≤ x.height ∧ Dump.dump is_big_endian y = .ok (w ++ t) ∧ t ≠ []

/-- The same of the items of an array. -/
def StuckItems (xs : List MsgPack) : Prop :=
  ∃ n w ys t, (MsgPack.arrayNodes xs).find? tooLong = some n ∧
    Dump.dump_items is_big_endian xs = .error (lengthText n) ∧
    Puts (dump_items is_big_endian xs : StreamWriter σ Unit) (.error (lengthText n)) w ∧
    ys.length = xs.length ∧ (∀ y ∈ ys, y.LengthsFit) ∧
    MsgPack.arrayHeight ys ≤ MsgPack.arrayHeight xs ∧
    Dump.dump_items is_big_endian ys = .ok (w ++ t) ∧ t ≠ []

variable {σ} {is_big_endian}

theorem lengthsFit_nul : MsgPack.nul.LengthsFit := (MsgPack.all_leaf rfl).mpr (Nat.zero_le _)

/-- Nothing is written of a value whose own length does not fit. -/
theorem stuck_of_tooLong {x : MsgPack} (h : tooLong x = true)
    (hthrow : Dump.dump is_big_endian x = .error (lengthText x))
    (hputs : Puts (dump is_big_endian x : StreamWriter σ Unit) (.error (lengthText x)) []) :
    Stuck σ is_big_endian x := by
  refine ⟨x, [], .nul, [0xc0], ?_, hthrow, hputs, lengthsFit_nul, Nat.zero_le _, rfl,
    List.cons_ne_nil _ _⟩
  cases x <;> rw [MsgPack.nodes] <;> first | exact List.find?_cons_of_pos h | simp

/-- Items that can all be written. -/
theorem dump_items_of_fit {xs : List MsgPack} (h : ∀ x ∈ xs, x.LengthsFit) :
    ∃ s, Dump.dump_items is_big_endian xs = .ok s := by
  obtain ⟨s, -, hs⟩ := dump_items_eq is_big_endian fun x hx => dump_eq_canon is_big_endian (h x hx)
  exact ⟨s, hs⟩

/-- The first item that cannot be written stops the loop; those behind it may be
anything, such as `NUL`. -/
theorem stuckItems {xs : List MsgPack} (hxs : ∀ x ∈ xs, ¬ x.LengthsFit → Stuck σ is_big_endian x)
    (h : ¬ ∀ x ∈ xs, x.LengthsFit) : StuckItems σ is_big_endian xs := by
  induction xs with
  | nil => simp at h
  | cons x xs ih =>
      rw [List.forall_mem_cons] at hxs h
      by_cases hx : x.LengthsFit
      · -- this item is written whole
        obtain ⟨n, w, ys, t, hn, hthrow, hputs, hlen, hfit, hheight, hdump, ht⟩ :=
          ih hxs.2 fun hall => h ⟨hx, hall⟩
        obtain ⟨s, -, hs⟩ := dump_eq_canon is_big_endian hx
        refine ⟨n, s ++ w, x :: ys, t, ?_, ?_, ?_, ?_, ?_, ?_, ?_, ht⟩
        · rw [MsgPack.arrayNodes, List.find?_append, lengthsFit_iff.mp hx, hn]
          rfl
        · rw [Dump.dump_items, hs, hthrow]
          rfl
        · rw [dump_items]
          exact Puts.then_of_ok (puts_of_dump hs) hputs
        · rw [List.length_cons, hlen, List.length_cons]
        · exact List.forall_mem_cons.mpr ⟨hx, hfit⟩
        · rw [MsgPack.arrayHeight, MsgPack.arrayHeight]
          omega
        · rw [Dump.dump_items, hs, hdump, List.append_assoc]
          rfl
      · obtain ⟨n, w, y, t, hn, hthrow, hputs, hfit, hheight, hdump, ht⟩ := hxs.1 hx
        have hnuls : ∀ z ∈ List.replicate xs.length MsgPack.nul, z.LengthsFit := by
          intro z hz
          rw [List.eq_of_mem_replicate hz]
          exact lengthsFit_nul
        obtain ⟨r, hr⟩ : ∃ r, Dump.dump_items is_big_endian _ = .ok r := dump_items_of_fit hnuls
        refine ⟨n, w, y :: List.replicate xs.length .nul, t ++ r, ?_, ?_, ?_, ?_, ?_, ?_, ?_, ?_⟩
        · rw [MsgPack.arrayNodes, List.find?_append, hn]
          rfl
        · rw [Dump.dump_items, hthrow]
          rfl
        · rw [dump_items]
          exact Puts.then_of_error hputs
        · rw [List.length_cons, List.length_replicate, List.length_cons]
        · exact List.forall_mem_cons.mpr ⟨hfit, hnuls⟩
        · have hlow : MsgPack.arrayHeight (List.replicate xs.length .nul) ≤ y.height + 1 := by
            rw [MsgPack.arrayHeight_le_iff]
            intro z hz
            rw [List.eq_of_mem_replicate hz]
            exact Nat.succ_le_succ (Nat.zero_le _)
          rw [MsgPack.arrayHeight, MsgPack.arrayHeight]
          omega
        · rw [Dump.dump_items, hdump, hr, ← List.append_assoc]
          rfl
        · simp [ht]

/-- A container of which one item cannot be written. -/
theorem puts_stuck {head : Except String (List UInt8)} {p : StreamWriter σ Unit} {a w : List UInt8}
    {text : String} (hhead : head = .ok a) (hp : Puts p (.error text) w) :
    Puts (do announce head; p) (.error text) (a ++ w) :=
  Puts.then_of_ok (puts_announce hhead) hp

/-- A value with a node that is too long is stuck at the first, by induction on the tree.
-/
theorem stuck {x : MsgPack} (h : ¬ x.LengthsFit) : Stuck σ is_big_endian x := by
  induction x using MsgPack.induction with
  | leaf x hleaf =>
      rw [MsgPack.LengthsFit, MsgPack.all_leaf hleaf, not_le] at h
      -- the overload throws before it writes
      have hpayload : ∀ f, (f = .string ∨ f = .binary ∨ f = .extension) →
          dump_length is_big_endian f x.length = .error "exceeded maximum data length" := by
        rintro f (rfl | rfl | rfl)
        all_goals exact dump_length_error is_big_endian _ h
      have hstuck : Dump.dump is_big_endian x = .error (lengthText x) →
          Puts (dump is_big_endian x : StreamWriter σ Unit) (.error (lengthText x)) [] →
          Stuck σ is_big_endian x :=
        stuck_of_tooLong (decide_eq_true h)
      cases x
      case string v =>
        have hlen := hpayload .string (Or.inl rfl)
        exact hstuck (congrArg (· >>= _) hlen) (Puts.then_of_error (puts_announce_error hlen))
      case binary v =>
        have hlen := hpayload .binary (Or.inr (Or.inl rfl))
        exact hstuck (congrArg (· >>= _) hlen) (Puts.then_of_error (puts_announce_error hlen))
      case extension t d =>
        have hlen := hpayload .extension (Or.inr (Or.inr rfl))
        exact hstuck (congrArg (· >>= _) hlen) (Puts.then_of_error (puts_announce_error hlen))
      case array => cases hleaf
      case object => cases hleaf
      all_goals exact absurd h (by simp [MsgPack.length])
  | array xs ih =>
      by_cases hself : 0xffffffff < xs.length
      · have hlen := dump_length_error is_big_endian .array hself
        exact stuck_of_tooLong (decide_eq_true hself) (congrArg (· >>= _) hlen)
          (Puts.then_of_error (puts_announce_error hlen))
      have hle : xs.length ≤ 0xffffffff := not_lt.mp hself
      have hitems : ¬ ∀ x ∈ xs, x.LengthsFit := fun hall =>
        h (MsgPack.all_array.mpr ⟨hle, hall⟩)
      have hno : ¬ tooLong (.array xs) = true := fun hlong => hself (of_decide_eq_true hlong)
      obtain ⟨n, w, ys, t, hn, hthrow, hputs, hlen, hfit, hheight, hdump, ht⟩ :=
        stuckItems ih hitems
      obtain ⟨a, -, ha⟩ := dump_length_eq is_big_endian .array hle
      refine ⟨n, a ++ w, .array ys, t, ?_, ?_, puts_stuck ha hputs, ?_, hheight, ?_, ht⟩
      · rw [MsgPack.nodes, List.find?_cons_of_neg hno, hn]
      · rw [Dump.dump, show dump_array_length is_big_endian xs.length = .ok a from ha, hthrow]
        rfl
      · exact MsgPack.all_array.mpr ⟨hlen.le.trans hle, hfit⟩
      · rw [Dump.dump, hlen, show dump_array_length is_big_endian xs.length = .ok a from ha, hdump,
          List.append_assoc]
        rfl
  | object es ih =>
      by_cases hself : 0xffffffff < es.length
      · have hlen := dump_length_error is_big_endian .object hself
        exact stuck_of_tooLong (decide_eq_true hself) (congrArg (· >>= _) hlen)
          (Puts.then_of_error (puts_announce_error hlen))
      have hle : es.length ≤ 0xffffffff := not_lt.mp hself
      -- the keys and values are the items of an array
      have ih' : ∀ x ∈ flat es, ¬ x.LengthsFit → Stuck σ is_big_endian x := by
        intro x hx
        obtain ⟨e, he, rfl | rfl⟩ := mem_flat.mp hx
        · exact (ih e he).1
        · exact (ih e he).2
      have hitems : ¬ ∀ x ∈ flat es, x.LengthsFit := fun hall =>
        h (MsgPack.all_object.mpr ⟨hle, fun e he => ⟨hall e.1 (mem_flat.mpr ⟨e, he, Or.inl rfl⟩),
          hall e.2 (mem_flat.mpr ⟨e, he, Or.inr rfl⟩)⟩⟩)
      have hno : ¬ tooLong (.object es) = true := fun hlong => hself (of_decide_eq_true hlong)
      obtain ⟨n, w, ys, t, hn, hthrow, hputs, hlen, hfit, hheight, hdump, ht⟩ :=
        stuckItems ih' hitems
      obtain ⟨a, -, ha⟩ := dump_length_eq is_big_endian .object hle
      obtain ⟨fs, rfl, hfs⟩ := exists_flat (hlen.trans (length_flat es))
      refine ⟨n, a ++ w, .object fs, t, ?_, ?_,
        puts_stuck ha ((puts_entries_iff is_big_endian).mpr hputs), ?_, ?_, ?_, ht⟩
      · rw [MsgPack.nodes, List.find?_cons_of_neg hno, objectNodes_eq, hn]
      · rw [Dump.dump, show dump_object_length is_big_endian es.length = .ok a from ha,
          dump_entries_eq, hthrow]
        rfl
      · exact MsgPack.all_object.mpr ⟨hfs.le.trans hle, fun e he =>
          ⟨hfit e.1 (mem_flat.mpr ⟨e, he, Or.inl rfl⟩),
            hfit e.2 (mem_flat.mpr ⟨e, he, Or.inr rfl⟩)⟩⟩
      · rw [MsgPack.height, MsgPack.height, objectHeight_eq, objectHeight_eq]
        exact hheight
      · rw [Dump.dump, hfs, show dump_object_length is_big_endian es.length = .ok a from ha,
          dump_entries_eq, hdump, List.append_assoc]
        rfl

end Exceptional

/-! ## Result -/

/-- What can be dumped is what has lengths that fit. -/
theorem lengthsFit_of_dump {is_big_endian : Bool} {x : MsgPack} {s : List UInt8}
    (h : Dump.dump is_big_endian x = .ok s) : x.LengthsFit := by
  by_contra hfit
  obtain ⟨n, w, y, t, -, hthrow, -⟩ : Stuck StringStream is_big_endian x := stuck hfit
  rw [h] at hthrow
  cases hthrow

/-- The beginning of an encoding asks to be completed. -/
theorem parse_of_shorter (is_big_endian is_big_endian' : Bool) {y : MsgPack} {w t : List UInt8}
    (hfit : y.LengthsFit) (hheight : y.height ≤ max_depth)
    (hdump : Dump.dump is_big_endian y = .ok (w ++ t)) (ht : t ≠ []) :
    Fails is_big_endian' w "end of buffer." := by
  obtain ⟨s, hbytes, hs⟩ := dump_eq_canon is_big_endian hfit
  rw [hdump, Except.ok.injEq] at hs
  have henc : Encoding (canon y) (w ++ t) := ⟨by rw [hs]; exact hbytes,
    (height_canon y).le.trans hheight⟩
  exact fails_of_message (x := .endOfBuffer) ((message_endOfBuffer_iff is_big_endian').mpr
    (Or.inl ⟨t, ht, accepts_of_encoding henc⟩))

/-- `MsgPack::dump`: what it returns is the string of a stream to which nothing but the
value was written, and it throws what `operator<<` throws. -/
theorem dump_eq_str (is_big_endian : Bool) (x : MsgPack) :
    Dump.dump is_big_endian x =
      (let (out, ss) := (dump is_big_endian x).run (StringStream.ofString [])
      out.map fun _ => ss.str) := by
  by_cases hfit : x.LengthsFit
  · obtain ⟨s, -, hs⟩ := dump_eq_canon is_big_endian hfit
    have hstr : ((StringStream.ofString []).put s).str = s := by
      rw [StringStream.str, (StringStream.put_of_good rfl s).1]
      exact overwrite_end [] s
    rw [puts_of_dump hs, hs]
    exact congrArg Except.ok hstr.symm
  · obtain ⟨n, w, y, t, -, hthrow, hputs, -⟩ : Stuck StringStream is_big_endian x := stuck hfit
    rw [hputs, hthrow]
    rfl

/-- Either every length fits, and `operator<<` writes what `dump()` returns, or it throws
for the first node, in the order of the encoding, whose length does not fit. What it has
written by then is no message: as long as the value is not too deep for the parser, it is
one that has just not been completed. On a stream that is not good the outcome is the
same, and the stream is left alone. -/
theorem insertion_outcome {σ : Type} [OStream σ] (is_big_endian is_big_endian' : Bool)
    (x : MsgPack) (os : σ) :
    ((x.nodes.find? tooLong = none ∧ ∃ s, Dump.dump is_big_endian x = .ok s ∧
        (dump is_big_endian x).run os = (.ok (), OStream.put os s)) ∨
      ∃ n w, x.nodes.find? tooLong = some n ∧
        Dump.dump is_big_endian x = .error (lengthText n) ∧
        (dump is_big_endian x).run os = (.error (lengthText n), OStream.put os w) ∧
        (x.height ≤ max_depth →
          ∀ err, parse is_big_endian' w err = (.nul, "end of buffer."))) ∧
    (OStream.good os = false → ((dump is_big_endian x).run os).2 = os) := by
  by_cases hfit : x.LengthsFit
  · obtain ⟨s, -, hs⟩ := dump_eq_canon is_big_endian hfit
    have hrun : (dump is_big_endian x).run os = (.ok (), OStream.put os s) := puts_of_dump hs os
    refine ⟨Or.inl ⟨lengthsFit_iff.mp hfit, s, hs, hrun⟩, ?_⟩
    intro hbad
    rw [hrun, OStream.put_of_not_good os s hbad]
  · obtain ⟨n, w, y, t, hn, hthrow, hputs, hy, hheight, hdump, ht⟩ : Stuck σ is_big_endian x :=
      stuck hfit
    have hrun : (dump is_big_endian x).run os = (.error (lengthText n), OStream.put os w) :=
      hputs os
    refine ⟨Or.inr ⟨n, w, hn, hthrow, hrun, ?_⟩, ?_⟩
    · intro hdeep
      exact parse_of_shorter is_big_endian is_big_endian' hy (hheight.trans hdeep) hdump ht
    · intro hbad
      rw [hrun, OStream.put_of_not_good os w hbad]

end Msgpack11.Insertion
