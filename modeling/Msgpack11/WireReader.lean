/-
A reader for the format, and its theory: it decodes exactly the encodings of at
most a given number of levels, it reports a format error where nesting goes
beyond them, and it tells apart the inputs that can still be completed.

`read n` reads an item whose deepest item lies fewer than `n` levels below it;
`read 0` rejects whatever comes, before it looks at a byte.

| | what it says of `read n` |
|---|---|
| `decodes`     | it accepts the encodings of height below `n`, and nothing else |
| `stable`      | neither a value nor a format error changes when more input follows |
| `too_deep`    | an encoding of height `n` or more is a format error |
| `resumes`     | input that ran out can be completed, unless it is inside the length field of an overdeep container |
-/
import Msgpack11.Wire

set_option autoImplicit false

namespace Msgpack11.WireReader

open Msgpack11.Streams Msgpack11.Streams.Reader Msgpack11.Bytes Msgpack11.Codec Msgpack11.Format
open Msgpack11.Wire

/-! ## The reader -/

/-- What follows a header that declares `n` elements. -/
def payload (item : Reader Wire) (f : Family) (form : Form) (n : ℕ) : Reader Wire :=
  match f with
  | .string => do
      let d ← take n
      pure (.string form d)
  | .binary => do
      let d ← take n
      pure (.binary form d)
  | .array => do
      let ws ← times item n
      pure (.array form ws)
  | .object => do
      let es ← times (pair item item) n
      pure (.object form es)
  | .extension => do
      let t ← byte
      let d ← take n
      pure (.extension form t d)

/-- What follows the first byte `b`. -/
def tagged (item : Reader Wire) (b : UInt8) : Reader Wire :=
  match tagOf b with
  | .invalid => invalid
  | .nil => pure .nil
  | .bool v => pure (.bool v)
  | .fixint => pure (.fixint b)
  | .arith T => do
      let c ← take T.size
      pure (.arith T c)
  | .fix f n => payload item f .fix n
  | .wide f w => do
      let c ← take w.size
      payload item f (.wide w) (ofBE c)

/-- An item with fewer than `n` levels below it. -/
def read : ℕ → Reader Wire
  | 0 => invalid
  | n + 1 => do
      let b ← byte
      tagged (read n) b

theorem read_cons (n : ℕ) (b : UInt8) (s : List UInt8) :
    read (n + 1) (b :: s) = tagged (read n) b s := rfl

theorem read_nil (n : ℕ) : read (n + 1) [] = .error .endOfBuffer := rfl

/-- A complete header leaves its payload. -/
theorem read_header {f : Family} {form : Form} {k : ℕ} {h : List UInt8}
    (hh : header f form k = some h) (n : ℕ) (s : List UInt8) :
    read (n + 1) (h ++ s) = payload (read n) f form k s := by
  rcases form with _ | w
  · obtain ⟨t, rfl, ht⟩ := header_fix hh
    rw [List.singleton_append, read_cons, tagged, ht]
  · obtain ⟨t, rfl, ht, hk⟩ := header_wide hh
    have htake : take w.size (toBE w.size k ++ s) = .ok (toBE w.size k, s) :=
      take_append s (toBE_length _ _)
    rw [List.cons_append, read_cons, tagged, ht]
    simp only
    rw [run_bind_of_ok htake, ofBE_toBE hk]

/-! ## What the format says of it -/

theorem stable_payload {item : Reader Wire} (h : Stable item) (f : Family) (form : Form) (n : ℕ) :
    Stable (payload item f form n) := by
  cases f
  · exact (Stable.take n).bind fun _ => Stable.pure _
  · exact (Stable.take n).bind fun _ => Stable.pure _
  · exact (h.times n).bind fun _ => Stable.pure _
  · exact ((h.pair h).times n).bind fun _ => Stable.pure _
  · exact Stable.byte.bind fun _ => (Stable.take n).bind fun _ => Stable.pure _

theorem stable (n : ℕ) : Stable (read n) := by
  induction n with
  | zero => exact Stable.invalid'
  | succ n ih =>
      apply Stable.byte.bind
      intro b
      unfold tagged
      split
      · exact Stable.invalid'
      · exact Stable.pure _
      · exact Stable.pure _
      · exact Stable.pure _
      · exact (Stable.take _).bind fun _ => Stable.pure _
      · exact stable_payload ih _ _ _
      · exact (Stable.take _).bind fun _ => stable_payload ih _ _ _

/-- The level below: an array's items, an object's keys and values. -/
theorem height_array_lt {form : Form} {ws : List Wire} {n : ℕ} :
    (Wire.array form ws).height < n + 1 ↔ ∀ w ∈ ws, w.height < n := by
  rw [height, itemsHeight_lt_iff]

theorem height_object_lt {form : Form} {es : List (Wire × Wire)} {n : ℕ} :
    (Wire.object form es).height < n + 1 ↔ ∀ e ∈ es, e.1.height < n ∧ e.2.height < n := by
  rw [height, entriesHeight_lt_iff]

section Step

variable {n : ℕ} (ih : Decodes (read n) bytes fun w => w.height < n)

include ih

/-- The loop of an object, its keys and values alternating. -/
theorem decodes_entries (k : ℕ) :
    Decodes (times (pair (read n) (read n)) k) (concat pairBytes)
      (fun es => es.length = k ∧ ∀ e ∈ es, e.1.height < n ∧ e.2.height < n) :=
  (ih.pair ih).times k

/-- Every encoding is read back, one case for each kind of item. -/
theorem complete_step {w : Wire} {e : List UInt8} (r : List UInt8) (hw : w.bytes = some e)
    (hn : w.height < n + 1) : read (n + 1) (e ++ r) = .ok (w, r) := by
  cases w with
  | nil =>
      cases hw
      rfl
  | bool v => cases v <;> cases hw <;> rfl
  | fixint b =>
      rw [bytes] at hw
      split_ifs at hw with hb
      cases hw
      rw [List.singleton_append, read_cons, tagged, tagOf_fixint hb]
      rfl
  | arith T c =>
      rw [bytes] at hw
      split_ifs at hw with hc
      cases hw
      rw [List.cons_append, read_cons, tagged, tagOf_arithTag]
      simp only
      rw [run_bind_of_ok (take_append r hc)]
      rfl
  | string form d =>
      obtain ⟨h, b, hh, hb, rfl⟩ := cat_eq_some.mp hw
      cases hb
      rw [List.append_assoc, read_header hh, payload, run_bind_of_ok (take_append r rfl)]
      rfl
  | binary form d =>
      obtain ⟨h, b, hh, hb, rfl⟩ := cat_eq_some.mp hw
      cases hb
      rw [List.append_assoc, read_header hh, payload, run_bind_of_ok (take_append r rfl)]
      rfl
  | array form ws =>
      obtain ⟨h, b, hh, hb, rfl⟩ := cat_eq_some.mp hw
      -- the items lie one level below, where the induction reads them
      rw [itemsBytes_eq_concat] at hb
      have hloop := (ih.times ws.length).complete r hb ⟨rfl, height_array_lt.mp hn⟩
      rw [List.append_assoc, read_header hh, payload, run_bind_of_ok hloop]
      rfl
  | object form es =>
      obtain ⟨h, b, hh, hb, rfl⟩ := cat_eq_some.mp hw
      rw [entriesBytes_eq_concat] at hb
      have hloop := (decodes_entries ih es.length).complete r hb ⟨rfl, height_object_lt.mp hn⟩
      rw [List.append_assoc, read_header hh, payload, run_bind_of_ok hloop]
      rfl
  | extension form t d =>
      obtain ⟨h, b, hh, hb, rfl⟩ := cat_eq_some.mp hw
      cases hb
      rw [List.append_assoc, read_header hh, payload, List.cons_append,
        run_bind_of_ok (byte_cons t (d ++ r)), run_bind_of_ok (take_append r rfl)]
      rfl

/-- What a payload was read from, after the header that announced it. -/
theorem sound_payload {f : Family} {form : Form} {k : ℕ} {h s r : List UInt8} {w : Wire}
    (hh : header f form k = some h) (hok : payload (read n) f form k s = .ok (w, r)) :
    w.height < n + 1 ∧ ∃ e, w.bytes = some (h ++ e) ∧ s = e ++ r := by
  cases f <;> rw [payload] at hok
  case string =>
    obtain ⟨d, s', htake, hpure⟩ := bind_ok hok
    cases hpure
    obtain ⟨rfl, rfl⟩ := take_ok htake
    exact ⟨Nat.succ_pos n, d, cat_eq_some.mpr ⟨h, d, hh, rfl, rfl⟩, rfl⟩
  case binary =>
    obtain ⟨d, s', htake, hpure⟩ := bind_ok hok
    cases hpure
    obtain ⟨rfl, rfl⟩ := take_ok htake
    exact ⟨Nat.succ_pos n, d, cat_eq_some.mpr ⟨h, d, hh, rfl, rfl⟩, rfl⟩
  case array =>
    obtain ⟨ws, s', hloop, hpure⟩ := bind_ok hok
    cases hpure
    obtain ⟨⟨rfl, hheight⟩, e, he, rfl⟩ := (ih.times k).sound hloop
    rw [← itemsBytes_eq_concat] at he
    exact ⟨height_array_lt.mpr hheight, e, cat_eq_some.mpr ⟨h, e, hh, he, rfl⟩, rfl⟩
  case object =>
    obtain ⟨es, s', hloop, hpure⟩ := bind_ok hok
    cases hpure
    obtain ⟨⟨rfl, hheight⟩, e, he, rfl⟩ := (decodes_entries ih k).sound hloop
    rw [← entriesBytes_eq_concat] at he
    exact ⟨height_object_lt.mpr hheight, e, cat_eq_some.mpr ⟨h, e, hh, he, rfl⟩, rfl⟩
  case extension =>
    obtain ⟨t, s', hbyte, hok⟩ := bind_ok hok
    obtain ⟨d, s'', htake, hpure⟩ := bind_ok hok
    cases hpure
    obtain ⟨rfl, rfl⟩ := take_ok htake
    rcases s with _ | ⟨b, s⟩ <;> cases hbyte
    exact ⟨Nat.succ_pos n, t :: d, cat_eq_some.mpr ⟨h, t :: d, hh, rfl, rfl⟩, rfl⟩

/-- Whatever is accepted is an encoding, one case for each tag. -/
theorem sound_step {s r : List UInt8} {w : Wire} (hok : read (n + 1) s = .ok (w, r)) :
    w.height < n + 1 ∧ ∃ e, w.bytes = some e ∧ s = e ++ r := by
  rcases s with _ | ⟨b, s⟩
  · rw [read_nil] at hok
    cases hok
  rw [read_cons, tagged] at hok
  cases htag : tagOf b <;> rw [htag] at hok
  case invalid => cases hok
  case nil =>
    cases hok
    have hb : b = 0xc0 := of_decide_eq_true (announces_of_tagOf htag)
    exact ⟨Nat.succ_pos n, [0xc0], rfl, by rw [hb]; rfl⟩
  case bool v =>
    cases hok
    have hb : b = if v then 0xc3 else 0xc2 := of_decide_eq_true (announces_of_tagOf htag)
    exact ⟨Nat.succ_pos n, [if v then 0xc3 else 0xc2], rfl, by rw [← hb]; rfl⟩
  case fixint =>
    cases hok
    exact ⟨Nat.succ_pos n, [b], if_pos (announces_of_tagOf htag), rfl⟩
  case arith T =>
    obtain ⟨c, s', htake, hpure⟩ := bind_ok hok
    cases hpure
    obtain ⟨rfl, hlen⟩ := take_ok htake
    have hb : b = arithTag T := of_decide_eq_true (announces_of_tagOf htag)
    exact ⟨Nat.succ_pos n, b :: c, by rw [bytes, if_pos hlen, hb], rfl⟩
  case fix f k =>
    obtain ⟨hheight, e, he, rfl⟩ := sound_payload ih (header_of_tagOf_fix htag) hok
    exact ⟨hheight, b :: e, he, rfl⟩
  case wide f w' =>
    obtain ⟨c, s', htake, hrest⟩ := bind_ok hok
    obtain ⟨rfl, hlen⟩ := take_ok htake
    obtain ⟨hheight, e, he, rfl⟩ := sound_payload ih (header_of_tagOf_wide htag hlen) hrest
    exact ⟨hheight, b :: (c ++ e), he, by simp⟩

end Step

/-- The reader accepts exactly the encodings with fewer than `n` levels. -/
theorem decodes (n : ℕ) : Decodes (read n) bytes fun w => w.height < n := by
  induction n with
  | zero => exact ⟨fun r _ h => absurd h (Nat.not_lt_zero _), fun h => by cases h⟩
  | succ n ih => exact ⟨complete_step ih, sound_step ih⟩

/-- No two derivations of the format have the same encoding, at whatever level. -/
theorem bytes_injective {w w' : Wire} {e : List UInt8} (h : w.bytes = some e)
    (h' : w'.bytes = some e) : w = w' := by
  have hdecodes := decodes (max w.height w'.height + 1)
  have hw : w.height < max w.height w'.height + 1 := by omega
  have hw' : w'.height < max w.height w'.height + 1 := by omega
  have hsame : e ++ [] = e ++ [] := rfl
  exact (hdecodes.unique h h' hw hw' hsame).1

/-! ## Too many levels -/

/-- An encoding with too many levels is a format error, whatever follows it. -/
theorem too_deep (n : ℕ) : Rejects (read n) bytes fun w => w.height < n := by
  induction n with
  | zero => exact fun _ _ _ => rfl
  | succ n ih =>
      intro w e r hw hn
      cases w
      case array form ws =>
        obtain ⟨h, b, hh, hb, rfl⟩ := cat_eq_some.mp hw
        rw [itemsBytes_eq_concat] at hb
        -- some item is too deep for the level below
        have hbad : ∃ w ∈ ws, ¬ w.height < n := by
          by_contra hno
          exact hn (height_array_lt.mpr fun w hw => by_contra fun hbad => hno ⟨w, hw, hbad⟩)
        rw [List.append_assoc, read_header hh, payload]
        exact run_bind_of_error (Rejects.times (decodes n) ih hb hbad r)
      case object form es =>
        obtain ⟨h, b, hh, hb, rfl⟩ := cat_eq_some.mp hw
        rw [entriesBytes_eq_concat] at hb
        have hbad : ∃ e ∈ es, ¬ (e.1.height < n ∧ e.2.height < n) := by
          by_contra hno
          exact hn (height_object_lt.mpr fun e he => by_contra fun hbad => hno ⟨e, he, hbad⟩)
        rw [List.append_assoc, read_header hh, payload]
        exact run_bind_of_error (Rejects.times ((decodes n).pair (decodes n))
          (Rejects.pair (decodes n) ih ih) hb hbad r)
      all_goals exact absurd (Nat.succ_pos n) hn

/-! ## Where a read stops -/

/-- The items a header asks for: the keys of a map count as items. -/
def slots : Family → ℕ → ℕ
  | .array, k => k
  | .object, k => 2 * k
  | _, _ => 0

/-- A container fails as the loop over its items does. -/
theorem payload_error_iff {item : Reader Wire} {f : Family} {form : Form} {k : ℕ}
    {s : List UInt8} {x : Failure} (hf : 0 < slots f k) :
    payload item f form k s = .error x ↔ times item (slots f k) s = .error x := by
  cases f <;> simp only [slots, Nat.lt_irrefl] at hf
  · rw [payload, slots, run_bind]
    cases times item k s <;> simp
  · rw [payload, slots, ← times_pair_error_iff, run_bind]
    cases times (pair item item) k s <;> simp

theorem failsAt_payload {item : Reader Wire} {f : Family} {form : Form} {k : ℕ} {s : List UInt8}
    (hf : 0 < slots f k) (h : FailsAt (times item (slots f k)) s) :
    FailsAt (payload item f form k) s :=
  ⟨(payload_error_iff hf).mpr h.error,
    fun p t hpt ht => (payload_error_iff hf).mpr (h.before p t hpt ht)⟩

/-- Inside a header the reader asks for more. -/
theorem read_part_of_header {f : Family} {form : Form} {k : ℕ} {p t : List UInt8}
    (hh : header f form k = some (p ++ t)) (ht : t ≠ []) (n : ℕ) :
    read (n + 1) p = .error .endOfBuffer := by
  rcases p with _ | ⟨b, p⟩
  · exact read_nil n
  rcases form with _ | w
  · obtain ⟨b', hb, -⟩ := header_fix hh
    rw [List.cons_append, List.cons.injEq, List.append_eq_nil_iff] at hb
    exact absurd hb.2.2 ht
  · obtain ⟨b', hb, htag, -⟩ := header_wide hh
    rw [List.cons_append] at hb
    obtain ⟨rfl, hp⟩ := List.cons.inj hb
    -- what there is of the field is too short
    have hlen : p.length < w.size := by
      have hsum := congrArg List.length hp
      have hpos := List.length_pos_iff.mpr ht
      rw [List.length_append, toBE_length] at hsum
      omega
    rw [read_cons, tagged, htag]
    exact run_bind_of_error (take_of_lt hlen)

/-- A string that ends with the header of a container whose items lie one level
too deep, and is the beginning of an encoding up to there. -/
inductive Overdeep : ℕ → List UInt8 → Prop
  | here {f : Family} {form : Form} {k : ℕ} {h : List UInt8} (hh : header f form k = some h)
      (hk : 0 < slots f k) : Overdeep 1 h
  | inside {f : Family} {form : Form} {k n : ℕ} {h body s : List UInt8} {ws : List Wire}
      (hh : header f form k = some h) (hbody : concat bytes ws = some body)
      (hws : ∀ w ∈ ws, w.height < n) (hk : ws.length < slots f k) (hs : Overdeep n s) :
      Overdeep (n + 1) (h ++ (body ++ s))

/-- Such a string is a format error at its last byte. -/
theorem Overdeep.failsAt {n : ℕ} {s : List UInt8} (h : Overdeep n s) : FailsAt (read n) s := by
  induction h with
  | @here f form k h hh hk =>
      constructor
      · -- the header asks for an item, and `read 0` rejects whatever comes
        obtain ⟨m, hm⟩ := Nat.exists_eq_succ_of_ne_zero (Nat.ne_of_gt hk)
        have hrun := read_header hh 0 []
        rw [List.append_nil] at hrun
        rw [hrun, payload_error_iff hk, hm]
        rfl
      · intro p t hpt ht
        rw [hpt] at hh
        exact read_part_of_header hh ht 0
  | @inside f form k n h body s ws hh hbody hws hk hs ih =>
      have hpayload : FailsAt (payload (read n) f form k) (body ++ s) :=
        failsAt_payload (Nat.zero_lt_of_lt hk)
          (FailsAt.times (decodes n) (stable n) hbody hws hk ih)
      constructor
      · rw [read_header hh]
        exact hpayload.error
      · intro p t hpt ht
        -- cut behind the header, or inside it
        rcases List.append_eq_append_iff.mp hpt with ⟨q, rfl, hq⟩ | ⟨q, rfl, hq⟩
        · rw [read_header hh]
          exact hpayload.before q t hq ht
        · by_cases hnil : q = []
          · rw [hnil, List.append_nil] at hh
            have hrun := read_header hh n []
            rw [List.append_nil] at hrun
            rw [hrun]
            refine hpayload.before [] (body ++ s) rfl ?_
            rw [hnil, List.nil_append] at hq
            rw [← hq]
            exact ht
          · exact read_part_of_header hh hnil n

/-- The loop over the pairs of an object ends where the loop over its items does. -/
theorem times_pair_ok {item : Reader Wire} {k : ℕ} {s : List UInt8} {ws : List Wire}
    (h : times item (2 * k) s = .ok (ws, [])) :
    ∃ es, times (pair item item) k s = .ok (es, []) := by
  rcases hes : times (pair item item) k s with x | ⟨es, r⟩
  · rw [times_pair_error_iff, h] at hes
    cases hes
  · rw [times_two_mul, run_bind_of_ok hes] at h
    cases h
    exact ⟨es, rfl⟩

/-- Every payload can be supplied, unless its items lie too deep. -/
theorem payload_fill (n : ℕ) (f : Family) (form : Form) (k : ℕ) (h : 0 < n ∨ slots f k = 0) :
    ∃ z w, payload (read n) f form k z = .ok (w, []) := by
  -- items can be nil, bytes can be zero
  have hnils : ∀ j, 0 < n → ∃ z ws, times (read n) j z = .ok (ws, []) := by
    intro j hn
    obtain ⟨m, rfl⟩ := Nat.exists_eq_succ_of_ne_zero (Nat.ne_of_gt hn)
    induction j with
    | zero => exact ⟨[], [], rfl⟩
    | succ j ih =>
        obtain ⟨z, ws, hz⟩ := ih
        have hnil : read (m + 1) (0xc0 :: z) = .ok (.nil, z) := rfl
        refine ⟨0xc0 :: z, .nil :: ws, ?_⟩
        rw [times, run_bind_of_ok hnil, run_bind_of_ok hz]
        rfl
  have hbytes : ∀ j, take j (List.replicate j 0) = .ok (List.replicate j 0, []) := by
    intro j
    have htake := take_append [] (List.length_replicate (n := j) (a := (0 : UInt8)))
    rwa [List.append_nil] at htake
  cases f
  case string => exact ⟨_, _, by rw [payload, run_bind_of_ok (hbytes k)]; rfl⟩
  case binary => exact ⟨_, _, by rw [payload, run_bind_of_ok (hbytes k)]; rfl⟩
  case extension =>
    refine ⟨0 :: List.replicate k 0, .extension form 0 (List.replicate k 0), ?_⟩
    rw [payload, run_bind_of_ok (byte_cons 0 _), run_bind_of_ok (hbytes k)]
    rfl
  case array =>
    rcases h with hn | hk
    · obtain ⟨z, ws, hz⟩ := hnils k hn
      exact ⟨z, _, by rw [payload, run_bind_of_ok hz]; rfl⟩
    · rw [slots] at hk
      subst hk
      exact ⟨[], _, rfl⟩
  case object =>
    rcases h with hn | hk
    · obtain ⟨z, ws, hz⟩ := hnils (2 * k) hn
      obtain ⟨es, hes⟩ := times_pair_ok hz
      exact ⟨z, .object form es, by rw [payload, run_bind_of_ok hes]; rfl⟩
    · have hk0 : k = 0 := by simpa [slots] using hk
      subst hk0
      exact ⟨[], _, rfl⟩

/-- At the last level no loop asks for more. -/
theorem times_read_zero (k : ℕ) (s : List UInt8) :
    times (read 0) k s ≠ .error .endOfBuffer := by
  cases k <;> exact fun h => by cases h

/-- A loop over items that ran out, whatever `read` asks for being completed or in `S`. -/
theorem times_resumes {n : ℕ} {S : List UInt8 → Prop} (ih : Resumes (read n) S) (k : ℕ) :
    Resumes (times (read n) k) fun s => ∃ ws body s', concat bytes ws = some body ∧
      (∀ w ∈ ws, w.height < n) ∧ ws.length < k ∧ S s' ∧ s = body ++ s' := by
  rcases n with _ | n
  · exact fun s herr => absurd herr (times_read_zero k s)
  · have hnil : read (n + 1) [0xc0] = .ok (.nil, []) := rfl
    exact Resumes.times (decodes (n + 1)) (stable (n + 1)) ih hnil k

/-- A payload that ran out can be completed as soon as the loop over its items can. -/
theorem payload_resumes {n : ℕ} {S : List UInt8 → Prop} (ih : Resumes (read n) S) (f : Family)
    (form : Form) (k : ℕ) :
    Resumes (payload (read n) f form k) fun s => ∃ ws body s', concat bytes ws = some body ∧
      (∀ w ∈ ws, w.height < n) ∧ ws.length < slots f k ∧ S s' ∧ s = body ++ s' := by
  -- a payload of bytes only lacks bytes
  have hbytes : ∀ (s : List UInt8) (mk : List UInt8 → Wire),
      (take k >>= fun d => pure (mk d)) s = .error .endOfBuffer →
        ∃ t w, (take k >>= fun d => pure (mk d)) (s ++ t) = .ok (w, []) := by
    intro s mk herr
    rcases bind_error herr with htake | ⟨_, _, -, hpure⟩
    · rcases take_resumes k s htake with ⟨t, d, ht⟩ | hno
      · exact ⟨t, mk d, run_bind_of_ok ht⟩
      · exact hno.elim
    · cases hpure
  intro s herr
  cases f
  case string => exact Or.inl (hbytes s _ herr)
  case binary => exact Or.inl (hbytes s _ herr)
  case extension =>
    rcases s with _ | ⟨t, s⟩
    · obtain ⟨z, w, hz⟩ := payload_fill n .extension form k (Or.inr rfl)
      exact Or.inl ⟨z, w, hz⟩
    · rw [payload, run_bind_of_ok (byte_cons t s)] at herr
      obtain ⟨z, w, hz⟩ := hbytes s _ herr
      exact Or.inl ⟨z, w, hz⟩
  case array =>
    rcases bind_error herr with hloop | ⟨_, _, -, hpure⟩
    · rcases times_resumes ih k s hloop with ⟨t, ws, ht⟩ | hS
      · exact Or.inl ⟨t, .array form ws, by rw [payload, run_bind_of_ok ht]; rfl⟩
      · exact Or.inr hS
    · cases hpure
  case object =>
    rcases bind_error herr with hloop | ⟨_, _, -, hpure⟩
    · rw [times_pair_error_iff] at hloop
      rcases times_resumes ih (2 * k) s hloop with ⟨t, ws, ht⟩ | hS
      · obtain ⟨es, hes⟩ := times_pair_ok ht
        exact Or.inl ⟨t, .object form es, by rw [payload, run_bind_of_ok hes]; rfl⟩
      · exact Or.inr hS
    · cases hpure

/-- The beginnings of overdeep strings. -/
def Doomed (n : ℕ) (s : List UInt8) : Prop := ∃ t, t ≠ [] ∧ Overdeep n (s ++ t)

/-- A length field that ran out: its container can be completed, or is one level
too deep whatever the field turns out to hold. -/
theorem field_resumes (n : ℕ) {f : Family} {w : Width} {b : UInt8} {s : List UInt8}
    (htag : tagOf b = .wide f w) (hlen : s.length < w.size) :
    (∃ t x, read (n + 1) (b :: s ++ t) = .ok (x, [])) ∨ Doomed (n + 1) (b :: s) := by
  obtain ⟨z, hz⟩ : ∃ z : List UInt8, z = List.replicate (w.size - s.length) 0 := ⟨_, rfl⟩
  have hfull : (s ++ z).length = w.size := by
    rw [hz, List.length_append, List.length_replicate]
    omega
  have hh := header_of_tagOf_wide htag hfull
  -- fill the field with zeros: what it declares then fits, or is too deep
  by_cases hfill : 0 < n ∨ slots f (ofBE (s ++ z)) = 0
  · obtain ⟨t, x, ht⟩ := payload_fill n f (.wide w) (ofBE (s ++ z)) hfill
    refine Or.inl ⟨z ++ t, x, ?_⟩
    have hrun := read_header hh n t
    rw [ht] at hrun
    rw [← hrun]
    simp
  · simp only [not_or, Nat.not_lt, Nat.le_zero] at hfill
    obtain ⟨rfl, hslots⟩ := hfill
    have hne : z ≠ [] := by
      intro hnil
      rw [hnil, List.append_nil] at hfull
      omega
    exact Or.inr ⟨z, hne, Overdeep.here hh (Nat.pos_of_ne_zero hslots)⟩

/-- Input that ran out is the beginning of an accepted string or of an overdeep one. -/
theorem resumes (n : ℕ) : Resumes (read n) (Doomed n) := by
  induction n with
  | zero => exact fun s herr => by cases herr
  | succ n ih =>
      intro s herr
      rcases s with _ | ⟨b, s⟩
      · exact Or.inl ⟨[0xc0], .nil, rfl⟩
      rw [read_cons, tagged] at herr
      -- the rest of a payload, after its header `h`
      have hpayload : ∀ (f : Family) (form : Form) (k : ℕ) (h s' : List UInt8),
          header f form k = some h → payload (read n) f form k s' = .error .endOfBuffer →
            (∃ t x, read (n + 1) (h ++ s' ++ t) = .ok (x, [])) ∨ Doomed (n + 1) (h ++ s') := by
        intro f form k h s' hh herr'
        rcases payload_resumes ih f form k s' herr' with ⟨t, x, ht⟩ | hstuck
        · refine Or.inl ⟨t, x, ?_⟩
          rw [List.append_assoc, read_header hh]
          exact ht
        · obtain ⟨ws, body, s'', hbody, hws, hk, ⟨t, ht, hdeep⟩, rfl⟩ := hstuck
          refine Or.inr ⟨t, ht, ?_⟩
          have hinside := Overdeep.inside hh hbody hws hk hdeep
          rw [List.append_assoc, List.append_assoc]
          exact hinside
      cases htag : tagOf b <;> rw [htag] at herr
      case arith T =>
        rcases bind_error herr with htake | ⟨_, _, -, hpure⟩
        · rcases take_resumes T.size s htake with ⟨t, d, ht⟩ | hno
          · refine Or.inl ⟨t, .arith T d, ?_⟩
            rw [List.cons_append, read_cons, tagged, htag]
            exact run_bind_of_ok ht
          · exact hno.elim
        · cases hpure
      case fix f k => exact hpayload f .fix k [b] s (header_of_tagOf_fix htag) herr
      case wide f w =>
        rcases bind_error herr with htake | ⟨c, s', htake, hrest⟩
        · exact field_resumes n htag (take_error htake).2
        · obtain ⟨rfl, hlen⟩ := take_ok htake
          exact hpayload f (.wide w) (ofBE c) (b :: c) s' (header_of_tagOf_wide htag hlen) hrest
      all_goals cases herr

end Msgpack11.WireReader
