/-
When decoding a map loses an entry.

`std::map` discards an entry when its key is equivalent to one already there,
that is when neither key is below the other. Without NaN that is `operator==`.
With NaN it is not: every comparison with NaN is false, so a NaN is equivalent to
every number, while `operator==` says that it equals none. `agree` is the
equivalence the container works with, written the way `operator==` is: equality
of values where a NaN passes for any number. A map therefore keeps all its
entries exactly when no two of its keys agree (`object_keeps_all_iff`), and
`nan_key_discards` is a map with two unequal keys of which one is lost.
-/
import Msgpack11.Outcomes

set_option autoImplicit false

namespace Msgpack11.NaNKeys

open Msgpack11.Floating Msgpack11.StrictWeak Msgpack11.SortedUnique Msgpack11.Compare
open Msgpack11.KeyOrder Msgpack11.Ordering Msgpack11.Grammar Msgpack11.Outcomes Msgpack11.Parse

/-! ## Equality up to NaN -/

/-- Two numbers agree if they are equal or one of them is NaN; other values agree if
their payloads do. -/
def agree_body (eq : MsgPack → MsgPack → Bool) (a b : MsgPack) : Bool :=
  if isNumberType a.type && isNumberType b.type then a.isNaN || b.isNaN || equals a b
  else a.type == b.type && payload_equals eq a b

/-- `operator==` with a NaN, at any depth, passing for any number. -/
def agree (a b : MsgPack) : Bool := levels agree_body (a.height + 1) a b

theorem agree_body_descends : Descends agree_body := by
  intro f g a b h
  simp only [agree_body, payload_equals_descends f g a b h]

theorem agree_eq (a b : MsgPack) : agree a b = agree_body agree a b :=
  levels_eq agree_body_descends a b

theorem agree_of_numbers {a b : MsgPack} (ha : IsNumber a) (hb : IsNumber b) :
    agree a b = (a.isNaN || b.isNaN || equals a b) := by
  rw [agree_eq, agree_body, ha, hb, Bool.and_true, if_pos rfl]

theorem agree_of_not_numbers {a b : MsgPack} (h : ¬ (IsNumber a ∧ IsNumber b)) :
    agree a b = (a.type == b.type && payload_equals agree a b) := by
  rw [agree_eq, agree_body, if_neg]
  rwa [Bool.and_eq_true]

theorem followsShape_agree : FollowsShape agree where
  rank_ne := by
    intro a b hr
    have hno : ¬ (IsNumber a ∧ IsNumber b) := by
      rintro ⟨ha, hb⟩
      exact hr (by rw [rank, rank, if_pos ha, if_pos hb])
    have htype : (a.type == b.type) = false := by
      rw [beq_eq_false_iff_ne]
      intro heq
      exact hr (by rw [rank, rank, heq])
    rw [agree_of_not_numbers hno, htype, Bool.false_and]
  payload := by
    intro a b ha htype
    rw [agree_of_not_numbers fun h => ha h.1, htype]
    simp

/-! ## The equivalence of the container -/

/-- A NaN is neither below nor above any number. -/
theorem incomp_of_isNaN {a b : MsgPack} (ha : IsNumber a) (hb : IsNumber b)
    (h : a.isNaN = true ∨ b.isNaN = true) : Incomp less a b := by
  have hnone : ∀ {c : MsgPack}, c.isNaN = true → c.integer? = none := by
    intro c hc
    cases c <;> first | rfl | exact absurd hc Bool.false_ne_true
  have hvalue : ∀ {c : MsgPack}, c.isNaN = true → c.float64_value = .nan := by
    intro c hc
    rw [← isNaN_float64_value] at hc
    generalize c.float64_value = d at hc
    cases d <;> first | rfl | exact absurd hc Bool.false_ne_true
  have hfloat : a.integer? = none ∨ b.integer? = none := h.imp hnone hnone
  rw [Incomp, (compare_of_float ha hb hfloat).2, (compare_of_float hb ha hfloat.symm).2]
  rcases h with h | h
  · rw [hvalue h, Double.less_nan_left, Double.less_nan_right]
    exact ⟨rfl, rfl⟩
  · rw [hvalue h, Double.less_nan_left, Double.less_nan_right]
    exact ⟨rfl, rfl⟩

theorem trichotomous_agree_numbers :
    TrichotomousOn {a | IsNumber a ∧ True} less agree where
  asymm a ha b hb hab := by
    by_cases h : a.isNaN = true ∨ b.isNaN = true
    · -- a NaN on either side
      exact (incomp_of_isNaN ha.1 hb.1 h).2
    · rw [not_or, Bool.not_eq_true, Bool.not_eq_true] at h
      exact trichotomous_numbers.asymm a ⟨ha.1, h.1⟩ b ⟨hb.1, h.2⟩ hab
  eq_iff a ha b hb := by
    rw [agree_of_numbers ha.1 hb.1, Bool.or_eq_true, Bool.or_eq_true]
    by_cases h : a.isNaN = true ∨ b.isNaN = true
    · exact ⟨fun _ => incomp_of_isNaN ha.1 hb.1 h, fun _ => Or.inl h⟩
    · rw [or_iff_right h]
      rw [not_or, Bool.not_eq_true, Bool.not_eq_true] at h
      exact trichotomous_numbers.eq_iff a ⟨ha.1, h.1⟩ b ⟨hb.1, h.2⟩

/-- Of any two values exactly one of `a < b`, `b < a` and agreement holds. -/
theorem trichotomous_agree : TrichotomousOn Set.univ less agree :=
  (followsShape_agree.trichotomous trichotomous_agree_numbers).mono fun _ _ _ _ => trivial

theorem agree_iff_incomp (a b : MsgPack) : agree a b = true ↔ Incomp less a b :=
  trichotomous_agree.eq_iff a trivial b trivial

/-- Without NaN agreement is equality. -/
theorem agree_eq_equals {a b : MsgPack} (ha : a.NaNFree) (hb : b.NaNFree) :
    agree a b = equals a b := by
  rw [Bool.eq_iff_iff, agree_iff_incomp, equals_iff_incomp ha hb]

/-! ## Entries kept and lost -/

/-- The object `m` has as many entries as were sent, and every one that was sent. -/
def KeepsAll (m es : List (MsgPack × MsgPack)) : Prop :=
  m.length = es.length ∧ ∀ e ∈ es, e ∈ m

/-- Insertion keeps everything exactly when no two keys agree. -/
theorem insertAll_keepsAll_iff (es : List (MsgPack × MsgPack)) :
    KeepsAll (insertAll entryLess [] es) es ↔ es.Pairwise fun e e' => agree e.1 e'.1 = false := by
  have hiff : (es.Pairwise fun e e' => ¬ Incomp entryLess e e') ↔
      es.Pairwise fun e e' => agree e.1 e'.1 = false := by
    apply List.Pairwise.iff
    intro e e'
    rw [← Bool.not_eq_true, agree_iff_incomp]
    rfl
  rw [← hiff]
  constructor
  · rintro ⟨hlen, -⟩
    by_contra hclash
    -- two equivalent keys cost an entry
    have hlt := length_insertAll_lt (m := []) (Or.inl hclash)
    rw [hlen, List.length_nil] at hlt
    omega
  · intro hne
    -- without them the object is a permutation of what was sent
    have hp := insertAll_nil_perm hne
    exact ⟨hp.length_eq, fun e he => hp.mem_iff.mpr he⟩

/-- An accepted map decodes to an object with all its entries exactly when no two of
its keys agree. Unequal keys without NaN never do. -/
theorem object_keeps_all_iff (is_big_endian : Bool) {s : List UInt8} {form : Format.Form}
    {es : List (Wire × Wire)} (hs : Accepts is_big_endian s)
    (hw : (Wire.object form es).bytes = some s)
    (hkeys : (Wire.denoteEntries es).Pairwise fun e e' => equals e.1 e'.1 = false) :
    ∃ m, (∀ err, parse is_big_endian s err = (.object m, err)) ∧
      (KeepsAll m (Wire.denoteEntries es) ↔
        (Wire.denoteEntries es).Pairwise fun e e' => agree e.1 e'.1 = false) ∧
      ((∀ e ∈ Wire.denoteEntries es, e.1.NaNFree) → KeepsAll m (Wire.denoteEntries es)) := by
  obtain ⟨w, henc⟩ := encoding_of_accepts hs
  have hsame := WireReader.bytes_injective henc.1 hw
  rw [hsame] at henc
  refine ⟨_, fun err => parse_of_encoding henc err, insertAll_keepsAll_iff _, ?_⟩
  intro hnan
  rw [insertAll_keepsAll_iff]
  refine List.Pairwise.imp_of_mem ?_ hkeys
  intro e e' he he' hne
  rw [agree_eq_equals (hnan e he) (hnan e' he')]
  exact hne

/-- A NaN key and the key 5: they are unequal, and the entry of the second is lost. -/
theorem nan_key_discards :
    let es : List (Wire × Wire) :=
      [(.arith .double [0x7f, 0xf8, 0, 0, 0, 0, 0, 0], .bool true), (.fixint 5, .bool false)]
    let s : List UInt8 := [0x82, 0xcb, 0x7f, 0xf8, 0, 0, 0, 0, 0, 0, 0xc3, 0x05, 0xc2]
    (Wire.object .fix es).bytes = some s ∧ Accepts false s ∧
      ((Wire.denoteEntries es).Pairwise fun e e' => equals e.1 e'.1 = false) ∧
      ∃ m, (∀ err, parse false s err = (.object m, err)) ∧ m.length = 1 ∧ es.length = 2 := by
  intro es s
  have hw : (Wire.object .fix es).bytes = some s := by decide
  have henc : Encoding (.object .fix es) s := ⟨hw, by decide⟩
  exact ⟨hw, accepts_of_encoding henc, by decide +kernel, _, parse_of_encoding henc,
    by decide +kernel, rfl⟩

/-- The same map with the key 5 as a double and no NaN in it. -/
theorem object_keeps_all_double :
    let es : List (Wire × Wire) :=
      [(.arith .double [0x40, 0x14, 0, 0, 0, 0, 0, 0], .bool true), (.fixint 6, .bool false)]
    let s : List UInt8 := [0x82, 0xcb, 0x40, 0x14, 0, 0, 0, 0, 0, 0, 0xc3, 0x06, 0xc2]
    ∃ m, (∀ err, parse false s err = (.object m, err)) ∧ KeepsAll m (Wire.denoteEntries es) := by
  intro es s
  have hw : (Wire.object .fix es).bytes = some s := by decide
  have hs : Accepts false s := accepts_of_encoding ⟨hw, by decide⟩
  obtain ⟨m, hm, -, hkept⟩ := object_keeps_all_iff false hs hw (by decide +kernel)
  exact ⟨m, hm, hkept (by decide +kernel)⟩

end Msgpack11.NaNKeys
