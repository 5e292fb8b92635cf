/-
The order in which a map's entries arrive does not matter.

`Shuffle` relates the derivations that differ by permuting entries inside maps:
it is generated by permutations, at the root or anywhere below it, inside keys
too. Along it the denoted value is not merely equal under `operator==` but the
same (`denote_shuffle`), as long as the keys of each map are pairwise unequal
and have no floats. The induction goes over the steps of a shuffle: inside a key
the step first leaves the decoded key as it was, and only then the map around it
is a permutation of the same decoded entries.
-/
import Msgpack11.Outcomes
import Msgpack11.Canonical

set_option autoImplicit false

namespace Msgpack11.EntryOrder

open Msgpack11.StrictWeak Msgpack11.SortedUnique Msgpack11.Compare Msgpack11.Ordering
open Msgpack11.Grammar Msgpack11.Outcomes Msgpack11.Parse Msgpack11.Format

/-! ## Permuting entries -/

/-- The second derivation is the first with entries permuted inside its maps. -/
inductive Shuffle : Wire → Wire → Prop
  | refl (w : Wire) : Shuffle w w
  | trans {w₁ w₂ w₃ : Wire} : Shuffle w₁ w₂ → Shuffle w₂ w₃ → Shuffle w₁ w₃
  | entries {form : Form} {es es' : List (Wire × Wire)} :
      es.Perm es' → Shuffle (.object form es) (.object form es')
  | item {form : Form} {w w' : Wire} (before after : List Wire) :
      Shuffle w w' →
        Shuffle (.array form (before ++ w :: after)) (.array form (before ++ w' :: after))
  | key {form : Form} {k k' : Wire} (v : Wire) (before after : List (Wire × Wire)) :
      Shuffle k k' →
        Shuffle (.object form (before ++ (k, v) :: after))
          (.object form (before ++ (k', v) :: after))
  | value {form : Form} {v v' : Wire} (k : Wire) (before after : List (Wire × Wire)) :
      Shuffle v v' →
        Shuffle (.object form (before ++ (k, v) :: after))
          (.object form (before ++ (k, v') :: after))

/-! ## Distinct keys -/

/-- The decoded keys of a map have no floats and are pairwise unequal. -/
def KeysApart (es : List (MsgPack × MsgPack)) : Prop :=
  (∀ e ∈ es, e.1.FloatFree) ∧ es.Pairwise fun e e' => equals e.1 e'.1 = false

/-- Every map of the derivation has such keys, those inside keys included. -/
inductive DistinctKeys : Wire → Prop
  | leaf {w : Wire} : w.isLeaf = true → DistinctKeys w
  | array {form : Form} {ws : List Wire} : (∀ w ∈ ws, DistinctKeys w) →
      DistinctKeys (.array form ws)
  | object {form : Form} {es : List (Wire × Wire)} : KeysApart (Wire.denoteEntries es) →
      (∀ e ∈ es, DistinctKeys e.1) → (∀ e ∈ es, DistinctKeys e.2) →
      DistinctKeys (.object form es)

theorem distinctKeys_array_iff {form : Form} {ws : List Wire} :
    DistinctKeys (.array form ws) ↔ ∀ w ∈ ws, DistinctKeys w := by
  refine ⟨fun h => ?_, DistinctKeys.array⟩
  cases h with
  | leaf hleaf => cases hleaf
  | array hitems => exact hitems

theorem distinctKeys_object_iff {form : Form} {es : List (Wire × Wire)} :
    DistinctKeys (.object form es) ↔ KeysApart (Wire.denoteEntries es) ∧
      (∀ e ∈ es, DistinctKeys e.1) ∧ ∀ e ∈ es, DistinctKeys e.2 := by
  refine ⟨fun h => ?_, fun h => DistinctKeys.object h.1 h.2.1 h.2.2⟩
  cases h with
  | leaf hleaf => cases hleaf
  | object hkeys hk hv => exact ⟨hkeys, hk, hv⟩

/-- Among keys without floats, unequal is inequivalent to the container. -/
theorem KeysApart.pairwise_not_incomp {es : List (MsgPack × MsgPack)} (h : KeysApart es) :
    es.Pairwise fun e e' => ¬ Incomp entryLess e e' := by
  refine List.Pairwise.imp_of_mem ?_ h.2
  intro e e' he he' hne hinc
  rw [(equals_iff_incomp (h.1 e he).naNFree (h.1 e' he').naNFree).mpr hinc] at hne
  cases hne

theorem KeysApart.perm {es es' : List (MsgPack × MsgPack)} (h : KeysApart es)
    (hp : es.Perm es') : KeysApart es' := by
  have hfree : ∀ e ∈ es', e.1.FloatFree := fun e he => h.1 e (hp.mem_iff.mpr he)
  have hne : es'.Pairwise fun e e' => ¬ Incomp entryLess e e' :=
    hp.pairwise h.pairwise_not_incomp fun hxy hyx => hxy hyx.symm
  refine ⟨hfree, List.Pairwise.imp_of_mem ?_ hne⟩
  intro e e' he he' hinc
  rw [← Bool.not_eq_true, equals_iff_incomp (hfree e he).naNFree (hfree e' he').naNFree]
  exact hinc

/-! ## The decoded value -/

theorem denoteEntries_perm {es es' : List (Wire × Wire)} (hp : es.Perm es') :
    (Wire.denoteEntries es).Perm (Wire.denoteEntries es') := by
  rw [Wire.denoteEntries_eq_map, Wire.denoteEntries_eq_map]
  exact hp.map _

/-- Replacing an entry by one that denotes the same pair. -/
theorem denoteEntries_congr (before after : List (Wire × Wire)) {e e' : Wire × Wire}
    (h₁ : e'.1.denote = e.1.denote) (h₂ : e'.2.denote = e.2.denote) :
    Wire.denoteEntries (before ++ e' :: after) = Wire.denoteEntries (before ++ e :: after) := by
  simp only [Wire.denoteEntries_eq_map, List.map_append, List.map_cons, h₁, h₂]

/-- What holds of the old items and of the replacement holds of the new items. -/
theorem forall_mem_replace {α : Type*} {P : α → Prop} {a a' : α} {before after : List α}
    (h : ∀ x ∈ before ++ a :: after, P x) (ha : P a → P a') :
    ∀ x ∈ before ++ a' :: after, P x := by
  intro x hx
  rcases List.mem_append.mp hx with hb | hx
  · exact h x (List.mem_append_left _ hb)
  rcases List.mem_cons.mp hx with rfl | hx
  · exact ha (h a (List.mem_append_right _ (List.mem_cons_self ..)))
  · exact h x (List.mem_append_right _ (List.mem_cons_of_mem _ hx))

/-- A shuffle denotes the same value, and keeps the keys of each map distinct. -/
theorem denote_shuffle {w w' : Wire} (h : Shuffle w w') (hkeys : DistinctKeys w) :
    w'.denote = w.denote ∧ DistinctKeys w' := by
  induction h with
  | refl w => exact ⟨rfl, hkeys⟩
  | trans _ _ ih₁ ih₂ =>
      obtain ⟨heq₁, hkeys₁⟩ := ih₁ hkeys
      obtain ⟨heq₂, hkeys₂⟩ := ih₂ hkeys₁
      exact ⟨heq₂.trans heq₁, hkeys₂⟩
  | @entries form es es' hp =>
      obtain ⟨hapart, hk, hv⟩ := distinctKeys_object_iff.mp hkeys
      have hp' := denoteEntries_perm hp
      constructor
      · rw [Wire.denote, Wire.denote, insertAll_eq_of_perm strictWeak_entryLess hapart.1
          hapart.pairwise_not_incomp hp']
      · exact distinctKeys_object_iff.mpr ⟨hapart.perm hp',
          fun e he => hk e (hp.mem_iff.mpr he), fun e he => hv e (hp.mem_iff.mpr he)⟩
  | @item form w w' before after _ ih =>
      rw [distinctKeys_array_iff] at hkeys
      obtain ⟨heq, hkeys'⟩ := ih (hkeys w (by simp))
      constructor
      · simp only [Wire.denote, Wire.denoteItems_eq_map, List.map_append, List.map_cons, heq]
      · exact distinctKeys_array_iff.mpr (forall_mem_replace hkeys fun _ => hkeys')
  | @key form k k' v before after _ ih =>
      obtain ⟨hapart, hk, hv⟩ := distinctKeys_object_iff.mp hkeys
      obtain ⟨heq, hkeys'⟩ := ih (hk (k, v) (by simp))
      -- the decoded entries are those of before
      have hentries : Wire.denoteEntries (before ++ (k', v) :: after)
          = Wire.denoteEntries (before ++ (k, v) :: after) := denoteEntries_congr _ _ heq rfl
      constructor
      · rw [Wire.denote, Wire.denote, hentries]
      · rw [← hentries] at hapart
        exact distinctKeys_object_iff.mpr ⟨hapart, forall_mem_replace hk fun _ => hkeys',
          forall_mem_replace hv id⟩
  | @value form v v' k before after _ ih =>
      obtain ⟨hapart, hk, hv⟩ := distinctKeys_object_iff.mp hkeys
      obtain ⟨heq, hkeys'⟩ := ih (hv (k, v) (by simp))
      have hentries : Wire.denoteEntries (before ++ (k, v') :: after)
          = Wire.denoteEntries (before ++ (k, v) :: after) := denoteEntries_congr _ _ rfl heq
      constructor
      · rw [Wire.denote, Wire.denote, hentries]
      · rw [← hentries] at hapart
        exact distinctKeys_object_iff.mpr ⟨hapart, forall_mem_replace hk id,
          forall_mem_replace hv fun _ => hkeys'⟩

/-! ## Two parses -/

/-- Two accepted encodings that differ by permuting entries decode to the same value:
the same entries in every object, the same bytes when dumped again. -/
theorem parse_of_shuffle (is_big_endian is_big_endian' : Bool) {s t : List UInt8} {w w' : Wire}
    (hs : Accepts is_big_endian s) (ht : Accepts is_big_endian t) (hw : w.bytes = some s)
    (hw' : w'.bytes = some t) (hshuffle : Shuffle w w') (hkeys : DistinctKeys w) :
    ∃ x y d, (∀ err, parse is_big_endian s err = (x, err)) ∧
      (∀ err, parse is_big_endian t err = (y, err)) ∧ x = y ∧
      Dump.dump is_big_endian' x = .ok d ∧ Dump.dump is_big_endian' y = .ok d ∧
      (x.NaNFree → equals x y = true) := by
  have hvalue : ∀ {u : List UInt8} {v : Wire}, Accepts is_big_endian u → v.bytes = some u →
      ∀ err, parse is_big_endian u err = (v.denote, err) := by
    intro u v hu hv err
    obtain ⟨v', henc⟩ := encoding_of_accepts hu
    rw [parse_of_encoding henc, WireReader.bytes_injective henc.1 hv]
  obtain ⟨heq, -⟩ := denote_shuffle hshuffle hkeys
  obtain ⟨d, -, hdump⟩ := Canonical.dump_eq_canon is_big_endian' (Wire.lengthsFit_denote hw)
  refine ⟨w.denote, w'.denote, d, hvalue hs hw, hvalue ht hw', heq.symm, hdump, ?_, ?_⟩
  · rw [heq]
    exact hdump
  · intro hnan
    rw [heq]
    exact equals_refl hnan

/-- A map with a map among its keys, both sent in two orders. -/
theorem parse_of_shuffle_nested :
    let s : List UInt8 := [0x82, 0x82, 0x01, 0xc0, 0x02, 0xc0, 0xc0, 0xa0, 0xc0]
    let t : List UInt8 := [0x82, 0xa0, 0xc0, 0x82, 0x02, 0xc0, 0x01, 0xc0, 0xc0]
    ∃ x, (∀ err, parse false s err = (x, err)) ∧ ∀ err, parse false t err = (x, err) := by
  intro s t
  let k : Wire := .object .fix [(.fixint 1, .nil), (.fixint 2, .nil)]
  let k' : Wire := .object .fix [(.fixint 2, .nil), (.fixint 1, .nil)]
  let w : Wire := .object .fix [(k, .nil), (.string .fix [], .nil)]
  let w' : Wire := .object .fix [(.string .fix [], .nil), (k', .nil)]
  have hw : w.bytes = some s := by decide
  have hw' : w'.bytes = some t := by decide
  have hshuffle : Shuffle w w' :=
    .trans (.key .nil [] [(.string .fix [], .nil)] (.entries (List.Perm.swap _ _ [])))
      (.entries (List.Perm.swap _ _ []))
  have hnil : DistinctKeys .nil := .leaf rfl
  have hint : ∀ b, DistinctKeys (.fixint b) := fun _ => .leaf rfl
  have hstring : DistinctKeys (.string .fix []) := .leaf rfl
  have hkey : DistinctKeys k :=
    .object ⟨by decide +kernel, by decide +kernel⟩ (by simp [hint]) (by simp [hnil])
  have hkeys : DistinctKeys w :=
    .object ⟨by decide +kernel, by decide +kernel⟩ (by simp [hkey, hstring]) (by simp [hnil])
  have hs : Accepts false s := accepts_of_encoding ⟨hw, by decide⟩
  have ht : Accepts false t := accepts_of_encoding ⟨hw', by decide⟩
  obtain ⟨x, y, -, hx, hy, rfl, -⟩ := parse_of_shuffle false false hs ht hw hw' hshuffle hkeys
  exact ⟨x, hx, hy⟩

end Msgpack11.EntryOrder
