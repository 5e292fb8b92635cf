/-
Navigation with `operator[]`, along paths of names and positions.

A path that leads nowhere leads to `NUL`, so navigation is total. Two readers are
compared here with one that holds the value itself.

- A reader of a copy: what a path leads to in a copy is a copy of what it leads to
  (`follow_copy`), the accessors say the same there (`accessors_copy`), and so does
  `has_shape`, error text included, as long as it is not asked for an integer type
  (`has_shape_copy`).
- A reader of the wire: in what was parsed, a path leads to what a scan of the encoding
  finds that takes the first entry of each name (`follow_parsed`).
-/
import Msgpack11.Integers
import Msgpack11.Relays
import Msgpack11.Shape

set_option autoImplicit false

namespace Msgpack11.Paths

open Msgpack11.Compare Msgpack11.StrictWeak Msgpack11.SortedUnique Msgpack11.KeyOrder
open Msgpack11.Ordering Msgpack11.Grammar Msgpack11.Canonical Msgpack11.Shape Msgpack11.Parse
open Msgpack11.Parser Msgpack11.Outcomes Msgpack11.RoundTrip Msgpack11.Comparisons Msgpack11.Relays
open Msgpack11.Integers

/-! ## Navigation -/

/-- `operator[](size_t)`; `static_null()` stands for an item that is not there. -/
def index_at (x : MsgPack) (i : ℕ) : MsgPack :=
  match x with
  | .array m => if i ≥ m.length then .nul else (m[i]?).getD .nul
  | _ => .nul

/-- The argument of an `operator[]`. -/
inductive Step where
  | name (key : List UInt8)
  | position (i : ℕ)

def get (x : MsgPack) : Step → MsgPack
  | .name key => index x key
  | .position i => index_at x i

/-- `x[p₀][p₁]…`. -/
def follow (x : MsgPack) (path : List Step) : MsgPack := path.foldl get x

@[simp] theorem follow_nil (x : MsgPack) : follow x [] = x := rfl

@[simp] theorem follow_cons (x : MsgPack) (p : Step) (path : List Step) :
    follow x (p :: path) = follow (get x p) path := rfl

/-! ## Parts -/

/-- What a step leads to: an item, the value of an entry, or nothing. -/
theorem get_cases (x : MsgPack) (p : Step) :
    get x p = .nul ∨ (∃ m, x = .array m ∧ get x p ∈ m) ∨
      ∃ m, x = .object m ∧ ∃ e ∈ m, get x p = e.2 := by
  cases x <;> cases p <;> try exact Or.inl rfl
  case array.position m i =>
    by_cases h : i ≥ m.length
    · exact Or.inl (if_pos h)
    · have hget : get (.array m) (.position i) = (m[i]?).getD .nul := if_neg h
      refine Or.inr (Or.inl ⟨m, rfl, ?_⟩)
      rw [hget, List.getElem?_eq_getElem (not_le.mp h), Option.getD_some]
      exact List.getElem_mem _
  case object.name m key =>
    rcases hfind : find entryLess m (.string key, .nul) with _ | e
    · left
      rw [get, index, hfind]
    · refine Or.inr (Or.inr ⟨m, rfl, e, (find_some hfind).1, ?_⟩)
      rw [get, index, hfind]

/-- What holds of `NUL` and of every node of a value holds of every node of its parts. -/
theorem get_all {P : MsgPack → Prop} (hnul : P .nul) {x : MsgPack} (h : x.All P) (p : Step) :
    (get x p).All P := by
  rcases get_cases x p with heq | ⟨m, rfl, hmem⟩ | ⟨m, rfl, e, he, heq⟩
  · rw [heq]
    exact (MsgPack.all_leaf rfl).mpr hnul
  · exact (MsgPack.all_array.mp h).2 _ hmem
  · rw [heq]
    exact ((MsgPack.all_object.mp h).2 e he).2

theorem follow_all {P : MsgPack → Prop} (hnul : P .nul) {x : MsgPack} (h : x.All P)
    (path : List Step) : (follow x path).All P := by
  induction path generalizing x with
  | nil => exact h
  | cons p path ih => exact ih (get_all hnul h p)

theorem height_follow_le (x : MsgPack) (path : List Step) : (follow x path).height ≤ x.height := by
  induction path generalizing x with
  | nil => exact le_refl _
  | cons p path ih =>
      have hget : (get x p).height ≤ x.height := by
        rcases get_cases x p with heq | ⟨m, rfl, hmem⟩ | ⟨m, rfl, e, he, heq⟩
        · rw [heq]
          exact Nat.zero_le _
        · exact (MsgPack.height_lt_array hmem).le
        · rw [heq]
          exact (MsgPack.height_lt_object he).2.le
      exact (ih (get x p)).trans hget

/-! ## In copies -/

/-- Nothing is below a leaf. -/
theorem get_of_leaf {x : MsgPack} (h : x.isLeaf = true) (p : Step) : get x p = .nul := by
  rcases get_cases x p with heq | ⟨m, rfl, -⟩ | ⟨m, rfl, -⟩
  · exact heq
  · cases h
  · cases h

/-- The lookup by name among narrowed entries. -/
theorem index_narrowed (m : List (MsgPack × MsgPack)) (key : List UInt8) :
    index (narrowed (.object m)) key = narrowed (index (.object m) key) := by
  have hfind : find entryLess (m.map fun e => (narrowed e.1, narrowed e.2)) (.string key, .nul) =
      (find entryLess m (.string key, .nul)).map fun e => (narrowed e.1, narrowed e.2) :=
    find_map fun e _ =>
      ⟨less_narrowed_narrowed e.1 (.string key), less_narrowed_narrowed (.string key) e.1⟩
  rw [narrowed, narrowedEntries_eq_map, index, index, hfind]
  cases find entryLess m (.string key, .nul) with
  | none => rfl
  | some e => rfl

/-- Narrowing neither adds nor takes away a name, and keeps positions. -/
theorem get_narrowed (x : MsgPack) (p : Step) : get (narrowed x) p = narrowed (get x p) := by
  by_cases hleaf : x.isLeaf = true
  · rw [get_of_leaf hleaf, get_of_leaf ((isLeaf_narrowed x).trans hleaf)]
    rfl
  · cases x <;> first | exact absurd rfl hleaf | skip
    case array m =>
      rcases p with key | i
      · rfl
      · rw [narrowed, narrowedItems_eq_map, get, get, index_at, index_at, List.length_map]
        by_cases hi : i ≥ m.length
        · rw [if_pos hi, if_pos hi]
          rfl
        · rw [if_neg hi, if_neg hi, List.getElem?_map, List.getElem?_eq_getElem (not_le.mp hi)]
          rfl
    case object m =>
      rcases p with key | i
      · exact index_narrowed m key
      · rfl

theorem follow_narrowed (x : MsgPack) (path : List Step) :
    follow (narrowed x) path = narrowed (follow x path) := by
  induction path generalizing x with
  | nil => rfl
  | cons p path ih => rw [follow_cons, follow_cons, get_narrowed, ih]

/-- The types whose values may come back in another type. -/
def isIntegerType : MsgPackType → Bool
  | .INT8 | .INT16 | .INT32 | .INT64 | .UINT8 | .UINT16 | .UINT32 | .UINT64 => true
  | _ => false

theorem isIntegerType_type (x : MsgPack) : isIntegerType x.type = x.integer?.isSome := by
  cases x <;> rfl

/-- A type that no integer has is kept and not gained. -/
theorem type_narrowed_iff (x : MsgPack) {t : MsgPackType} (ht : isIntegerType t = false) :
    (narrowed x).type = t ↔ x.type = t := by
  rcases hn : x.integer? with _ | n
  · rw [type_narrowed hn]
  · have hn' := (integer_narrowed x).trans hn
    have htype := isIntegerType_type x
    have htype' := isIntegerType_type (narrowed x)
    rw [hn] at htype
    rw [hn'] at htype'
    refine iff_of_false ?_ ?_
    · rintro rfl
      rw [htype'] at ht
      cases ht
    · rintro rfl
      rw [htype] at ht
      cases ht

/-- What the accessors and the `is_` functions say of a value, and say of another. -/
structure ReadAlike (x y : MsgPack) : Prop where
  integers : ∀ A : IntType, A.accessor y = A.accessor x
  int_value : y.int_value = x.int_value
  number_value : y.number_value = x.number_value
  float32_value : y.float32_value = x.float32_value
  float64_value : y.float64_value = x.float64_value
  bool_value : y.bool_value = x.bool_value
  string_value : y.string_value = x.string_value
  binary_items : y.binary_items = x.binary_items
  extension_items : y.extension_items = x.extension_items
  array_size : y.array_items.length = x.array_items.length
  object_size : y.object_items.length = x.object_items.length
  is_number : y.is_number = x.is_number
  is_int : y.is_int = x.is_int
  type : ∀ t, isIntegerType t = false → (y.type = t ↔ x.type = t)

theorem ReadAlike.refl (x : MsgPack) : ReadAlike x x where
  integers _ := rfl
  int_value := rfl
  number_value := rfl
  float32_value := rfl
  float64_value := rfl
  bool_value := rfl
  string_value := rfl
  binary_items := rfl
  extension_items := rfl
  array_size := rfl
  object_size := rfl
  is_number := rfl
  is_int := rfl
  type _ _ := Iff.rfl

theorem has_shape_narrowed (x : MsgPack) {types : List (List UInt8 × MsgPackType)}
    (htypes : ∀ t ∈ types, isIntegerType t.2 = false) (err : String) :
    has_shape (narrowed x) types err = has_shape x types err := by
  have hobject : (narrowed x).is_object = x.is_object := by
    rw [MsgPack.is_object, MsgPack.is_object, Bool.eq_iff_iff, beq_iff_eq, beq_iff_eq]
    exact type_narrowed_iff x rfl
  have hloop : has_shape_loop (narrowed x) types err = has_shape_loop x types err := by
    induction types with
    | nil => rfl
    | cons t types ih =>
        rw [List.forall_mem_cons] at htypes
        have hindex : index (narrowed x) t.1 = narrowed (index x t.1) := get_narrowed x (.name t.1)
        have htype := type_narrowed_iff (index x t.1) htypes.1
        have hcond : ((narrowed (index x t.1)).type != t.2) = ((index x t.1).type != t.2) := by
          rw [Bool.eq_iff_iff, bne_iff_ne, bne_iff_ne, Ne, Ne, htype]
        rw [has_shape_loop, has_shape_loop, hindex, hcond, ih htypes.2]
  rw [has_shape, has_shape, hobject, hloop]

/-! ## On the wire -/

/-- An entry under the given name. -/
def namedBy (key : List UInt8) (e : Wire × Wire) : Bool :=
  match e.1 with
  | .string _ data => data == key
  | _ => false

/-- What is found under a name or at a position of an encoding: under a name, the first
that was sent. -/
def scan (w : Wire) : Step → Wire
  | .name key =>
      match w with
      | .object _ es =>
          match es.find? (namedBy key) with
          | none => .nil
          | some e => e.2
      | _ => .nil
  | .position i =>
      match w with
      | .array _ ws => (ws[i]?).getD .nil
      | _ => .nil

def scanAll (w : Wire) (path : List Step) : Wire := path.foldl scan w

/-- No key that was sent has a float in it, along any path. -/
inductive KeysFree : Wire → Prop where
  | leaf {w : Wire} (h : w.isLeaf = true) : KeysFree w
  | array {form : Format.Form} {ws : List Wire} (items : ∀ w ∈ ws, KeysFree w) :
      KeysFree (.array form ws)
  | object {form : Format.Form} {es : List (Wire × Wire)} (keys : ∀ e ∈ es, e.1.denote.FloatFree)
      (values : ∀ e ∈ es, KeysFree e.2) : KeysFree (.object form es)

theorem namedBy_iff (key : List UInt8) (e : Wire × Wire) :
    namedBy key e = true ↔ e.1.denote = .string key := by
  obtain ⟨k, v⟩ := e
  cases k with
  | string form data => simp [namedBy, Wire.denote]
  | fixint b =>
      rw [namedBy, Wire.denote]
      split_ifs <;> simp
  | arith T c => cases T <;> simp [namedBy, Wire.denote, Fundamental.value]
  | _ => simp [namedBy, Wire.denote]

/-- Only a string is equivalent to a string. -/
theorem incomp_string_iff (k : MsgPack) (key : List UInt8) :
    Incomp less k (.string key) ↔ k = .string key := by
  have hkey : (MsgPack.string key).NaNFree := (floatFree_string key).naNFree
  by_cases hrank : rank k = rank (.string key)
  · have hno : ¬ IsNumber (.string key) := Bool.false_ne_true
    obtain ⟨data, rfl⟩ := exists_of_type.2.2.1 (type_of_rank_eq hno hrank)
    rw [← equals_iff_incomp (floatFree_string data).naNFree hkey]
    refine ⟨eq_string_of_equals, ?_⟩
    intro heq
    rw [heq]
    exact equals_refl hkey
  · refine iff_of_false ?_ ?_
    · rintro ⟨h, h'⟩
      rw [less_of_rank_ne hrank, decide_eq_false_iff_not] at h
      rw [less_of_rank_ne (Ne.symm hrank), decide_eq_false_iff_not] at h'
      omega
    · rintro rfl
      exact hrank rfl

theorem index_denote {form : Format.Form} {es : List (Wire × Wire)}
    (hkeys : ∀ e ∈ es, e.1.denote.FloatFree) (key : List UInt8) :
    index (Wire.object form es).denote key = (scan (.object form es) (.name key)).denote := by
  have hfree : ∀ e ∈ Wire.denoteEntries es, e.1.FloatFree := by
    intro e he
    rw [Wire.denoteEntries_eq_map] at he
    obtain ⟨e', he', rfl⟩ := List.mem_map.mp he
    exact hkeys e' he'
  have hstring : (MsgPack.string key, MsgPack.nul) ∈ {e : MsgPack × MsgPack | e.1.FloatFree} :=
    floatFree_string key
  -- the lookup in the container is the scan of the entries
  have hfind := find_insertAll strictWeak_entryLess hfree hstring
  have hscan : (fun e => decide (Incomp entryLess e (.string key, .nul))) ∘
      (fun e : Wire × Wire => (e.1.denote, e.2.denote)) = namedBy key := by
    funext e
    rw [Function.comp, Bool.eq_iff_iff, decide_eq_true_iff, namedBy_iff]
    exact incomp_string_iff e.1.denote key
  rw [Wire.denoteEntries_eq_map, List.find?_map, hscan] at hfind
  rw [Wire.denote, index, Wire.denoteEntries_eq_map, hfind, scan]
  cases es.find? (namedBy key) with
  | none => rfl
  | some e => rfl

/-- One step, by the kind of node it is taken from. -/
theorem get_denote {w : Wire} (h : KeysFree w) (p : Step) : get w.denote p = (scan w p).denote := by
  cases h with
  | leaf hleaf =>
      rw [get_of_leaf (Wire.isLeaf_denote hleaf)]
      cases w <;> cases p <;> first | rfl | cases hleaf
  | @array form ws items =>
      rcases p with key | i
      · rfl
      · rw [Wire.denote, get, index_at, scan, Wire.denoteItems_eq_map, List.length_map]
        by_cases hi : i < ws.length
        · rw [if_neg (not_le.mpr hi), List.getElem?_map, List.getElem?_eq_getElem hi]
          rfl
        · rw [if_pos (not_lt.mp hi), List.getElem?_eq_none (not_lt.mp hi)]
          rfl
  | object keys _ =>
      rcases p with key | i
      · exact index_denote keys key
      · rfl

theorem KeysFree.scan {w : Wire} (h : KeysFree w) (p : Step) : KeysFree (scan w p) := by
  have hnil : KeysFree .nil := .leaf rfl
  cases h with
  | leaf hleaf => cases w <;> cases p <;> first | exact hnil | cases hleaf
  | @array form ws items =>
      rcases p with key | i
      · exact hnil
      · by_cases hi : i < ws.length
        · rw [Paths.scan, List.getElem?_eq_getElem hi, Option.getD_some]
          exact items _ (List.getElem_mem _)
        · rw [Paths.scan, List.getElem?_eq_none (not_lt.mp hi)]
          exact hnil
  | @object form es _ values =>
      rcases p with key | i
      · rw [Paths.scan]
        rcases hfind : es.find? (namedBy key) with _ | e
        · exact hnil
        · exact values e (List.mem_of_find?_eq_some hfind)
      · exact hnil

theorem follow_denote {w : Wire} (h : KeysFree w) (path : List Step) :
    follow w.denote path = (scanAll w path).denote := by
  induction path generalizing w with
  | nil => rfl
  | cons p path ih =>
      rw [follow_cons, get_denote h p, ih (h.scan p)]
      rfl

/-! ## Results -/

/-- What a path leads to in a copy is a copy of what it leads to in the value. -/
theorem follow_copy {x y : MsgPack} (hsorted : MapsSorted x) (h : Copy x y) (path : List Step) :
    Copy (follow x path) (follow y path) := by
  rcases h.eq_or_narrowed hsorted with rfl | ⟨rfl, hfit, hheight⟩
  · exact Copy.self
  · -- the part could have been sent alone
    have hpart : (follow x path).LengthsFit := follow_all (Nat.zero_le _) hfit path
    have hsorted' : MapsSorted (follow x path) := follow_all Sorted.nil hsorted path
    have hheight' : (follow x path).height ≤ max_depth := (height_follow_le x path).trans hheight
    obtain ⟨s, -, hdump⟩ := dump_eq_canon false hpart
    have hback : parse false s "" = (narrowed (follow x path), "") :=
      parse_of_canon hsorted' hheight' rfl hdump ""
    have hsent : Copy (follow x path) (parse false s "").1 := Copy.of_dump hdump hheight' false
    rwa [hback, ← follow_narrowed] at hsent

/-- The item at position 0 of the field `a`, sent from one kind of host to the other. -/
theorem follow_copy_item :
    let x : MsgPack := .object [(.string [0x61], .array [.int64 300])]
    ∃ s, Dump.dump false x = .ok s ∧
      Copy (.int64 300) (follow (parse true s "").1 [.name [0x61], .position 0]) := by
  intro x
  obtain ⟨s, -, hdump⟩ := dump_eq_canon false (x := x) (by decide)
  have hcopy : Copy x (parse true s "").1 := Copy.of_dump hdump (by decide) true
  exact ⟨s, hdump, follow_copy (by decide +kernel) hcopy [.name [0x61], .position 0]⟩

/-- `has_shape` decides alike about a part of a copy and the same part of the value, with
the same text, if the list asks for no integer type. -/
theorem has_shape_copy {x y : MsgPack} (hsorted : MapsSorted x) (h : Copy x y)
    (path : List Step) {types : List (List UInt8 × MsgPackType)}
    (htypes : ∀ t ∈ types, isIntegerType t.2 = false) (err : String) :
    has_shape (follow y path) types err = has_shape (follow x path) types err := by
  have hunseen : ∀ z, has_shape (follow (narrowed z) path) types err =
      has_shape (follow z path) types err := by
    intro z
    rw [follow_narrowed, has_shape_narrowed _ htypes]
  exact h.unchanged (f := fun z => has_shape (follow z path) types err) hunseen hsorted

/-- A list that asks for an array and for a field that is missing. -/
theorem has_shape_copy_bad_type :
    let x : MsgPack := .object [(.string [0x61], .array [.int64 300])]
    ∃ s, Dump.dump false x = .ok s ∧
      has_shape (parse true s "").1 [([0x61], .ARRAY), ([0x62], .STRING)] "" =
        (false, "bad type for b") := by
  intro x
  obtain ⟨s, -, hdump⟩ := dump_eq_canon false (x := x) (by decide)
  have hcopy : Copy x (parse true s "").1 := Copy.of_dump hdump (by decide) true
  have htypes : ∀ t ∈ ([([0x61], .ARRAY), ([0x62], .STRING)] : List (List UInt8 × MsgPackType)),
      isIntegerType t.2 = false := by decide
  have hshape := has_shape_copy (by decide +kernel) hcopy [] htypes ""
  have hself :
      has_shape x [([0x61], .ARRAY), ([0x62], .STRING)] "" = (false, "bad type for b") := by
    decide +kernel
  exact ⟨s, hdump, hshape.trans hself⟩

/-- What is parsed has under every path what a scan of the bytes finds there. -/
theorem follow_parsed (is_big_endian : Bool) {s : List UInt8} {w : Wire}
    (hs : Accepts is_big_endian s) (hw : w.bytes = some s) (hkeys : KeysFree w) :
    ∃ x, (∀ err, parse is_big_endian s err = (x, err)) ∧
      ∀ path, follow x path = (scanAll w path).denote := by
  obtain ⟨w', henc⟩ := encoding_of_accepts hs
  rw [WireReader.bytes_injective henc.1 hw] at henc
  exact ⟨w.denote, fun err => parse_of_encoding henc err, follow_denote hkeys⟩

/-- A map with two entries of one name. -/
theorem follow_parsed_twice :
    let s : List UInt8 := [0x82, 0xa1, 0x61, 0xc3, 0xa1, 0x61, 0xc2]
    ∃ x, parse false s "" = (x, "") ∧ follow x [.name [0x61]] = .bool true := by
  intro s
  let k : Wire := .string .fix [0x61]
  let w : Wire := .object .fix [(k, .bool true), (k, .bool false)]
  have hw : w.bytes = some s := by decide
  have hs : Accepts false s := accepts_of_encoding ⟨hw, by decide⟩
  have hleaf : ∀ b, KeysFree (.bool b) := fun _ => .leaf rfl
  have hkeys : KeysFree w := .object (by simp [k, Wire.denote, floatFree_string]) (by simp [hleaf])
  obtain ⟨x, hx, hfollow⟩ := follow_parsed false hs hw hkeys
  exact ⟨x, hx "", hfollow [.name [0x61]]⟩

end Msgpack11.Paths
