/-
`operator[]` of objects and `MsgPack::has_shape`.

`has_shape` looks every name of its list up and compares the type of what it
finds. A lookup finds the value of the key that is the name as a string, wherever
keys of other types stand in the object (`index_of_mem`). For a name that is no key
it returns `NUL`, whose type a list may ask for: so an absent field passes for one
that is there and holds `NUL`. `has_shape_decides_iff` says exactly when this
matters.
-/
import Msgpack11.Grammar

set_option autoImplicit false

namespace Msgpack11.Shape

open Msgpack11.Compare Msgpack11.StrictWeak Msgpack11.SortedUnique Msgpack11.KeyOrder
open Msgpack11.Ordering Msgpack11.Grammar

/-! ## The functions -/

/-- `operator[](const std::string&)`; `static_null()` stands for an absent field. -/
def index (x : MsgPack) (key : List UInt8) : MsgPack :=
  match x with
  | .object m =>
      match find entryLess m (.string key, .nul) with
      | none => .nul
      | some e => e.2
  | _ => .nul

/-- A name as part of an error text, byte by byte. -/
def nameText (name : List UInt8) : String := String.ofList (name.map fun c => Char.ofNat c.toNat)

/-- The loop over the pairs of a shape. -/
def has_shape_loop (x : MsgPack) : List (List UInt8 × MsgPackType) → String → Bool × String
  | [], err => (true, err)
  | item :: types, err =>
      if (index x item.1).type != item.2 then (false, "bad type for " ++ nameText item.1)
      else has_shape_loop x types err

/-- `MsgPack::has_shape`. -/
def has_shape (x : MsgPack) (types : List (List UInt8 × MsgPackType)) (err : String) :
    Bool × String :=
  if !x.is_object then (false, "expected MessagePack object") else has_shape_loop x types err

/-! ## What it is documented to do -/

/-- The object has a field of the given name and type. -/
def HasField (x : MsgPack) (name : List UInt8) (t : MsgPackType) : Prop :=
  ∃ e ∈ x.object_items, e.1 = .string name ∧ e.2.type = t

/-- The object has no field of the given name. -/
def Lacks (x : MsgPack) (name : List UInt8) : Prop := ∀ e ∈ x.object_items, e.1 ≠ .string name

/-- An object with, for each pair of the list, a field of the given type. -/
def HasShape (x : MsgPack) (types : List (List UInt8 × MsgPackType)) : Prop :=
  x.is_object = true ∧ ∀ p ∈ types, HasField x p.1 p.2

/-- `has_shape` returns whether the value has the shape, and an error text if not. -/
def Decides (x : MsgPack) (types : List (List UInt8 × MsgPackType)) (err : String) : Prop :=
  (HasShape x types → has_shape x types err = (true, err)) ∧
    (¬ HasShape x types → ∃ text, text ≠ "" ∧ has_shape x types err = (false, text))

/-! ## Lookup -/

/-- A key without floats equals a string only if it is that string. -/
theorem eq_string_of_equals {k : MsgPack} {name : List UInt8}
    (h : equals k (.string name) = true) : k = .string name := by
  by_cases hrank : rank k = rank (.string name)
  · have hno : ¬ IsNumber (.string name) := Bool.false_ne_true
    have htype := type_of_rank_eq hno hrank
    cases k <;> cases htype
    rw [(compare_string _ _).2, bytesEq_iff] at h
    rw [h]
  · rw [equals_of_rank_ne hrank] at h
    cases h

section Lookup

variable {x : MsgPack} (hsorted : Sorted entryLess x.object_items)
  (hkeys : ∀ e ∈ x.object_items, e.1.FloatFree)

theorem floatFree_string (name : List UInt8) : (MsgPack.string name).FloatFree :=
  (MsgPack.all_leaf rfl).mpr rfl

include hsorted hkeys in
/-- A field is found under its name, whatever keys surround it. -/
theorem index_of_mem {e : MsgPack × MsgPack} {name : List UInt8} (he : e ∈ x.object_items)
    (hname : e.1 = .string name) : index x name = e.2 := by
  cases x
  case object m =>
    have hself : Incomp entryLess e (.string name, .nul) := by
      rw [Incomp, entryLess, entryLess, hname, and_self]
      exact strictWeak_floatFree.irrefl (floatFree_string name)
    have hfind := hsorted.find_of_equiv strictWeak_entryLess hkeys
      (x := (.string name, .nul)) (floatFree_string name) he hself
    rw [index, show find entryLess m (.string name, .nul) = some e from hfind]
  all_goals cases he

include hkeys in
/-- Nothing is found under a name that is no key. -/
theorem index_of_lacks {name : List UInt8} (h : Lacks x name) : index x name = .nul := by
  cases x
  case object m =>
    rw [index]
    split
    · rfl
    · next e hfind =>
        obtain ⟨he, hinc⟩ := find_some hfind
        have heq := (equals_iff_incomp (hkeys e he).naNFree
          (floatFree_string name).naNFree).mpr hinc
        exact absurd (eq_string_of_equals heq) (h e he)
  all_goals rfl

theorem lacks_or_mem (x : MsgPack) (name : List UInt8) :
    Lacks x name ∨ ∃ e ∈ x.object_items, e.1 = .string name := by
  by_cases h : ∃ e ∈ x.object_items, e.1 = .string name
  · exact Or.inr h
  · exact Or.inl fun e he heq => h ⟨e, he, heq⟩

include hsorted hkeys in
/-- The lookup has the type asked for if the field has, or if there is none and the
type is `NUL`. -/
theorem type_index_iff (name : List UInt8) (t : MsgPackType) :
    (index x name).type = t ↔ HasField x name t ∨ t = .NUL ∧ Lacks x name := by
  rcases lacks_or_mem x name with hlacks | ⟨e, he, hname⟩
  · rw [index_of_lacks hkeys hlacks]
    constructor
    · intro ht
      exact Or.inr ⟨ht.symm, hlacks⟩
    · rintro (⟨e, he, hname, -⟩ | ⟨rfl, -⟩)
      · exact absurd hname (hlacks e he)
      · rfl
  · rw [index_of_mem hsorted hkeys he hname]
    constructor
    · intro ht
      exact Or.inl ⟨e, he, hname, ht⟩
    · rintro (⟨e', he', hname', ht⟩ | ⟨-, hlacks⟩)
      · -- both entries are what the lookup finds
        rw [← index_of_mem hsorted hkeys he hname, index_of_mem hsorted hkeys he' hname', ht]
      · exact absurd hname (hlacks e he)

end Lookup

/-! ## The loop -/

theorem has_shape_loop_true {x : MsgPack} {types : List (List UInt8 × MsgPackType)}
    (err : String) (h : ∀ p ∈ types, (index x p.1).type = p.2) :
    has_shape_loop x types err = (true, err) := by
  induction types with
  | nil => rfl
  | cons p types ih =>
      rw [List.forall_mem_cons] at h
      rw [has_shape_loop, if_neg (by simp [h.1]), ih h.2]

theorem has_shape_loop_false {x : MsgPack} {types : List (List UInt8 × MsgPackType)}
    (err : String) (h : ¬ ∀ p ∈ types, (index x p.1).type = p.2) :
    ∃ text, text ≠ "" ∧ has_shape_loop x types err = (false, text) := by
  induction types with
  | nil => simp at h
  | cons p types ih =>
      by_cases hp : (index x p.1).type = p.2
      · rw [List.forall_mem_cons, not_and] at h
        obtain ⟨text, htext, hrun⟩ := ih (h hp)
        refine ⟨text, htext, ?_⟩
        rw [has_shape_loop, if_neg (by simp [hp]), hrun]
      · refine ⟨"bad type for " ++ nameText p.1, ?_, ?_⟩
        · rw [Ne, String.append_eq_empty_iff]
          exact fun hempty => absurd hempty.1 (by decide)
        · rw [has_shape_loop, if_pos (by simp [hp])]

/-! ## Result -/

/-- `has_shape` decides whether the value has the shape, except when all the fields
that the list asks for either have their type or are missing, and are then asked to be
`NUL`; one such name is enough. -/
theorem has_shape_decides_iff {x : MsgPack} (hsorted : Sorted entryLess x.object_items)
    (hkeys : ∀ e ∈ x.object_items, e.1.FloatFree) (types : List (List UInt8 × MsgPackType))
    (err : String) :
    Decides x types err ↔
      ¬ (x.is_object = true ∧ (∃ p ∈ types, p.2 = .NUL ∧ Lacks x p.1) ∧
        ∀ p ∈ types, HasField x p.1 p.2 ∨ p.2 = .NUL ∧ Lacks x p.1) := by
  by_cases hobject : x.is_object = true
  swap
  · -- anything else is refused before the loop
    have hno : ¬ HasShape x types := fun h => hobject h.1
    have hrun : has_shape x types err = (false, "expected MessagePack object") :=
      if_pos (by simpa using hobject)
    constructor
    · intro _ h
      exact hobject h.1
    · intro _
      exact ⟨fun h => absurd h hno, fun _ => ⟨_, by decide, hrun⟩⟩
  have hrun : has_shape x types err = has_shape_loop x types err := if_neg (by simp [hobject])
  have hpass : (∀ p ∈ types, (index x p.1).type = p.2) ↔
      ∀ p ∈ types, HasField x p.1 p.2 ∨ p.2 = .NUL ∧ Lacks x p.1 :=
    forall₂_congr fun p _ => type_index_iff hsorted hkeys p.1 p.2
  rw [Decides, hrun]
  by_cases hall : ∀ p ∈ types, (index x p.1).type = p.2
  · -- the loop returns `true`, which is right unless a field was missing
    rw [has_shape_loop_true err hall]
    have hfields := hpass.mp hall
    constructor
    · rintro ⟨-, hfalse⟩ ⟨-, ⟨p, hp, -, hlacks⟩, -⟩
      have hno : ¬ HasShape x types := by
        rintro ⟨-, hshape⟩
        obtain ⟨e, he, hname, -⟩ := hshape p hp
        exact hlacks e he hname
      obtain ⟨text, -, heq⟩ := hfalse hno
      cases heq
    · intro hnone
      refine ⟨fun _ => rfl, fun hno => absurd ⟨hobject, ?_⟩ hno⟩
      intro p hp
      rcases hfields p hp with hfield | ⟨hnul, hlacks⟩
      · exact hfield
      · exact absurd ⟨hobject, ⟨p, hp, hnul, hlacks⟩, hfields⟩ hnone
  · -- the loop returns `false`, and the value does not have the shape
    have hno : ¬ HasShape x types := by
      rintro ⟨-, hshape⟩
      exact hall (hpass.mpr fun p hp => Or.inl (hshape p hp))
    constructor
    · rintro - ⟨-, -, hfields⟩
      exact hall (hpass.mpr hfields)
    · intro _
      exact ⟨fun h => absurd h hno, fun _ => has_shape_loop_false err hall⟩

/-- A field of another type is reported, also next to one that is missing. -/
theorem has_shape_decides_bad_type :
    let x : MsgPack := .object [(.uint8 7, .nul), (.string [0x61], .bool true)]
    Decides x [([0x62], .NUL), ([0x61], .INT8)] "" := by
  intro x
  refine (has_shape_decides_iff (by decide +kernel) (by decide +kernel) _ _).mpr ?_
  rintro ⟨-, -, hall⟩
  rcases hall ([0x61], .INT8) (by simp) with ⟨e, he, hname, ht⟩ | ⟨hnul, -⟩
  · simp only [x, MsgPack.object_items, List.mem_cons, List.not_mem_nil, or_false] at he
    rcases he with rfl | rfl
    · cases hname
    · cases ht
  · cases hnul

/-- The empty object is said to have a field `a` of type `NUL`. -/
theorem has_shape_missing_nul :
    ¬ Decides (.object []) [([0x61], .NUL)] "" ∧
      has_shape (.object []) [([0x61], .NUL)] "" = (true, "") ∧
      ¬ HasField (.object []) [0x61] .NUL := by
  have hfield : ¬ HasField (.object []) [0x61] .NUL := by
    rintro ⟨e, he, -⟩
    cases he
  have hrun : has_shape (.object []) [([0x61], .NUL)] "" = (true, "") := rfl
  refine ⟨?_, hrun, hfield⟩
  rintro ⟨-, hfalse⟩
  obtain ⟨text, -, heq⟩ := hfalse fun h => hfield (h.2 _ (List.mem_singleton_self _))
  rw [hrun] at heq
  cases heq

end Msgpack11.Shape
