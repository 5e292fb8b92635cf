/-
The MessagePack format: what a well-formed encoding is and which value it denotes.

A `Wire` is the derivation of an encoding: one constructor for each kind of
item, with the choices the format leaves open (which width a length field has,
in which type a number is sent) recorded in the tree. `bytes` writes a tree out,
and is `none` when a form cannot carry the length it is asked to; so a byte
string `e` is a well-formed encoding when `w.bytes = some e` for some `w`, and it
denotes `w.denote`.

| items      | forms |
|---|---|
| nil, bool  | one byte |
| numbers    | one byte (`0x00`–`0x7f`, `0xe0`–`0xff`), or a tag and the contents |
| string     | length in the tag, or in 1, 2, 4 bytes |
| binary     | length in 1, 2, 4 bytes |
| array, map | length in the tag, or in 2, 4 bytes |
| extension  | lengths 1, 2, 4, 8, 16 in the tag, or any in 1, 2, 4 bytes; then the type |
-/
import Msgpack11.Compare
import Msgpack11.Bytes
import Msgpack11.SortedUnique
import Msgpack11.Codec

set_option autoImplicit false

namespace Msgpack11

open Msgpack11.Bytes Msgpack11.Compare Msgpack11.Codec

namespace Format

/-! ## Tags -/

/-- The families of items that declare a length. -/
inductive Family where
  | string | binary | array | object | extension
  deriving DecidableEq, Repr

/-- The widths of a length field. -/
inductive Width where
  | w8 | w16 | w32
  deriving DecidableEq, Repr

def Width.size : Width → ℕ
  | .w8 => 1
  | .w16 => 2
  | .w32 => 4

/-- Where the length stands: in the tag, or in a field after it. -/
inductive Form where
  | fix
  | wide (w : Width)
  deriving DecidableEq, Repr

/-- The bytes of the length field, if there is one. -/
def Form.size : Form → ℕ
  | .fix => 0
  | .wide w => w.size

/-- The tag that carries the length `n` itself. -/
def fixTag : Family → ℕ → Option UInt8
  | .object, n => if n < 16 then some (0x80 + UInt8.ofNat n) else none
  | .array, n => if n < 16 then some (0x90 + UInt8.ofNat n) else none
  | .string, n => if n < 32 then some (0xa0 + UInt8.ofNat n) else none
  | .binary, _ => none
  | .extension, n =>
      if n = 1 then some 0xd4 else if n = 2 then some 0xd5 else if n = 4 then some 0xd6
      else if n = 8 then some 0xd7 else if n = 16 then some 0xd8 else none

/-- The tag before a length field. -/
def wideTag : Family → Width → Option UInt8
  | .binary, .w8 => some 0xc4
  | .binary, .w16 => some 0xc5
  | .binary, .w32 => some 0xc6
  | .extension, .w8 => some 0xc7
  | .extension, .w16 => some 0xc8
  | .extension, .w32 => some 0xc9
  | .string, .w8 => some 0xd9
  | .string, .w16 => some 0xda
  | .string, .w32 => some 0xdb
  | .array, .w8 => none
  | .array, .w16 => some 0xdc
  | .array, .w32 => some 0xdd
  | .object, .w8 => none
  | .object, .w16 => some 0xde
  | .object, .w32 => some 0xdf

/-- The bytes that declare the length `n`, where the form can. -/
def header (f : Family) : Form → ℕ → Option (List UInt8)
  | .fix, n => (fixTag f n).map fun t => [t]
  | .wide w, n =>
      if n < 256 ^ w.size then (wideTag f w).map fun t => t :: toBE w.size n else none

/-- The tag of a number of fundamental type. -/
def arithTag : Fundamental → UInt8
  | .float => 0xca
  | .double => 0xcb
  | .uint8 => 0xcc
  | .uint16 => 0xcd
  | .uint32 => 0xce
  | .uint64 => 0xcf
  | .int8 => 0xd0
  | .int16 => 0xd1
  | .int32 => 0xd2
  | .int64 => 0xd3

/-- A byte that is an integer by itself. -/
def isFixint (b : UInt8) : Bool := b < 0x80 || 0xe0 ≤ b

/-- What a first byte announces. -/
inductive Tag where
  | invalid
  | nil
  | bool (value : Bool)
  | fixint
  | arith (T : Fundamental)
  | fix (f : Family) (n : ℕ)
  | wide (f : Family) (w : Width)
  deriving DecidableEq, Repr

/-- The tag of a first byte, as the table of the format has it. -/
def tagOf (b : UInt8) : Tag :=
  if b < 0x80 then .fixint
  else if b < 0x90 then .fix .object (b.toNat - 0x80)
  else if b < 0xa0 then .fix .array (b.toNat - 0x90)
  else if b < 0xc0 then .fix .string (b.toNat - 0xa0)
  else if 0xe0 ≤ b then .fixint
  else if b = 0xc0 then .nil
  else if b = 0xc1 then .invalid
  else if b = 0xc2 then .bool false
  else if b = 0xc3 then .bool true
  else if b = 0xc4 then .wide .binary .w8
  else if b = 0xc5 then .wide .binary .w16
  else if b = 0xc6 then .wide .binary .w32
  else if b = 0xc7 then .wide .extension .w8
  else if b = 0xc8 then .wide .extension .w16
  else if b = 0xc9 then .wide .extension .w32
  else if b = 0xca then .arith .float
  else if b = 0xcb then .arith .double
  else if b = 0xcc then .arith .uint8
  else if b = 0xcd then .arith .uint16
  else if b = 0xce then .arith .uint32
  else if b = 0xcf then .arith .uint64
  else if b = 0xd0 then .arith .int8
  else if b = 0xd1 then .arith .int16
  else if b = 0xd2 then .arith .int32
  else if b = 0xd3 then .arith .int64
  else if b = 0xd4 then .fix .extension 1
  else if b = 0xd5 then .fix .extension 2
  else if b = 0xd6 then .fix .extension 4
  else if b = 0xd7 then .fix .extension 8
  else if b = 0xd8 then .fix .extension 16
  else if b = 0xd9 then .wide .string .w8
  else if b = 0xda then .wide .string .w16
  else if b = 0xdb then .wide .string .w32
  else if b = 0xdc then .wide .array .w16
  else if b = 0xdd then .wide .array .w32
  else if b = 0xde then .wide .object .w16
  else .wide .object .w32

/-- A statement about all bytes is a statement about the numbers below 256. -/
theorem forall_byte {P : UInt8 → Prop} (h : ∀ n < 256, P (UInt8.ofNat n)) (b : UInt8) : P b := by
  have hb := h b.toNat b.toNat_lt
  rwa [UInt8.ofNat_toNat] at hb

/-- The bytes that announce a tag, by the tables above. -/
def announces : Tag → UInt8 → Bool
  | .invalid, b => b = 0xc1
  | .nil, b => b = 0xc0
  | .bool v, b => b = if v then 0xc3 else 0xc2
  | .fixint, b => isFixint b
  | .arith T, b => b = arithTag T
  | .fix f n, b => fixTag f n = some b
  | .wide f w, b => wideTag f w = some b

/-- What a byte is said to announce, it does announce. -/
theorem announces_tagOf (b : UInt8) : announces (tagOf b) b = true := by
  revert b
  apply forall_byte
  decide +kernel

/-- What a tag says of the byte that announced it. -/
theorem announces_of_tagOf {b : UInt8} {t : Tag} (h : tagOf b = t) : announces t b = true := by
  rw [← h]
  exact announces_tagOf b

theorem tagOf_fixint {b : UInt8} (h : isFixint b = true) : tagOf b = .fixint := by
  revert b
  apply forall_byte
  decide +kernel

theorem tagOf_arithTag (T : Fundamental) : tagOf (arithTag T) = .arith T := by
  cases T <;> decide

theorem tagOf_wideTag {f : Family} {w : Width} {t : UInt8} (h : wideTag f w = some t) :
    tagOf t = .wide f w := by
  cases f <;> cases w <;> cases h <;> decide

/-- No tag holds a length of more than five bits. -/
theorem fixTag_lt {f : Family} {n : ℕ} {t : UInt8} (h : fixTag f n = some t) : n < 32 := by
  cases f <;> simp only [fixTag] at h
  case binary => cases h
  all_goals split_ifs at h <;> omega

theorem tagOf_fixTag {f : Family} {n : ℕ} {t : UInt8} (h : fixTag f n = some t) :
    tagOf t = .fix f n := by
  have hall : ∀ f : Family, ∀ n < 32, ∀ t ∈ fixTag f n, tagOf t = .fix f n := by
    intro f
    cases f <;> decide +kernel
  exact hall f n (fixTag_lt h) t h

/-- A header is a tag that announces the form, and a length field of its width. -/
theorem header_fix {f : Family} {n : ℕ} {h : List UInt8} (hh : header f .fix n = some h) :
    ∃ t, h = [t] ∧ tagOf t = .fix f n := by
  rw [header, Option.map_eq_some_iff] at hh
  obtain ⟨t, ht, rfl⟩ := hh
  exact ⟨t, rfl, tagOf_fixTag ht⟩

/-- The same where the length has a field of its own. -/
theorem header_wide {f : Family} {w : Width} {n : ℕ} {h : List UInt8}
    (hh : header f (.wide w) n = some h) :
    ∃ t, h = t :: toBE w.size n ∧ tagOf t = .wide f w ∧ n < 256 ^ w.size := by
  rw [header] at hh
  split_ifs at hh with hn
  rw [Option.map_eq_some_iff] at hh
  obtain ⟨t, ht, rfl⟩ := hh
  exact ⟨t, rfl, tagOf_wideTag ht, hn⟩

/-- A header is its tag and its length field. -/
theorem length_header {f : Family} {form : Form} {n : ℕ} {h : List UInt8}
    (hh : header f form n = some h) : h.length = form.size + 1 := by
  rcases form with _ | w
  · obtain ⟨t, rfl, -⟩ := header_fix hh
    rfl
  · obtain ⟨t, rfl, -, -⟩ := header_wide hh
    rw [List.length_cons, toBE_length, Form.size]

/-- A header takes at least a byte. -/
theorem length_of_framed {f : Family} {form : Form} {n : ℕ} {body : Option (List UInt8)}
    {e : List UInt8} (h : cat (header f form n) body = some e) :
    ∃ b, body = some b ∧ 1 + b.length ≤ e.length := by
  obtain ⟨head, b, hh, hb, rfl⟩ := cat_eq_some.mp h
  refine ⟨b, hb, ?_⟩
  rw [List.length_append, length_header hh]
  omega

/-- No form declares a length beyond 32 bits. -/
theorem le_of_header {f : Family} {form : Form} {n : ℕ} {h : List UInt8}
    (hh : header f form n = some h) : n ≤ 0xffffffff := by
  rcases form with _ | w
  · rw [header, Option.map_eq_some_iff] at hh
    obtain ⟨t, ht, -⟩ := hh
    have := fixTag_lt ht
    omega
  · obtain ⟨-, -, -, hn⟩ := header_wide hh
    cases w <;> simp only [Width.size] at hn <;> omega

/-- Every tag with a length in it is a header. -/
theorem header_of_tagOf_fix {f : Family} {n : ℕ} {t : UInt8} (h : tagOf t = .fix f n) :
    header f .fix n = some [t] := by
  have htag : fixTag f n = some t := of_decide_eq_true (announces_of_tagOf h)
  rw [header, htag]
  rfl

/-- Every tag with a length field is one together with the field. -/
theorem header_of_tagOf_wide {f : Family} {w : Width} {t : UInt8} {c : List UInt8}
    (h : tagOf t = .wide f w) (hc : c.length = w.size) :
    header f (.wide w) (ofBE c) = some (t :: c) := by
  have htag : wideTag f w = some t := of_decide_eq_true (announces_of_tagOf h)
  have hlt := ofBE_lt c
  rw [hc] at hlt
  rw [header, if_pos hlt, htag, ← hc, toBE_ofBE]
  rfl

end Format

open Format

/-- A derivation of the format. -/
inductive Wire where
  | nil
  | bool (value : Bool)
  | fixint (b : UInt8)
  | arith (T : Fundamental) (contents : List UInt8)
  | string (form : Form) (data : List UInt8)
  | binary (form : Form) (data : List UInt8)
  | array (form : Form) (items : List Wire)
  | object (form : Form) (entries : List (Wire × Wire))
  | extension (form : Form) (type : UInt8) (data : List UInt8)

namespace Wire

/-- Neither an array nor an object. -/
def isLeaf : Wire → Bool
  | .array _ _ => false
  | .object _ _ => false
  | _ => true

/-- Induction over a derivation: leaves, arrays of items, objects of items. -/
theorem induction {P : Wire → Prop} (leaf : ∀ w, w.isLeaf = true → P w)
    (array : ∀ form ws, (∀ w ∈ ws, P w) → P (.array form ws))
    (object : ∀ form es, (∀ e ∈ es, P e.1 ∧ P e.2) → P (.object form es)) (w : Wire) : P w :=
  @Wire.rec P (fun ws => ∀ w ∈ ws, P w) (fun es => ∀ e ∈ es, P e.1 ∧ P e.2)
    (fun e => P e.1 ∧ P e.2)
    (leaf _ rfl) (fun _ => leaf _ rfl) (fun _ => leaf _ rfl) (fun _ _ => leaf _ rfl)
    (fun _ _ => leaf _ rfl) (fun _ _ => leaf _ rfl) (fun form ws ih => array form ws ih)
    (fun form es ih => object form es ih) (fun _ _ _ => leaf _ rfl)
    (fun _ h => by cases h)
    (fun w ws hw hws => List.forall_mem_cons.mpr ⟨hw, hws⟩)
    (fun _ h => by cases h)
    (fun e es he hes => List.forall_mem_cons.mpr ⟨he, hes⟩)
    (fun _ _ hk hv => ⟨hk, hv⟩) w

/-! ## Bytes -/

mutual

/-- The encoding of a derivation. -/
def bytes : Wire → Option (List UInt8)
  | .nil => some [0xc0]
  | .bool v => some [if v then 0xc3 else 0xc2]
  | .fixint b => if isFixint b then some [b] else none
  | .arith T c => if c.length = T.size then some (arithTag T :: c) else none
  | .string form d => cat (header .string form d.length) (some d)
  | .binary form d => cat (header .binary form d.length) (some d)
  | .array form ws => cat (header .array form ws.length) (itemsBytes ws)
  | .object form es => cat (header .object form es.length) (entriesBytes es)
  | .extension form t d => cat (header .extension form d.length) (some (t :: d))

/-- Items one after the other, if all have an encoding. -/
def itemsBytes : List Wire → Option (List UInt8)
  | [] => some []
  | w :: ws => cat w.bytes (itemsBytes ws)

/-- Entries one after the other, each a key and its value. -/
def entriesBytes : List (Wire × Wire) → Option (List UInt8)
  | [] => some []
  | (k, v) :: es => cat (cat k.bytes v.bytes) (entriesBytes es)

end

/-- No encoding is empty. -/
theorem length_pos_of_bytes {w : Wire} {e : List UInt8} (h : w.bytes = some e) :
    0 < e.length := by
  have hframed : ∀ {f : Family} {form : Form} {n : ℕ} {body : Option (List UInt8)},
      cat (header f form n) body = some e → 0 < e.length := by
    intro f form n body hcat
    obtain ⟨b, -, hlen⟩ := length_of_framed hcat
    omega
  cases w <;> rw [bytes] at h
  case nil => cases h; exact Nat.one_pos
  case bool => cases h; exact Nat.one_pos
  case fixint => split_ifs at h; cases h; exact Nat.one_pos
  case arith => split_ifs at h; cases h; exact Nat.succ_pos _
  all_goals exact hframed h

/-! ## Levels -/

mutual

/-- How many container levels below the root the deepest item lies. -/
def height : Wire → ℕ
  | .array _ ws => itemsHeight ws
  | .object _ es => entriesHeight es
  | _ => 0

/-- One more than the height of the highest item. -/
def itemsHeight : List Wire → ℕ
  | [] => 0
  | w :: ws => max (w.height + 1) (itemsHeight ws)

/-- One more than the height of the highest key or value. -/
def entriesHeight : List (Wire × Wire) → ℕ
  | [] => 0
  | (k, v) :: es => max (max (k.height + 1) (v.height + 1)) (entriesHeight es)

end

/-! ## Values -/

mutual

/-- The value an encoding denotes. A map keeps, of the entries it is sent, the
first under each key. -/
def denote : Wire → MsgPack
  | .nil => .nul
  | .bool v => .bool v
  | .fixint b => if b < 0x80 then .uint8 b else .int8 b.toInt8
  | .arith T c => T.value (ofBE c)
  | .string _ d => .string d
  | .binary _ d => .binary d
  | .array _ ws => .array (denoteItems ws)
  | .object _ es => .object (SortedUnique.insertAll entryLess [] (denoteEntries es))
  | .extension _ t d => .extension t.toInt8 d

/-- The values of items. -/
def denoteItems : List Wire → List MsgPack
  | [] => []
  | w :: ws => w.denote :: denoteItems ws

/-- The entries that were sent, in the order they were sent. -/
def denoteEntries : List (Wire × Wire) → List (MsgPack × MsgPack)
  | [] => []
  | (k, v) :: es => (k.denote, v.denote) :: denoteEntries es

end

/-! ## Lists of items -/

/-- Items are a concatenation. -/
theorem itemsBytes_eq_concat (ws : List Wire) : itemsBytes ws = concat bytes ws := by
  induction ws with
  | nil => rfl
  | cons w ws ih => rw [itemsBytes, ih, concat]

/-- A key and its value. -/
def pairBytes (e : Wire × Wire) : Option (List UInt8) := cat e.1.bytes e.2.bytes

/-- So are entries. -/
theorem entriesBytes_eq_concat (es : List (Wire × Wire)) :
    entriesBytes es = concat pairBytes es := by
  induction es with
  | nil => rfl
  | cons e es ih => rw [entriesBytes, ih, concat, pairBytes]

theorem denoteItems_eq_map (ws : List Wire) : denoteItems ws = ws.map denote := by
  induction ws with
  | nil => rfl
  | cons w ws ih => rw [denoteItems, ih, List.map_cons]

theorem denoteEntries_eq_map (es : List (Wire × Wire)) :
    denoteEntries es = es.map fun e => (e.1.denote, e.2.denote) := by
  induction es with
  | nil => rfl
  | cons e es ih => rw [denoteEntries, ih, List.map_cons]

/-- What an object holds was sent. -/
theorem exists_of_mem_object {es : List (Wire × Wire)} {x : MsgPack × MsgPack}
    (h : x ∈ SortedUnique.insertAll entryLess [] (denoteEntries es)) :
    ∃ e ∈ es, (e.1.denote, e.2.denote) = x := by
  have hmem := SortedUnique.mem_of_mem_insertAll_nil h
  rwa [denoteEntries_eq_map, List.mem_map] at hmem

/-- It has at most as many entries as were sent. -/
theorem length_object_le (es : List (Wire × Wire)) :
    (SortedUnique.insertAll entryLess [] (denoteEntries es)).length ≤ es.length := by
  have h := SortedUnique.length_insertAll_le entryLess [] (denoteEntries es)
  have hlen : (denoteEntries es).length = es.length := by
    rw [denoteEntries_eq_map, List.length_map]
  rwa [List.length_nil, Nat.zero_add, hlen] at h

/-- Bounds on the height of items, one by one. -/
theorem itemsHeight_lt_iff {ws : List Wire} {d : ℕ} :
    itemsHeight ws < d + 1 ↔ ∀ w ∈ ws, w.height < d := by
  induction ws with
  | nil => simp [itemsHeight]
  | cons w ws ih =>
      rw [itemsHeight, List.forall_mem_cons, ← ih, max_lt_iff]
      simp

/-- The same of keys and values. -/
theorem entriesHeight_lt_iff {es : List (Wire × Wire)} {d : ℕ} :
    entriesHeight es < d + 1 ↔ ∀ e ∈ es, e.1.height < d ∧ e.2.height < d := by
  induction es with
  | nil => simp [entriesHeight]
  | cons e es ih =>
      rw [entriesHeight, List.forall_mem_cons, ← ih, max_lt_iff, max_lt_iff]
      simp

/-- What is no container denotes none. -/
theorem isLeaf_denote {w : Wire} (h : w.isLeaf = true) : w.denote.isLeaf = true := by
  cases w
  case array => cases h
  case object => cases h
  case fixint b =>
    rw [denote]
    split_ifs <;> rfl
  case arith T c => cases T <;> rfl
  all_goals rfl

/-- A value has at most the levels of the derivation it was sent by. -/
theorem height_denote_le (w : Wire) : w.denote.height ≤ w.height := by
  induction w using Wire.induction with
  | leaf w hleaf =>
      rw [MsgPack.height_of_leaf (isLeaf_denote hleaf)]
      exact Nat.zero_le _
  | array form ws ih =>
      rw [denote, denoteItems_eq_map, MsgPack.height_array_le_iff]
      intro x hx
      obtain ⟨w, hw, rfl⟩ := List.mem_map.mp hx
      have hlt := itemsHeight_lt_iff.mp (Nat.lt_succ_self (itemsHeight ws)) w hw
      exact Nat.succ_le_of_lt ((ih w hw).trans_lt hlt)
  | object form es ih =>
      rw [denote, MsgPack.height_object_le_iff]
      intro x hx
      obtain ⟨e, he, rfl⟩ := exists_of_mem_object hx
      have hlt := entriesHeight_lt_iff.mp (Nat.lt_succ_self (entriesHeight es)) e he
      exact ⟨Nat.succ_le_of_lt ((ih e he).1.trans_lt hlt.1),
        Nat.succ_le_of_lt ((ih e he).2.trans_lt hlt.2)⟩

/-- Every length an encoding declares is one the format can declare. -/
theorem lengthsFit_denote {w : Wire} {e : List UInt8} (h : w.bytes = some e) :
    w.denote.LengthsFit := by
  induction w using Wire.induction generalizing e with
  | leaf w hleaf =>
      have hheader : ∀ {f : Family} {form : Form} {d b : List UInt8},
          cat (header f form d.length) (some b) = some e → d.length ≤ 0xffffffff := by
        intro f form d b hcat
        obtain ⟨head, _, hh, -, -⟩ := cat_eq_some.mp hcat
        exact le_of_header hh
      rw [MsgPack.LengthsFit, MsgPack.all_leaf (isLeaf_denote hleaf)]
      cases w
      case array => cases hleaf
      case object => cases hleaf
      case string form d => exact hheader h
      case binary form d => exact hheader h
      case extension form t d => exact hheader h
      -- what is left has no length
      case fixint b =>
        rw [denote]
        split_ifs <;> exact Nat.zero_le _
      case arith T c => cases T <;> exact Nat.zero_le _
      all_goals exact Nat.zero_le _
  | array form ws ih =>
      obtain ⟨head, body, hh, hb, -⟩ := cat_eq_some.mp h
      rw [itemsBytes_eq_concat] at hb
      rw [denote, denoteItems_eq_map, MsgPack.LengthsFit, MsgPack.all_array]
      constructor
      · rw [MsgPack.length, List.length_map]
        exact le_of_header hh
      · intro x hx
        obtain ⟨w, hw, rfl⟩ := List.mem_map.mp hx
        obtain ⟨e', he'⟩ := encoded_of_mem hb hw
        exact ih w hw he'
  | object form es ih =>
      obtain ⟨head, body, hh, hb, -⟩ := cat_eq_some.mp h
      rw [entriesBytes_eq_concat] at hb
      rw [denote, MsgPack.LengthsFit, MsgPack.all_object]
      constructor
      · exact (length_object_le es).trans (le_of_header hh)
      · intro x hx
        obtain ⟨kv, hkv, rfl⟩ := exists_of_mem_object hx
        obtain ⟨e', he'⟩ := encoded_of_mem hb hkv
        obtain ⟨k, v, hk, hv, -⟩ := cat_eq_some.mp he'
        exact ⟨(ih kv hkv).1 hk, (ih kv hkv).2 hv⟩

/-- An array of two items, one of them in an over-long form. -/
example : bytes (.array .fix [.string (.wide .w16) [0x61], .nil]) =
    some [0x92, 0xda, 0x00, 0x01, 0x61, 0xc0] := by decide

end Wire

end Msgpack11
