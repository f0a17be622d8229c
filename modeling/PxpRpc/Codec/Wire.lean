import PxpRpc.Codec.JavaTable

/-!
# The bytes of a serializer

What the TypeScript, Python and Java serializers put into a buffer call by call.
The TypeScript and the Python one are the same code over different ways to store
bytes and to take them out again.
-/
namespace PxpRpc.Codec.Wire

open PxpRpc.Lib

/-- What is put with one call. -/
inductive Item where
  | int (v : BitVec 32)
  | long (v : BitVec 64)
  | float (v : BitVec 32)
  | double (v : BitVec 64)
  | varint (n : Nat)
  | bytes (b : List UInt8)
  | string (s : Utf16)
deriving DecidableEq, Repr

/-! ### Writing -/

/-- How a serializer stores the bytes of a number and those of a byte string, and
what it makes of a count and of a string. -/
structure Writer (S : Type) where
  putRaw : List UInt8 → S → Option S
  putContent : List UInt8 → S → Option S
  varint : Nat → Option (List UInt8)
  encode : Utf16 → Option (List UInt8)

variable {S : Type}

namespace Writer

variable (W : Writer S)

def putInt (val : BitVec 32) : S → Option S := W.putRaw (leBytes 4 val.toNat)

def putLong (val : BitVec 64) : S → Option S := W.putRaw (leBytes 8 val.toNat)

def putFloat (val : BitVec 32) : S → Option S := W.putRaw (leBytes 4 val.toNat)

def putDouble (val : BitVec 64) : S → Option S := W.putRaw (leBytes 8 val.toNat)

def putVarint (val : Nat) (ser : S) : Option S := (W.varint val).bind fun bs => W.putRaw bs ser

def putBytes (b : List UInt8) (ser : S) : Option S := (W.putVarint b.length ser).bind (W.putContent b)

def putString (val : Utf16) (ser : S) : Option S := (W.encode val).bind fun b => W.putBytes b ser

def put : Item → S → Option S
  | .int v => W.putInt v
  | .long v => W.putLong v
  | .float v => W.putFloat v
  | .double v => W.putDouble v
  | .varint n => W.putVarint n
  | .bytes b => W.putBytes b
  | .string s => W.putString s

def putAll : List Item → S → Option S
  | [], ser => some ser
  | item :: items, ser => (W.put item ser).bind (putAll items)

end Writer

/-! ### Reading -/

/-- How the bytes of a number and those of a byte string are taken out, what is
made of the bytes of a string, and the types of columns in a string. -/
structure Reader (S : Type) where
  getRaw : Nat → S → Option (List UInt8 × S)
  getContent : Nat → S → Option (List UInt8 × S)
  decode : List UInt8 → Option Utf16
  columns : Utf16 → List (Option Java.ValueType)

namespace Reader

variable (R : Reader S)

def getWord (w : Nat) (ser : S) : Option (BitVec (8 * w) × S) :=
  (R.getRaw w ser).map fun (bs, ser) => (BitVec.ofNat _ (leValue bs), ser)

def getInt : S → Option (BitVec 32 × S) := R.getWord 4

def getLong : S → Option (BitVec 64 × S) := R.getWord 8

def getFloat : S → Option (BitVec 32 × S) := R.getWord 4

def getDouble : S → Option (BitVec 64 × S) := R.getWord 8

def getVarint (ser : S) : Option (Nat × S) :=
  (R.getRaw 1 ser).bind fun (bs, ser) =>
    if leValue bs = 255 then (R.getRaw 4 ser).map fun (bs, ser) => (leValue bs, ser)
    else some (leValue bs, ser)

def getBytes (ser : S) : Option (List UInt8 × S) :=
  (R.getVarint ser).bind fun (len, ser) => R.getContent len ser

def getString (ser : S) : Option (Utf16 × S) :=
  (R.getBytes ser).bind fun (bs, ser) => (R.decode bs).map fun s => (s, ser)

/-- The call that takes an item of the same kind. -/
def get : Item → S → Option (Item × S)
  | .int _, ser => (R.getInt ser).map fun (v, ser) => (.int v, ser)
  | .long _, ser => (R.getLong ser).map fun (v, ser) => (.long v, ser)
  | .float _, ser => (R.getFloat ser).map fun (v, ser) => (.float v, ser)
  | .double _, ser => (R.getDouble ser).map fun (v, ser) => (.double v, ser)
  | .varint _, ser => (R.getVarint ser).map fun (n, ser) => (.varint n, ser)
  | .bytes _, ser => (R.getBytes ser).map fun (b, ser) => (.bytes b, ser)
  | .string _, ser => (R.getString ser).map fun (s, ser) => (.string s, ser)

def getAll : List Item → S → Option (List Item × S)
  | [], ser => some ([], ser)
  | item :: items, ser =>
    (R.get item ser).bind fun (item, ser) => (getAll items ser).map fun (items, ser) => (item :: items, ser)

end Reader

/-! ### The bytes of an item -/

def varintBytes (n : Nat) : List UInt8 := if n < 255 then [UInt8.ofNat n] else 0xff :: leBytes 4 n

theorem length_varintBytes_pos (n : Nat) : 0 < (varintBytes n).length := by
  unfold varintBytes
  split <;> simp

/-- The bytes of a string without lone surrogates. -/
def utf8 (s : Utf16) : List UInt8 := toUtf8 (fromUtf16 s)

namespace Item

/-- The bytes that are stored with one call of `putRaw` or `putContent` each. -/
def pieces : Item → List (List UInt8)
  | int v => [leBytes 4 v.toNat]
  | long v => [leBytes 8 v.toNat]
  | float v => [leBytes 4 v.toNat]
  | double v => [leBytes 8 v.toNat]
  | varint n => [varintBytes n]
  | bytes b => [varintBytes b.length, b]
  | string s => [varintBytes (utf8 s).length, utf8 s]

def encode (item : Item) : List UInt8 := item.pieces.flatten

/-- Strings are texts. -/
def WellFormed : Item → Prop
  | string s => Java.WellFormed s
  | _ => True

/-- Counts and lengths are words. -/
def Short : Item → Prop
  | varint n => n < 2 ^ 32
  | bytes b => b.length < 2 ^ 32
  | string s => (utf8 s).length < 2 ^ 32
  | _ => True

end Item

theorem Item.encode_pos (item : Item) : 0 < item.encode.length := by
  have hv := length_varintBytes_pos
  cases item <;> simp [Item.encode, Item.pieces, hv]

/-- All pieces of a list of items. -/
def allPieces (items : List Item) : List (List UInt8) := items.flatMap Item.pieces

def encodeAll (items : List Item) : List UInt8 := items.flatMap Item.encode

theorem flatten_allPieces (items : List Item) : (allPieces items).flatten = encodeAll items := by
  unfold allPieces encodeAll Item.encode
  rw [List.flatMap_def, List.flatMap_def, List.flatten_flatten, List.map_map]
  rfl

theorem encodeAll_cons (item : Item) (items : List Item) :
    encodeAll (item :: items) = item.encode ++ encodeAll items := List.flatMap_cons

theorem encodeAll_append (items items' : List Item) :
    encodeAll (items ++ items') = encodeAll items ++ encodeAll items' := List.flatMap_append

theorem toUtf16_fromUtf16_iff {s : Utf16} : toUtf16 (fromUtf16 s) = s ↔ Java.WellFormed s := by
  constructor
  · exact fun h => ⟨_, h.symm⟩
  · rintro ⟨text, rfl⟩
    rw [fromUtf16_toUtf16]

/-- Pieces that are stored one after another. -/
def putPieces (put : List UInt8 → S → Option S) : List (List UInt8) → S → Option S
  | [], ser => some ser
  | piece :: pieces, ser => (put piece ser).bind (putPieces put pieces)

theorem putPieces_singleton (put : List UInt8 → S → Option S) (piece : List UInt8) (ser : S) :
    putPieces put [piece] ser = put piece ser := Option.bind_fun_some _

theorem putPieces_append (put : List UInt8 → S → Option S) (pieces pieces' : List (List UInt8)) (ser : S) :
    putPieces put (pieces ++ pieces') ser = (putPieces put pieces ser).bind (putPieces put pieces') := by
  induction pieces generalizing ser with
  | nil => rfl
  | cons piece pieces ih =>
    rw [List.cons_append, putPieces, putPieces, Option.bind_assoc]
    exact congrArg _ (funext ih)

namespace Writer

variable {W : Writer S} {Inv : S → Prop}

/-- While the invariant lasts, byte strings are stored like numbers. -/
structure Uniform (W : Writer S) (Inv : S → Prop) : Prop where
  content : ∀ {ser} b, Inv ser → W.putContent b ser = W.putRaw b ser
  raw : ∀ {ser ser' b}, Inv ser → W.putRaw b ser = some ser' → Inv ser'

/-- The writer accepts the item and stores the item's bytes. -/
structure Accepts (W : Writer S) (item : Item) : Prop where
  varint : ∀ n, item = .varint n → W.varint n = some (varintBytes n)
  bytes : ∀ b, item = .bytes b → W.varint b.length = some (varintBytes b.length)
  string : ∀ s, item = .string s →
    W.encode s = some (utf8 s) ∧ W.varint (utf8 s).length = some (varintBytes (utf8 s).length)

theorem Uniform.pieces (hW : W.Uniform Inv) {pieces : List (List UInt8)} : ∀ {ser ser' : S}, Inv ser →
    putPieces W.putRaw pieces ser = some ser' → Inv ser' := by
  induction pieces with
  | nil =>
    intro ser ser' hi h
    obtain rfl := Option.some.inj h
    exact hi
  | cons piece pieces ih =>
    intro ser ser' hi h
    obtain ⟨ser₁, h₁, hrest⟩ := Option.bind_eq_some_iff.mp h
    exact ih (hW.raw hi h₁) hrest

theorem Uniform.putBytes (hW : W.Uniform Inv) {ser : S} (hi : Inv ser) {b : List UInt8}
    (hv : W.varint b.length = some (varintBytes b.length)) :
    W.putBytes b ser = putPieces W.putRaw [varintBytes b.length, b] ser := by
  rw [Writer.putBytes, putVarint, hv, Option.bind_some, putPieces]
  cases hput : W.putRaw (varintBytes b.length) ser with
  | none => rfl
  | some ser' => rw [Option.bind_some, Option.bind_some, hW.content b (hW.raw hi hput), putPieces_singleton]

theorem Uniform.put (hW : W.Uniform Inv) {item : Item} (h : W.Accepts item) {ser : S} (hi : Inv ser) :
    W.put item ser = putPieces W.putRaw item.pieces ser := by
  cases item with
  | int v | long v | float v | double v => exact (putPieces_singleton W.putRaw _ ser).symm
  | varint n =>
    rw [Item.pieces, putPieces_singleton, Writer.put, putVarint, h.varint n rfl, Option.bind_some]
  | bytes b => exact hW.putBytes hi (h.bytes b rfl)
  | string s =>
    obtain ⟨he, hv⟩ := h.string s rfl
    rw [Writer.put, putString, he, Option.bind_some]
    exact hW.putBytes hi hv

/-- Items are put as their pieces one after another. -/
theorem Uniform.putAll (hW : W.Uniform Inv) {items : List Item} (h : ∀ item ∈ items, W.Accepts item) :
    ∀ {ser : S}, Inv ser → W.putAll items ser = putPieces W.putRaw (allPieces items) ser := by
  induction items with
  | nil => exact fun _ => rfl
  | cons item items ih =>
    intro ser hi
    have hpieces : allPieces (item :: items) = item.pieces ++ allPieces items := List.flatMap_cons
    rw [Writer.putAll, hW.put (h item List.mem_cons_self) hi, hpieces, putPieces_append]
    cases hput : putPieces W.putRaw item.pieces ser with
    | none => rfl
    | some ser' => exact ih (fun i hm => h i (List.mem_cons_of_mem _ hm)) (hW.pieces hi hput)

theorem putAll_append (items items' : List Item) (ser : S) :
    W.putAll (items ++ items') ser = (W.putAll items ser).bind (W.putAll items') := by
  induction items generalizing ser with
  | nil => rfl
  | cons item items ih =>
    rw [List.cons_append, Writer.putAll, Writer.putAll, Option.bind_assoc]
    exact congrArg _ (funext ih)

end Writer

/-! ### Reading the bytes of an item -/

namespace Reader

variable {R : Reader S}

/-- `Reads ser bs`: the bytes still to be taken out; `heard` is what the reader
makes of a text. -/
structure Source (R : Reader S) (Reads : S → List UInt8 → Prop) (heard : List Char → Utf16) : Prop where
  raw : ∀ {ser bs rest}, Reads ser (bs ++ rest) → ∃ ser', R.getRaw bs.length ser = some (bs, ser') ∧ Reads ser' rest
  content : ∀ {ser bs rest}, Reads ser (bs ++ rest) →
    ∃ ser', R.getContent bs.length ser = some (bs, ser') ∧ Reads ser' rest
  decode : ∀ text, R.decode (toUtf8 text) = some (heard text)

variable {Reads : S → List UInt8 → Prop} {heard : List Char → Utf16} {ser : S} {rest : List UInt8}

theorem leValue_leBytes_word {w : Nat} (v : BitVec (8 * w)) :
    BitVec.ofNat (8 * w) (leValue (leBytes w v.toNat)) = v := by
  have hlt := v.isLt
  rw [Nat.pow_mul] at hlt
  rw [leValue_leBytes_of_lt hlt, BitVec.ofNat_toNat, BitVec.setWidth_eq]

namespace Source

theorem getWord (hR : R.Source Reads heard) {w : Nat} {v : BitVec (8 * w)}
    (h : Reads ser (leBytes w v.toNat ++ rest)) : ∃ ser', R.getWord w ser = some (v, ser') ∧ Reads ser' rest := by
  obtain ⟨ser', hget, hr⟩ := hR.raw h
  rw [length_leBytes] at hget
  refine ⟨ser', ?_, hr⟩
  rw [Reader.getWord, hget, Option.map_some]
  simp only [leValue_leBytes_word]

theorem getVarint (hR : R.Source Reads heard) {n : Nat} (hn : n < 2 ^ 32) (h : Reads ser (varintBytes n ++ rest)) :
    ∃ ser', R.getVarint ser = some (n, ser') ∧ Reads ser' rest := by
  unfold varintBytes at h
  split at h
  · rename_i hlt
    obtain ⟨ser', hget, hr⟩ := hR.raw h
    have hval : leValue [UInt8.ofNat n] = n := by simp [leValue]; omega
    refine ⟨ser', ?_, hr⟩
    rw [Reader.getVarint, show 1 = [UInt8.ofNat n].length from rfl, hget, Option.bind_some]
    simp only [hval]
    rw [if_neg (by omega)]
  · obtain ⟨ser₁, hescape, h₁⟩ := hR.raw (show Reads ser ([0xff] ++ (leBytes 4 n ++ rest)) from h)
    obtain ⟨ser', hword, hr⟩ := hR.raw h₁
    rw [length_leBytes] at hword
    refine ⟨ser', ?_, hr⟩
    rw [Reader.getVarint, show 1 = [(0xff : UInt8)].length from rfl, hescape, Option.bind_some]
    change (R.getRaw 4 ser₁).map _ = _
    rw [hword, Option.map_some]
    simp only [leValue_leBytes_of_lt (show n < 256 ^ 4 from hn)]

theorem getBytes (hR : R.Source Reads heard) {b : List UInt8} (hb : b.length < 2 ^ 32)
    (h : Reads ser (varintBytes b.length ++ (b ++ rest))) :
    ∃ ser', R.getBytes ser = some (b, ser') ∧ Reads ser' rest := by
  obtain ⟨ser₁, hlen, h₁⟩ := hR.getVarint hb h
  obtain ⟨ser', hget, hr⟩ := hR.content h₁
  exact ⟨ser', by rw [Reader.getBytes, hlen, Option.bind_some]; exact hget, hr⟩

theorem getString (hR : R.Source Reads heard) {s : Utf16} (hs : (utf8 s).length < 2 ^ 32)
    (h : Reads ser (varintBytes (utf8 s).length ++ (utf8 s ++ rest))) :
    ∃ ser', R.getString ser = some (heard (fromUtf16 s), ser') ∧ Reads ser' rest := by
  obtain ⟨ser', hget, hr⟩ := hR.getBytes hs h
  refine ⟨ser', ?_, hr⟩
  rw [Reader.getString, hget, Option.bind_some]
  simp only [utf8, hR.decode, Option.map_some]

end Source

end Reader

/-- The item as it is read back. -/
def Item.heard (heard : List Char → Utf16) : Item → Item
  | string s => string (heard (fromUtf16 s))
  | item => item

namespace Reader

variable {R : Reader S} {Reads : S → List UInt8 → Prop} {heard : List Char → Utf16}

theorem Source.get (hR : R.Source Reads heard) {ser : S} {rest : List UInt8} {item : Item} (hs : item.Short)
    (h : Reads ser (item.encode ++ rest)) :
    ∃ ser', R.get item ser = some (item.heard heard, ser') ∧ Reads ser' rest := by
  cases item with
  | int v | float v =>
    have h' : Reads ser (leBytes 4 v.toNat ++ rest) := by
      simpa [Item.encode, Item.pieces] using h
    obtain ⟨ser', hget, hr⟩ := hR.getWord (w := 4) (v := v) h'
    exact ⟨ser', by rw [Reader.get]; simp only [getInt, getFloat, hget, Option.map_some, Item.heard], hr⟩
  | long v | double v =>
    have h' : Reads ser (leBytes 8 v.toNat ++ rest) := by
      simpa [Item.encode, Item.pieces] using h
    obtain ⟨ser', hget, hr⟩ := hR.getWord (w := 8) (v := v) h'
    exact ⟨ser', by rw [Reader.get]; simp only [getLong, getDouble, hget, Option.map_some, Item.heard], hr⟩
  | varint n =>
    have h' : Reads ser (varintBytes n ++ rest) := by
      simpa [Item.encode, Item.pieces] using h
    obtain ⟨ser', hget, hr⟩ := hR.getVarint hs h'
    exact ⟨ser', by rw [Reader.get, hget]; rfl, hr⟩
  | bytes b =>
    have h' : Reads ser (varintBytes b.length ++ (b ++ rest)) := by
      simpa [Item.encode, Item.pieces] using h
    obtain ⟨ser', hget, hr⟩ := hR.getBytes hs h'
    exact ⟨ser', by rw [Reader.get, hget]; rfl, hr⟩
  | string s =>
    have h' : Reads ser (varintBytes (utf8 s).length ++ (utf8 s ++ rest)) := by
      simpa [Item.encode, Item.pieces] using h
    obtain ⟨ser', hget, hr⟩ := hR.getString hs h'
    exact ⟨ser', by rw [Reader.get, hget]; rfl, hr⟩

/-- Items are read back one after another, up to what becomes of their strings. -/
theorem Source.getAll (hR : R.Source Reads heard) {rest : List UInt8} {items : List Item}
    (hs : ∀ item ∈ items, item.Short) : ∀ {ser : S}, Reads ser (encodeAll items ++ rest) →
      ∃ ser', R.getAll items ser = some (items.map (Item.heard heard), ser') ∧ Reads ser' rest := by
  induction items with
  | nil => exact fun {ser} h => ⟨ser, rfl, h⟩
  | cons item items ih =>
    intro ser h
    rw [encodeAll_cons, List.append_assoc] at h
    obtain ⟨ser₁, hget, h₁⟩ := hR.get (hs item List.mem_cons_self) h
    obtain ⟨ser', hrest, hr⟩ := ih (fun i hi => hs i (List.mem_cons_of_mem _ hi)) h₁
    refine ⟨ser', ?_, hr⟩
    rw [Reader.getAll, hget, Option.bind_some]
    simp only [hrest, Option.map_some, List.map_cons]

end Reader

/-- The strings are those that the reader leaves as they are. -/
def Heard (heard : List Char → Utf16) : Item → Prop
  | .string s => heard (fromUtf16 s) = s
  | _ => True

theorem map_heard_iff {heard : List Char → Utf16} {items : List Item} :
    items.map (Item.heard heard) = items ↔ ∀ item ∈ items, Heard heard item := by
  induction items with
  | nil => simp
  | cons item items ih =>
    rw [List.map_cons, List.cons.injEq, ih, List.forall_mem_cons]
    refine and_congr_left fun _ => ?_
    cases item <;> simp [Item.heard, Heard]

end PxpRpc.Codec.Wire
