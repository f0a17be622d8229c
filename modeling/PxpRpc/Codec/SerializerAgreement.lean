import PxpRpc.Codec.PythonSerializer
import PxpRpc.Codec.TypeScriptSerializer

/-!
# Three serializers, one format

Which sequences of calls leave the same bytes in the TypeScript, the Python and
the Java serializer, and are read back by all three.
-/
namespace PxpRpc.Codec

open PxpRpc.Lib
open PxpRpc.Codec.Wire

namespace Java.Serializer2

def put : Item → Serializer2 → Option Serializer2
  | .int v => putInt v
  | .long v => putLong v
  | .float v => putFloat v
  | .double v => putDouble v
  | .varint n => putVarint (BitVec.ofNat 32 n)
  | .bytes b => putBytes b
  | .string s => putString s

def putItems : List Item → Serializer2 → Option Serializer2
  | [], ser => some ser
  | item :: items, ser => (put item ser).bind (putItems items)

def get : Item → Serializer2 → Option (Item × Serializer2)
  | .int _, ser => ser.getInt.map fun (v, ser) => (.int v, ser)
  | .long _, ser => ser.getLong.map fun (v, ser) => (.long v, ser)
  | .float _, ser => ser.getFloat.map fun (v, ser) => (.float v, ser)
  | .double _, ser => ser.getDouble.map fun (v, ser) => (.double v, ser)
  | .varint _, ser => ser.getVarint.map fun (v, ser) => (.varint v.toNat, ser)
  | .bytes _, ser => ser.getBytes.map fun (b, ser) => (.bytes b, ser)
  | .string _, ser => ser.getString.map fun (s, ser) => (.string s, ser)

def getItems : List Item → Serializer2 → Option (List Item × Serializer2)
  | [], ser => some ([], ser)
  | item :: items, ser =>
    (get item ser).bind fun (item, ser) => (getItems items ser).map fun (items, ser) => (item :: items, ser)

/-- A new serializer, all the calls, `build`. -/
def write (initBufSize : BitVec 31) (items : List Item) : Option ByteBuffer :=
  (prepareSerializing (initBufSize.setWidth 32)).bind fun ser => (putItems items ser).map build

def read (items : List Item) (buf : ByteBuffer) : Option (List Item) :=
  (getItems items (prepareUnserializing buf)).map Prod.fst

end Java.Serializer2

namespace TypeScript.Serializer

def write (initBufSize : Nat) (items : List Item) : Option View :=
  (writer.putAll items (prepareSerializing initBufSize)).bind build

def read (items : List Item) (buf : View) : Option (List Item) :=
  (reader.getAll items (prepareUnserializing buf)).map Prod.fst

end TypeScript.Serializer

namespace Python.Serializer

def write (items : List Item) : Option (List UInt8) := (writer.putAll items prepareSerializing).map build

def read (items : List Item) (buf : List UInt8) : Option (List Item) :=
  (reader.getAll items (prepareUnserializing buf)).map Prod.fst

end Python.Serializer

/-- Counts below `2 ^ 31`, byte strings and strings of fewer than `2 ^ 30` bytes. -/
def Wire.Item.InRange : Item → Prop
  | .varint n => n < 2 ^ 31
  | .bytes b => b.length < 2 ^ 30
  | .string s => (utf8 s).length < 2 ^ 30
  | _ => True

/-- The serializers write the same bytes, and each reads the calls back from
them, wherever they are. -/
def Agree (items : List Item) (typeScriptSize : Nat) (javaSize : BitVec 31) : Prop :=
  ∃ bytes,
    (∃ v, TypeScript.Serializer.write typeScriptSize items = some v ∧ v.bytes = bytes) ∧
    Python.Serializer.write items = some bytes ∧
    (∃ b, Java.Serializer2.write javaSize items = some b ∧ b.remaining = bytes) ∧
    (∀ v : TypeScript.View, v.Valid → v.bytes = bytes → TypeScript.Serializer.read items v = some items) ∧
    Python.Serializer.read items bytes = some items ∧
    Java.Serializer2.read items (Java.ByteBuffer.wrap bytes) = some items

/-- Strings are texts without a byte order mark in front. -/
def Wire.Item.Portable : Item → Prop
  | .string s => Java.WellFormed s ∧ (fromUtf16 s).head? ≠ some (Char.ofNat 0xfeff)
  | _ => True

variable {items : List Item}

theorem Wire.Item.InRange.short {item : Item} (h : item.InRange) : item.Short := by
  cases item with
  | varint n => exact Nat.lt_trans h (by decide)
  | bytes b => exact Nat.lt_trans h (by decide)
  | string s => exact Nat.lt_trans h (by decide)
  | int v | long v | float v | double v => exact trivial

/-! ### Each language -/

theorem TypeScript.write_iff {n : Nat} (hw : ∀ item ∈ items, item.WellFormed) :
    (TypeScript.Fits n 0 ((allPieces items).map List.length) →
      ∃ v, TypeScript.Serializer.write n items = some v ∧ v.Valid ∧ v.bytes = encodeAll items) ∧
    (¬ TypeScript.Fits n 0 ((allPieces items).map List.length) →
      TypeScript.Serializer.write n items = none) := by
  have hnew := TypeScript.Written.prepareSerializing n
  have hlen : (TypeScript.Serializer.prepareSerializing n).dv.buffer.length = n := by
    simp [TypeScript.Serializer.prepareSerializing]
  have hput := TypeScript.uniform.putAll (fun item hi => TypeScript.accepts (hw item hi)) ⟨[], hnew⟩
  have hpieces := @TypeScript.Written.putPieces (allPieces items) _ _ hnew
  rw [hlen, List.length_nil, List.nil_append, flatten_allPieces] at hpieces
  unfold TypeScript.Serializer.write
  rw [hput]
  change (_ → ∃ v, (putPieces TypeScript.Serializer.putRaw _ _).bind _ = some v ∧ _) ∧
    (_ → (putPieces TypeScript.Serializer.putRaw _ _).bind _ = none)
  constructor
  · intro hf
    obtain ⟨ser, hser, hwr⟩ := hpieces.1 hf
    obtain ⟨v, hv, hvalid, hbytes⟩ := hwr.build
    exact ⟨v, by rw [hser]; exact hv, hvalid, hbytes⟩
  · intro hf
    rw [hpieces.2 hf]
    rfl

theorem Python.write_eq (hw : ∀ item ∈ items, item.WellFormed) (hs : ∀ item ∈ items, item.Short) :
    Python.Serializer.write items = some (encodeAll items) := by
  have hput : Python.Serializer.writer.putAll items Python.Serializer.prepareSerializing = _ :=
    Python.uniform.putAll (fun item hi => Python.accepts (hw item hi) (hs item hi)) trivial
  unfold Python.Serializer.write
  rw [hput]
  change (putPieces Python.Serializer.extend _ _).map _ = _
  rw [Python.putPieces_eq, flatten_allPieces]
  rfl

theorem Python.write_some {bytes : List UInt8} (h : Python.Serializer.write items = some bytes) :
    ∀ item ∈ items, item.WellFormed ∧ item.Short := by
  obtain ⟨ser, hput, -⟩ := Option.map_eq_some_iff.mp h
  exact Python.putAll_some hput

namespace Java

theorem toNat_ofNat_of_lt {n : Nat} (h : n < 2 ^ 31) : (BitVec.ofNat 32 n).toNat = n := by
  rw [BitVec.toNat_ofNat]
  omega

theorem msb_ofNat_of_lt {n : Nat} (h : n < 2 ^ 31) : (BitVec.ofNat 32 n).msb = false := by
  rw [BitVec.msb_eq_decide, toNat_ofNat_of_lt h]
  simp
  omega

theorem varintPiece_eq {n : Nat} (h : n < 2 ^ 31) : varintPiece (BitVec.ofNat 32 n) = varintBytes n := by
  have hint : (BitVec.ofNat 32 n).toInt = n := by
    rw [BitVec.toInt_eq_toNat_of_msb (msb_ofNat_of_lt h), toNat_ofNat_of_lt h]
  unfold varintPiece varintBytes
  rw [hint, toNat_ofNat_of_lt h]
  by_cases hn : n < 255
  · rw [if_pos hn, if_neg (by omega)]
  · rw [if_neg hn, if_pos (by omega)]

theorem bytesPieces_eq {b : List UInt8} (h : b.length < 2 ^ 31) : bytesPieces b = [varintBytes b.length, b] := by
  rw [bytesPieces, varintPiece_eq h]

theorem put_eq {item : Item} (h : item.InRange) (ser : Serializer2) : ser.put item = ser.putAll item.pieces := by
  cases item with
  | int v | long v | float v | double v => exact (Serializer2.putAll_singleton _ ser).symm
  | varint n =>
    rw [Serializer2.put, Serializer2.putVarint_eq, varintPiece_eq h]
    rfl
  | bytes b =>
    rw [Serializer2.put, Serializer2.putBytes_eq, bytesPieces_eq (Nat.lt_trans h (by decide))]
    rfl
  | string s =>
    rw [Serializer2.put, Serializer2.putString, Serializer2.putBytes_eq]
    exact congrArg (fun pieces => Serializer2.putAll pieces ser) (bytesPieces_eq (Nat.lt_trans h (by decide)))

theorem putItems_eq (h : ∀ item ∈ items, item.InRange) (ser : Serializer2) :
    ser.putItems items = ser.putAll (allPieces items) := by
  induction items generalizing ser with
  | nil => rfl
  | cons item items ih =>
    have hpieces : allPieces (item :: items) = item.pieces ++ allPieces items := List.flatMap_cons
    rw [Serializer2.putItems, put_eq (h item List.mem_cons_self), hpieces, Serializer2.putAll_append]
    exact congrArg _ (funext fun ser => ih (fun i hi => h i (List.mem_cons_of_mem _ hi)) ser)

theorem write_iff {n : BitVec 31} (h : ∀ item ∈ items, item.InRange) :
    (Fits n.toNat 0 ((allPieces items).map List.length) →
      ∃ b, Serializer2.write n items = some b ∧ b.remaining = encodeAll items) ∧
    (¬ Fits n.toNat 0 ((allPieces items).map List.length) → Serializer2.write n items = none) := by
  have hlt := n.isLt
  have hnat : (n.setWidth 32).toNat = n.toNat := by
    rw [BitVec.toNat_setWidth]
    omega
  have hmsb : (n.setWidth 32).msb = false := by
    rw [BitVec.msb_eq_decide, hnat]
    simp
    omega
  obtain ⟨ser, hser⟩ : ∃ ser, Serializer2.prepareSerializing (n.setWidth 32) = some ser := by
    unfold Serializer2.prepareSerializing ByteBuffer.allocate
    rw [hmsb]
    exact ⟨_, rfl⟩
  obtain ⟨hw, hlen⟩ := Written.prepareSerializing hser
  have hpieces := @Written.putAll (allPieces items) ser [] hw
  rw [hlen, hnat, List.length_nil, List.nil_append, flatten_allPieces] at hpieces
  unfold Serializer2.write
  rw [hser, Option.bind_some, putItems_eq h]
  constructor
  · intro hf
    obtain ⟨ser', hput, hw'⟩ := hpieces.1 hf
    exact ⟨ser'.build, by rw [hput]; rfl, hw'.build⟩
  · intro hf
    rw [hpieces.2 hf]
    rfl

theorem get_eq {ser : Serializer2} {rest : List UInt8} {item : Item} (h : item.InRange)
    (hr : Reads ser (item.encode ++ rest)) :
    ∃ ser', ser.get item = some (item.heard toUtf16, ser') ∧ Reads ser' rest := by
  cases item with
  | int v | float v =>
    have hr' : Reads ser (leBytes 4 v.toNat ++ rest) := by
      simpa [Item.encode, Item.pieces] using hr
    obtain ⟨ser', hget, hrest⟩ := hr'.getWord (w := 4) (v := v)
    exact ⟨ser', by
      rw [Serializer2.get]
      simp only [Serializer2.getInt, Serializer2.getFloat, hget, Option.map_some, Item.heard], hrest⟩
  | long v | double v =>
    have hr' : Reads ser (leBytes 8 v.toNat ++ rest) := by
      simpa [Item.encode, Item.pieces] using hr
    obtain ⟨ser', hget, hrest⟩ := hr'.getWord (w := 8) (v := v)
    exact ⟨ser', by
      rw [Serializer2.get]
      simp only [Serializer2.getLong, Serializer2.getDouble, hget, Option.map_some, Item.heard], hrest⟩
  | varint n =>
    have hr' : Reads ser (varintPiece (BitVec.ofNat 32 n) ++ rest) := by
      rw [varintPiece_eq h]
      simpa [Item.encode, Item.pieces] using hr
    obtain ⟨ser', hget, hrest⟩ := hr'.getVarint (msb_ofNat_of_lt h)
    refine ⟨ser', ?_, hrest⟩
    rw [Serializer2.get, hget, Option.map_some]
    simp only [toNat_ofNat_of_lt h, Item.heard]
  | bytes b =>
    have hb : b.length < 2 ^ 31 := Nat.lt_trans h (by decide)
    have hr' : Reads ser ((bytesPieces b).flatten ++ rest) := by
      rw [bytesPieces_eq hb]
      exact hr
    obtain ⟨ser', hget, hrest⟩ := hr'.getBytes hb
    exact ⟨ser', by rw [Serializer2.get, hget]; rfl, hrest⟩
  | string s =>
    have hs : (getBytes s).length < 2 ^ 31 := Nat.lt_trans h (by decide)
    have hr' : Reads ser ((bytesPieces (getBytes s)).flatten ++ rest) := by
      rw [bytesPieces_eq hs]
      exact hr
    obtain ⟨ser', hget, hrest⟩ := hr'.getString hs
    refine ⟨ser', ?_, hrest⟩
    rw [Serializer2.get, hget, Option.map_some, newString, getBytes, fromUtf8_toUtf8]
    rfl

theorem getItems_eq {rest : List UInt8} (h : ∀ item ∈ items, item.InRange) : ∀ {ser : Serializer2},
    Reads ser (encodeAll items ++ rest) →
      ∃ ser', ser.getItems items = some (items.map (Item.heard toUtf16), ser') ∧ Reads ser' rest := by
  induction items with
  | nil => exact fun {ser} hr => ⟨ser, rfl, hr⟩
  | cons item items ih =>
    intro ser hr
    rw [encodeAll_cons, List.append_assoc] at hr
    obtain ⟨ser₁, hget, hr₁⟩ := get_eq (h item List.mem_cons_self) hr
    obtain ⟨ser', hrest, hr'⟩ := ih (fun i hi => h i (List.mem_cons_of_mem _ hi)) hr₁
    refine ⟨ser', ?_, hr'⟩
    rw [Serializer2.getItems, hget, Option.bind_some]
    simp only [hrest, Option.map_some, List.map_cons]

end Java

/-! ### Agreement -/

/-- The serializers agree if and only if every string is a text without a byte
order mark in front, and the bytes fit the buffers that TypeScript and Java
make for them. -/
theorem agree_iff (items : List Item) (typeScriptSize : Nat) (javaSize : BitVec 31)
    (h : ∀ item ∈ items, item.InRange) : Agree items typeScriptSize javaSize ↔
      (∀ item ∈ items, item.Portable) ∧
      TypeScript.Fits typeScriptSize 0 ((allPieces items).map List.length) ∧
      Fits javaSize.toNat 0 ((allPieces items).map List.length) := by
  have hshort : ∀ item ∈ items, item.Short := fun item hi => (h item hi).short
  have hpython : ∀ {item : Item}, item.WellFormed → Heard toUtf16 item := by
    intro item hw
    cases item with
    | string s => exact toUtf16_fromUtf16_iff.mpr hw
    | int v | long v | float v | double v | varint n | bytes b => exact trivial
  have htypeScript : ∀ {item : Item}, item.WellFormed → (Heard TypeScript.heard item ↔ item.Portable) := by
    intro item hw
    cases item with
    | string s => exact (TypeScript.heard_iff hw).trans (and_iff_right hw).symm
    | int v | long v | float v | double v | varint n | bytes b => exact Iff.rfl
  have hread : ∀ {v : TypeScript.View}, v.Valid → v.bytes = encodeAll items →
      TypeScript.Serializer.read items v = some (items.map (Item.heard TypeScript.heard)) := by
    intro v hv hb
    have hr : TypeScript.Reads (TypeScript.Serializer.prepareUnserializing v) (encodeAll items ++ []) := by
      rw [List.append_nil, ← hb]
      exact TypeScript.Reads.prepareUnserializing hv
    obtain ⟨ser, hget, -⟩ := TypeScript.source.getAll hshort hr
    unfold TypeScript.Serializer.read
    rw [hget]
    rfl
  constructor
  · rintro ⟨bytes, ⟨v, hv, hvb⟩, hpy, ⟨b, hb, hbb⟩, hrt, -, -⟩
    have hwell : ∀ item ∈ items, item.WellFormed := fun item hi => (Python.write_some hpy item hi).1
    have hbytes : encodeAll items = bytes := Option.some.inj ((Python.write_eq hwell hshort).symm.trans hpy)
    refine ⟨fun item hi => ?_, ?_, ?_⟩
    · have hof : (TypeScript.View.of bytes).bytes = bytes := by
        simp [TypeScript.View.of, TypeScript.View.bytes]
      have hvalid : (TypeScript.View.of bytes).Valid := (Nat.zero_add _).le
      have hsame := (hread hvalid (hof.trans hbytes.symm)).symm.trans (hrt _ hvalid hof)
      exact (htypeScript (hwell item hi)).mp (map_heard_iff.mp (Option.some.inj hsame) item hi)
    · by_contra hf
      rw [(TypeScript.write_iff hwell).2 hf] at hv
      cases hv
    · by_contra hf
      rw [(Java.write_iff h).2 hf] at hb
      cases hb
  · rintro ⟨hport, hts, hjava⟩
    have hwell : ∀ item ∈ items, item.WellFormed := by
      intro item hi
      have hp := hport item hi
      cases item with
      | string s => exact hp.1
      | int v | long v | float v | double v | varint n | bytes b => exact trivial
    obtain ⟨v, hv, hvalid, hvb⟩ := (TypeScript.write_iff hwell).1 hts
    obtain ⟨b, hb, hbb⟩ := (Java.write_iff h).1 hjava
    have hsame : items.map (Item.heard toUtf16) = items :=
      map_heard_iff.mpr fun item hi => hpython (hwell item hi)
    refine ⟨encodeAll items, ⟨v, hv, hvb⟩, Python.write_eq hwell hshort, ⟨b, hb, hbb⟩, ?_, ?_, ?_⟩
    · intro v' hvalid' hv'
      rw [hread hvalid' hv', map_heard_iff.mpr fun item hi => (htypeScript (hwell item hi)).mpr (hport item hi)]
    · have hr : Python.Reads (Python.Serializer.prepareUnserializing (encodeAll items)) (encodeAll items ++ []) := by
        rw [List.append_nil]
        exact Python.Reads.prepareUnserializing _
      obtain ⟨ser, hget, -⟩ := Python.source.getAll hshort hr
      unfold Python.Serializer.read
      rw [hget, hsame]
      rfl
    · have hr : Java.Reads (Java.Serializer2.prepareUnserializing (Java.ByteBuffer.wrap (encodeAll items)))
          (encodeAll items ++ []) := by
        rw [List.append_nil]
        refine ⟨Nat.zero_le _, le_rfl, ?_⟩
        simp [Java.Serializer2.prepareUnserializing, Java.ByteBuffer.wrap, Java.ByteBuffer.remaining]
      obtain ⟨ser, hget, -⟩ := Java.getItems_eq h hr
      unfold Java.Serializer2.read
      rw [hget, hsame]
      rfl

/-- A string that is a byte order mark. -/
def byteOrderMark : List Item := [.string [0xfeff]]

/-- Everywhere it is written as three bytes; in TypeScript nothing is read. -/
theorem byteOrderMark_lost :
    Python.Serializer.write byteOrderMark = some [3, 0xef, 0xbb, 0xbf] ∧
    Python.Serializer.read byteOrderMark [3, 0xef, 0xbb, 0xbf] = some byteOrderMark ∧
    TypeScript.Serializer.read byteOrderMark (TypeScript.View.of [3, 0xef, 0xbb, 0xbf]) = some [.string []] ∧
    ∀ typeScriptSize javaSize, ¬ Agree byteOrderMark typeScriptSize javaSize := by
  have hwrite : Python.Serializer.write byteOrderMark = some [3, 0xef, 0xbb, 0xbf] := by decide
  have hread : TypeScript.Serializer.read byteOrderMark (TypeScript.View.of [3, 0xef, 0xbb, 0xbf]) =
      some [.string []] := by decide
  refine ⟨hwrite, by decide, hread, fun typeScriptSize javaSize => ?_⟩
  rintro ⟨bytes, -, hpy, -, hrt, -⟩
  obtain rfl := Option.some.inj (hwrite.symm.trans hpy)
  have hvalid : (TypeScript.View.of [3, 0xef, 0xbb, 0xbf]).Valid := le_rfl
  have hback := hrt _ hvalid (by decide)
  rw [hread] at hback
  exact absurd hback (by decide)

/-- A word, a number in its long form, bytes and a text. -/
theorem agree_sample :
    Agree [.int 7, .varint 255, .bytes [1, 2], .string [104, 105]] 0 0 ↔
      (∀ item ∈ [Item.int 7, .varint 255, .bytes [1, 2], .string [104, 105]], item.Portable) ∧
      TypeScript.Fits 0 0 ((allPieces [.int 7, .varint 255, .bytes [1, 2], .string [104, 105]]).map List.length) ∧
      Fits (0 : BitVec 31).toNat 0
        ((allPieces [.int 7, .varint 255, .bytes [1, 2], .string [104, 105]]).map List.length) :=
  agree_iff _ 0 0 (by
    intro item hi
    simp only [List.mem_cons, List.not_mem_nil, or_false] at hi
    obtain rfl | rfl | rfl | rfl := hi
    · exact trivial
    · exact (by decide : 255 < 2 ^ 31)
    · exact (by decide : [(1 : UInt8), 2].length < 2 ^ 30)
    · exact (by decide : (utf8 [104, 105]).length < 2 ^ 30))

end PxpRpc.Codec
