import PxpRpc.Codec.Wire

/-!
# The Python serializer

It appends to a `bytearray`. Numbers are unpacked at the position, which raises
when the buffer ends before them; byte strings are slices, which do not.
-/
namespace PxpRpc.Codec.Python

open PxpRpc.Lib
open PxpRpc.Codec.Wire
open PxpRpc.Codec.Java (ValueType)

structure Serializer where
  buf : List UInt8
  pos : Nat
deriving DecidableEq, Repr

/-- `str.encode('utf-8')`: a lone surrogate raises. -/
def encodeText (s : Utf16) : Option (List UInt8) := if toUtf16 (fromUtf16 s) = s then some (utf8 s) else none

/-- `bytes.decode('utf-8')`: what is not the form of a text raises. -/
def decodeText (bytes : List UInt8) : Option Utf16 :=
  if toUtf8 (fromUtf8 bytes) = bytes then some (toUtf16 (fromUtf8 bytes)) else none

namespace Serializer

def prepareSerializing : Serializer := ⟨[], 0⟩

def prepareUnserializing (buf : List UInt8) : Serializer := ⟨buf, 0⟩

def extend (bs : List UInt8) (ser : Serializer) : Option Serializer := some { ser with buf := ser.buf ++ bs }

def writer : Writer Serializer where
  putRaw := extend
  putContent := extend
  varint val :=
    if val < 255 then some [UInt8.ofNat val]
    else if val < 2 ^ 32 then some (0xff :: leBytes 4 val) else none
  encode := encodeText

def putInt : BitVec 32 → Serializer → Option Serializer := writer.putInt

def putLong : BitVec 64 → Serializer → Option Serializer := writer.putLong

def putFloat : BitVec 32 → Serializer → Option Serializer := writer.putFloat

def putDouble : BitVec 64 → Serializer → Option Serializer := writer.putDouble

def putVarint : Nat → Serializer → Option Serializer := writer.putVarint

def putBytes : List UInt8 → Serializer → Option Serializer := writer.putBytes

def putString : Utf16 → Serializer → Option Serializer := writer.putString

def build (ser : Serializer) : List UInt8 := ser.buf

/-- `struct.unpack_from` and `self.buf[self.pos]` -/
def getRaw (n : Nat) (ser : Serializer) : Option (List UInt8 × Serializer) :=
  if ser.pos + n ≤ ser.buf.length then some ((ser.buf.drop ser.pos).take n, { ser with pos := ser.pos + n })
  else none

/-- `self.buf[self.pos:self.pos+len]` -/
def getContent (len : Nat) (ser : Serializer) : Option (List UInt8 × Serializer) :=
  some ((ser.buf.drop ser.pos).take len, { ser with pos := ser.pos + len })

/-- The types of columns are characters of a text. -/
def reader : Reader Serializer where
  getRaw := getRaw
  getContent := getContent
  decode := decodeText
  columns types := (fromUtf16 types).map fun c => if c.toNat < 256 then ValueType.ofChar (UInt16.ofNat c.toNat) else none

def getInt : Serializer → Option (BitVec 32 × Serializer) := reader.getInt

def getLong : Serializer → Option (BitVec 64 × Serializer) := reader.getLong

def getFloat : Serializer → Option (BitVec 32 × Serializer) := reader.getFloat

def getDouble : Serializer → Option (BitVec 64 × Serializer) := reader.getDouble

def getVarint : Serializer → Option (Nat × Serializer) := reader.getVarint

def getBytes : Serializer → Option (List UInt8 × Serializer) := reader.getBytes

def getString : Serializer → Option (Utf16 × Serializer) := reader.getString

end Serializer

/-! ### What is written -/

theorem uniform : Serializer.writer.Uniform fun _ => True where
  content _ _ := rfl
  raw _ _ := trivial

theorem varint_eq {n : Nat} (h : n < 2 ^ 32) : Serializer.writer.varint n = some (varintBytes n) := by
  change (if n < 255 then some _ else if n < 2 ^ 32 then some _ else none) = _
  rw [if_pos h, varintBytes, apply_ite some]

theorem encodeText_eq {s : Utf16} (h : Java.WellFormed s) : encodeText s = some (utf8 s) :=
  if_pos (toUtf16_fromUtf16_iff.mpr h)

theorem accepts {item : Item} (hw : item.WellFormed) (hs : item.Short) : Serializer.writer.Accepts item where
  varint n h := by subst h; exact varint_eq hs
  bytes b h := by subst h; exact varint_eq hs
  string s h := by subst h; exact ⟨encodeText_eq hw, varint_eq hs⟩

theorem putPieces_eq (pieces : List (List UInt8)) : ∀ ser : Serializer,
    Wire.putPieces Serializer.extend pieces ser = some { ser with buf := ser.buf ++ pieces.flatten } := by
  induction pieces with
  | nil => intro ser; simp [Wire.putPieces]
  | cons piece pieces ih =>
    intro ser
    rw [Wire.putPieces, Serializer.extend, Option.bind_some, ih, List.flatten_cons, List.append_assoc]

/-- A string with a lone surrogate, or a length that is not a word, raises. -/
theorem put_some {item : Item} {ser ser' : Serializer} (h : Serializer.writer.put item ser = some ser') :
    item.WellFormed ∧ item.Short := by
  have hshort : ∀ {n : Nat} {bs : List UInt8}, Serializer.writer.varint n = some bs → n < 2 ^ 32 := by
    intro n bs hv
    change (if n < 255 then _ else _) = _ at hv
    split at hv
    · omega
    · split at hv
      · assumption
      · cases hv
  have hbytes : ∀ {b : List UInt8}, Serializer.writer.putBytes b ser = some ser' → b.length < 2 ^ 32 := by
    intro b hb
    obtain ⟨ser₁, hv, -⟩ := Option.bind_eq_some_iff.mp hb
    obtain ⟨bs, hv, -⟩ := Option.bind_eq_some_iff.mp hv
    exact hshort hv
  cases item with
  | int v | long v | float v | double v => exact ⟨trivial, trivial⟩
  | varint n =>
    obtain ⟨bs, hv, -⟩ := Option.bind_eq_some_iff.mp h
    exact ⟨trivial, hshort hv⟩
  | bytes b => exact ⟨trivial, hbytes h⟩
  | string s =>
    obtain ⟨b, he, hb⟩ := Option.bind_eq_some_iff.mp h
    change encodeText s = some b at he
    unfold encodeText at he
    split at he
    · rename_i hs
      obtain rfl := Option.some.inj he
      exact ⟨toUtf16_fromUtf16_iff.mp hs, hbytes hb⟩
    · cases he

theorem putAll_some {items : List Item} : ∀ {ser ser' : Serializer},
    Serializer.writer.putAll items ser = some ser' → ∀ item ∈ items, item.WellFormed ∧ item.Short := by
  induction items with
  | nil => exact fun _ item hi => absurd hi List.not_mem_nil
  | cons item items ih =>
    intro ser ser' h
    obtain ⟨ser₁, hput, hrest⟩ := Option.bind_eq_some_iff.mp h
    exact List.forall_mem_cons.mpr ⟨put_some hput, ih hrest⟩

/-! ### What is read -/

/-- The bytes still to be read. -/
structure Reads (ser : Serializer) (bs : List UInt8) : Prop where
  pos : ser.pos ≤ ser.buf.length
  remaining : ser.buf.drop ser.pos = bs

theorem Reads.prepareUnserializing (buf : List UInt8) : Reads (Serializer.prepareUnserializing buf) buf :=
  ⟨Nat.zero_le _, rfl⟩

theorem Reads.length {ser : Serializer} {bs : List UInt8} (h : Reads ser bs) :
    ser.pos + bs.length = ser.buf.length := by
  have hpos := h.pos
  rw [← h.remaining, List.length_drop]
  omega

theorem Reads.advance {ser : Serializer} {bs rest : List UInt8} (h : Reads ser (bs ++ rest)) :
    Reads { ser with pos := ser.pos + bs.length } rest := by
  have hlen := h.length
  rw [List.length_append] at hlen
  refine ⟨by dsimp only; omega, ?_⟩
  have hrem := congrArg (List.drop bs.length) h.remaining
  rw [List.drop_left, List.drop_drop] at hrem
  exact hrem

theorem decodeText_toUtf8 (text : List Char) : decodeText (toUtf8 text) = some (toUtf16 text) := by
  unfold decodeText
  rw [fromUtf8_toUtf8, if_pos rfl]

theorem source : Serializer.reader.Source Reads toUtf16 where
  raw := by
    intro ser bs rest h
    have hlen := h.length
    rw [List.length_append] at hlen
    refine ⟨_, ?_, h.advance⟩
    change ser.getRaw bs.length = _
    unfold Serializer.getRaw
    rw [if_pos (by omega), h.remaining, List.take_left]
  content := by
    intro ser bs rest h
    refine ⟨_, ?_, h.advance⟩
    change ser.getContent bs.length = _
    unfold Serializer.getContent
    rw [h.remaining, List.take_left]
  decode := decodeText_toUtf8

end PxpRpc.Codec.Python
