import PxpRpc.Codec.Wire

/-!
# The TypeScript serializer

Numbers go through a `DataView`, which checks its own bounds; byte strings go
through an `Uint8Array` on the buffer behind it, and are only checked against
that.
-/
namespace PxpRpc.Codec.TypeScript

open PxpRpc.Lib
open PxpRpc.Codec.Wire
open PxpRpc.Codec.Java (ValueType)

/-- A `DataView` or an `Uint8Array`. -/
structure View where
  buffer : List UInt8
  byteOffset : Nat
  byteLength : Nat
deriving DecidableEq, Repr

namespace View

/-- `new Uint8Array(buffer, byteOffset, byteLength)` -/
def new (buffer : List UInt8) (byteOffset byteLength : Nat) : Option View :=
  if byteOffset + byteLength ≤ buffer.length then some ⟨buffer, byteOffset, byteLength⟩ else none

def bytes (v : View) : List UInt8 := (v.buffer.drop v.byteOffset).take v.byteLength

/-- An array with a buffer of its own. -/
def of (bytes : List UInt8) : View := ⟨bytes, 0, bytes.length⟩

def Valid (v : View) : Prop := v.byteOffset + v.byteLength ≤ v.buffer.length

/-- The bytes of the buffer behind the view. -/
def behind (v : View) : List UInt8 := v.buffer.drop (v.byteOffset + v.byteLength)

end View

structure Serializer where
  dv : View
  pos : Nat
deriving DecidableEq, Repr

/-- `newSize>>1`, on 32 bits. -/
def half (newSize : Nat) : Int := ((BitVec.ofNat 32 newSize).sshiftRight 1).toInt

/-- `set`, behind its check -/
def overwrite (buffer : List UInt8) (offset : Nat) (bs : List UInt8) : List UInt8 :=
  buffer.take offset ++ bs ++ buffer.drop (offset + bs.length)

/-- `TextEncoder.encode` -/
def encodeText (val : Utf16) : List UInt8 := toUtf8 (fromUtf16With (Char.ofNat 0xfffd) val)

/-- `TextDecoder` takes a byte order mark off the front. -/
def stripBom : List Char → List Char
  | c :: text => if c = Char.ofNat 0xfeff then text else c :: text
  | [] => []

/-- `TextDecoder.decode` -/
def decodeText (bytes : List UInt8) : Utf16 := toUtf16 (stripBom (fromUtf8 bytes))

namespace Serializer

def prepareUnserializing (buf : View) : Serializer := ⟨buf, 0⟩

def prepareSerializing (initBufSize : Nat) : Serializer :=
  ⟨⟨List.replicate initBufSize 0, 0, initBufSize⟩, 0⟩

def ensureBuffer (remainSize : Nat) (ser : Serializer) : Option Serializer :=
  if ser.dv.buffer.length < ser.pos + remainSize then
    let newSize : Int := (ser.pos + remainSize : Nat) + half (ser.pos + remainSize)
    if newSize < 0 then none
    else (View.new ser.dv.buffer ser.dv.byteOffset ser.pos).bind fun old =>
      if ser.pos ≤ newSize.toNat then
        some { ser with dv :=
          ⟨overwrite (List.replicate newSize.toNat 0) 0 old.bytes, 0, newSize.toNat⟩ }
      else none
  else some ser

/-- `ensureBuffer`, and what the setters of the `DataView` do. -/
def putRaw (bs : List UInt8) (ser : Serializer) : Option Serializer :=
  (ser.ensureBuffer bs.length).bind fun ser =>
    if ser.pos + bs.length ≤ ser.dv.byteLength then
      some ⟨{ ser.dv with buffer := overwrite ser.dv.buffer (ser.dv.byteOffset + ser.pos) bs }, ser.pos + bs.length⟩
    else none

/-- `ensureBuffer`, and `new Uint8Array(this.dv!.buffer).set(b,this.dv!.byteOffset+this.pos)` -/
def putContent (b : List UInt8) (ser : Serializer) : Option Serializer :=
  (ser.ensureBuffer b.length).bind fun ser =>
    if ser.dv.byteOffset + ser.pos + b.length ≤ ser.dv.buffer.length then
      some ⟨{ ser.dv with buffer := overwrite ser.dv.buffer (ser.dv.byteOffset + ser.pos) b }, ser.pos + b.length⟩
    else none

def writer : Writer Serializer where
  putRaw := putRaw
  putContent := putContent
  varint val := some (if 0xff ≤ val then 0xff :: leBytes 4 val else [UInt8.ofNat val])
  encode val := some (encodeText val)

def putInt : BitVec 32 → Serializer → Option Serializer := writer.putInt

def putLong : BitVec 64 → Serializer → Option Serializer := writer.putLong

def putFloat : BitVec 32 → Serializer → Option Serializer := writer.putFloat

def putDouble : BitVec 64 → Serializer → Option Serializer := writer.putDouble

def putVarint : Nat → Serializer → Option Serializer := writer.putVarint

def putBytes : List UInt8 → Serializer → Option Serializer := writer.putBytes

def putString : Utf16 → Serializer → Option Serializer := writer.putString

def build (ser : Serializer) : Option View := View.new ser.dv.buffer ser.dv.byteOffset ser.pos

/-- What the getters of the `DataView` do. -/
def getRaw (n : Nat) (ser : Serializer) : Option (List UInt8 × Serializer) :=
  if ser.pos + n ≤ ser.dv.byteLength then
    some ((ser.dv.buffer.drop (ser.dv.byteOffset + ser.pos)).take n, { ser with pos := ser.pos + n })
  else none

/-- `new Uint8Array(this.dv!.buffer,this.dv!.byteOffset+this.pos,len)` -/
def getContent (len : Nat) (ser : Serializer) : Option (List UInt8 × Serializer) :=
  (View.new ser.dv.buffer (ser.dv.byteOffset + ser.pos) len).map fun val =>
    (val.bytes, { ser with pos := ser.pos + len })

def reader : Reader Serializer where
  getRaw := getRaw
  getContent := getContent
  decode bytes := some (decodeText bytes)
  columns types := types.map ValueType.ofChar

def getInt : Serializer → Option (BitVec 32 × Serializer) := reader.getInt

def getLong : Serializer → Option (BitVec 64 × Serializer) := reader.getLong

def getFloat : Serializer → Option (BitVec 32 × Serializer) := reader.getFloat

def getDouble : Serializer → Option (BitVec 64 × Serializer) := reader.getDouble

def getVarint : Serializer → Option (Nat × Serializer) := reader.getVarint

def getBytes : Serializer → Option (List UInt8 × Serializer) := reader.getBytes

def getString : Serializer → Option (Utf16 × Serializer) := reader.getString

end Serializer

/-! ### What is written -/

/-- The capacity after `n` more bytes, if they are then in it: the half that is
added is negative from `2 ^ 31` to `2 ^ 32`, and so on. -/
def grow (capacity pos n : Nat) : Option Nat :=
  if pos + n ≤ capacity then some capacity
  else if (pos + n) % 2 ^ 32 < 2 ^ 31 then some (pos + n + (pos + n) % 2 ^ 32 / 2) else none

/-- Pieces of these lengths can be put one after another. -/
def Fits (capacity pos : Nat) : List Nat → Prop
  | [] => True
  | n :: ns => ∃ capacity', grow capacity pos n = some capacity' ∧ Fits capacity' (pos + n) ns

theorem half_of_lt {n : Nat} (h : n % 2 ^ 32 < 2 ^ 31) : half n = (n % 2 ^ 32 / 2 : Nat) := by
  have hm : (BitVec.ofNat 32 n).msb = false := by
    rw [BitVec.msb_eq_decide, BitVec.toNat_ofNat]
    simp only [decide_eq_false_iff_not, not_le]
    exact h
  have hn : ((BitVec.ofNat 32 n).sshiftRight 1).toNat = n % 2 ^ 32 / 2 := by
    rw [BitVec.sshiftRight_eq_of_msb_false hm, BitVec.toNat_ushiftRight, BitVec.toNat_ofNat, Nat.shiftRight_one]
  unfold half
  rw [BitVec.toInt_eq_toNat_of_lt (by omega), hn]

theorem half_neg {n : Nat} (h : ¬ n % 2 ^ 32 < 2 ^ 31) : half n < 0 := by
  unfold half
  rw [BitVec.toInt_sshiftRight, Int.shiftRight_eq_div_pow, BitVec.toInt_eq_toNat_cond, BitVec.toNat_ofNat]
  split <;> omega

/-- The serializer holds the bytes. -/
structure Written (ser : Serializer) (bs : List UInt8) : Prop where
  byteOffset : ser.dv.byteOffset = 0
  byteLength : ser.dv.byteLength = ser.dv.buffer.length
  pos : ser.pos = bs.length
  held : ser.dv.buffer.take ser.pos = bs

namespace Written

variable {ser : Serializer} {bs piece : List UInt8}

theorem length_le (h : Written ser bs) : bs.length ≤ ser.dv.buffer.length := by
  have hlen := congrArg List.length h.held
  rw [List.length_take] at hlen
  omega

theorem prepareSerializing (initBufSize : Nat) : Written (Serializer.prepareSerializing initBufSize) [] :=
  ⟨rfl, by simp [Serializer.prepareSerializing], rfl, rfl⟩

theorem build (h : Written ser bs) : ∃ v, ser.build = some v ∧ v.Valid ∧ v.bytes = bs := by
  have hle := h.length_le
  refine ⟨⟨ser.dv.buffer, 0, ser.pos⟩, ?_, ?_, ?_⟩
  · unfold Serializer.build View.new
    rw [h.byteOffset, if_pos (by rw [h.pos]; omega)]
  · change 0 + ser.pos ≤ ser.dv.buffer.length
    rw [h.pos]
    omega
  · exact h.held

/-- The pieces that are put where they fit. -/
theorem set (h : Written ser bs) (hf : bs.length + piece.length ≤ ser.dv.buffer.length) :
    Written ⟨{ ser.dv with buffer := overwrite ser.dv.buffer (ser.dv.byteOffset + ser.pos) piece },
      ser.pos + piece.length⟩ (bs ++ piece) ∧
    (overwrite ser.dv.buffer (ser.dv.byteOffset + ser.pos) piece).length = ser.dv.buffer.length := by
  have hover : overwrite ser.dv.buffer (ser.dv.byteOffset + ser.pos) piece =
      bs ++ piece ++ ser.dv.buffer.drop (bs.length + piece.length) := by
    unfold overwrite
    rw [h.byteOffset, Nat.zero_add, h.held, h.pos]
  have hlen : (bs ++ piece ++ ser.dv.buffer.drop (bs.length + piece.length)).length = ser.dv.buffer.length := by
    simp
    omega
  rw [hover]
  refine ⟨⟨h.byteOffset, ?_, by simp [h.pos], ?_⟩, hlen⟩
  · simp only [hlen, h.byteLength]
  · rw [h.pos, ← List.length_append, List.take_left]

/-- A new buffer with the bytes of the old one. -/
theorem replaced (h : Written ser bs) {m : Nat} (hm : bs.length ≤ m) :
    Written ⟨⟨overwrite (List.replicate m 0) 0 bs, 0, m⟩, ser.pos⟩ bs ∧
      (overwrite (List.replicate m 0) 0 bs).length = m := by
  have hlen : (overwrite (List.replicate m 0) 0 bs).length = m := by
    simp [overwrite]
    omega
  refine ⟨⟨rfl, hlen.symm, h.pos, ?_⟩, hlen⟩
  simp [overwrite, h.pos]

theorem ensureBuffer_full (h : Written ser bs) {n : Nat} (hn : ser.dv.buffer.length < bs.length + n) :
    ser.ensureBuffer n =
      if ((bs.length + n : Nat) : Int) + half (bs.length + n) < 0 then none
      else if bs.length ≤ (((bs.length + n : Nat) : Int) + half (bs.length + n)).toNat then
        some ⟨⟨overwrite (List.replicate (((bs.length + n : Nat) : Int) + half (bs.length + n)).toNat 0) 0 bs, 0,
          (((bs.length + n : Nat) : Int) + half (bs.length + n)).toNat⟩, ser.pos⟩
      else none := by
  have hle := h.length_le
  have hview : View.new ser.dv.buffer ser.dv.byteOffset ser.pos = some ⟨ser.dv.buffer, 0, ser.pos⟩ := by
    unfold View.new
    rw [h.byteOffset, if_pos (by rw [h.pos]; omega)]
  have hold : (⟨ser.dv.buffer, 0, ser.pos⟩ : View).bytes = bs := h.held
  have hpos := h.pos
  unfold Serializer.ensureBuffer
  rw [if_pos (by rw [hpos]; exact hn), hview]
  rw [hpos] at hold ⊢
  simp only [Option.bind_some, hold]

/-- The buffer is left alone, or replaced by a larger one, or by one in which the
piece has no room. -/
theorem ensureBuffer (h : Written ser bs) (n : Nat) :
    (∀ capacity, grow ser.dv.buffer.length bs.length n = some capacity →
      ∃ ser', ser.ensureBuffer n = some ser' ∧ Written ser' bs ∧ ser'.dv.buffer.length = capacity ∧
        bs.length + n ≤ capacity) ∧
    (grow ser.dv.buffer.length bs.length n = none → ∀ ser', ser.ensureBuffer n = some ser' →
      Written ser' bs ∧ ser'.dv.buffer.length < bs.length + n) := by
  by_cases hfit : bs.length + n ≤ ser.dv.buffer.length
  · rw [grow, if_pos hfit]
    refine ⟨fun capacity hg => ?_, fun hg => absurd hg (Option.some_ne_none _)⟩
    obtain rfl := Option.some.inj hg
    refine ⟨ser, ?_, h, rfl, hfit⟩
    unfold Serializer.ensureBuffer
    rw [if_neg (by rw [h.pos]; omega)]
  · rw [h.ensureBuffer_full (by omega), grow, if_neg hfit]
    by_cases hlt : (bs.length + n) % 2 ^ 32 < 2 ^ 31
    · rw [if_pos hlt]
      refine ⟨fun capacity hg => ?_, fun hg => absurd hg (Option.some_ne_none _)⟩
      obtain rfl := Option.some.inj hg
      have hsize : ((bs.length + n : Nat) : Int) + half (bs.length + n) =
          (bs.length + n + (bs.length + n) % 2 ^ 32 / 2 : Nat) := by
        rw [half_of_lt hlt]
        push_cast
        rfl
      obtain ⟨hw, hlen⟩ := h.replaced (m := bs.length + n + (bs.length + n) % 2 ^ 32 / 2) (by omega)
      rw [hsize, if_neg (by omega), Int.toNat_natCast, if_pos (by omega)]
      exact ⟨_, rfl, hw, hlen, by omega⟩
    · rw [if_neg hlt]
      refine ⟨fun capacity hg => absurd hg.symm (Option.some_ne_none _), fun _ ser' hs => ?_⟩
      have hneg := half_neg hlt
      split at hs
      · cases hs
      · split at hs
        · rename_i hroom
          obtain rfl := Option.some.inj hs
          obtain ⟨hw, hlen⟩ := h.replaced hroom
          refine ⟨hw, ?_⟩
          simp only [hlen]
          omega
        · cases hs

theorem putRaw (h : Written ser bs) {capacity : Nat}
    (hg : grow ser.dv.buffer.length bs.length piece.length = some capacity) :
    ∃ ser', ser.putRaw piece = some ser' ∧ Written ser' (bs ++ piece) ∧ ser'.dv.buffer.length = capacity := by
  obtain ⟨ser₁, hens, hw, hlen, hroom⟩ := (h.ensureBuffer piece.length).1 capacity hg
  obtain ⟨hset, hlen'⟩ := @Written.set _ _ piece hw (by omega)
  refine ⟨_, ?_, hset, hlen'.trans hlen⟩
  unfold Serializer.putRaw
  rw [hens, Option.bind_some, if_pos (by rw [hw.byteLength, hw.pos]; omega)]

theorem putRaw_none (h : Written ser bs) (hg : grow ser.dv.buffer.length bs.length piece.length = none) :
    ser.putRaw piece = none := by
  unfold Serializer.putRaw
  cases hens : ser.ensureBuffer piece.length with
  | none => rfl
  | some ser' =>
    obtain ⟨hw, hlt⟩ := (h.ensureBuffer piece.length).2 hg ser' hens
    rw [Option.bind_some, if_neg (by rw [hw.byteLength, hw.pos]; omega)]

end Written

/-- A serializer that has a buffer of its own to write to. -/
def Writing (ser : Serializer) : Prop := ∃ bs, Written ser bs

theorem uniform : Serializer.writer.Uniform Writing where
  content := by
    rintro ser b ⟨bs, h⟩
    change ser.putContent b = ser.putRaw b
    unfold Serializer.putContent Serializer.putRaw
    cases hens : ser.ensureBuffer b.length with
    | none => rfl
    | some ser' =>
      have hw : Written ser' bs := by
        cases hg : grow ser.dv.buffer.length bs.length b.length with
        | some capacity =>
          obtain ⟨ser₁, hens₁, hw, -⟩ := (h.ensureBuffer b.length).1 capacity hg
          rwa [Option.some.inj (hens.symm.trans hens₁)]
        | none => exact ((h.ensureBuffer b.length).2 hg ser' hens).1
      rw [Option.bind_some, Option.bind_some]
      simp only [hw.byteOffset, hw.byteLength, Nat.zero_add]
  raw := by
    rintro ser ser' b ⟨bs, h⟩ hput
    change ser.putRaw b = some ser' at hput
    cases hg : grow ser.dv.buffer.length bs.length b.length with
    | some capacity =>
      obtain ⟨ser₁, hput₁, hw, -⟩ := h.putRaw hg
      obtain rfl := Option.some.inj (hput.symm.trans hput₁)
      exact ⟨_, hw⟩
    | none =>
      rw [h.putRaw_none hg] at hput
      cases hput

theorem encodeText_eq {s : Utf16} (h : Java.WellFormed s) : encodeText s = utf8 s := by
  obtain ⟨text, rfl⟩ := h
  unfold encodeText utf8
  rw [fromUtf16With_toUtf16, fromUtf16_toUtf16]

theorem accepts {item : Item} (h : item.WellFormed) : Serializer.writer.Accepts item where
  varint n _ := by
    change some _ = some _
    unfold varintBytes
    by_cases hn : n < 255
    · rw [if_pos hn, if_neg (by omega)]
    · rw [if_neg hn, if_pos (by omega)]
  bytes b _ := by
    change some _ = some _
    unfold varintBytes
    by_cases hn : b.length < 255
    · rw [if_pos hn, if_neg (by omega)]
    · rw [if_neg hn, if_pos (by omega)]
  string s hs := by
    subst hs
    refine ⟨congrArg some (encodeText_eq h), ?_⟩
    change some _ = some _
    unfold varintBytes
    by_cases hn : (utf8 s).length < 255
    · rw [if_pos hn, if_neg (by omega)]
    · rw [if_neg hn, if_pos (by omega)]

/-- The pieces are held when they fit, and otherwise there is an exception. -/
theorem Written.putPieces {pieces : List (List UInt8)} : ∀ {ser : Serializer} {bs : List UInt8}, Written ser bs →
    (Fits ser.dv.buffer.length bs.length (pieces.map List.length) →
      ∃ ser', Wire.putPieces Serializer.putRaw pieces ser = some ser' ∧ Written ser' (bs ++ pieces.flatten)) ∧
    (¬ Fits ser.dv.buffer.length bs.length (pieces.map List.length) →
      Wire.putPieces Serializer.putRaw pieces ser = none) := by
  induction pieces with
  | nil =>
    intro ser bs h
    exact ⟨fun _ => ⟨ser, rfl, by simpa using h⟩, fun hf => absurd trivial hf⟩
  | cons piece pieces ih =>
    intro ser bs h
    cases hg : grow ser.dv.buffer.length bs.length piece.length with
    | none =>
      refine ⟨fun ⟨capacity, hc, _⟩ => ?_, fun _ => by rw [Wire.putPieces, h.putRaw_none hg]; rfl⟩
      rw [hg] at hc
      cases hc
    | some capacity =>
      obtain ⟨ser', hput, hw, hlen⟩ := h.putRaw hg
      have hfits : Fits ser.dv.buffer.length bs.length ((piece :: pieces).map List.length) ↔
          Fits ser'.dv.buffer.length (bs ++ piece).length (pieces.map List.length) := by
        rw [hlen, List.length_append]
        constructor
        · rintro ⟨capacity', hc, hf⟩
          obtain rfl := Option.some.inj (hg.symm.trans hc)
          exact hf
        · exact fun hf => ⟨capacity, hg, hf⟩
      rw [hfits, Wire.putPieces, hput, Option.bind_some, List.flatten_cons, ← List.append_assoc]
      exact ih hw

/-! ### What is read -/

/-- The bytes of the view that are still to be read. -/
structure Reads (ser : Serializer) (bs : List UInt8) : Prop where
  valid : ser.dv.Valid
  pos : ser.pos ≤ ser.dv.byteLength
  remaining : ser.dv.bytes.drop ser.pos = bs

namespace Reads

variable {ser : Serializer} {bs rest : List UInt8}

theorem prepareUnserializing {v : View} (h : v.Valid) : Reads (Serializer.prepareUnserializing v) v.bytes :=
  ⟨h, Nat.zero_le _, rfl⟩

theorem bytes_length {v : View} (h : v.Valid) : v.bytes.length = v.byteLength := by
  unfold View.Valid at h
  unfold View.bytes
  rw [List.length_take, List.length_drop]
  omega

theorem length (h : Reads ser bs) : ser.pos + bs.length = ser.dv.byteLength := by
  have hpos := h.pos
  rw [← h.remaining, List.length_drop, bytes_length h.valid]
  omega

/-- The bytes that are taken at the position. -/
theorem take (h : Reads ser (bs ++ rest)) :
    (ser.dv.buffer.drop (ser.dv.byteOffset + ser.pos)).take bs.length = bs := by
  have hlen := h.length
  rw [List.length_append] at hlen
  have hrem := congrArg (List.take bs.length) h.remaining
  rw [List.take_left] at hrem
  rw [View.bytes, List.drop_take, List.drop_drop, List.take_take, Nat.min_eq_left (by omega)] at hrem
  exact hrem

theorem advance (h : Reads ser (bs ++ rest)) : Reads { ser with pos := ser.pos + bs.length } rest := by
  have hlen := h.length
  rw [List.length_append] at hlen
  refine ⟨h.valid, by dsimp only; omega, ?_⟩
  have hrem := congrArg (List.drop bs.length) h.remaining
  rw [List.drop_left, List.drop_drop] at hrem
  exact hrem

end Reads

/-- A text as it is read. -/
def heard (text : List Char) : Utf16 := toUtf16 (stripBom text)

theorem source : Serializer.reader.Source Reads heard where
  raw := by
    intro ser bs rest h
    have hlen := h.length
    rw [List.length_append] at hlen
    refine ⟨_, ?_, h.advance⟩
    change ser.getRaw bs.length = _
    unfold Serializer.getRaw
    rw [if_pos (by omega), h.take]
  content := by
    intro ser bs rest h
    have hlen := h.length
    have hvalid := h.valid
    rw [List.length_append] at hlen
    refine ⟨_, ?_, h.advance⟩
    change ser.getContent bs.length = _
    unfold Serializer.getContent View.new
    unfold View.Valid at hvalid
    rw [if_pos (by omega), Option.map_some]
    simp only [View.bytes, h.take]
  decode text := by
    change some _ = some _
    rw [decodeText, fromUtf8_toUtf8, heard]

/-- A text is read as it was written unless a byte order mark is in front. -/
theorem heard_iff {s : Utf16} (h : Java.WellFormed s) :
    heard (fromUtf16 s) = s ↔ (fromUtf16 s).head? ≠ some (Char.ofNat 0xfeff) := by
  obtain ⟨text, rfl⟩ := h
  rw [fromUtf16_toUtf16, heard]
  constructor
  · intro he hbom
    have htext := congrArg fromUtf16 he
    rw [fromUtf16_toUtf16, fromUtf16_toUtf16] at htext
    obtain ⟨rest, rfl⟩ := List.head?_eq_some_iff.mp hbom
    rw [stripBom, if_pos rfl] at htext
    exact absurd (congrArg List.length htext) (by simp)
  · intro hbom
    cases text with
    | nil => rfl
    | cons c text =>
      rw [stripBom, if_neg fun hc => hbom (by rw [hc]; rfl)]

end PxpRpc.Codec.TypeScript
