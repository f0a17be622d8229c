import PxpRpc.Codec.Growth
import PxpRpc.Lib.Bytes
import PxpRpc.Lib.Text

/-!
# The Java serializer

Sizes are `int`s; a buffer that is too small is replaced by one of half as much
again as is needed, and an exception is thrown where that is no longer an `int`.
-/
namespace PxpRpc.Codec.Java

open PxpRpc.Lib

/-- `java.nio.ByteBuffer`, in little-endian order. -/
structure ByteBuffer where
  array : List UInt8
  position : Nat
  limit : Nat
deriving DecidableEq, Repr

namespace ByteBuffer

def allocate (capacity : BitVec 32) : Option ByteBuffer :=
  if capacity.msb then none else some ⟨List.replicate capacity.toNat 0, 0, capacity.toNat⟩

def wrap (array : List UInt8) : ByteBuffer := ⟨array, 0, array.length⟩

def flip (b : ByteBuffer) : ByteBuffer := { b with limit := b.position, position := 0 }

/-- The bytes between the position and the limit. -/
def remaining (b : ByteBuffer) : List UInt8 := (b.array.take b.limit).drop b.position

def put (b : ByteBuffer) (bs : List UInt8) : Option ByteBuffer :=
  if b.position + bs.length ≤ b.limit then
    some { b with
      array := b.array.take b.position ++ bs ++ b.array.drop (b.position + bs.length)
      position := b.position + bs.length }
  else none

def get (b : ByteBuffer) (n : Nat) : Option (List UInt8 × ByteBuffer) :=
  if b.position + n ≤ b.limit then some (b.remaining.take n, { b with position := b.position + n }) else none

end ByteBuffer

/-- `Utils.ensureBuffer` -/
def ensureBuffer (bb : ByteBuffer) (remainSize : BitVec 32) : Option ByteBuffer :=
  let size := remainSize + BitVec.ofNat 32 bb.position
  if (bb.array.length : Int) < size.toInt then
    (ByteBuffer.allocate (size + size.sshiftRight 1)).bind fun newbuf => newbuf.put bb.flip.remaining
  else some bb

/-- `ServerContext.charset`: `getBytes` and `new String`. -/
def getBytes (s : Utf16) : List UInt8 := toUtf8 (fromUtf16 s)

def newString (bytes : List UInt8) : Utf16 := toUtf16 (fromUtf8 bytes)

structure Serializer2 where
  buf : ByteBuffer
deriving DecidableEq, Repr

namespace Serializer2

def prepareUnserializing (buf : ByteBuffer) : Serializer2 := ⟨buf⟩

def prepareSerializing (initBufSize : BitVec 32) : Option Serializer2 :=
  (ByteBuffer.allocate initBufSize).map Serializer2.mk

/-- The buffer is made large enough for the bytes, and they are put. -/
def putRaw (bs : List UInt8) (ser : Serializer2) : Option Serializer2 :=
  (ensureBuffer ser.buf (BitVec.ofNat 32 bs.length)).bind fun buf => (buf.put bs).map Serializer2.mk

def putInt (val : BitVec 32) : Serializer2 → Option Serializer2 := putRaw (leBytes 4 val.toNat)

def putLong (val : BitVec 64) : Serializer2 → Option Serializer2 := putRaw (leBytes 8 val.toNat)

def putFloat (val : BitVec 32) : Serializer2 → Option Serializer2 := putRaw (leBytes 4 val.toNat)

def putDouble (val : BitVec 64) : Serializer2 → Option Serializer2 := putRaw (leBytes 8 val.toNat)

def putVarint (val : BitVec 32) : Serializer2 → Option Serializer2 :=
  if 0xff ≤ val.toInt then putRaw (0xff :: leBytes 4 val.toNat) else putRaw [UInt8.ofNat val.toNat]

/-- The bytes are those remaining in the buffer that is put. -/
def putBytes (b : List UInt8) (ser : Serializer2) : Option Serializer2 :=
  (ser.putVarint (BitVec.ofNat 32 b.length)).bind (putRaw b)

def putString (val : Utf16) : Serializer2 → Option Serializer2 := putBytes (getBytes val)

def build (ser : Serializer2) : ByteBuffer := ser.buf.flip

/-- The next bytes and the serializer behind them. -/
def getRaw (n : Nat) (ser : Serializer2) : Option (List UInt8 × Serializer2) :=
  (ser.buf.get n).map fun (bs, buf) => (bs, ⟨buf⟩)

/-- A word of `w` bytes. -/
def getWord (w : Nat) (ser : Serializer2) : Option (BitVec (8 * w) × Serializer2) :=
  (ser.getRaw w).map fun (bs, ser) => (BitVec.ofNat _ (leValue bs), ser)

def getInt : Serializer2 → Option (BitVec 32 × Serializer2) := getWord 4

def getLong : Serializer2 → Option (BitVec 64 × Serializer2) := getWord 8

def getFloat : Serializer2 → Option (BitVec 32 × Serializer2) := getWord 4

def getDouble : Serializer2 → Option (BitVec 64 × Serializer2) := getWord 8

def getVarint (ser : Serializer2) : Option (BitVec 32 × Serializer2) :=
  (ser.getRaw 1).bind fun (bs, ser) => if leValue bs = 255 then ser.getInt else some (BitVec.ofNat 32 (leValue bs), ser)

/-- The bytes of the view that is returned; its limit and the new position have to be
in the buffer, also where the length is negative. -/
def getBytes (ser : Serializer2) : Option (List UInt8 × Serializer2) :=
  ser.getVarint.bind fun (len, ser) =>
    let position := ser.buf.position + len.toInt
    if 0 ≤ position ∧ position ≤ ser.buf.limit then
      some (ser.buf.remaining.take len.toInt.toNat, ⟨{ ser.buf with position := position.toNat }⟩)
    else none

def getString (ser : Serializer2) : Option (Utf16 × Serializer2) :=
  ser.getBytes.map fun (bs, ser) => (newString bs, ser)

end Serializer2

/-! ### What is written -/

/-- The serializer holds the bytes. -/
structure Written (ser : Serializer2) (bs : List UInt8) : Prop where
  position : ser.buf.position = bs.length
  limit : ser.buf.limit = ser.buf.array.length
  held : ser.buf.array.take ser.buf.position = bs
  bound : ser.buf.array.length < 2 ^ 31

namespace Written

variable {ser : Serializer2} {bs piece : List UInt8}

theorem length_le (h : Written ser bs) : bs.length ≤ ser.buf.array.length := by
  have := congrArg List.length h.held
  rw [List.length_take] at this
  omega

theorem prepareSerializing {initBufSize : BitVec 32} (h : Serializer2.prepareSerializing initBufSize = some ser) :
    Written ser [] ∧ ser.buf.array.length = initBufSize.toNat := by
  obtain ⟨b, hb, rfl⟩ := Option.map_eq_some_iff.mp h
  rw [ByteBuffer.allocate] at hb
  split at hb
  · cases hb
  · rename_i hm
    obtain rfl := Option.some.inj hb
    have hlt : initBufSize.toNat < 2 ^ 31 := by
      have := BitVec.msb_eq_decide initBufSize
      simp only [Bool.not_eq_true] at hm
      rw [hm] at this
      simpa using this
    exact ⟨⟨rfl, by simp, by simp, by simpa using hlt⟩, by simp⟩

/-- What the buffer gives back when it has been flipped. -/
theorem build (h : Written ser bs) : ser.build.remaining = bs := by
  rw [Serializer2.build, ByteBuffer.flip, ByteBuffer.remaining, List.drop_zero]
  exact h.held

theorem put (h : Written ser bs) (hf : bs.length + piece.length ≤ ser.buf.array.length) :
    ∃ buf, ser.buf.put piece = some buf ∧ Written ⟨buf⟩ (bs ++ piece) ∧ buf.array.length = ser.buf.array.length := by
  have hlen : (bs ++ piece ++ ser.buf.array.drop (bs.length + piece.length)).length = ser.buf.array.length := by
    simp
    omega
  have hput : ser.buf.put piece = some ⟨bs ++ piece ++ ser.buf.array.drop (bs.length + piece.length),
      bs.length + piece.length, ser.buf.array.length⟩ := by
    rw [ByteBuffer.put, if_pos (by rw [h.position, h.limit]; exact hf), h.held, h.position, h.limit]
  refine ⟨_, hput, ⟨by simp, hlen.symm, ?_, hlen ▸ h.bound⟩, hlen⟩
  rw [← List.length_append, List.take_left]

theorem put_none (h : Written ser bs) (hf : ser.buf.array.length < bs.length + piece.length) :
    ser.buf.put piece = none := if_neg (by rw [h.position, h.limit]; omega)

/-- A new buffer with the bytes of the old one. -/
theorem copy (h : Written ser bs) {n : Nat} (hn : bs.length ≤ n) (hl : n < 2 ^ 31) :
    ∃ buf, (⟨List.replicate n 0, 0, n⟩ : ByteBuffer).put ser.buf.flip.remaining = some buf ∧
      Written ⟨buf⟩ bs ∧ buf.array.length = n := by
  have hnew : Written ⟨⟨List.replicate n 0, 0, n⟩⟩ [] := ⟨rfl, by simp, by simp, by simpa using hl⟩
  have hrem : ser.buf.flip.remaining = bs := h.build
  obtain ⟨buf, hput, hw, hlen⟩ := @Written.put _ _ bs hnew (by simpa using hn)
  exact ⟨buf, hrem ▸ hput, hw, by simpa using hlen⟩

/-- The buffer is left as it is, or replaced by a larger one, or cannot be replaced. -/
theorem ensureBuffer (h : Written ser bs) {n : Nat} (hn : bs.length + n < 2 ^ 31) :
    (ser.buf.array.length < bs.length + n → 2 ^ 31 ≤ bs.length + n + (bs.length + n) / 2 →
      Java.ensureBuffer ser.buf (BitVec.ofNat 32 n) = none) ∧
    ∀ capacity, grow ser.buf.array.length bs.length n = some capacity →
      ∃ buf, Java.ensureBuffer ser.buf (BitVec.ofNat 32 n) = some buf ∧ Written ⟨buf⟩ bs ∧
        buf.array.length = capacity := by
  have hsize : (BitVec.ofNat 32 n + BitVec.ofNat 32 ser.buf.position).toNat = bs.length + n := by
    rw [BitVec.toNat_add, BitVec.toNat_ofNat, BitVec.toNat_ofNat, h.position]
    omega
  have hint : (BitVec.ofNat 32 n + BitVec.ofNat 32 ser.buf.position).toInt = (bs.length + n : Nat) := by
    rw [BitVec.toInt_eq_toNat_of_lt (by omega), hsize]
  have hmsb : (BitVec.ofNat 32 n + BitVec.ofNat 32 ser.buf.position).msb = false := by
    rw [BitVec.msb_eq_decide, hsize]
    simp
    omega
  generalize hs : BitVec.ofNat 32 n + BitVec.ofNat 32 ser.buf.position = size at *
  have hnew : (size + size.sshiftRight 1).toNat = bs.length + n + (bs.length + n) / 2 := by
    rw [BitVec.toNat_add, BitVec.sshiftRight_eq_of_msb_false hmsb, BitVec.toNat_ushiftRight, hsize, Nat.shiftRight_one]
    omega
  simp only [Java.ensureBuffer, hs, hint, Nat.cast_lt, ByteBuffer.allocate, BitVec.msb_eq_decide, hnew]
  constructor
  · intro hlt hbig
    rw [if_pos hlt, if_pos (by simpa using hbig)]
    rfl
  · intro capacity hg
    rw [grow] at hg
    split at hg
    · rename_i hle
      obtain rfl := Option.some.inj hg
      exact ⟨ser.buf, if_neg (by omega), h, rfl⟩
    · split at hg
      · rename_i hle hfit
        obtain rfl := Option.some.inj hg
        obtain ⟨buf, hbuf, hw, hlen⟩ := h.copy (n := bs.length + n + (bs.length + n) / 2) (by omega) hfit
        refine ⟨buf, ?_, hw, hlen⟩
        rw [if_pos (by omega), if_neg (by simpa using hfit)]
        exact hbuf
      · cases hg

/-- No buffer holds this much. -/
theorem put_ensured (h : Written ser bs) (hn : 2 ^ 31 ≤ bs.length + piece.length) {n : BitVec 32} {buf : ByteBuffer}
    (hb : Java.ensureBuffer ser.buf n = some buf) : buf.put piece = none := by
  simp only [Java.ensureBuffer] at hb
  split at hb
  · obtain ⟨newbuf, ha, hput⟩ := Option.bind_eq_some_iff.mp hb
    rw [ByteBuffer.allocate] at ha
    split at ha
    · cases ha
    · rename_i hm
      obtain rfl := Option.some.inj ha
      rw [Bool.not_eq_true, BitVec.msb_eq_false_iff_two_mul_lt] at hm
      rw [ByteBuffer.put] at hput
      split at hput
      · obtain rfl := Option.some.inj hput
        have hrem : ser.buf.flip.remaining = bs := h.build
        refine if_neg ?_
        simp only [hrem]
        omega
      · cases hput
  · obtain rfl := Option.some.inj hb
    exact h.put_none (by have := h.bound; omega)

theorem putRaw (h : Written ser bs) {capacity : Nat} (hg : grow ser.buf.array.length bs.length piece.length = some capacity) :
    ∃ ser', ser.putRaw piece = some ser' ∧ Written ser' (bs ++ piece) ∧ ser'.buf.array.length = capacity := by
  have hbound := h.bound
  have hfit : bs.length + piece.length < 2 ^ 31 ∧ bs.length + piece.length ≤ capacity := by
    rw [grow] at hg
    split at hg
    · have := Option.some.inj hg
      omega
    · split at hg
      · have := Option.some.inj hg
        omega
      · cases hg
  obtain ⟨buf, hbuf, hw, hlen⟩ := (h.ensureBuffer hfit.1).2 capacity hg
  obtain ⟨buf', hput, hw', hlen'⟩ := @Written.put _ _ piece hw (by rw [hlen]; exact hfit.2)
  exact ⟨⟨buf'⟩, by rw [Serializer2.putRaw, hbuf, Option.bind_some, hput]; rfl, hw', hlen'.trans hlen⟩

theorem putRaw_none (h : Written ser bs) (hg : grow ser.buf.array.length bs.length piece.length = none) :
    ser.putRaw piece = none := by
  rw [grow] at hg
  split at hg
  · cases hg
  · split at hg
    · cases hg
    · rename_i hlt hbig
      rw [Serializer2.putRaw]
      by_cases hn : bs.length + piece.length < 2 ^ 31
      · rw [(h.ensureBuffer hn).1 (by omega) (by omega)]
        rfl
      · cases hb : Java.ensureBuffer ser.buf (BitVec.ofNat 32 piece.length) with
        | none => rfl
        | some buf => rw [Option.bind_some, h.put_ensured (by omega) hb, Option.map_none]

end Written

/-- Pieces that are put one after another. -/
def Serializer2.putAll : List (List UInt8) → Serializer2 → Option Serializer2
  | [], ser => some ser
  | piece :: pieces, ser => (ser.putRaw piece).bind (putAll pieces)

theorem Serializer2.putAll_append (pieces pieces' : List (List UInt8)) (ser : Serializer2) :
    ser.putAll (pieces ++ pieces') = (ser.putAll pieces).bind (putAll pieces') := by
  induction pieces generalizing ser with
  | nil => rfl
  | cons piece pieces ih =>
    rw [List.cons_append, putAll, putAll, Option.bind_assoc]
    exact congrArg _ (funext ih)

/-- The pieces are held when they fit, and otherwise there is an exception. -/
theorem Written.putAll {pieces : List (List UInt8)} : ∀ {ser : Serializer2} {bs : List UInt8}, Written ser bs →
    (Fits ser.buf.array.length bs.length (pieces.map List.length) →
      ∃ ser', ser.putAll pieces = some ser' ∧ Written ser' (bs ++ pieces.flatten)) ∧
    (¬ Fits ser.buf.array.length bs.length (pieces.map List.length) → ser.putAll pieces = none) := by
  induction pieces with
  | nil =>
    intro ser bs h
    exact ⟨fun _ => ⟨ser, rfl, by simpa using h⟩, fun hf => absurd trivial hf⟩
  | cons piece pieces ih =>
    intro ser bs h
    cases hg : grow ser.buf.array.length bs.length piece.length with
    | none =>
      refine ⟨fun ⟨capacity, hc, _⟩ => ?_, fun _ => by rw [Serializer2.putAll, h.putRaw_none hg]; rfl⟩
      rw [hg] at hc
      cases hc
    | some capacity =>
      obtain ⟨ser', hput, hw, hlen⟩ := h.putRaw hg
      have hfits : Fits ser.buf.array.length bs.length ((piece :: pieces).map List.length) ↔
          Fits ser'.buf.array.length (bs ++ piece).length (pieces.map List.length) := by
        rw [hlen, List.length_append]
        constructor
        · rintro ⟨capacity', hc, hf⟩
          obtain rfl := Option.some.inj (hg.symm.trans hc)
          exact hf
        · exact fun hf => ⟨capacity, hg, hf⟩
      rw [hfits, Serializer2.putAll, hput, Option.bind_some, List.flatten_cons, ← List.append_assoc]
      exact ih hw

def varintPiece (val : BitVec 32) : List UInt8 :=
  if 0xff ≤ val.toInt then 0xff :: leBytes 4 val.toNat else [UInt8.ofNat val.toNat]

def bytesPieces (b : List UInt8) : List (List UInt8) := [varintPiece (BitVec.ofNat 32 b.length), b]

namespace Serializer2

theorem putAll_singleton (piece : List UInt8) (ser : Serializer2) : ser.putAll [piece] = ser.putRaw piece :=
  Option.bind_fun_some _

theorem putVarint_eq (val : BitVec 32) (ser : Serializer2) : ser.putVarint val = ser.putAll [varintPiece val] := by
  rw [putAll_singleton, putVarint, varintPiece]
  split <;> rfl

theorem putBytes_eq (b : List UInt8) (ser : Serializer2) : ser.putBytes b = ser.putAll (bytesPieces b) := by
  have hb : putRaw b = putAll [b] := funext fun ser => (putAll_singleton b ser).symm
  rw [putBytes, putVarint_eq, hb, ← putAll_append]
  rfl

end Serializer2

/-! ### What is read -/

/-- The bytes still to be read. -/
structure Reads (ser : Serializer2) (bs : List UInt8) : Prop where
  position : ser.buf.position ≤ ser.buf.limit
  limit : ser.buf.limit ≤ ser.buf.array.length
  remaining : ser.buf.remaining = bs

namespace Reads

variable {ser : Serializer2} {bs rest : List UInt8}

theorem build {ser : Serializer2} {bs : List UInt8} (h : Written ser bs) :
    Reads (Serializer2.prepareUnserializing ser.build) bs :=
  ⟨Nat.zero_le _, h.position.le.trans h.length_le, h.build⟩

theorem length (h : Reads ser bs) : bs.length = ser.buf.limit - ser.buf.position := by
  rw [← h.remaining, ByteBuffer.remaining, List.length_drop, List.length_take_of_le h.limit]

/-- The position moves over bytes that are there. -/
theorem advance (h : Reads ser (bs ++ rest)) :
    ser.buf.position + bs.length ≤ ser.buf.limit ∧
    Reads ⟨{ ser.buf with position := ser.buf.position + bs.length }⟩ rest := by
  have hlen := h.length
  have hpos := h.position
  rw [List.length_append] at hlen
  refine ⟨by omega, ⟨by dsimp only; omega, h.limit, ?_⟩⟩
  have := congrArg (List.drop bs.length) h.remaining
  rw [List.drop_left] at this
  rw [← this, ByteBuffer.remaining, ByteBuffer.remaining, List.drop_drop]

theorem getRaw (h : Reads ser (bs ++ rest)) : ∃ ser', ser.getRaw bs.length = some (bs, ser') ∧ Reads ser' rest := by
  obtain ⟨hle, hr⟩ := h.advance
  refine ⟨_, ?_, hr⟩
  rw [Serializer2.getRaw, ByteBuffer.get, if_pos hle, h.remaining, List.take_left]
  rfl

theorem getWord {w : Nat} {v : BitVec (8 * w)} (h : Reads ser (leBytes w v.toNat ++ rest)) :
    ∃ ser', ser.getWord w = some (v, ser') ∧ Reads ser' rest := by
  obtain ⟨ser', hget, hr⟩ := h.getRaw
  rw [length_leBytes] at hget
  have hv : leValue (leBytes w v.toNat) = v.toNat := leValue_leBytes_of_lt (by
    have := v.isLt
    rwa [Nat.pow_mul] at this)
  refine ⟨ser', ?_, hr⟩
  rw [Serializer2.getWord, hget, Option.map_some]
  simp only [hv, BitVec.ofNat_toNat, BitVec.setWidth_eq]

theorem getVarint {v : BitVec 32} (hv : v.msb = false) (h : Reads ser (varintPiece v ++ rest)) :
    ∃ ser', ser.getVarint = some (v, ser') ∧ Reads ser' rest := by
  have hint : v.toInt = v.toNat := BitVec.toInt_eq_toNat_of_msb hv
  rw [varintPiece] at h
  split at h
  · obtain ⟨ser₁, hget, hr₁⟩ := @Reads.getRaw _ [0xff] _ h
    obtain ⟨ser', hword, hr⟩ := hr₁.getWord (w := 4) (v := v)
    exact ⟨ser', by rw [Serializer2.getVarint, show 1 = [(0xff : UInt8)].length from rfl, hget]; exact hword, hr⟩
  · rename_i hlt
    obtain ⟨ser', hget, hr⟩ := h.getRaw
    have hval : leValue [UInt8.ofNat v.toNat] = v.toNat := by
      simp [leValue]
      omega
    refine ⟨ser', ?_, hr⟩
    rw [Serializer2.getVarint, show 1 = [UInt8.ofNat v.toNat].length from rfl, hget, Option.bind_some]
    simp only [hval]
    rw [if_neg (by omega), BitVec.ofNat_toNat, BitVec.setWidth_eq]

theorem getBytes (hl : bs.length < 2 ^ 31) (h : Reads ser ((bytesPieces bs).flatten ++ rest)) :
    ∃ ser', ser.getBytes = some (bs, ser') ∧ Reads ser' rest := by
  have hnat : (BitVec.ofNat 32 bs.length).toNat = bs.length := by
    rw [BitVec.toNat_ofNat]
    omega
  have hmsb : (BitVec.ofNat 32 bs.length).msb = false := by
    rw [BitVec.msb_eq_decide, hnat]
    simp
    omega
  have hint : (BitVec.ofNat 32 bs.length).toInt = bs.length := by rw [BitVec.toInt_eq_toNat_of_msb hmsb, hnat]
  rw [bytesPieces, List.flatten_cons, List.flatten_cons, List.flatten_nil, List.append_nil, List.append_assoc] at h
  obtain ⟨ser₁, hget, hr₁⟩ := h.getVarint hmsb
  obtain ⟨hle, hr⟩ := hr₁.advance
  refine ⟨_, ?_, hr⟩
  rw [Serializer2.getBytes, hget, Option.bind_some]
  simp only [hint]
  rw [if_pos ⟨by omega, by omega⟩, hr₁.remaining, Int.toNat_natCast, List.take_left]
  simp only [← Nat.cast_add, Int.toNat_natCast]

theorem getString {s : Utf16} (hl : (Java.getBytes s).length < 2 ^ 31)
    (h : Reads ser ((bytesPieces (Java.getBytes s)).flatten ++ rest)) :
    ∃ ser', ser.getString = some (newString (Java.getBytes s), ser') ∧ Reads ser' rest := by
  obtain ⟨ser', hget, hr⟩ := h.getBytes hl
  exact ⟨ser', by rw [Serializer2.getString, hget]; rfl, hr⟩

end Reads

/-- A string without lone surrogates. -/
def WellFormed (s : Utf16) : Prop := ∃ text, s = toUtf16 text

/-- The strings that survive the charset are the well-formed ones. -/
theorem newString_getBytes_iff (s : Utf16) : newString (getBytes s) = s ↔ WellFormed s := by
  rw [newString, getBytes, fromUtf8_toUtf8]
  constructor
  · exact fun h => ⟨_, h.symm⟩
  · rintro ⟨text, rfl⟩
    rw [fromUtf16_toUtf16]

end PxpRpc.Codec.Java
