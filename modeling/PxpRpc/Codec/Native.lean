import PxpRpc.Lib.Bytes

/-!
# The C serializer

`cap` and `pos` are `uint32_t`, the size computed by `_pxprpc_ensure_buf` is an
`int`, and `malloc` and `realloc` take a `size_t`. Floats are their bit patterns.
-/
namespace PxpRpc.Codec.Native

open PxpRpc.Lib

/-- `struct pxprpc_serializer` -/
structure Serializer where
  buf : Block
  cap : BitVec 32
  pos : BitVec 32
deriving DecidableEq, Repr

/-- An `int` passed as a `size_t`. -/
def sizeT (n : BitVec 32) : BitVec 64 := n.signExtend 64

/-- No request of half the address space or more can be met: the result is NULL. -/
def realloc (buf : Block) (size : BitVec 64) : Block :=
  if size.toNat < 2 ^ 63 then buf.realloc size.toNat else []

/-- `_pxprpc_ensure_buf` -/
def ensureBuf (ser : Serializer) (remain : BitVec 32) : Serializer :=
  if ser.cap - ser.pos < remain then
    let newsize := ser.pos + remain
    let newsize := newsize + newsize.sshiftRight 1
    { ser with buf := realloc ser.buf (sizeT newsize), cap := newsize }
  else ser

/-- `pxprpc_ser_prepare_ser` -/
def prepareSer (initBufSize : BitVec 32) : Serializer :=
  ⟨realloc [] (sizeT initBufSize), initBufSize, 0⟩

/-- `pxprpc_ser_prepare_unser` -/
def prepareUnser (buf : Block) (size : BitVec 32) : Serializer := ⟨buf, size, 0⟩

/-- `pxprpc_ser_build`: the buffer and its size. -/
def build (ser : Serializer) : Block × BitVec 32 := (ser.buf, ser.pos)

/-- `memmove(ser->buf+ser->pos, val, size)` and `ser->pos+=size`; writing outside
the buffer is undefined. -/
def putRaw (ser : Serializer) (val : List UInt8) : Option Serializer :=
  (ser.buf.write ser.pos.toNat val).map fun buf =>
    { ser with buf, pos := ser.pos + BitVec.ofNat 32 val.length }

/-- The four put functions over words of `width` bytes; `width*count` is an
`int` product, undefined when it overflows. -/
def putWords (width : Nat) (val : List Nat) (ser : Serializer) : Option Serializer :=
  if width * val.length < 2 ^ 31 then
    putRaw (ensureBuf ser (BitVec.ofNat 32 (width * val.length))) (val.flatMap (leBytes width))
  else none

/-- `pxprpc_ser_put_int` -/
def putInt (val : List (BitVec 32)) : Serializer → Option Serializer := putWords 4 (val.map BitVec.toNat)

/-- `pxprpc_ser_put_long` -/
def putLong (val : List (BitVec 64)) : Serializer → Option Serializer := putWords 8 (val.map BitVec.toNat)

/-- `pxprpc_ser_put_float` -/
def putFloat (val : List (BitVec 32)) : Serializer → Option Serializer := putWords 4 (val.map BitVec.toNat)

/-- `pxprpc_ser_put_double` -/
def putDouble (val : List (BitVec 64)) : Serializer → Option Serializer := putWords 8 (val.map BitVec.toNat)

/-- `pxprpc_ser_put_varint` -/
def putVarint (val : BitVec 32) (ser : Serializer) : Option Serializer :=
  if val ≤ 0xff then putRaw (ensureBuf ser 1) [UInt8.ofNat val.toNat]
  else (putRaw (ensureBuf ser 5) [0xff]).bind fun ser => putRaw ser (leBytes 4 val.toNat)

/-- `pxprpc_ser_put_bytes`; `size` is the length of `val`. -/
def putBytes (val : List UInt8) (ser : Serializer) : Option Serializer :=
  let size := BitVec.ofNat 32 val.length
  (putVarint size ser).bind fun ser => putRaw (ensureBuf ser size) val

/-- `memmove(val, ser->buf+ser->pos, size)` and `ser->pos+=size`; reading outside
the buffer, or what was never written, is undefined. -/
def getRaw (size : Nat) (ser : Serializer) : Option (List UInt8 × Serializer) :=
  (ser.buf.read ser.pos.toNat size).map fun val =>
    (val, { ser with pos := ser.pos + BitVec.ofNat 32 size })

/-- The four get functions over words of `width` bytes. -/
def getWords (width count : Nat) (ser : Serializer) : Option (List Nat × Serializer) :=
  (getRaw (width * count) ser).map fun r => (leWords width count r.1, r.2)

/-- `pxprpc_ser_get_int` -/
def getInt (count : Nat) (ser : Serializer) : Option (List (BitVec 32) × Serializer) :=
  (getWords 4 count ser).map fun r => (r.1.map (BitVec.ofNat 32), r.2)

/-- `pxprpc_ser_get_long` -/
def getLong (count : Nat) (ser : Serializer) : Option (List (BitVec 64) × Serializer) :=
  (getWords 8 count ser).map fun r => (r.1.map (BitVec.ofNat 64), r.2)

/-- `pxprpc_ser_get_float` -/
def getFloat (count : Nat) (ser : Serializer) : Option (List (BitVec 32) × Serializer) :=
  (getWords 4 count ser).map fun r => (r.1.map (BitVec.ofNat 32), r.2)

/-- `pxprpc_ser_get_double` -/
def getDouble (count : Nat) (ser : Serializer) : Option (List (BitVec 64) × Serializer) :=
  (getWords 8 count ser).map fun r => (r.1.map (BitVec.ofNat 64), r.2)

/-- `pxprpc_ser_get_varint` -/
def getVarint (ser : Serializer) : Option (BitVec 32 × Serializer) :=
  (getRaw 1 ser).bind fun (val, ser) =>
    if leValue val = 0xff then
      (getRaw 4 ser).map fun (val, ser) => (BitVec.ofNat 32 (leValue val), ser)
    else some (BitVec.ofNat 32 (leValue val), ser)

/-- `pxprpc_ser_get_bytes`, with the bytes behind the pointer it returns. -/
def getBytes (ser : Serializer) : Option (List UInt8 × Serializer) :=
  (getVarint ser).bind fun (size, ser) => getRaw size.toNat ser

/-! ### Sequences of calls -/

/-- A value as one put call writes it. -/
inductive Item where
  | int (val : List (BitVec 32))
  | long (val : List (BitVec 64))
  | float (val : List (BitVec 32))
  | double (val : List (BitVec 64))
  | varint (val : BitVec 32)
  | bytes (val : List UInt8)
deriving DecidableEq, Repr

def Item.put : Item → Serializer → Option Serializer
  | .int val => putInt val
  | .long val => putLong val
  | .float val => putFloat val
  | .double val => putDouble val
  | .varint val => putVarint val
  | .bytes val => putBytes val

/-- The get call that matches the put call of an item, with the same count. -/
def Item.get : Item → Serializer → Option (Item × Serializer)
  | .int val => fun ser => (getInt val.length ser).map fun r => (.int r.1, r.2)
  | .long val => fun ser => (getLong val.length ser).map fun r => (.long r.1, r.2)
  | .float val => fun ser => (getFloat val.length ser).map fun r => (.float r.1, r.2)
  | .double val => fun ser => (getDouble val.length ser).map fun r => (.double r.1, r.2)
  | .varint _ => fun ser => (getVarint ser).map fun r => (.varint r.1, r.2)
  | .bytes _ => fun ser => (getBytes ser).map fun r => (.bytes r.1, r.2)

def putAll : List Item → Serializer → Option Serializer
  | [], ser => some ser
  | it :: items, ser => (it.put ser).bind (putAll items)

def getAll : List Item → Serializer → Option (List Item × Serializer)
  | [], ser => some ([], ser)
  | it :: items, ser => (it.get ser).bind fun r =>
      (getAll items r.2).map fun rs => (r.1 :: rs.1, rs.2)

end PxpRpc.Codec.Native
