import PxpRpc.Codec.WireRow
import PxpRpc.Server.Tasks

/-!
# Values of calls

A call of the extended client and its response are rows of values. In an `o` position the
client has an `RpcExtendClientObject`, the server an object of its own, and the row that is
sent the index of a reference.
-/
namespace PxpRpc.Session

open PxpRpc.Lib PxpRpc.Codec
open PxpRpc.Codec.Java (Cell Row ValueType)
open PxpRpc.Codec.Wire (Writer encodeAll cellItem cellHeard)
open PxpRpc.Pool
open PxpRpc.Pool.Managed (RefPool)
open PxpRpc.Server.Tasks (Lang)

inductive Value (R : Type) where
  | null
  | int (v : BitVec 32)
  | long (v : BitVec 64)
  | float (v : BitVec 32)
  | double (v : BitVec 64)
  | bytes (b : List UInt8)
  | string (s : Utf16)
  | boolean (v : Bool)
  | object (r : R)
deriving DecidableEq, Repr

namespace Value

variable {R : Type}

/-- What is put for a value, given the index of its object. -/
def cell (index : R → BitVec 32) : Value R → Cell (List UInt8)
  | null => .null
  | int v => .int v
  | long v => .long v
  | float v => .float v
  | double v => .double v
  | bytes b => .bytes b
  | string s => .string s
  | boolean v => .boolean v
  | object r => .object (index r)

/-- What is made of a cell that has been read, given what an index stands for. -/
def ofCell (at' : BitVec 32 → Option (Value R)) : Cell (List UInt8) → Option (Value R)
  | .null => some null
  | .int v => some (int v)
  | .long v => some (long v)
  | .float v => some (float v)
  | .double v => some (double v)
  | .bytes b => some (bytes b)
  | .string s => some (string s)
  | .boolean v => some (boolean v)
  | .object index => at' index

/-- A value of the type. -/
def Matches (type : ValueType) (v : Value R) : Prop := (v.cell fun _ => 0).Matches type

instance (type : ValueType) (v : Value R) : Decidable (v.Matches type) := inferInstanceAs (Decidable (Cell.Matches _ _))

/-- Strings are texts without a byte order mark in front, which `TextDecoder` leaves out. -/
def Text : Value R → Prop
  | string s => Codec.Java.WellFormed s ∧ (fromUtf16 s).head? ≠ some (Char.ofNat 0xfeff)
  | _ => True

instance (v : Value R) : Decidable v.Text :=
  match v with
  | string s =>
    have : Decidable (Codec.Java.WellFormed s) := decidable_of_iff _ Wire.toUtf16_fromUtf16_iff
    inferInstanceAs (Decidable (_ ∧ _))
  | null | int _ | long _ | float _ | double _ | bytes _ | boolean _ | object _ => isTrue trivial

/-- The bytes of a value, in which an object takes as many as any index. -/
def size (v : Value R) : Nat := (cellItem (v.cell fun _ => 0)).encode.length

end Value

/-- The characters of a declaration before and behind the arrow. -/
structure Decl where
  tParam : List ValueType
  tResult : List ValueType
deriving DecidableEq, Repr

/-- The values of a row have the types, and fit in a packet. -/
structure Declared {R : Type} (types : List ValueType) (values : List (Value R)) : Prop where
  matching : List.Forall₂ Value.Matches types values
  text : ∀ v ∈ values, v.Text
  size : (values.map Value.size).sum < 2 ^ 31

instance {R : Type} (types : List ValueType) (values : List (Value R)) : Decidable (Declared types values) :=
  decidable_of_iff ((types.length = values.length ∧ ∀ p ∈ types.zip values, p.2.Matches p.1) ∧
      (∀ v ∈ values, v.Text) ∧ (values.map Value.size).sum < 2 ^ 31)
    ⟨fun h => ⟨List.forall₂_iff_zip.mpr ⟨h.1.1, fun hp => h.1.2 _ hp⟩, h.2.1, h.2.2⟩,
      fun h => ⟨⟨h.matching.length_eq, fun _ hp => (List.forall₂_iff_zip.mp h.matching).2 hp⟩, h.text, h.size⟩⟩

/-! ### The server -/

section Server

variable {Obj Hook : Type}

/-- A text as the language decodes it. -/
def heard : Lang → List Char → Utf16
  | .typeScript => TypeScript.heard
  | .python => toUtf16

/-- `getRowsData(1)[0]` of what is behind a header. -/
def getRow (lang : Lang) (types : List ValueType) (header bytes : List UInt8) : Option (Row (List UInt8)) :=
  match lang with
  | .typeScript => TypeScript.getRow types ⟨header ++ bytes, header.length, bytes.length⟩
  | .python => Python.getRow types bytes

/-- `getRef(index).object` -/
def objectOf (lang : Lang) (pool : RefPool Obj Hook) (index : BitVec 32) : Option (Value Obj) :=
  (Server.Tasks.getRef lang index.toInt pool).bind fun i => pool.refPool[i]?.map fun ref =>
    match ref.object with
    | some object => .object object
    | none => .null

/-- `readParameter` of a callable -/
def readParameter (lang : Lang) (tParam : List ValueType) (header parameter : List UInt8)
    (pool : RefPool Obj Hook) : Option (List (Value Obj)) :=
  if tParam = [.b] then some [.bytes parameter]
  else (getRow lang tParam header parameter).bind fun row => row.mapM (Value.ofCell (objectOf lang pool))

/-- `allocRefFor`; `onFree` is the `close` of an object that has one. -/
def allocRefFor (lang : Lang) (onFree : Obj → Option Hook) (obj : Obj) (pool : RefPool Obj Hook) :
    Option (RefPool Obj Hook × Nat) :=
  (Managed.allocRef (Server.Tasks.expandRefPools lang) pool).bind fun (pool, i) =>
    (Managed.setRef i (some obj) (onFree obj) pool).map fun pool => (pool, i)

/-- What is put for a result; an object gets a reference. -/
def allocCell (alloc : Obj → RefPool Obj Hook → Option (RefPool Obj Hook × Nat)) (pool : RefPool Obj Hook) :
    Value Obj → Option (RefPool Obj Hook × Cell (List UInt8))
  | .object obj => (alloc obj pool).map fun (pool, i) => (pool, .object (BitVec.ofNat 32 i))
  | v => some (pool, v.cell fun _ => 0)

/-- `putRowsData` of the results, with the row that is put; what has been allocated when it
raises stays allocated. -/
def putResults {S : Type} (W : Writer S) (alloc : Obj → RefPool Obj Hook → Option (RefPool Obj Hook × Nat)) :
    List ValueType → List (Value Obj) → S → RefPool Obj Hook → RefPool Obj Hook × Option (S × Row (List UInt8))
  | [], _, ser, pool => (pool, some (ser, []))
  | _ :: _, [], _, pool => (pool, none)
  | type :: types, v :: values, ser, pool =>
    match allocCell alloc pool v with
    | none => (pool, none)
    | some (pool, cell) =>
      match W.putCell type cell ser with
      | none => (pool, none)
      | some ser =>
        match putResults W alloc types values ser pool with
        | (pool, none) => (pool, none)
        | (pool, some (ser, row)) => (pool, some (ser, cell :: row))

/-- `writeResult` of a callable -/
def writeResult (lang : Lang) (onFree : Obj → Option Hook) (tResult : List ValueType) (results : List (Value Obj))
    (pool : RefPool Obj Hook) : RefPool Obj Hook × Option (List UInt8 × Row (List UInt8)) :=
  if tResult = [.b] then
    match results with
    | .bytes b :: _ => (pool, some (b, [.bytes b]))
    | _ => (pool, none)
  else
    let alloc := allocRefFor lang onFree
    match lang with
    | .typeScript =>
      match putResults TypeScript.Serializer.writer alloc tResult results
          (TypeScript.Serializer.prepareSerializing 8) pool with
      | (pool, out) => (pool, out.bind fun (ser, row) => ser.build.map fun buf => (buf.bytes, row))
    | .python =>
      match putResults Python.Serializer.writer alloc tResult results Python.Serializer.prepareSerializing pool with
      | (pool, out) => (pool, out.map fun (ser, row) => (ser.build, row))

end Server

/-! ### The client -/

/-- An `RpcExtendClientObject`: `value` is undefined once it has been freed or turned into a
callable. The object came with the response to a request, at a place in its row. -/
structure Handle where
  value : Option (BitVec 32)
  origin : Nat × Nat
deriving DecidableEq, Repr

/-- An undefined value is put as zero. -/
def Handle.index (h : Handle) : BitVec 32 := h.value.getD 0

/-- The index that is put for an object of the client. -/
def indexAt (handles : List Handle) (i : Nat) : BitVec 32 := (handles[i]?.map Handle.index).getD 0

/-- `serArgs` -/
def serArgs (tParam : List ValueType) (handles : List Handle) (args : List (Value Nat)) : Option (List UInt8) :=
  if tParam = [.b] then
    match args with
    | .bytes b :: _ => some b
    | _ => none
  else TypeScript.putRow 32 tParam (args.map (Value.cell (indexAt handles)))

/-- What becomes of a row that has been read: an index becomes a new object. -/
def take (n : Nat) : Nat → Row (List UInt8) → List Handle → List (Value Nat) × List Handle
  | _, [], handles => ([], handles)
  | j, cell :: row, handles =>
    match cell with
    | .object index =>
      match take n (j + 1) row (handles ++ [⟨some index, (n, j)⟩]) with
      | (values, handles') => (.object handles.length :: values, handles')
    | cell =>
      match take n (j + 1) row handles with
      | (values, handles') => ((Value.ofCell (fun _ => none) cell).getD .null :: values, handles')

/-- What a call returns. -/
inductive Ret (R : Type) where
  | one (v : Value R)
  | many (values : List (Value R))
deriving DecidableEq, Repr

/-- A single result is returned as it is, and `null` where no result is declared. -/
def Ret.ofRow {R : Type} : List (Value R) → Ret R
  | [] => .one .null
  | [v] => .one v
  | values => .many values

/-- The row of `unserRet` -/
def unserRet (tResult : List ValueType) (header resp : List UInt8) : Option (Row (List UInt8)) :=
  if tResult = [.b] then some [.bytes resp]
  else TypeScript.getRow tResult ⟨header ++ resp, header.length, resp.length⟩

end PxpRpc.Session
