import PxpRpc.Codec.JavaSerializer

/-!
# Tables in Java

A table is written column by column behind a header. A `ByteBuffer` among the cells is
an object whose bytes are used up when it is written, so a row that is written names
the object, and a row that is read has the bytes themselves.
-/
namespace PxpRpc.Codec.Java

open PxpRpc.Lib

/-- The characters of a type declaration. -/
inductive ValueType where
  | i | l | f | d | b | s | c | o
deriving DecidableEq, Repr

namespace ValueType

def char : ValueType → UInt16
  | i => 105
  | l => 108
  | f => 102
  | d => 100
  | b => 98
  | s => 115
  | c => 99
  | o => 111

def ofChar (ch : UInt16) : Option ValueType := [i, l, f, d, b, s, c, o].find? fun type => type.char = ch

@[simp] theorem ofChar_char (type : ValueType) : ofChar type.char = some type := by cases type <;> rfl

end ValueType

/-- An element of a row; `value` is the index in an `RpcExtendClientObject`. -/
inductive Cell (β : Type) where
  | null
  | int (v : BitVec 32)
  | long (v : BitVec 64)
  | float (v : BitVec 32)
  | double (v : BitVec 64)
  | bytes (b : β)
  | string (v : Utf16)
  | boolean (v : Bool)
  | object (value : BitVec 32)
deriving DecidableEq, Repr

namespace Cell

variable {β γ : Type}

def map (f : β → γ) : Cell β → Cell γ
  | null => null
  | int v => int v
  | long v => long v
  | float v => float v
  | double v => double v
  | bytes b => bytes (f b)
  | string v => string v
  | boolean v => boolean v
  | object value => object value

/-- The type that `build` guesses from the class of a value. -/
def jtypeToValueInfo : Cell β → Option ValueType
  | null => none
  | int _ => some .i
  | long _ => some .l
  | float _ => some .f
  | double _ => some .d
  | bytes _ => some .b
  | string _ => some .s
  | boolean _ => some .c
  | object _ => some .o

/-- A value that a column of the type may have. -/
def Matches : ValueType → Cell β → Prop
  | .i, int _ | .l, long _ | .f, float _ | .d, double _ | .b, bytes _ | .s, string _ | .c, boolean _
  | .o, object _ | .o, null => True
  | _, _ => False

instance (type : ValueType) (cell : Cell β) : Decidable (cell.Matches type) := by
  cases type <;> cases cell <;> first | exact isTrue trivial | exact isFalse id

end Cell

abbrev Row (β : Type) := List (Cell β)

/-- The bytes that remain in each `ByteBuffer` object. -/
abbrev Heap := Nat → List UInt8

structure TableSerializer (β : Type) where
  columnsName : Option (List Utf16)
  columnsType : Option Utf16
  rows : List (Row β)
  ser : Option Serializer2

namespace TableSerializer

def new (β : Type) : TableSerializer β := ⟨none, none, [], none⟩

/-! ### Writing -/

/-- One round of the loops of `putRowsData`; no server context is bound. -/
def putCell : ValueType → Cell Nat → Serializer2 × Heap → Option (Serializer2 × Heap)
  | .i, .int v, (ser, heap) => (ser.putInt v).map (·, heap)
  | .l, .long v, (ser, heap) => (ser.putLong v).map (·, heap)
  | .f, .float v, (ser, heap) => (ser.putFloat v).map (·, heap)
  | .d, .double v, (ser, heap) => (ser.putDouble v).map (·, heap)
  | .b, .bytes b, (ser, heap) => (ser.putBytes (heap b)).map (·, Function.update heap b [])
  | .s, .string v, (ser, heap) => (ser.putString v).map (·, heap)
  | .c, .boolean v, (ser, heap) => (ser.putVarint (if v then 1 else 0)).map (·, heap)
  | .o, .object value, (ser, heap) => (ser.putInt value).map (·, heap)
  | .o, _, (ser, heap) => (ser.putInt (-1)).map (·, heap)
  | _, _, _ => none

def putCells (type : ValueType) (i1 : Nat) : List (Row Nat) → Serializer2 × Heap → Option (Serializer2 × Heap)
  | [], out => some out
  | row :: rows, out => row[i1]?.bind fun cell => (putCell type cell out).bind (putCells type i1 rows)

/-- The rows that the loop over a column goes through; the one over an object column
stops at the end of its first round. -/
def visited {β : Type} (type : ValueType) (rows : List (Row β)) : List (Row β) :=
  if type = .o then rows.take 1 else rows

def putColumns (rows : List (Row Nat)) : Nat → Utf16 → Serializer2 × Heap → Option (Serializer2 × Heap)
  | _, [], out => some out
  | i1, ch :: types, out =>
    (ValueType.ofChar ch).bind fun type =>
      (putCells type i1 (visited type rows) out).bind (putColumns rows (i1 + 1) types)

def putRowsData (types : Utf16) (rows : List (Row Nat)) (out : Serializer2 × Heap) : Option (Serializer2 × Heap) :=
  putColumns rows 0 types out

def FLAG_NO_COLUMN_NAME : BitVec 32 := 1

def putStrings : List Utf16 → Serializer2 → Option Serializer2
  | [], ser => some ser
  | s :: ss, ser => (ser.putString s).bind (putStrings ss)

def guessTypes (rows : List (Row Nat)) : Option Utf16 :=
  match rows with
  | [] => some []
  | firstRow :: _ => (firstRow.mapM Cell.jtypeToValueInfo).map fun types => types.map ValueType.char

/-- `build`, with the buffers as they are left. -/
def build (t : TableSerializer Nat) (heap : Heap) : Option (ByteBuffer × Heap) := do
  let ser ← t.ser.orElse fun _ => Serializer2.prepareSerializing 64
  let types ← t.columnsType.orElse fun _ => guessTypes t.rows
  let flag := if t.columnsName.isNone then FLAG_NO_COLUMN_NAME else 0
  let ser ← ser.putVarint flag
  let ser ← ser.putVarint (BitVec.ofNat 32 t.rows.length)
  let ser ← ser.putString types
  let ser ← putStrings (t.columnsName.getD []) ser
  let (ser, heap) ← putRowsData types t.rows (ser, heap)
  return (ser.build, heap)

/-! ### Reading -/

def getCell : ValueType → Serializer2 → Option (Cell (List UInt8) × Serializer2)
  | .i, ser => ser.getInt.map fun (v, ser) => (.int v, ser)
  | .l, ser => ser.getLong.map fun (v, ser) => (.long v, ser)
  | .f, ser => ser.getFloat.map fun (v, ser) => (.float v, ser)
  | .d, ser => ser.getDouble.map fun (v, ser) => (.double v, ser)
  | .b, ser => ser.getBytes.map fun (v, ser) => (.bytes v, ser)
  | .s, ser => ser.getString.map fun (v, ser) => (.string v, ser)
  | .c, ser => ser.getVarint.map fun (v, ser) => (.boolean (v ≠ 0), ser)
  | .o, ser => ser.getInt.map fun (addr, ser) => (if addr ≠ -1 then .object addr else .null, ser)

/-- `rows.get(i2)[i1]=cell` -/
def setCell {β : Type} (rows : List (Row β)) (i2 i1 : Nat) (cell : Cell β) : Option (List (Row β)) :=
  rows[i2]?.map fun row => rows.set i2 (row.set i1 cell)

/-- The loop over a column; the one over an object column stores at the row `i1`. -/
def getCells (type : ValueType) (i1 : Nat) :
    Nat → Nat → List (Row (List UInt8)) × Serializer2 → Option (List (Row (List UInt8)) × Serializer2)
  | 0, _, out => some out
  | n + 1, i2, (rows, ser) =>
    (getCell type ser).bind fun (cell, ser) =>
      (setCell rows (if type = .o then i1 else i2) i1 cell).bind fun rows => getCells type i1 n (i2 + 1) (rows, ser)

def getColumns (rowCnt : Nat) :
    Nat → Utf16 → List (Row (List UInt8)) × Serializer2 → Option (List (Row (List UInt8)) × Serializer2)
  | _, [], out => some out
  | i1, ch :: types, out =>
    (ValueType.ofChar ch).bind fun type =>
      (getCells type i1 rowCnt 0 out).bind (getColumns rowCnt (i1 + 1) types)

def getRowsData (types : Utf16) (rowCnt : BitVec 32) (ser : Serializer2) :
    Option (List (Row (List UInt8)) × Serializer2) :=
  let n := rowCnt.toInt.toNat
  getColumns n 0 types (List.replicate n (List.replicate types.length .null), ser)

def getStrings : Nat → Serializer2 → Option (List Utf16 × Serializer2)
  | 0, ser => some ([], ser)
  | n + 1, ser => ser.getString.bind fun (s, ser) => (getStrings n ser).map fun (ss, ser) => (s :: ss, ser)

def load {β : Type} (t : TableSerializer β) (buf : Option ByteBuffer) : Option (TableSerializer (List UInt8)) := do
  let ser ← (buf.map Serializer2.prepareUnserializing).orElse fun _ => t.ser
  let (flag, ser) ← ser.getVarint
  let (rowCnt, ser) ← ser.getVarint
  let (types, ser) ← ser.getString
  let (names, ser) ← if flag &&& FLAG_NO_COLUMN_NAME = 0 then
      (getStrings types.length ser).map fun (names, ser) => (some names, ser)
    else some (t.columnsName, ser)
  let (rows, ser) ← getRowsData types rowCnt ser
  return ⟨names, some types, rows, some ser⟩

end TableSerializer

end PxpRpc.Codec.Java
