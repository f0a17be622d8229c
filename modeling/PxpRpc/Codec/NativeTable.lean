import PxpRpc.Codec.NativeRoundTrip
import PxpRpc.Codec.WireTable

/-!
# Tables in C++

The C++ `TableSerializer` keeps a table by columns, over the C serializer.
-/
namespace PxpRpc.Codec.Native

open PxpRpc.Lib
open PxpRpc.Codec.Java (Cell Row RowMatches ValueType columnCells tableCells)

/-- The member of the union that was stored, or the string. -/
inductive TableCellValue where
  | i32 (v : BitVec 32)
  | i64 (v : BitVec 64)
  | f32 (v : BitVec 32)
  | f64 (v : BitVec 64)
  | bytes (b : List UInt8)
  | str (s : List UInt8)
deriving DecidableEq, Repr

namespace TableCellValue

/-- A value as it is added; for `bool` the constructor that takes an `int32_t` is
chosen, and a string is its bytes. -/
def ofCell : Cell (List UInt8) → TableCellValue
  | .int v => i32 v
  | .long v => i64 v
  | .float v => f32 v
  | .double v => f64 v
  | .bytes b => bytes b
  | .string s => str (Wire.utf8 s)
  | .boolean v => i32 (if v then 1 else 0)
  | .object _ | .null => i32 0

end TableCellValue

structure TableSerializer where
  ser : Option Serializer
  rowCnt : BitVec 32
  columnsType : List UInt8
  columnsName : List (List UInt8)
  cols : List (List TableCellValue)
  currentAddValuePosX : Int
deriving DecidableEq, Repr

namespace TableSerializer

def new : TableSerializer := ⟨none, 0, [], [], [], -1⟩

def FLAG_NO_COLUMN_NAME : BitVec 32 := 1

def setColumnsInfo (columnsType : List UInt8) (columnsName : List (List UInt8)) (t : TableSerializer) :
    TableSerializer :=
  { t with columnsType, columnsName, cols := t.cols ++ List.replicate (columnsType.length - t.cols.length) [] }

/-! ### Adding -/

/-- The loop of `addRow`; an index out of range is undefined. -/
def pushRow : Nat → List TableCellValue → List (List TableCellValue) → Option (List (List TableCellValue))
  | 0, _, cols => some cols
  | n + 1, v :: row, col :: cols => (pushRow n row cols).map ((col ++ [v]) :: ·)
  | _ + 1, _, _ => none

def addRow (row : List TableCellValue) (t : TableSerializer) : Option TableSerializer :=
  (pushRow t.columnsType.length row t.cols).map fun cols => { t with cols, rowCnt := t.rowCnt + 1 }

def moveToNextValuePosX (t : TableSerializer) : TableSerializer :=
  let x := if t.currentAddValuePosX + 1 ≥ t.cols.length then 0 else t.currentAddValuePosX + 1
  { t with currentAddValuePosX := x, rowCnt := if x = 0 then t.rowCnt + 1 else t.rowCnt }

def addValue (v : TableCellValue) (t : TableSerializer) : Option TableSerializer :=
  let t := t.moveToNextValuePosX
  t.cols[t.currentAddValuePosX.toNat]?.map fun col =>
    { t with cols := t.cols.set t.currentAddValuePosX.toNat (col ++ [v]) }

def addValues : List TableCellValue → TableSerializer → Option TableSerializer
  | [], t => some t
  | v :: vs, t => (t.addValue v).bind (addValues vs)

/-- Rows are added one by one, each with `addRow` or value by value. -/
def addRows : List (Bool × List TableCellValue) → TableSerializer → Option TableSerializer
  | [], t => some t
  | (byValue, row) :: rows, t => (if byValue then t.addValues row else t.addRow row).bind (addRows rows)

/-! ### Writing -/

/-- `putString`; the size is a `uint32_t`. -/
def putString (s : List UInt8) : Serializer → Option Serializer := putBytes (s.take (s.length % 2 ^ 32))

def putStrings : List (List UInt8) → Serializer → Option Serializer
  | [], ser => some ser
  | s :: ss, ser => (putString s ser).bind (putStrings ss)

/-- One round of the loops of `buildSer`. `bool2` is the low byte of an `i32`; reading
another member than was stored is undefined. -/
def putCell : ValueType → TableCellValue → Serializer → Option Serializer
  | .i, .i32 v => putInt [v]
  | .l, .i64 v => putLong [v]
  | .f, .f32 v => putFloat [v]
  | .d, .f64 v => putDouble [v]
  | .b, .bytes b => putBytes b
  | .s, .str s => putString s
  | .c, .i32 v => putVarint (if v.toNat % 256 ≠ 0 then 1 else 0)
  | _, _ => fun _ => none

def putCells (type : ValueType) : List TableCellValue → Serializer → Option Serializer
  | [], ser => some ser
  | cell :: cells, ser => (putCell type cell ser).bind (putCells type cells)

/-- The types that the switches know; other columns are passed over. -/
def knownType (ch : UInt8) : Option ValueType := (ValueType.ofChar ch.toUInt16).filter (· ≠ .o)

def putColumn (cols : List (List TableCellValue)) (i1 : Nat) (ch : UInt8) (ser : Serializer) : Option Serializer :=
  match knownType ch with
  | some type => cols[i1]?.bind fun col => putCells type col ser
  | none => some ser

def putColumns (cols : List (List TableCellValue)) : Nat → List UInt8 → Serializer → Option Serializer
  | _, [], ser => some ser
  | i1, ch :: types, ser => (putColumn cols i1 ch ser).bind (putColumns cols (i1 + 1) types)

/-- The flag of `buildSer`. -/
def nameFlag (t : TableSerializer) : BitVec 32 :=
  if t.columnsName = [] ∧ t.columnsType ≠ [] then FLAG_NO_COLUMN_NAME else 0

def putNames (flag : BitVec 32) (names : List (List UInt8)) (ser : Serializer) : Option Serializer :=
  if flag &&& FLAG_NO_COLUMN_NAME = 0 then putStrings names ser else some ser

def buildSer (t : TableSerializer) : Option Serializer := do
  let ser ← putVarint t.nameFlag (t.ser.getD (prepareSer 16))
  let ser ← putVarint t.rowCnt ser
  let ser ← putString t.columnsType ser
  let ser ← putNames t.nameFlag t.columnsName ser
  putColumns t.cols 0 t.columnsType ser

/-! ### Reading -/

def getStrings : Nat → Serializer → Option (List (List UInt8) × Serializer)
  | 0, ser => some ([], ser)
  | n + 1, ser => (getBytes ser).bind fun (s, ser) => (getStrings n ser).map fun (ss, ser) => (s :: ss, ser)

/-- `getIntVec` and its like; a negative size throws. -/
def getVec {α : Type} (get : Nat → Serializer → Option (List α × Serializer)) (size : BitVec 32) (ser : Serializer) :
    Option (List α × Serializer) :=
  if size.msb then none else get size.toNat ser

def getBools : Nat → Serializer → Option (List TableCellValue × Serializer)
  | 0, ser => some ([], ser)
  | n + 1, ser => (getVarint ser).bind fun (v, ser) =>
      (getBools n ser).map fun (cells, ser) => (.i32 (if v ≠ 0 then 1 else 0) :: cells, ser)

/-- One round of the loop of `load` over the columns. -/
def getColumn (rowCnt : BitVec 32) : ValueType → Serializer → Option (List TableCellValue × Serializer)
  | .i, ser => (getVec getInt rowCnt ser).map fun (col, ser) => (col.map .i32, ser)
  | .l, ser => (getVec getLong rowCnt ser).map fun (col, ser) => (col.map .i64, ser)
  | .f, ser => (getVec getFloat rowCnt ser).map fun (col, ser) => (col.map .f32, ser)
  | .d, ser => (getVec getDouble rowCnt ser).map fun (col, ser) => (col.map .f64, ser)
  | .b, ser => (getStrings rowCnt.toInt.toNat ser).map fun (col, ser) => (col.map .bytes, ser)
  | .s, ser => (getStrings rowCnt.toInt.toNat ser).map fun (col, ser) => (col.map .str, ser)
  | .c, ser => getBools rowCnt.toInt.toNat ser
  | .o, ser => some ([], ser)

/-- What `load` has read: the columns so far, and the serializer. -/
abbrev Loading := List (List TableCellValue) × Serializer

def pushColumn (rowCnt : BitVec 32) (ch : UInt8) : Loading → Option Loading
  | (cols, ser) =>
    match knownType ch with
    | some type => (getColumn rowCnt type ser).map fun (col, ser) => (cols ++ [col], ser)
    | none => some (cols, ser)

def getColumns (rowCnt : BitVec 32) : List UInt8 → Loading → Option Loading
  | [], out => some out
  | ch :: types, out => (pushColumn rowCnt ch out).bind (getColumns rowCnt types)

def getNames (flag : BitVec 32) (colCnt : Nat) (ser : Serializer) : Option (List (List UInt8) × Serializer) :=
  if flag &&& FLAG_NO_COLUMN_NAME = 0 then getStrings colCnt ser else some ([], ser)

/-- `load` of the bytes of a packet. -/
def load (data : List UInt8) (t : TableSerializer) : Option TableSerializer := do
  let ser := prepareUnser (data.map some) (BitVec.ofNat 32 data.length)
  let (flag, ser) ← getVarint ser
  let (rowCnt, ser) ← getVarint ser
  let (columnsType, ser) ← getBytes ser
  let (columnsName, ser) ← getNames flag columnsType.length ser
  let (cols, _) ← getColumns rowCnt columnsType (t.cols, ser)
  return { t with ser := none, rowCnt, columnsType, columnsName, cols }

end TableSerializer

end PxpRpc.Codec.Native
