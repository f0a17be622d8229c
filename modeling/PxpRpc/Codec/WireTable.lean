import PxpRpc.Codec.JavaTableRoundTrip
import PxpRpc.Codec.Wire

/-!
# Tables over a serializer

The TypeScript and the Python `TableSerializer` make the same calls to their
serializers: a header, then the cells column by column.
-/
namespace PxpRpc.Codec.Wire

open PxpRpc.Lib
open PxpRpc.Codec.Java (Cell Row RowMatches ValueType columnCells tableCells)

variable {S : Type}

/-! ### Writing -/

namespace Writer

variable (W : Writer S)

/-- One round of the loops of `putRowsData`, for a cell of the column's type; no
server context is bound. -/
def putCell : ValueType → Cell (List UInt8) → S → Option S
  | .i, .int v => W.putInt v
  | .l, .long v => W.putLong v
  | .f, .float v => W.putFloat v
  | .d, .double v => W.putDouble v
  | .b, .bytes b => W.putBytes b
  | .s, .string s => W.putString s
  | .c, .boolean v => W.putVarint (if v then 1 else 0)
  | .o, .object value => W.putInt value
  | .o, .null => W.putInt (-1)
  | _, _ => fun _ => none

def putCells (type : ValueType) (i1 : Nat) : List (Row (List UInt8)) → S → Option S
  | [], ser => some ser
  | row :: rows, ser => row[i1]?.bind fun cell => (W.putCell type cell ser).bind (putCells type i1 rows)

/-- A column of an unknown type raises. -/
def putColumns (rows : List (Row (List UInt8))) : Nat → List (Option ValueType) → S → Option S
  | _, [], ser => some ser
  | i1, type :: types, ser =>
    type.bind fun type => (W.putCells type i1 rows ser).bind (putColumns rows (i1 + 1) types)

def putRowsData (types : List (Option ValueType)) (rows : List (Row (List UInt8))) : S → Option S :=
  W.putColumns rows 0 types

def putStrings : List Utf16 → S → Option S
  | [], ser => some ser
  | s :: ss, ser => (W.putString s ser).bind (putStrings ss)

end Writer

/-! ### Reading -/

namespace Reader

variable (R : Reader S)

def getCell : ValueType → S → Option (Cell (List UInt8) × S)
  | .i, ser => (R.getInt ser).map fun (v, ser) => (.int v, ser)
  | .l, ser => (R.getLong ser).map fun (v, ser) => (.long v, ser)
  | .f, ser => (R.getFloat ser).map fun (v, ser) => (.float v, ser)
  | .d, ser => (R.getDouble ser).map fun (v, ser) => (.double v, ser)
  | .b, ser => (R.getBytes ser).map fun (v, ser) => (.bytes v, ser)
  | .s, ser => (R.getString ser).map fun (v, ser) => (.string v, ser)
  | .c, ser => (R.getVarint ser).map fun (v, ser) => (.boolean (v ≠ 0), ser)
  | .o, ser => (R.getInt ser).map fun (val, ser) => (if val = -1 then .null else .object val, ser)

def getCells (type : ValueType) : Nat → S → Option (List (Cell (List UInt8)) × S)
  | 0, ser => some ([], ser)
  | n + 1, ser =>
    (R.getCell type ser).bind fun (cell, ser) => (getCells type n ser).map fun (cells, ser) => (cell :: cells, ser)

/-- The rows get one more cell with each column; a column of an unknown type raises. -/
def getColumns (rowCnt : Nat) :
    List (Option ValueType) → List (Row (List UInt8)) × S → Option (List (Row (List UInt8)) × S)
  | [], out => some out
  | type :: types, (rows, ser) =>
    type.bind fun type => (R.getCells type rowCnt ser).bind fun (cells, ser) =>
      getColumns rowCnt types (List.zipWith (fun row cell => row ++ [cell]) rows cells, ser)

def getRowsData (types : List (Option ValueType)) (rowCnt : Nat) (ser : S) :
    Option (List (Row (List UInt8)) × S) :=
  R.getColumns rowCnt types (List.replicate rowCnt [], ser)

def getStrings : Nat → S → Option (List Utf16 × S)
  | 0, ser => some ([], ser)
  | n + 1, ser => (R.getString ser).bind fun (s, ser) => (getStrings n ser).map fun (ss, ser) => (s :: ss, ser)

end Reader

/-- A table whose column types are declared. -/
structure TableSerializer where
  columnsName : Option (List Utf16)
  columnsType : Utf16
  rows : List (Row (List UInt8))
deriving DecidableEq, Repr

namespace TableSerializer

def FLAG_NO_COLUMN_NAME : Nat := 1

/-- `build`, on the serializer that is bound or on a new one, before its bytes
are taken. -/
def build (W : Writer S) (R : Reader S) (t : TableSerializer) (ser : S) : Option S := do
  let flag := if t.columnsName.isNone then FLAG_NO_COLUMN_NAME else 0
  let ser ← W.putVarint flag ser
  let ser ← W.putVarint t.rows.length ser
  let ser ← W.putString t.columnsType ser
  let ser ← W.putStrings (t.columnsName.getD []) ser
  W.putRowsData (R.columns t.columnsType) t.rows ser

/-- The names that `load` takes out. -/
def getNames (R : Reader S) (flag colCnt : Nat) (ser : S) : Option (Option (List Utf16) × S) :=
  if flag &&& FLAG_NO_COLUMN_NAME = 0 then (R.getStrings colCnt ser).map fun (names, ser) => (some names, ser)
  else some (none, ser)

/-- `load` of a new table. -/
def load (R : Reader S) (ser : S) : Option (TableSerializer × S) := do
  let (flag, ser) ← R.getVarint ser
  let (rowCnt, ser) ← R.getVarint ser
  let (types, ser) ← R.getString ser
  let (names, ser) ← getNames R flag (R.columns types).length ser
  let (rows, ser) ← R.getRowsData (R.columns types) rowCnt ser
  return (⟨names, types, rows⟩, ser)

end TableSerializer

/-! ### Tables -/

/-- What a cell is put as. -/
def cellItem : Cell (List UInt8) → Item
  | .null => .int (-1)
  | .int v => .int v
  | .long v => .long v
  | .float v => .float v
  | .double v => .double v
  | .bytes b => .bytes b
  | .string s => .string s
  | .boolean v => .varint (if v then 1 else 0)
  | .object value => .int value

/-- A table with a name for each column, if there are names, and cells of the types
of their columns. -/
structure Table where
  types : List ValueType
  names : Option (List Utf16)
  rows : List (Row (List UInt8))
  names_length : ∀ ns ∈ names, ns.length = types.length
  rows_match : ∀ row ∈ rows, RowMatches 0 types row
  names_text : ∀ ns ∈ names, ∀ s ∈ ns, Java.WellFormed s
  cells_text : ∀ row ∈ rows, ∀ cell ∈ row, cell.WellFormed
  objects : ∀ row ∈ rows, Cell.object (-1) ∉ row

theorem length_of_none : ∀ ns ∈ (none : Option (List Utf16)), ns.length = [ValueType.b].length := by simp

theorem text_of_none : ∀ ns ∈ (none : Option (List Utf16)), ∀ s ∈ ns, Java.WellFormed s := by simp

namespace Table

variable (t : Table)

def columnsType : Utf16 := t.types.map ValueType.char

def serializer : TableSerializer := ⟨t.names, t.columnsType, t.rows⟩

/-- The flag that is put for a table. -/
def flag : Nat := if t.names.isNone then TableSerializer.FLAG_NO_COLUMN_NAME else 0

/-- What is put before the names. -/
def header : List Item := [.varint t.flag, .varint t.rows.length, .string t.columnsType]

/-- What is put behind the types of the columns. -/
def body : List Item :=
  (t.names.getD []).map Item.string ++ (tableCells t.rows 0 t.types).map cellItem

def items : List Item := t.header ++ t.body

end Table

/-- Declarations are taken as they are. -/
structure Reader.Declares (R : Reader S) (heard : List Char → Utf16) : Prop where
  columns : ∀ types : List ValueType, R.columns (types.map ValueType.char) = types.map some
  heard : ∀ types : List ValueType,
    heard (types.map fun type => Char.ofNat type.char.toNat) = types.map ValueType.char

/-! ### What is put -/

namespace Writer

variable {W : Writer S}

theorem putCell_eq {type : ValueType} {cell : Cell (List UInt8)} (h : cell.Matches type) (ser : S) :
    W.putCell type cell ser = W.put (cellItem cell) ser := by
  cases type <;> cases cell <;> first
    | exact absurd h id
    | rfl

theorem putCells_eq {type : ValueType} {i1 : Nat} {rows : List (Row (List UInt8))}
    (h : ∀ row ∈ rows, ∃ cell, row[i1]? = some cell ∧ cell.Matches type) (ser : S) :
    W.putCells type i1 rows ser = W.putAll ((columnCells i1 rows).map cellItem) ser := by
  induction rows generalizing ser with
  | nil => rfl
  | cons row rows ih =>
    obtain ⟨cell, hcell, hm⟩ := h row List.mem_cons_self
    have hcells : columnCells i1 (row :: rows) = cell :: columnCells i1 rows := List.filterMap_cons_some hcell
    rw [putCells, hcell, Option.bind_some, putCell_eq hm, hcells, List.map_cons, putAll]
    exact congrArg _ (funext fun ser => ih (fun row hr => h row (List.mem_cons_of_mem _ hr)) ser)

theorem putColumns_eq {rows : List (Row (List UInt8))} {types : List ValueType} : ∀ {i1 : Nat},
    (∀ row ∈ rows, RowMatches i1 types row) → ∀ ser : S,
      W.putColumns rows i1 (types.map some) ser = W.putAll ((tableCells rows i1 types).map cellItem) ser := by
  induction types with
  | nil => exact fun _ _ => rfl
  | cons type types ih =>
    intro i1 h ser
    have hcol : ∀ row ∈ rows, ∃ cell, row[i1]? = some cell ∧ cell.Matches type := by
      intro row hr
      obtain ⟨cell, hcell, hm, -⟩ := (h row hr).head
      exact ⟨cell, hcell, hm⟩
    have htail : ∀ row ∈ rows, RowMatches (i1 + 1) types row := by
      intro row hr
      obtain ⟨-, -, -, ht⟩ := (h row hr).head
      exact ht
    rw [List.map_cons, putColumns, Option.bind_some, putCells_eq hcol, tableCells, List.map_append, putAll_append]
    exact congrArg _ (funext fun ser => ih htail ser)

theorem putStrings_eq (ss : List Utf16) (ser : S) : W.putStrings ss ser = W.putAll (ss.map Item.string) ser := by
  induction ss generalizing ser with
  | nil => rfl
  | cons s ss ih =>
    rw [putStrings, List.map_cons, putAll]
    exact congrArg _ (funext ih)

end Writer

/-- What is put for a table with columns of these types. -/
def TableSerializer.items (t : TableSerializer) (types : List ValueType) : List Item :=
  [.varint (if t.columnsName.isNone then FLAG_NO_COLUMN_NAME else 0), .varint t.rows.length, .string t.columnsType] ++
  ((t.columnsName.getD []).map Item.string ++ (tableCells t.rows 0 types).map cellItem)

theorem TableSerializer.build_eq {t : TableSerializer} {types : List ValueType} {W : Writer S} {R : Reader S}
    {heard : List Char → Utf16} (hR : R.Declares heard) (htypes : t.columnsType = types.map ValueType.char)
    (hm : ∀ row ∈ t.rows, RowMatches 0 types row) (ser : S) : t.build W R ser = W.putAll (t.items types) ser := by
  have hrows : ∀ ser : S, W.putRowsData (types.map some) t.rows ser =
      W.putAll ((tableCells t.rows 0 types).map cellItem) ser := Writer.putColumns_eq hm
  change ((W.putVarint _ ser).bind fun ser => (W.putVarint t.rows.length ser).bind fun ser =>
    (W.putString t.columnsType ser).bind fun ser => (W.putStrings (t.columnsName.getD []) ser).bind fun ser =>
      W.putRowsData (R.columns t.columnsType) t.rows ser) = _
  rw [items, List.cons_append, List.cons_append, List.cons_append, List.nil_append]
  rw [Writer.putAll, Writer.put]
  refine congrArg _ (funext fun ser => ?_)
  rw [Writer.putAll, Writer.put]
  refine congrArg _ (funext fun ser => ?_)
  rw [Writer.putAll, Writer.put]
  refine congrArg _ (funext fun ser => ?_)
  rw [Writer.putAll_append, Writer.putStrings_eq, htypes, hR.columns]
  exact congrArg _ (funext hrows)

/-- A table is put as its items. -/
theorem Table.build_eq (t : Table) {W : Writer S} {R : Reader S} {heard : List Char → Utf16} (hR : R.Declares heard)
    (ser : S) : t.serializer.build W R ser = W.putAll t.items ser :=
  TableSerializer.build_eq hR rfl t.rows_match ser

/-! ### What is read -/

/-- The cell that is read for one that was put. -/
def cellHeard (heard : List Char → Utf16) : Cell (List UInt8) → Cell (List UInt8)
  | .string s => .string (heard (fromUtf16 s))
  | cell => cell

/-- The table that is read for one that was put. -/
def Table.heard (heard : List Char → Utf16) (t : Table) : TableSerializer :=
  ⟨t.names.map fun ns => ns.map fun s => heard (fromUtf16 s), t.columnsType,
    t.rows.map fun row => row.map (cellHeard heard)⟩

namespace Reader

variable {R : Reader S} {Reads : S → List UInt8 → Prop} {heard : List Char → Utf16} {rest : List UInt8}

/-- A cell is got by the call for what it was put as. -/
theorem getCell_eq {type : ValueType} {cell : Cell (List UInt8)} (hm : cell.Matches type)
    (ho : cell ≠ .object (-1)) {ser ser' : S}
    (h : R.get (cellItem cell) ser = some ((cellItem cell).heard heard, ser')) :
    R.getCell type ser = some (cellHeard heard cell, ser') := by
  cases type <;> cases cell <;> try exact absurd hm id
  all_goals
    obtain ⟨⟨v, ser₁⟩, hget, heq⟩ := Option.map_eq_some_iff.mp h
    simp only [Item.heard, cellItem, Prod.mk.injEq, Item.int.injEq, Item.long.injEq, Item.float.injEq,
      Item.double.injEq, Item.varint.injEq, Item.bytes.injEq, Item.string.injEq] at heq
    obtain ⟨rfl, rfl⟩ := heq
    rw [getCell, hget]
  all_goals try rfl
  · rename_i v
    cases v <;> rfl
  · have hv : v ≠ -1 := fun hv => ho (by rw [hv])
    rw [Option.map_some]
    simp only [if_neg hv]
    rfl

theorem getCells_eq (hR : R.Source Reads heard) {type : ValueType} {cells : List (Cell (List UInt8))}
    (hm : ∀ cell ∈ cells, cell.Matches type) (ho : .object (-1) ∉ cells)
    (hs : ∀ cell ∈ cells, (cellItem cell).Short) : ∀ {ser : S},
    Reads ser (encodeAll (cells.map cellItem) ++ rest) →
      ∃ ser', R.getCells type cells.length ser = some (cells.map (cellHeard heard), ser') ∧ Reads ser' rest := by
  induction cells with
  | nil => exact fun {ser} h => ⟨ser, rfl, h⟩
  | cons cell cells ih =>
    intro ser h
    rw [List.map_cons, encodeAll_cons, List.append_assoc] at h
    obtain ⟨ser₁, hget, h₁⟩ := hR.get (hs cell List.mem_cons_self) h
    have hcell := getCell_eq (hm cell List.mem_cons_self) (fun he => ho (he ▸ List.mem_cons_self)) hget
    obtain ⟨ser', hrest, hr⟩ := ih (fun c hc => hm c (List.mem_cons_of_mem _ hc))
      (fun hc => ho (List.mem_cons_of_mem _ hc)) (fun c hc => hs c (List.mem_cons_of_mem _ hc)) h₁
    refine ⟨ser', ?_, hr⟩
    rw [List.length_cons, getCells, hcell, Option.bind_some]
    simp only [hrest, Option.map_some, List.map_cons]

/-- The next cells of all rows. -/
theorem zipWith_columnCells {i1 : Nat} {rows : List (Row (List UInt8))} (f : Cell (List UInt8) → Cell (List UInt8))
    (h : ∀ row ∈ rows, ∃ cell, row[i1]? = some cell) :
    (columnCells i1 rows).length = rows.length ∧
    List.zipWith (fun row cell => row ++ [cell]) (rows.map fun row => (row.take i1).map f)
      ((columnCells i1 rows).map f) = rows.map fun row => (row.take (i1 + 1)).map f := by
  induction rows with
  | nil => exact ⟨rfl, rfl⟩
  | cons row rows ih =>
    obtain ⟨cell, hcell⟩ := h row List.mem_cons_self
    have hcells : columnCells i1 (row :: rows) = cell :: columnCells i1 rows := List.filterMap_cons_some hcell
    obtain ⟨hlen, hzip⟩ := ih fun row hr => h row (List.mem_cons_of_mem _ hr)
    refine ⟨by rw [hcells, List.length_cons, List.length_cons, hlen], ?_⟩
    rw [hcells, List.map_cons, List.map_cons, List.map_cons, List.zipWith_cons_cons, hzip, List.take_add_one, hcell,
      List.map_append]
    rfl

theorem mem_columnCells {i1 : Nat} {rows : List (Row (List UInt8))} {cell : Cell (List UInt8)}
    (h : cell ∈ columnCells i1 rows) : ∃ row ∈ rows, row[i1]? = some cell :=
  List.mem_filterMap.mp h

theorem columnCells_match {type : ValueType} {types : List ValueType} {rows : List (Row (List UInt8))} {i1 : Nat}
    (hm : ∀ row ∈ rows, RowMatches i1 (type :: types) row) :
    (columnCells i1 rows).length = rows.length ∧ ∀ cell ∈ columnCells i1 rows, cell.Matches type := by
  constructor
  · refine (zipWith_columnCells id fun row hr => ?_).1
    obtain ⟨cell, hcell, -⟩ := (hm row hr).head
    exact ⟨cell, hcell⟩
  · intro cell hc
    obtain ⟨row, hr, hcell⟩ := mem_columnCells hc
    obtain ⟨cell', hcell', hmatch, -⟩ := (hm row hr).head
    rwa [Option.some.inj (hcell.symm.trans hcell')]

theorem getColumns_eq (hR : R.Source Reads heard) {rows : List (Row (List UInt8))}
    (ho : ∀ row ∈ rows, Cell.object (-1) ∉ row) {types : List ValueType} : ∀ {i1 : Nat} {ser : S},
    (∀ row ∈ rows, RowMatches i1 types row) → (∀ cell ∈ tableCells rows i1 types, (cellItem cell).Short) →
    Reads ser (encodeAll ((tableCells rows i1 types).map cellItem) ++ rest) →
      ∃ ser', R.getColumns rows.length (types.map some)
        (rows.map fun row => (row.take i1).map (cellHeard heard), ser) =
          some (rows.map fun row => (row.take (i1 + types.length)).map (cellHeard heard), ser') ∧ Reads ser' rest := by
  induction types with
  | nil => exact fun {i1 ser} _ _ h => ⟨ser, rfl, h⟩
  | cons type types ih =>
    intro i1 ser hm hs h
    rw [tableCells, List.map_append, encodeAll_append, List.append_assoc] at h
    obtain ⟨hlen, hzip⟩ := zipWith_columnCells (cellHeard heard) fun row hr => by
      obtain ⟨cell, hcell, -⟩ := (hm row hr).head
      exact ⟨cell, hcell⟩
    have hmatch := (columnCells_match hm).2
    have hobj : Cell.object (-1) ∉ columnCells i1 rows := by
      intro hc
      obtain ⟨row, hr, hcell⟩ := mem_columnCells hc
      exact ho row hr (List.mem_of_getElem? hcell)
    obtain ⟨ser₁, hcells, h₁⟩ :=
      getCells_eq hR hmatch hobj (fun cell hc => hs cell (List.mem_append_left _ hc)) h
    obtain ⟨ser', hrest, hr⟩ := ih (fun row hr => by
        obtain ⟨-, -, -, ht⟩ := (hm row hr).head
        exact ht)
      (fun cell hc => hs cell (List.mem_append_right _ hc)) h₁
    refine ⟨ser', ?_, hr⟩
    rw [hlen] at hcells
    rw [List.map_cons, getColumns, Option.bind_some, hcells, Option.bind_some]
    simp only [hzip]
    rw [hrest, List.length_cons, Nat.add_right_comm, Nat.add_assoc]

theorem getStrings_eq (hR : R.Source Reads heard) {ss : List Utf16} (hs : ∀ s ∈ ss, (Item.string s).Short) :
    ∀ {ser : S}, Reads ser (encodeAll (ss.map Item.string) ++ rest) →
      ∃ ser', R.getStrings ss.length ser = some (ss.map fun s => heard (fromUtf16 s), ser') ∧ Reads ser' rest := by
  induction ss with
  | nil => exact fun {ser} h => ⟨ser, rfl, h⟩
  | cons s ss ih =>
    intro ser h
    rw [List.map_cons, encodeAll_cons, List.append_assoc] at h
    have hstring : Reads ser (varintBytes (utf8 s).length ++ (utf8 s ++ (encodeAll (ss.map Item.string) ++ rest))) := by
      simpa [Item.encode, Item.pieces] using h
    obtain ⟨ser₁, hget, h₁⟩ := hR.getString (hs s List.mem_cons_self) hstring
    obtain ⟨ser', hrest, hr⟩ := ih (fun s hm => hs s (List.mem_cons_of_mem _ hm)) h₁
    refine ⟨ser', ?_, hr⟩
    rw [List.length_cons, getStrings, hget, Option.bind_some]
    simp only [hrest, Option.map_some, List.map_cons]

end Reader

/-- The characters of a declaration. -/
theorem toUtf16_types (types : List ValueType) :
    toUtf16 (types.map fun type => Char.ofNat type.char.toNat) = types.map ValueType.char := by
  rw [toUtf16, List.flatMap_map, List.map_eq_flatMap]
  exact congrArg₂ _ (funext fun type => by cases type <;> rfl) rfl

theorem fromUtf16_types (types : List ValueType) :
    fromUtf16 (types.map ValueType.char) = types.map fun type => Char.ofNat type.char.toNat := by
  rw [← toUtf16_types, fromUtf16_toUtf16]

theorem mem_tableCells {rows : List (Row (List UInt8))} {types : List ValueType} {cell : Cell (List UInt8)} :
    ∀ {i1 : Nat}, cell ∈ tableCells rows i1 types → ∃ row ∈ rows, cell ∈ row := by
  induction types with
  | nil => exact fun h => absurd h List.not_mem_nil
  | cons type types ih =>
    intro i1 h
    rcases List.mem_append.mp h with h | h
    · obtain ⟨row, hr, hcell⟩ := Reader.mem_columnCells h
      exact ⟨row, hr, List.mem_of_getElem? hcell⟩
    · exact ih h

namespace Table

variable {t : Table}

theorem mem_body {item : Item} (h : item ∈ t.body) :
    (∃ ns ∈ t.names, ∃ s ∈ ns, item = .string s) ∨ ∃ row ∈ t.rows, ∃ cell ∈ row, item = cellItem cell := by
  rcases List.mem_append.mp h with h | h
  · obtain ⟨s, hs, rfl⟩ := List.mem_map.mp h
    cases hn : t.names with
    | none =>
      rw [hn] at hs
      exact absurd hs List.not_mem_nil
    | some ns =>
      rw [hn] at hs
      exact .inl ⟨ns, rfl, s, hs, rfl⟩
  · obtain ⟨cell, hc, rfl⟩ := List.mem_map.mp h
    obtain ⟨row, hr, hc⟩ := mem_tableCells hc
    exact .inr ⟨row, hr, cell, hc, rfl⟩

theorem body_wellFormed {item : Item} (h : item ∈ t.body) : item.WellFormed := by
  rcases mem_body h with ⟨ns, hns, s, hs, rfl⟩ | ⟨row, hr, cell, hc, rfl⟩
  · exact t.names_text ns hns s hs
  · have hw := t.cells_text row hr cell hc
    cases cell with
    | string s => exact hw
    | _ => exact trivial

theorem items_wellFormed {item : Item} (h : item ∈ t.items) : item.WellFormed := by
  rcases List.mem_append.mp h with h | h
  · simp only [header, List.mem_cons, List.not_mem_nil, or_false] at h
    obtain rfl | rfl | rfl := h
    · exact trivial
    · exact trivial
    · exact ⟨_, (toUtf16_types t.types).symm⟩
  · exact body_wellFormed h

/-- The strings of a table. -/
def Strings (t : Table) (P : Utf16 → Prop) : Prop :=
  (∀ ns ∈ t.names, ∀ s ∈ ns, P s) ∧ ∀ row ∈ t.rows, ∀ s, Cell.string s ∈ row → P s

theorem strings_wellFormed (t : Table) : t.Strings Java.WellFormed :=
  ⟨t.names_text, fun row hr _ hs => t.cells_text row hr _ hs⟩

theorem Strings.congr {P Q : Utf16 → Prop} (h : ∀ s, Java.WellFormed s → (P s ↔ Q s)) :
    t.Strings P ↔ t.Strings Q :=
  ⟨fun hp => ⟨fun ns hns s hs => (h s (t.strings_wellFormed.1 ns hns s hs)).mp (hp.1 ns hns s hs),
      fun row hr s hs => (h s (t.strings_wellFormed.2 row hr s hs)).mp (hp.2 row hr s hs)⟩,
    fun hq => ⟨fun ns hns s hs => (h s (t.strings_wellFormed.1 ns hns s hs)).mpr (hq.1 ns hns s hs),
      fun row hr s hs => (h s (t.strings_wellFormed.2 row hr s hs)).mpr (hq.2 row hr s hs)⟩⟩

theorem map_cellHeard_iff {heard : List Char → Utf16} {row : Row (List UInt8)} :
    row.map (cellHeard heard) = row ↔ ∀ s, Cell.string s ∈ row → heard (fromUtf16 s) = s := by
  induction row with
  | nil => simp
  | cons cell row ih =>
    rw [List.map_cons, List.cons.injEq, ih]
    cases cell <;> simp [cellHeard]

/-- The table that is read is the one that was put when its strings are heard as
they are. -/
theorem heard_iff (t : Table) {heard : List Char → Utf16} :
    t.heard heard = t.serializer ↔ t.Strings fun s => heard (fromUtf16 s) = s := by
  have hmap : ∀ {α : Type} {f : α → α} {l : List α}, l.map f = l ↔ ∀ x ∈ l, f x = x := by
    intro α f l
    conv_lhs => rw [← List.map_id l, List.map_map]
    exact List.map_inj_left
  have hnames : (t.names.map fun ns => ns.map fun s => heard (fromUtf16 s)) = t.names ↔
      ∀ ns ∈ t.names, ∀ s ∈ ns, heard (fromUtf16 s) = s := by
    cases t.names with
    | none => simp
    | some ns => simp only [Option.map_some, Option.some.injEq, Option.mem_def, forall_eq', hmap]
  rw [Table.heard, serializer, TableSerializer.mk.injEq, hnames, hmap]
  simp only [map_cellHeard_iff, true_and, Strings]

end Table

theorem Table.flag_lt (t : Table) : t.flag < 2 ^ 32 := by
  unfold Table.flag
  split <;> decide

/-- A table is read as it was put, up to what becomes of its strings. -/
theorem Table.load_eq (t : Table) {R : Reader S} {Reads : S → List UInt8 → Prop} {heard : List Char → Utf16}
    (hR : R.Source Reads heard) (hD : R.Declares heard) (hs : ∀ item ∈ t.items, item.Short) {ser : S}
    {rest : List UInt8} (h : Reads ser (encodeAll t.items ++ rest)) :
    ∃ ser', TableSerializer.load R ser = some (t.heard heard, ser') ∧ Reads ser' rest := by
  have hflag := t.flag_lt
  have hcnt : t.rows.length < 2 ^ 32 := hs (.varint t.rows.length) (by simp [items, header])
  have htypes : (utf8 t.columnsType).length < 2 ^ 32 := hs (.string t.columnsType) (by simp [items, header])
  have hnames : ∀ s ∈ t.names.getD [], (Item.string s).Short := fun s hm =>
    hs _ (List.mem_append_right _ (List.mem_append_left _ (List.mem_map_of_mem hm)))
  have hcells : ∀ cell ∈ tableCells t.rows 0 t.types, (cellItem cell).Short := fun cell hm =>
    hs _ (List.mem_append_right _ (List.mem_append_right _ (List.mem_map_of_mem hm)))
  have hbytes : encodeAll t.items ++ rest =
      varintBytes t.flag ++ (varintBytes t.rows.length ++ (varintBytes (utf8 t.columnsType).length ++
        (utf8 t.columnsType ++ (encodeAll ((t.names.getD []).map Item.string) ++
          (encodeAll ((tableCells t.rows 0 t.types).map cellItem) ++ rest))))) := by
    simp [items, header, body, encodeAll_cons, encodeAll_append, Item.encode, Item.pieces]
  rw [hbytes] at h
  obtain ⟨ser₁, hget₁, h₁⟩ := hR.getVarint hflag h
  obtain ⟨ser₂, hget₂, h₂⟩ := hR.getVarint hcnt h₁
  obtain ⟨ser₃, hget₃, h₃⟩ := hR.getString htypes h₂
  obtain ⟨ser₄, hget₄, h₄⟩ := Reader.getStrings_eq hR hnames h₃
  obtain ⟨ser₅, hget₅, h₅⟩ := Reader.getColumns_eq hR t.objects t.rows_match hcells h₄
  have hdecl : heard (fromUtf16 t.columnsType) = t.types.map ValueType.char := by
    rw [columnsType, fromUtf16_types]
    exact hD.heard t.types
  have hempty : (t.rows.map fun row => (row.take 0).map (cellHeard heard)) = List.replicate t.rows.length [] := by
    simp
  have hfull : (t.rows.map fun row => (row.take (0 + t.types.length)).map (cellHeard heard)) =
      t.rows.map fun row => row.map (cellHeard heard) := by
    apply List.map_congr_left
    intro row hr
    have hlen := (t.rows_match row hr).length_eq
    rw [List.drop_zero] at hlen
    rw [Nat.zero_add, hlen, List.take_length]
  rw [hempty, hfull] at hget₅
  have hget₄' : TableSerializer.getNames R t.flag t.types.length ser₃ =
      some (t.names.map fun ns => ns.map fun s => heard (fromUtf16 s), ser₄) := by
    unfold TableSerializer.getNames flag
    cases hn : t.names with
    | none =>
      rw [hn] at hget₄
      obtain ⟨-, rfl⟩ := Prod.mk.inj (Option.some.inj hget₄)
      exact if_neg (by decide)
    | some ns =>
      rw [hn, Option.getD_some, t.names_length ns hn] at hget₄
      rw [hget₄, if_pos (by simp)]
      rfl
  refine ⟨ser₅, ?_, h₅⟩
  simp only [TableSerializer.load, Option.bind_eq_bind, hget₁, hget₂, hget₃, hdecl, hD.columns, List.length_map,
    hget₄', Reader.getRowsData, hget₅, Option.bind_some, Option.pure_def]
  rfl

end PxpRpc.Codec.Wire
