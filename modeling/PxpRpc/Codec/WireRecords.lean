import PxpRpc.Codec.JavaTableLoads
import PxpRpc.Codec.Records
import PxpRpc.Codec.TableAgreement

/-!
# Lists of records in TypeScript and Python

The types of the columns are guessed from the first row.
-/
namespace PxpRpc.Codec

open PxpRpc.Lib
open PxpRpc.Codec.Wire
open PxpRpc.Codec.Java (Cell Row RowMatches ValueType tableCells)

/-- What `build` declares where no types are given. -/
def guessTypes (guess : Cell (List UInt8) → ValueType) (rows : List (Row (List UInt8))) : Utf16 :=
  (rows.head?.getD []).map fun cell => (guess cell).char

namespace TypeScript

/-- By `typeof` and `instanceof`; a number is one of double precision. -/
def typeofCell : Cell (List UInt8) → ValueType
  | .int _ | .float _ | .double _ => .d
  | .string _ => .s
  | .boolean _ => .c
  | .long _ => .l
  | .bytes _ => .b
  | .null | .object _ => .o

def proto : Utf16 := toUtf16 "__proto__".toList

/-- An assignment to this name sets no property. -/
def isSet (name : Utf16) : Bool := name ≠ proto

/-- `fromMapArray`; there are no names to count where there are no records. -/
def fromMapArray (val : List (Record Utf16 (Cell (List UInt8)))) :
    Option (Option (List Utf16) × List (Row (List UInt8))) :=
  let columnsName := val.head?.map AList.keys
  columnsName.bind fun names => (val.mapM (rowOf names)).map fun rows => (columnsName, rows)

/-- `fromMapArray`, `build`, `load` and `toMapArray`. -/
def thereAndBack (val : List (Record Utf16 (Cell (List UInt8)))) :
    Option (List (Record Utf16 (Cell (List UInt8)))) := do
  let (columnsName, rows) ← fromMapArray val
  let buf ← TableSerializer.build 64 ⟨columnsName, guessTypes typeofCell rows, rows⟩
  let (t, _) ← TableSerializer.load buf
  toMapArray isSet t.columnsName t.rows

end TypeScript

namespace Python

def pytypeToDeclChar : Cell (List UInt8) → ValueType
  | .int _ | .long _ => .l
  | .float _ | .double _ => .d
  | .boolean _ => .c
  | .bytes _ => .b
  | .string _ => .s
  | .null | .object _ => .o

/-- `fromMapArray`; the names are needed for a row only. -/
def fromMapArray (val : List (Record Utf16 (Cell (List UInt8)))) :
    Option (Option (List Utf16) × List (Row (List UInt8))) :=
  let columnsName := val.head?.map AList.keys
  (val.mapM fun record => columnsName.bind fun names => rowOf names record).map fun rows => (columnsName, rows)

def thereAndBack (val : List (Record Utf16 (Cell (List UInt8)))) :
    Option (List (Record Utf16 (Cell (List UInt8)))) := do
  let (columnsName, rows) ← fromMapArray val
  let buf ← TableSerializer.build ⟨columnsName, guessTypes pytypeToDeclChar rows, rows⟩
  let (t, _) ← TableSerializer.load buf
  toMapArray (fun _ => true) t.columnsName t.rows

end Python

/-- Records whose integers are long ones, and whose other numbers are of double precision. -/
structure WireRecords extends RecordList (List UInt8) where
  guessed : ∀ key, typeOf key ≠ .i ∧ typeOf key ≠ .f

namespace WireRecords

variable (x : WireRecords)

/-- What is put for the records. -/
def items : List Item :=
  TableSerializer.items ⟨some x.names, x.types.map ValueType.char, x.rows⟩ x.types

/-- The records come back, with null for an object of the index -1. -/
def RoundTrips (thereAndBack : List (Record Utf16 (Cell (List UInt8))) →
    Option (List (Record Utf16 (Cell (List UInt8))))) : Prop :=
  ∃ out, thereAndBack x.records = some out ∧ x.SameAs Cell.byIndex out

/-! ### What is put -/

/-- A string as it is put by a writer that replaces what is not text. -/
def replaced (s : Utf16) : Utf16 := toUtf16 (fromUtf16With (Char.ofNat 0xfffd) s)

theorem replaced_wellFormed (s : Utf16) : Java.WellFormed (replaced s) := ⟨_, rfl⟩

theorem replaced_eq {s : Utf16} (h : Java.WellFormed s) : replaced s = s := by
  obtain ⟨text, rfl⟩ := h
  rw [replaced, fromUtf16With_toUtf16]

def cellReplaced : Cell (List UInt8) → Cell (List UInt8)
  | .string s => .string (replaced s)
  | cell => cell.byIndex

theorem cellReplaced_object (value : BitVec 32) :
    cellReplaced (.object value) = if value ≠ -1 then .object value else .null := rfl

def itemReplaced : Item → Item
  | .string s => .string (replaced s)
  | item => item

theorem cellItem_replaced (cell : Cell (List UInt8)) : cellItem (cellReplaced cell) = itemReplaced (cellItem cell) := by
  cases cell with
  | object value =>
    by_cases hv : value = -1
    · subst hv
      rfl
    · rw [cellReplaced_object, if_pos hv]
      rfl
  | _ => rfl

theorem itemReplaced_eq {item : Item} (h : item.WellFormed) : itemReplaced item = item := by
  cases item with
  | string s => rw [itemReplaced, replaced_eq h]
  | _ => rfl

theorem cellReplaced_matches {type : ValueType} {cell : Cell (List UInt8)} (h : cell.Matches type) :
    (cellReplaced cell).Matches type := by
  cases type <;> cases cell <;> first
    | exact absurd h id
    | trivial
    | (rw [cellReplaced_object]; split <;> trivial)

/-- The table that is put. -/
def table : Table where
  types := x.types
  names := some (x.names.map replaced)
  rows := x.rows.map fun row => row.map cellReplaced
  names_length := by simp [RecordList.types]
  rows_match := by
    rw [List.forall_mem_map]
    intro row hr
    have hm := RecordList.rows_match hr
    rw [RowMatches, List.drop_zero] at hm ⊢
    exact List.forall₂_map_right_iff.mpr (hm.imp fun _ _ => cellReplaced_matches)
  names_text := by
    simp only [Option.mem_def, Option.some.injEq, forall_eq', List.forall_mem_map]
    exact fun name _ => replaced_wellFormed name
  cells_text := by
    simp only [List.forall_mem_map]
    intro row _ cell _
    cases cell with
    | string s => exact replaced_wellFormed s
    | object value =>
      rw [cellReplaced_object]
      split <;> trivial
    | _ => trivial
  objects := by
    rw [List.forall_mem_map]
    intro row _ hmem
    obtain ⟨cell, -, hcell⟩ := List.mem_map.mp hmem
    cases cell with
    | object value =>
      rw [cellReplaced_object] at hcell
      split at hcell
      · rename_i hv
        exact hv (Cell.object.inj hcell)
      · cases hcell
    | _ => cases hcell

theorem table_items : x.table.items = x.items.map itemReplaced := by
  have hcells : (tableCells x.table.rows 0 x.types).map cellItem =
      ((tableCells x.rows 0 x.types).map cellItem).map itemReplaced := by
    rw [table, Java.Sheet.tableCells_map_cells, List.map_map, List.map_map]
    exact List.map_congr_left fun cell _ => cellItem_replaced cell
  have htypes : replaced (x.types.map ValueType.char) = x.types.map ValueType.char :=
    replaced_eq ⟨_, (toUtf16_types x.types).symm⟩
  have hnames : (x.names.map replaced).map Item.string = (x.names.map Item.string).map itemReplaced := by
    rw [List.map_map, List.map_map]
    rfl
  have hheader : x.table.header =
      [.varint 0, .varint x.rows.length, .string (x.types.map ValueType.char)].map itemReplaced := by
    change _ = [Item.varint 0, Item.varint x.rows.length, Item.string (replaced (x.types.map ValueType.char))]
    simp [htypes, Table.header, table, Table.flag, Table.columnsType]
  have hbody : x.table.body =
      (x.names.map Item.string ++ (tableCells x.rows 0 x.types).map cellItem).map itemReplaced := by
    rw [List.map_append, ← hnames, ← hcells]
    rfl
  rw [Table.items, hheader, hbody, ← List.map_append]
  rfl

/-- Where all strings are text, nothing is replaced. -/
theorem table_serializer (h : x.Strings Java.WellFormed) :
    x.table.serializer = ⟨some x.names, x.types.map ValueType.char, x.rows.map fun row => row.map Cell.byIndex⟩ := by
  have hnames : x.names.map replaced = x.names := by
    conv_rhs => rw [← List.map_id x.names]
    exact List.map_congr_left fun name hname => replaced_eq (h.1 name hname)
  have hrows : (x.rows.map fun row => row.map cellReplaced) = x.rows.map fun row => row.map Cell.byIndex := by
    refine List.map_congr_left fun row hr => List.map_congr_left fun cell hc => ?_
    cases cell with
    | string s => rw [cellReplaced, replaced_eq (h.2 row hr s hc)]; rfl
    | _ => rfl
  change (⟨some (x.names.map replaced), _, x.rows.map fun row => row.map cellReplaced⟩ : TableSerializer) = _
  rw [hnames, hrows]
  rfl

theorem mem_items {item : Item} (h : item ∈ x.items) (hs : x.Strings Java.WellFormed) : item.WellFormed := by
  rw [items, TableSerializer.items] at h
  rcases List.mem_append.mp h with h | h
  · simp only [List.mem_cons, List.not_mem_nil, or_false] at h
    obtain rfl | rfl | rfl := h
    · exact trivial
    · exact trivial
    · exact ⟨_, (toUtf16_types x.types).symm⟩
  · rcases List.mem_append.mp h with h | h
    · obtain ⟨name, hname, rfl⟩ := List.mem_map.mp h
      exact hs.1 name hname
    · obtain ⟨cell, hcell, rfl⟩ := List.mem_map.mp h
      obtain ⟨row, hr, hc⟩ := mem_tableCells hcell
      cases cell with
      | string s => exact hs.2 row hr s hc
      | _ => exact trivial

theorem mem_tableCells_of_getElem? {rows : List (Row (List UInt8))} {row : Row (List UInt8)} (hr : row ∈ rows) {i : Nat}
    {cell : Cell (List UInt8)} (hi : row[i]? = some cell) {types : List ValueType} : ∀ {i1 : Nat}, i1 ≤ i →
    i < i1 + types.length → cell ∈ tableCells rows i1 types := by
  induction types with
  | nil => exact fun hle hlt => absurd hlt (by simpa using hle)
  | cons type types ih =>
    intro i1 hle hlt
    rw [List.length_cons] at hlt
    rcases Nat.eq_or_lt_of_le hle with rfl | hnext
    · exact List.mem_append_left _ (List.mem_filterMap.mpr ⟨row, hr, hi⟩)
    · exact List.mem_append_right _ (ih hnext (by omega))

theorem strings_of_items (h : ∀ item ∈ x.items, item.WellFormed) : x.Strings Java.WellFormed := by
  refine ⟨fun name hname => h (.string name) ?_, fun row hr s hs => h (.string s) ?_⟩
  · exact List.mem_append_right _ (List.mem_append_left _ (List.mem_map_of_mem hname))
  · refine List.mem_append_right _ (List.mem_append_right _ (List.mem_map.mpr ⟨.string s, ?_, rfl⟩))
    obtain ⟨i, hi⟩ := List.getElem?_of_mem hs
    have hlt := (List.getElem?_eq_some_iff.mp hi).1
    rw [RecordList.length_row hr] at hlt
    exact mem_tableCells_of_getElem? hr hi (Nat.zero_le _) (by simpa [RecordList.types] using hlt)

theorem items_eq (hs : x.Strings Java.WellFormed) : x.table.items = x.items := by
  rw [table_items]
  conv_rhs => rw [← List.map_id x.items]
  exact List.map_congr_left fun item hi => itemReplaced_eq (x.mem_items hi hs)

theorem guessTypes_eq {guess : Cell (List UInt8) → ValueType} (hne : x.records ≠ [])
    (hguess : ∀ {type : ValueType} {cell : Cell (List UInt8)}, cell.Matches type → type ≠ .i → type ≠ .f →
      guess cell = type) : guessTypes guess x.rows = x.types.map ValueType.char := by
  obtain ⟨row, hrow⟩ : ∃ row, x.rows.head? = some row := by
    rw [← Option.isSome_iff_exists, List.isSome_head?, RecordList.rows]
    simpa using hne
  have hm := RecordList.rows_match (List.mem_of_head? hrow)
  rw [RowMatches, List.drop_zero] at hm
  rw [guessTypes, hrow, Option.getD_some]
  have hsame : row.map guess = x.types := by
    rw [RecordList.types, List.forall₂_map_left_iff] at hm
    rw [RecordList.types, ← List.forall₂_eq_eq_eq, List.forall₂_map_left_iff, List.forall₂_map_right_iff]
    exact hm.flip.imp fun _ name hcell => hguess hcell (x.guessed name).1 (x.guessed name).2
  rw [← hsame, List.map_map]
  rfl

theorem head_keys (hne : x.records ≠ []) : x.records.head?.map AList.keys = some x.names := by
  obtain ⟨first, hfirst⟩ := Option.isSome_iff_exists.mp (List.isSome_head?.mpr hne)
  rw [RecordList.names, hfirst]
  rfl

theorem cell_byIndex_length {row : Row (List UInt8)} (h : row ∈ x.rows.map fun row => row.map Cell.byIndex) :
    row.length = x.names.length := by
  obtain ⟨row, hr, rfl⟩ := List.mem_map.mp h
  rw [List.length_map, RecordList.length_row hr]

theorem pytypeToDeclChar_eq {type : ValueType} {cell : Cell (List UInt8)} (h : cell.Matches type) (hi : type ≠ .i)
    (hf : type ≠ .f) : Python.pytypeToDeclChar cell = type := by
  cases type <;> cases cell <;> first | exact absurd h id | exact absurd rfl hi | exact absurd rfl hf | rfl

theorem typeofCell_eq {type : ValueType} {cell : Cell (List UInt8)} (h : cell.Matches type) (hi : type ≠ .i)
    (hf : type ≠ .f) : TypeScript.typeofCell cell = type := by
  cases type <;> cases cell <;> first | exact absurd h id | exact absurd rfl hi | exact absurd rfl hf | rfl

/-! ### Python -/

theorem python_empty : Python.thereAndBack [] = none := rfl

theorem python_thereAndBack (hne : x.records ≠ []) : Python.thereAndBack x.records =
    (Python.Serializer.write x.items).bind fun buf => (Python.TableSerializer.load buf).bind fun (t, _) =>
      toMapArray (fun _ => true) t.columnsName t.rows := by
  have hmap : Python.fromMapArray x.records = some (some x.names, x.rows) := by
    rw [Python.fromMapArray, x.head_keys hne]
    simp only [Option.bind_some, RecordList.mapM_rowOf, Option.map_some]
  have hbuild : Python.TableSerializer.build ⟨some x.names, x.types.map ValueType.char, x.rows⟩ =
      Python.Serializer.write x.items := by
    rw [Python.TableSerializer.build, TableSerializer.build_eq Python.declares rfl fun _ => RecordList.rows_match,
      Python.Serializer.write, items]
  rw [Python.thereAndBack, hmap]
  simp only [Option.bind_eq_bind, Option.bind_some, x.guessTypes_eq hne pytypeToDeclChar_eq, hbuild]

/-- In Python records come back if and only if there are any, the strings are text, and counts and lengths are
words. -/
theorem python_roundTrips_iff : x.RoundTrips Python.thereAndBack ↔
    x.records ≠ [] ∧ x.Strings Java.WellFormed ∧ ∀ item ∈ x.items, item.Short := by
  rcases eq_or_ne x.records [] with hempty | hne
  · refine iff_of_false (fun h => ?_) fun h => h.1 hempty
    obtain ⟨out, hout, -⟩ := h
    rw [hempty, python_empty] at hout
    cases hout
  · rw [RoundTrips, x.python_thereAndBack hne]
    constructor
    · rintro ⟨out, hout, -⟩
      obtain ⟨buf, hbuf, -⟩ := Option.bind_eq_some_iff.mp hout
      have hitems := Python.write_some hbuf
      exact ⟨hne, x.strings_of_items fun item hi => (hitems item hi).1, fun item hi => (hitems item hi).2⟩
    · rintro ⟨-, hs, hshort⟩
      obtain ⟨ser, hload, -⟩ := Table.python_load (t := x.table) fun item hi => hshort item (x.items_eq hs ▸ hi)
      rw [x.items_eq hs, x.table_serializer hs] at hload
      refine ⟨_, ?_, (RecordList.sameAs_iff (fun _ => true) (fun _ _ => rfl)
        fun row => x.cell_byIndex_length).mpr rfl⟩
      rw [Python.write_eq (fun item hi => x.mem_items hi hs) hshort, Option.bind_some, hload, Option.bind_some]
      exact RecordList.toMapArray_eq _ fun row => x.cell_byIndex_length

/-! ### TypeScript -/

theorem typeScript_empty : TypeScript.thereAndBack [] = none := rfl

theorem putAll_replaced (items : List Item) (ser : TypeScript.Serializer) :
    TypeScript.Serializer.writer.putAll (items.map itemReplaced) ser =
      TypeScript.Serializer.writer.putAll items ser := by
  have hput : ∀ item, TypeScript.Serializer.writer.put (itemReplaced item) =
      TypeScript.Serializer.writer.put item := fun item => by
    cases item with
    | string s =>
      have hencode : TypeScript.encodeText (replaced s) = TypeScript.encodeText s := by
        rw [TypeScript.encodeText, TypeScript.encodeText, replaced, fromUtf16With_toUtf16]
      have hsame : TypeScript.Serializer.writer.encode (replaced s) = TypeScript.Serializer.writer.encode s :=
        congrArg some hencode
      funext ser
      rw [itemReplaced, Writer.put, Writer.put, Writer.putString, Writer.putString, hsame]
    | _ => rfl
  induction items generalizing ser with
  | nil => rfl
  | cons item items ih =>
    rw [List.map_cons, Writer.putAll, Writer.putAll, hput]
    exact congrArg _ (funext ih)

theorem typeScript_thereAndBack (hne : x.records ≠ []) : TypeScript.thereAndBack x.records =
    (TypeScript.Serializer.write 64 x.table.items).bind fun buf =>
      (TypeScript.TableSerializer.load buf).bind fun (t, _) =>
        toMapArray TypeScript.isSet t.columnsName t.rows := by
  have hmap : TypeScript.fromMapArray x.records = some (some x.names, x.rows) := by
    rw [TypeScript.fromMapArray, x.head_keys hne]
    simp only [Option.bind_some, RecordList.mapM_rowOf, Option.map_some]
  have hbuild : TypeScript.TableSerializer.build 64 ⟨some x.names, x.types.map ValueType.char, x.rows⟩ =
      TypeScript.Serializer.write 64 x.table.items := by
    rw [TypeScript.TableSerializer.build,
      TableSerializer.build_eq TypeScript.declares rfl fun _ => RecordList.rows_match, TypeScript.Serializer.write,
      table_items, putAll_replaced, items]
  rw [TypeScript.thereAndBack, hmap]
  simp only [Option.bind_eq_bind, Option.bind_some, x.guessTypes_eq hne typeofCell_eq, hbuild]

/-- A text is heard shorter, or as it is. -/
theorem heard_length (text : List Char) : (TypeScript.heard text).length ≤ (toUtf16 text).length ∧
    ((TypeScript.heard text).length = (toUtf16 text).length → TypeScript.heard text = toUtf16 text) := by
  have hunits : ∀ c, 0 < (utf16Units c).length := fun c => by
    rw [utf16Units]
    split <;> simp
  cases text with
  | nil => exact ⟨le_rfl, fun _ => rfl⟩
  | cons c text =>
    have hpos := hunits c
    rw [TypeScript.heard, TypeScript.stripBom]
    split
    · rw [toUtf16, toUtf16, List.flatMap_cons, List.length_append]
      exact ⟨Nat.le_add_left _ _, fun h => by omega⟩
    · exact ⟨le_rfl, fun _ => rfl⟩

/-- A string, and a cell, as they are loaded. -/
def heardString (s : Utf16) : Utf16 := TypeScript.heard (fromUtf16 (replaced s))

def heardCell (cell : Cell (List UInt8)) : Cell (List UInt8) := cellHeard TypeScript.heard (cellReplaced cell)

theorem heardString_iff {s : Utf16} :
    heardString s = s ↔ Java.WellFormed s ∧ (fromUtf16 s).head? ≠ some (Char.ofNat 0xfeff) := by
  constructor
  · intro h
    have hs : Java.WellFormed s := ⟨_, h.symm⟩
    rw [heardString, replaced_eq hs] at h
    exact ⟨hs, (TypeScript.heard_iff hs).mp h⟩
  · rintro ⟨hs, hmark⟩
    rw [heardString, replaced_eq hs]
    exact (TypeScript.heard_iff hs).mpr hmark

theorem heardCell_iff {cell : Cell (List UInt8)} :
    heardCell cell = cell.byIndex ↔ ∀ s, cell = .string s → heardString s = s := by
  cases cell with
  | string s =>
    rw [show heardCell (.string s) = .string (heardString s) from rfl, Cell.byIndex]
    · simp
    · simp
  | object value =>
    refine iff_of_true ?_ fun s h => by cases h
    rw [heardCell, cellReplaced_object, Cell.byIndex]
    split <;> rfl
  | _ => exact iff_of_true rfl fun s h => by cases h

/-- The records that come back. -/
def heardRecords : List (Record Utf16 (Cell (List UInt8))) :=
  (x.rows.map fun row => row.map heardCell).map fun row =>
    ofEntries (((x.names.map heardString).zip row).filter fun entry => TypeScript.isSet entry.1)

theorem toMapArray_heard : toMapArray TypeScript.isSet (x.table.heard TypeScript.heard).columnsName
    (x.table.heard TypeScript.heard).rows = some x.heardRecords := by
  have hheard : x.table.heard TypeScript.heard =
      ⟨some (x.names.map heardString), x.types.map ValueType.char, x.rows.map fun row => row.map heardCell⟩ := by
    change (⟨some ((x.names.map replaced).map _), _, (x.rows.map fun row => row.map cellReplaced).map _⟩ :
      TableSerializer) = _
    simp only [List.map_map, Function.comp_def]
    rfl
  rw [hheard]
  refine RecordList.toMapArray_eq _ ?_
  simp only [List.forall_mem_map, List.length_map]
  exact fun row => RecordList.length_row

/-- The records that come back are the same if and only if no key is left out and no string is changed. -/
theorem sameAs_heardRecords_iff (hne : x.records ≠ []) : x.SameAs Cell.byIndex x.heardRecords ↔
    TypeScript.proto ∉ x.names ∧ x.Strings fun s => heardString s = s := by
  have hlen : ∀ row ∈ x.rows.map fun row => row.map heardCell, row.length = x.names.length := by
    simp only [List.forall_mem_map, List.length_map]
    exact fun row => RecordList.length_row
  have hrows : ((x.rows.map fun row => row.map heardCell) = x.rows.map fun row => row.map Cell.byIndex) ↔
      ∀ row ∈ x.rows, ∀ s, Cell.string s ∈ row → heardString s = s := by
    simp only [List.map_inj_left, heardCell_iff]
    exact ⟨fun h row hr s hs => h row hr _ hs s rfl, fun h row hr cell hc s he => h row hr s (he ▸ hc)⟩
  have hsame : (∀ name ∈ x.names, heardString name = name) → x.names.map heardString = x.names := fun h => by
    conv_rhs => rw [← List.map_id x.names]
    exact List.map_congr_left h
  constructor
  · intro h
    have hnames := RecordList.names_of_sameAs _ hne h
    have hproto : TypeScript.proto ∉ x.names := fun hmem => by simpa [TypeScript.isSet] using (hnames _ hmem).2
    have hwell : ∀ name ∈ x.names, heardString name = TypeScript.heard (fromUtf16 name) := fun name hname => by
      obtain ⟨other, -, rfl⟩ := List.mem_map.mp (hnames name hname).1
      change TypeScript.heard (fromUtf16 (replaced (heardString other))) = _
      rw [replaced_eq (s := heardString other) ⟨_, rfl⟩]
    -- A string is heard shorter, or as it is.
    have hsize : ∀ name ∈ x.names, (heardString name).length ≤ name.length ∧
        ((heardString name).length = name.length → heardString name = name) := fun name hname => by
      obtain ⟨other, -, hother⟩ := List.mem_map.mp (hnames name hname).1
      have hlength := heard_length (fromUtf16 name)
      rwa [toUtf16_fromUtf16_iff.mpr ⟨_, hother.symm⟩, ← hwell name hname] at hlength
    have heq := size_eq_of_subset_map x.names_nodup (fun name hname => (hnames name hname).1)
      fun name hname => (hsize name hname).1
    have hheard : ∀ name ∈ x.names, heardString name = name := fun name hname =>
      (hsize name hname).2 (heq name hname)
    rw [heardRecords, hsame hheard, RecordList.sameAs_iff _ (fun name hname => (hnames name hname).2) hlen, hrows] at h
    exact ⟨hproto, hheard, h⟩
  · rintro ⟨hproto, hheard, hcells⟩
    rw [heardRecords, hsame hheard, RecordList.sameAs_iff _ ?_ hlen, hrows]
    · exact hcells
    · exact fun name hname => decide_eq_true fun h => hproto (h ▸ hname)

/-- In TypeScript records come back if and only if there are any, no key is `__proto__`, no string is marked or
other than text, and the bytes fit the buffers that are made for them. -/
theorem typeScript_roundTrips_iff (hshort : x.table.Short) : x.RoundTrips TypeScript.thereAndBack ↔
    x.records ≠ [] ∧ TypeScript.proto ∉ x.names ∧
    x.Strings (fun s => Java.WellFormed s ∧ (fromUtf16 s).head? ≠ some (Char.ofNat 0xfeff)) ∧
    TypeScript.Fits 64 0 ((allPieces x.items).map List.length) := by
  simp only [← heardString_iff]
  rcases eq_or_ne x.records [] with hempty | hne
  · refine iff_of_false (fun h => ?_) fun h => h.1 hempty
    obtain ⟨out, hout, -⟩ := h
    rw [hempty, typeScript_empty] at hout
    cases hout
  have hitems : (x.Strings fun s => heardString s = s) → x.table.items = x.items := fun hs =>
    x.items_eq ⟨fun name hname => (heardString_iff.mp (hs.1 name hname)).1,
      fun row hr s hs' => (heardString_iff.mp (hs.2 row hr s hs')).1⟩
  rw [RoundTrips, x.typeScript_thereAndBack hne, and_iff_right hne, ← and_assoc, ← x.sameAs_heardRecords_iff hne]
  obtain ⟨hfit, hnofit⟩ := @TypeScript.write_iff x.table.items 64 fun _ => Table.items_wellFormed
  by_cases hf : TypeScript.Fits 64 0 ((allPieces x.table.items).map List.length)
  · obtain ⟨v, hwrite, hvalid, hbytes⟩ := hfit hf
    obtain ⟨ser, hload, -⟩ := Table.typeScript_load hshort hvalid hbytes
    rw [hwrite, Option.bind_some, hload, Option.bind_some]
    simp only [toMapArray_heard, Option.some.injEq, exists_eq_left']
    refine ⟨fun h => ⟨h, ?_⟩, fun h => h.1⟩
    rwa [← hitems ((x.sameAs_heardRecords_iff hne).mp h).2]
  · rw [hnofit hf, Option.bind_none]
    refine iff_of_false (fun h => ?_) fun h => hf ?_
    · obtain ⟨out, hout, -⟩ := h
      cases hout
    · rw [hitems ((x.sameAs_heardRecords_iff hne).mp h.1).2]
      exact h.2

end WireRecords

end PxpRpc.Codec
