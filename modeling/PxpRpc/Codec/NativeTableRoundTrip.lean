import PxpRpc.Codec.NativeGrowth
import PxpRpc.Codec.NativeTableRows

/-!
# Tables in C++, written and read

The rows that are added, the bytes that are written for them, and what is loaded from
bytes in the common form.
-/
namespace PxpRpc.Codec.Native

open PxpRpc.Lib
open PxpRpc.Codec.Java (Cell Row RowMatches ValueType columnCells tableCells)

/-- The columns of a table. -/
def colsFrom (rows : List (Row (List UInt8))) : Nat → List ValueType → List (List TableCellValue)
  | _, [] => []
  | i1, _ :: types => (columnCells i1 rows).map TableCellValue.ofCell :: colsFrom rows (i1 + 1) types

/-- A table as it is kept in C++. -/
def inNative (t : Wire.Table) : TableSerializer where
  ser := none
  rowCnt := BitVec.ofNat 32 t.rows.length
  columnsType := Wire.utf8 t.columnsType
  columnsName := (t.names.getD []).map Wire.utf8
  cols := colsFrom t.rows 0 t.types
  currentAddValuePosX := -1

@[simp] theorem length_colsFrom (rows : List (Row (List UInt8))) (types : List ValueType) (i1 : Nat) :
    (colsFrom rows i1 types).length = types.length := by
  induction types generalizing i1 with
  | nil => rfl
  | cons type types ih => rw [colsFrom, List.length_cons, ih, List.length_cons]

theorem colsFrom_nil (types : List ValueType) (i1 : Nat) : colsFrom [] i1 types = List.replicate types.length [] := by
  induction types generalizing i1 with
  | nil => rfl
  | cons type types ih => rw [colsFrom, ih, List.length_cons, List.replicate_succ]; rfl

/-! ### The rows that are added -/

theorem columnCells_append {i1 : Nat} {rows : List (Row (List UInt8))} {row : Row (List UInt8)}
    {cell : Cell (List UInt8)} (h : row[i1]? = some cell) :
    columnCells i1 (rows ++ [row]) = columnCells i1 rows ++ [cell] := by
  have hlast : columnCells i1 [row] = [cell] := List.filterMap_cons_some h
  rw [← hlast]
  exact List.filterMap_append

/-- A row from the column `i1` on. -/
theorem drop_of_matches {i1 : Nat} {type : ValueType} {types : List ValueType} {row : Row (List UInt8)}
    (h : RowMatches i1 (type :: types) row) :
    ∃ cell, row.drop i1 = cell :: row.drop (i1 + 1) ∧ row[i1]? = some cell ∧ RowMatches (i1 + 1) types row := by
  obtain ⟨cell, hcell, -, ht⟩ := h.head
  obtain ⟨hlt, hget⟩ := List.getElem?_eq_some_iff.mp hcell
  exact ⟨cell, by rw [List.drop_eq_getElem_cons hlt, hget], hcell, ht⟩

/-- One more row, as it is pushed to the columns. -/
theorem colsFrom_push (rows : List (Row (List UInt8))) {row : Row (List UInt8)} {types : List ValueType} :
    ∀ {i1 : Nat}, RowMatches i1 types row →
      colsFrom (rows ++ [row]) i1 types =
        Columns.push (colsFrom rows i1 types) ((row.drop i1).map TableCellValue.ofCell) := by
  induction types with
  | nil => exact fun _ => rfl
  | cons type types ih =>
    intro i1 h
    obtain ⟨cell, hdrop, hcell, ht⟩ := drop_of_matches h
    rw [hdrop, List.map_cons, colsFrom, ih ht, columnCells_append hcell, List.map_append]
    rfl

/-- A table as it is kept in columns holds its rows. -/
theorem holds_colsFrom {types : List ValueType} {rows : List (Row (List UInt8))}
    (h : ∀ row ∈ rows, RowMatches 0 types row) :
    Columns.Holds (colsFrom rows 0 types) (rows.map fun row => row.map TableCellValue.ofCell) := by
  induction rows using List.reverseRecOn with
  | nil =>
    rw [colsFrom_nil]
    exact Columns.holds_nil_iff.mpr fun col hc => (List.mem_replicate.mp hc).2
  | append_singleton rows row ih =>
    have hrow : RowMatches 0 types row := h row (by simp)
    have hlen : types.length = row.length := List.Forall₂.length_eq hrow
    rw [List.map_append, colsFrom_push rows hrow, List.drop_zero]
    refine (Columns.holds_push_iff ?_).mpr ⟨ih fun r hr => h r (List.mem_append_left _ hr), rfl⟩
    rw [List.length_map, length_colsFrom, hlen]

namespace TableSerializer

variable {rows : List (Row (List UInt8))} {row : Row (List UInt8)} {types : List ValueType} {s : TableSerializer}

/-- All values of a row. -/
theorem addValues_row (h : RowMatches 0 types row) (hne : types ≠ []) (hcols : s.cols = colsFrom rows 0 types)
    (hb : s.BetweenRows) : s.addValues (row.map TableCellValue.ofCell) =
      some { s with
        rowCnt := s.rowCnt + 1
        cols := colsFrom (rows ++ [row]) 0 types
        currentAddValuePosX := (types.length : Int) - 1 } := by
  have hlen : types.length = row.length := List.Forall₂.length_eq h
  have hsize : s.cols.length = types.length := by rw [hcols, length_colsFrom]
  have hrow : (row.map TableCellValue.ofCell).length = s.cols.length := by rw [List.length_map, hsize, hlen]
  have hvalues : row.map TableCellValue.ofCell ≠ [] := by
    refine List.ne_nil_of_length_pos ?_
    rw [hrow, hsize]
    exact List.length_pos_of_ne_nil hne
  have hpush := colsFrom_push rows h
  rw [List.drop_zero] at hpush
  rw [addValues_push hb hrow hvalues, hsize, hpush, hcols]

theorem addRow_eq (h : RowMatches 0 types row) (hlen : s.columnsType.length = types.length)
    (hcols : s.cols = colsFrom rows 0 types) : s.addRow (row.map TableCellValue.ofCell) =
      some { s with cols := colsFrom (rows ++ [row]) 0 types, rowCnt := s.rowCnt + 1 } := by
  have hmatch : types.length = row.length := List.Forall₂.length_eq h
  have hpush := colsFrom_push rows h
  rw [List.drop_zero] at hpush
  rw [addRow_push (by rw [hcols, length_colsFrom, hlen]) (by rw [List.length_map, hlen, hmatch]), hpush, hcols]

/-- Rows, in whichever way each is added. -/
theorem addRows_eq {ways : List (Bool × List TableCellValue)} (hne : types ≠ []) :
    ∀ {rows rows' : List (Row (List UInt8))} {s : TableSerializer}, (∀ row ∈ rows', RowMatches 0 types row) →
      ways.map Prod.snd = rows'.map (fun row => row.map TableCellValue.ofCell) →
      s.columnsType.length = types.length → s.cols = colsFrom rows 0 types → s.BetweenRows →
      ∃ pos, s.addRows ways =
        some { s with
          rowCnt := s.rowCnt + BitVec.ofNat 32 rows'.length
          cols := colsFrom (rows ++ rows') 0 types
          currentAddValuePosX := pos } := by
  induction ways with
  | nil =>
    intro rows rows' s _ hways _ hcols _
    obtain rfl : rows' = [] := List.map_eq_nil_iff.mp hways.symm
    refine ⟨s.currentAddValuePosX, ?_⟩
    rw [List.append_nil, ← hcols]
    change some s = some { s with rowCnt := s.rowCnt + BitVec.ofNat 32 0 }
    rw [BitVec.add_zero]
  | cons way ways ih =>
    intro rows rows' s hm hways hlen hcols hb
    cases rows' with
    | nil => cases hways
    | cons row rows' =>
      obtain ⟨hrow, hways'⟩ := List.cons.inj hways
      have hmatch := hm row List.mem_cons_self
      have hrest : ∀ row ∈ rows', RowMatches 0 types row := fun r hr => hm r (List.mem_cons_of_mem _ hr)
      have hcnt : s.rowCnt + 1 + BitVec.ofNat 32 rows'.length = s.rowCnt + BitVec.ofNat 32 (row :: rows').length := by
        rw [List.length_cons, Nat.add_comm, BitVec.ofNat_add, ← BitVec.add_assoc]
        rfl
      obtain ⟨byValue, row₁⟩ := way
      obtain rfl : row₁ = row.map TableCellValue.ofCell := hrow
      cases byValue with
      | true =>
        obtain ⟨pos, hadd⟩ := @ih (rows ++ [row]) rows' { s with
          rowCnt := s.rowCnt + 1
          cols := colsFrom (rows ++ [row]) 0 types
          currentAddValuePosX := (types.length : Int) - 1 } hrest hways' hlen rfl
          (.inr (by simp only [length_colsFrom]; omega))
        refine ⟨pos, ?_⟩
        rw [addRows, if_pos rfl, addValues_row hmatch hne hcols hb, Option.bind_some, hadd, hcnt,
          List.append_assoc]
        rfl
      | false =>
        obtain ⟨pos, hadd⟩ := @ih (rows ++ [row]) rows' { s with
          rowCnt := s.rowCnt + 1
          cols := colsFrom (rows ++ [row]) 0 types } hrest hways' hlen rfl (by
            rcases hb with hb | hb
            · exact .inl hb
            · refine .inr (hb.trans ?_)
              rw [hcols]
              simp only [length_colsFrom])
        refine ⟨pos, ?_⟩
        rw [addRows, if_neg (by decide), addRow_eq hmatch hlen hcols, Option.bind_some]
        refine hadd.trans ?_
        rw [hcnt, List.append_assoc]
        rfl

end TableSerializer

/-! ### Declarations -/

theorem toUtf8_ascii (types : List ValueType) : toUtf8 (types.map fun type => Char.ofNat type.char.toNat) =
    types.map fun type => type.char.toUInt8 := by
  rw [toUtf8, List.flatMap_map, List.map_eq_flatMap]
  exact congrArg₂ _ (funext fun type => by cases type <;> decide) rfl

theorem utf8_types (types : List ValueType) :
    Wire.utf8 (types.map ValueType.char) = types.map fun type => type.char.toUInt8 := by
  rw [Wire.utf8, Wire.fromUtf16_types, toUtf8_ascii]

theorem knownType_char {type : ValueType} (h : type ≠ .o) : TableSerializer.knownType type.char.toUInt8 = some type := by
  cases type with
  | o => exact absurd rfl h
  | _ => decide

/-- A new table with the columns' types and names, and the rows. -/
def added (t : Wire.Table) (ways : List (Bool × List TableCellValue)) : Option TableSerializer :=
  (TableSerializer.new.setColumnsInfo (Wire.utf8 t.columnsType) ((t.names.getD []).map Wire.utf8)).addRows ways

theorem added_eq {t : Wire.Table} (hne : t.types ≠ []) {ways : List (Bool × List TableCellValue)}
    (hways : ways.map Prod.snd = t.rows.map fun row => row.map TableCellValue.ofCell) :
    ∃ pos, added t ways = some { inNative t with currentAddValuePosX := pos } := by
  have hlen : (Wire.utf8 t.columnsType).length = t.types.length := by
    rw [Wire.Table.columnsType, utf8_types, List.length_map]
  obtain ⟨pos, hadd⟩ := @TableSerializer.addRows_eq t.types ways hne [] t.rows
    (TableSerializer.new.setColumnsInfo (Wire.utf8 t.columnsType) ((t.names.getD []).map Wire.utf8)) t.rows_match hways
    hlen (by rw [colsFrom_nil, ← hlen]; rfl) (.inl rfl)
  refine ⟨pos, hadd.trans ?_⟩
  rw [List.nil_append, show TableSerializer.rowCnt (TableSerializer.new.setColumnsInfo _ _) = 0#32 from rfl,
    BitVec.zero_add]
  rfl

/-! ### What is written -/

/-- The put call of the C serializer for an item. -/
def nativeItem : Wire.Item → Item
  | .int v => .int [v]
  | .long v => .long [v]
  | .float v => .float [v]
  | .double v => .double [v]
  | .varint n => .varint (BitVec.ofNat 32 n)
  | .bytes b => .bytes b
  | .string s => .bytes ((Wire.utf8 s).take ((Wire.utf8 s).length % 2 ^ 32))

theorem putAll_append (items items' : List Item) (ser : Serializer) :
    putAll (items ++ items') ser = (putAll items ser).bind (putAll items') := by
  induction items generalizing ser with
  | nil => rfl
  | cons item items ih =>
    rw [List.cons_append, putAll, putAll, Option.bind_assoc]
    exact congrArg _ (funext ih)

namespace TableSerializer

theorem putCell_eq {type : ValueType} {cell : Cell (List UInt8)} (h : cell.Matches type) (ho : type ≠ .o)
    (ser : Serializer) :
    putCell type (TableCellValue.ofCell cell) ser = (nativeItem (Wire.cellItem cell)).put ser := by
  cases type <;> cases cell <;> try first | exact absurd h id | exact absurd rfl ho | rfl
  rename_i v
  cases v <;> rfl

theorem putCells_eq {type : ValueType} {cells : List (Cell (List UInt8))} (h : ∀ cell ∈ cells, cell.Matches type)
    (ho : type ≠ .o) (ser : Serializer) :
    putCells type (cells.map TableCellValue.ofCell) ser =
      putAll ((cells.map Wire.cellItem).map nativeItem) ser := by
  induction cells generalizing ser with
  | nil => rfl
  | cons cell cells ih =>
    rw [List.map_cons, putCells, putCell_eq (h cell List.mem_cons_self) ho, List.map_cons, List.map_cons, putAll]
    exact congrArg _ (funext fun ser => ih (fun c hc => h c (List.mem_cons_of_mem _ hc)) ser)

theorem putColumns_eq {rows : List (Row (List UInt8))} {cols : List (List TableCellValue)} {types : List ValueType} :
    ∀ {i1 : Nat}, (∀ row ∈ rows, RowMatches i1 types row) → .o ∉ types → cols.drop i1 = colsFrom rows i1 types →
      ∀ ser : Serializer, putColumns cols i1 (types.map fun type => type.char.toUInt8) ser =
        putAll (((tableCells rows i1 types).map Wire.cellItem).map nativeItem) ser := by
  induction types with
  | nil => exact fun _ _ _ _ => rfl
  | cons type types ih =>
    intro i1 h ho hcols ser
    have htype : type ≠ .o := fun he => ho (he ▸ List.mem_cons_self)
    have hcol : cols[i1]? = some ((columnCells i1 rows).map TableCellValue.ofCell) := by
      rw [← Nat.add_zero i1, ← List.getElem?_drop, hcols]
      rfl
    have hdrop : cols.drop (i1 + 1) = colsFrom rows (i1 + 1) types := by
      rw [← List.drop_drop, hcols]
      rfl
    have htail : ∀ row ∈ rows, RowMatches (i1 + 1) types row := by
      intro row hr
      obtain ⟨-, -, -, ht⟩ := (h row hr).head
      exact ht
    rw [List.map_cons, putColumns, putColumn, knownType_char htype]
    simp only [hcol, Option.bind_some]
    rw [putCells_eq (Wire.Reader.columnCells_match h).2 htype, tableCells, List.map_append, List.map_append,
      putAll_append]
    exact congrArg _ (funext fun ser => ih htail (fun hm => ho (List.mem_cons_of_mem _ hm)) hdrop ser)

theorem putStrings_eq (ss : List Utf16) (ser : Serializer) :
    putStrings (ss.map Wire.utf8) ser = putAll ((ss.map Wire.Item.string).map nativeItem) ser := by
  induction ss generalizing ser with
  | nil => rfl
  | cons s ss ih =>
    rw [List.map_cons, putStrings, List.map_cons, List.map_cons, putAll]
    exact congrArg _ (funext ih)

/-- A table is put as its items. -/
theorem buildSer_eq {t : Wire.Table} (hne : t.types ≠ []) (ho : .o ∉ t.types) (pos : Int) :
    buildSer { inNative t with currentAddValuePosX := pos } = putAll (t.items.map nativeItem) (prepareSer 16) := by
  have htypes : Wire.utf8 t.columnsType = t.types.map fun type => type.char.toUInt8 := utf8_types t.types
  have hflag : nameFlag { inNative t with currentAddValuePosX := pos } = BitVec.ofNat 32 t.flag := by
    unfold nameFlag Wire.Table.flag inNative
    cases hn : t.names with
    | none =>
      rw [if_pos ⟨rfl, by rw [htypes]; simpa using hne⟩]
      rfl
    | some ns =>
      have hns : ns ≠ [] := fun he => hne (List.length_eq_zero_iff.mp (by rw [← t.names_length ns hn, he]; rfl))
      rw [if_neg fun hc => hns (List.map_eq_nil_iff.mp hc.1)]
      rfl
  have hnames : ∀ ser : Serializer, putNames (BitVec.ofNat 32 t.flag) ((t.names.getD []).map Wire.utf8) ser =
      putAll (((t.names.getD []).map Wire.Item.string).map nativeItem) ser := by
    intro ser
    unfold Wire.Table.flag putNames
    cases hn : t.names with
    | none => rfl
    | some ns =>
      rw [if_pos (by simp)]
      exact putStrings_eq ns ser
  have hcells : ∀ ser : Serializer, putColumns (inNative t).cols 0 (Wire.utf8 t.columnsType) ser =
      putAll (((tableCells t.rows 0 t.types).map Wire.cellItem).map nativeItem) ser := by
    rw [htypes]
    exact putColumns_eq t.rows_match ho (List.drop_zero ..)
  unfold buildSer
  rw [hflag, Wire.Table.items, Wire.Table.header, Wire.Table.body]
  simp only [List.map_append, List.map_cons, List.cons_append, List.nil_append, putAll, putAll_append,
    ← funext hcells, ← hnames]
  rfl

end TableSerializer

/-! ### What is read -/

/-- The bytes still to be read of a packet. -/
structure Left (ser : Serializer) (rest : List UInt8) : Prop where
  length : ser.buf.length < 2 ^ 32
  split : ∃ pre, ser.buf = (pre ++ rest).map some ∧ ser.pos.toNat = pre.length

namespace Left

variable {ser : Serializer} {bs rest : List UInt8}

theorem prepareUnser {data : List UInt8} (h : data.length < 2 ^ 32) :
    Left (prepareUnser (data.map some) (BitVec.ofNat 32 data.length)) data :=
  ⟨by rw [Native.prepareUnser, List.length_map]; exact h, [], rfl, rfl⟩

theorem getRaw (h : Left ser (bs ++ rest)) :
    ∃ ser', getRaw bs.length ser = some (bs, ser') ∧ Left ser' rest := by
  obtain ⟨pre, hbuf, hpos⟩ := h.split
  have hlen := h.length
  rw [hbuf, List.length_map, List.length_append, List.length_append] at hlen
  have hread : ser.buf.read ser.pos.toNat bs.length = some bs := by
    have hslice : (ser.buf.drop pre.length).take bs.length = bs.map some := by
      rw [hbuf, ← List.map_drop, ← List.map_take, List.drop_left, List.take_left]
    rw [Block.read, hpos, hslice, if_pos (by rw [hbuf]; simp), Block.mapM_id_map_some]
  refine ⟨{ ser with pos := ser.pos + BitVec.ofNat 32 bs.length }, ?_, h.length, pre ++ bs, ?_, ?_⟩
  · rw [Native.getRaw, hread, Option.map_some]
  · rw [List.append_assoc]
    exact hbuf
  · rw [BitVec.toNat_add, BitVec.toNat_ofNat, hpos, List.length_append]
    omega

end Left

/-- The C serializer as a reader of the common form. -/
def reader : Wire.Reader Serializer where
  getRaw := getRaw
  getContent := getRaw
  decode bytes := some (toUtf16 (fromUtf8 bytes))
  columns types := types.map ValueType.ofChar

theorem source : reader.Source Left toUtf16 where
  raw := Left.getRaw
  content := Left.getRaw
  decode text := congrArg some (congrArg toUtf16 (fromUtf8_toUtf8 text))

theorem getVarint_eq (ser : Serializer) :
    getVarint ser = (reader.getVarint ser).map fun (n, ser) => (BitVec.ofNat 32 n, ser) := by
  unfold getVarint Wire.Reader.getVarint
  change (getRaw 1 ser).bind _ = ((getRaw 1 ser).bind _).map _
  cases getRaw 1 ser with
  | none => rfl
  | some out =>
    rw [Option.bind_some, Option.bind_some]
    change (if leValue out.1 = 255 then _ else _) = (if leValue out.1 = 255 then (getRaw 4 out.2).map _ else _).map _
    split
    · cases getRaw 4 out.2 <;> rfl
    · rfl

variable {ser : Serializer} {rest : List UInt8}

theorem left_getVarint {n : Nat} (hn : n < 2 ^ 32) (h : Left ser (Wire.varintBytes n ++ rest)) :
    ∃ ser', getVarint ser = some (BitVec.ofNat 32 n, ser') ∧ Left ser' rest := by
  obtain ⟨ser', hget, hl⟩ := source.getVarint hn h
  exact ⟨ser', by rw [getVarint_eq, hget, Option.map_some], hl⟩

theorem left_getBytes {b : List UInt8} (hb : b.length < 2 ^ 32)
    (h : Left ser (Wire.varintBytes b.length ++ (b ++ rest))) :
    ∃ ser', getBytes ser = some (b, ser') ∧ Left ser' rest := by
  obtain ⟨ser₁, hlen, h₁⟩ := left_getVarint hb h
  obtain ⟨ser', hget, hl⟩ := h₁.getRaw
  have hn : (BitVec.ofNat 32 b.length).toNat = b.length := by
    rw [BitVec.toNat_ofNat]
    omega
  refine ⟨ser', ?_, hl⟩
  rw [getBytes, hlen, Option.bind_some]
  simp only [hn]
  exact hget

theorem left_getWords {w : Nat} {vs : List (BitVec (8 * w))}
    (h : Left ser ((vs.map BitVec.toNat).flatMap (leBytes w) ++ rest)) :
    ∃ ser', getWords w vs.length ser = some (vs.map BitVec.toNat, ser') ∧ Left ser' rest := by
  obtain ⟨ser', hget, hl⟩ := h.getRaw
  rw [length_flatMap_leBytes, List.length_map] at hget
  refine ⟨ser', ?_, hl⟩
  have hwords := leWords_flatMap (toNat_mem_lt vs)
  rw [List.length_map] at hwords
  rw [getWords, hget, Option.map_some, hwords]

namespace TableSerializer

theorem getStrings_eq {bs : List (List UInt8)} (hs : ∀ b ∈ bs, b.length < 2 ^ 32) : ∀ {ser : Serializer},
    Left ser (Wire.encodeAll (bs.map Wire.Item.bytes) ++ rest) →
      ∃ ser', getStrings bs.length ser = some (bs, ser') ∧ Left ser' rest := by
  induction bs with
  | nil => exact fun {ser} h => ⟨ser, rfl, h⟩
  | cons b bs ih =>
    intro ser h
    have hb : Left ser (Wire.varintBytes b.length ++ (b ++ (Wire.encodeAll (bs.map Wire.Item.bytes) ++ rest))) := by
      simpa [Wire.encodeAll_cons, Wire.Item.encode, Wire.Item.pieces] using h
    obtain ⟨ser₁, hget, h₁⟩ := left_getBytes (hs b List.mem_cons_self) hb
    obtain ⟨ser', hrest, hl⟩ := ih (fun b hm => hs b (List.mem_cons_of_mem _ hm)) h₁
    refine ⟨ser', ?_, hl⟩
    rw [List.length_cons, getStrings, hget, Option.bind_some]
    simp only [hrest, Option.map_some]

theorem getBools_eq {vs : List Bool} : ∀ {ser : Serializer},
    Left ser (Wire.encodeAll (vs.map fun v => Wire.Item.varint (if v then 1 else 0)) ++ rest) →
      ∃ ser', getBools vs.length ser = some (vs.map fun v => .i32 (if v then 1 else 0), ser') ∧ Left ser' rest := by
  induction vs with
  | nil => exact fun {ser} h => ⟨ser, rfl, h⟩
  | cons v vs ih =>
    intro ser h
    have hv : Left ser (Wire.varintBytes (if v then 1 else 0) ++
        (Wire.encodeAll (vs.map fun v => Wire.Item.varint (if v then 1 else 0)) ++ rest)) := by
      simpa [Wire.encodeAll_cons, Wire.Item.encode, Wire.Item.pieces] using h
    obtain ⟨ser₁, hget, h₁⟩ := left_getVarint (by cases v <;> decide) hv
    obtain ⟨ser', hrest, hl⟩ := ih h₁
    refine ⟨ser', ?_, hl⟩
    rw [List.length_cons, getBools, hget, Option.bind_some]
    simp only [hrest, Option.map_some, List.map_cons]
    cases v <;> rfl

/-- Cells of a type are the values of that type. -/
theorem exists_values {α : Type} {f : α → Cell (List UInt8)} {cells : List (Cell (List UInt8))}
    (h : ∀ cell ∈ cells, ∃ v, f v = cell) : ∃ vs : List α, vs.map f = cells := by
  have hmem : cells ∈ Set.range (List.map f) := by
    rw [Set.range_list_map]
    exact h
  exact hmem

theorem getVec_eq {w : Nat} (get : Nat → Serializer → Option (List (BitVec (8 * w)) × Serializer))
    (hget : ∀ n ser, get n ser = (getWords w n ser).map fun r => (r.1.map (BitVec.ofNat (8 * w)), r.2))
    {vs : List (BitVec (8 * w))} (hn : vs.length < 2 ^ 31)
    (h : Left ser ((vs.map BitVec.toNat).flatMap (leBytes w) ++ rest)) :
    ∃ ser', getVec get (BitVec.ofNat 32 vs.length) ser = some (vs, ser') ∧ Left ser' rest := by
  obtain ⟨ser', hwords, hl⟩ := left_getWords h
  have hnat : (BitVec.ofNat 32 vs.length).toNat = vs.length := by
    rw [BitVec.toNat_ofNat]
    omega
  have hmsb : (BitVec.ofNat 32 vs.length).msb = false := by
    rw [BitVec.msb_eq_false_iff_two_mul_lt, hnat]
    omega
  refine ⟨ser', ?_, hl⟩
  rw [getVec, hmsb, if_neg (by decide), hnat, hget, hwords, Option.map_some, map_ofNat_toNat]

theorem encodeAll_words {w : Nat} {f : BitVec (8 * w) → Wire.Item} (hf : ∀ v, (f v).encode = leBytes w v.toNat)
    (vs : List (BitVec (8 * w))) : Wire.encodeAll (vs.map f) = (vs.map BitVec.toNat).flatMap (leBytes w) := by
  unfold Wire.encodeAll
  rw [List.flatMap_map, List.flatMap_map]
  exact congrArg₂ _ (funext hf) rfl

theorem getColumn_eq {type : ValueType} {cells : List (Cell (List UInt8))} (ho : type ≠ .o)
    (hm : ∀ cell ∈ cells, cell.Matches type) (hn : cells.length < 2 ^ 31)
    (hs : ∀ cell ∈ cells, (Wire.cellItem cell).Short)
    (h : Left ser (Wire.encodeAll (cells.map Wire.cellItem) ++ rest)) :
    ∃ ser', getColumn (BitVec.ofNat 32 cells.length) type ser = some (cells.map TableCellValue.ofCell, ser') ∧
      Left ser' rest := by
  have hint : (BitVec.ofNat 32 cells.length).toInt.toNat = cells.length := by
    rw [BitVec.toInt_eq_toNat_of_lt (by rw [BitVec.toNat_ofNat]; omega), BitVec.toNat_ofNat]
    omega
  cases type with
  | o => exact absurd rfl ho
  | i =>
    obtain ⟨vs, rfl⟩ := exists_values (f := Cell.int) fun cell hc => by
      have hcell := hm cell hc
      cases cell <;> first | exact ⟨_, rfl⟩ | exact absurd hcell id
    rw [List.map_map, encodeAll_words (w := 4) fun v => by simp [Wire.cellItem, Wire.Item.encode, Wire.Item.pieces]] at h
    rw [List.length_map] at hn ⊢
    obtain ⟨ser', hget, hl⟩ := getVec_eq (w := 4) getInt (fun n ser => rfl) hn h
    refine ⟨ser', ?_, hl⟩
    rw [getColumn, hget, Option.map_some, List.map_map]
    rfl
  | l =>
    obtain ⟨vs, rfl⟩ := exists_values (f := Cell.long) fun cell hc => by
      have hcell := hm cell hc
      cases cell <;> first | exact ⟨_, rfl⟩ | exact absurd hcell id
    rw [List.map_map, encodeAll_words (w := 8) fun v => by simp [Wire.cellItem, Wire.Item.encode, Wire.Item.pieces]] at h
    rw [List.length_map] at hn ⊢
    obtain ⟨ser', hget, hl⟩ := getVec_eq (w := 8) getLong (fun n ser => rfl) hn h
    refine ⟨ser', ?_, hl⟩
    rw [getColumn, hget, Option.map_some, List.map_map]
    rfl
  | f =>
    obtain ⟨vs, rfl⟩ := exists_values (f := Cell.float) fun cell hc => by
      have hcell := hm cell hc
      cases cell <;> first | exact ⟨_, rfl⟩ | exact absurd hcell id
    rw [List.map_map, encodeAll_words (w := 4) fun v => by simp [Wire.cellItem, Wire.Item.encode, Wire.Item.pieces]] at h
    rw [List.length_map] at hn ⊢
    obtain ⟨ser', hget, hl⟩ := getVec_eq (w := 4) getFloat (fun n ser => rfl) hn h
    refine ⟨ser', ?_, hl⟩
    rw [getColumn, hget, Option.map_some, List.map_map]
    rfl
  | d =>
    obtain ⟨vs, rfl⟩ := exists_values (f := Cell.double) fun cell hc => by
      have hcell := hm cell hc
      cases cell <;> first | exact ⟨_, rfl⟩ | exact absurd hcell id
    rw [List.map_map, encodeAll_words (w := 8) fun v => by simp [Wire.cellItem, Wire.Item.encode, Wire.Item.pieces]] at h
    rw [List.length_map] at hn ⊢
    obtain ⟨ser', hget, hl⟩ := getVec_eq (w := 8) getDouble (fun n ser => rfl) hn h
    refine ⟨ser', ?_, hl⟩
    rw [getColumn, hget, Option.map_some, List.map_map]
    rfl
  | b =>
    obtain ⟨bs, rfl⟩ := exists_values (f := Cell.bytes) fun cell hc => by
      have hcell := hm cell hc
      cases cell <;> first | exact ⟨_, rfl⟩ | exact absurd hcell id
    rw [List.map_map] at h
    obtain ⟨ser', hget, hl⟩ := getStrings_eq (fun b hb => hs _ (List.mem_map_of_mem hb)) h
    refine ⟨ser', ?_, hl⟩
    rw [List.length_map] at hint ⊢
    rw [getColumn, hint, hget, Option.map_some, List.map_map]
    rfl
  | s =>
    obtain ⟨ss, rfl⟩ := exists_values (f := Cell.string) fun cell hc => by
      have hcell := hm cell hc
      cases cell <;> first | exact ⟨_, rfl⟩ | exact absurd hcell id
    have hbytes : Wire.encodeAll ((ss.map Cell.string).map Wire.cellItem) =
        Wire.encodeAll ((ss.map Wire.utf8).map Wire.Item.bytes) := by
      unfold Wire.encodeAll
      rw [List.flatMap_map, List.flatMap_map, List.flatMap_map, List.flatMap_map]
      rfl
    rw [hbytes] at h
    obtain ⟨ser', hget, hl⟩ := getStrings_eq (fun b hb => by
      obtain ⟨s, hm, rfl⟩ := List.mem_map.mp hb
      exact hs _ (List.mem_map_of_mem hm)) h
    refine ⟨ser', ?_, hl⟩
    rw [List.length_map] at hint hget ⊢
    rw [getColumn, hint, hget, Option.map_some, List.map_map]
    simp only [List.map_map]
    rfl
  | c =>
    obtain ⟨vs, rfl⟩ := exists_values (f := Cell.boolean) fun cell hc => by
      have hcell := hm cell hc
      cases cell <;> first | exact ⟨_, rfl⟩ | exact absurd hcell id
    rw [List.map_map] at h
    obtain ⟨ser', hget, hl⟩ := getBools_eq h
    refine ⟨ser', ?_, hl⟩
    rw [List.length_map] at hint ⊢
    rw [getColumn, hint, hget, List.map_map]
    rfl

theorem getColumns_eq {rows : List (Row (List UInt8))} (hn : rows.length < 2 ^ 31) {types : List ValueType} :
    ∀ {i1 : Nat} {cols : List (List TableCellValue)} {ser : Serializer}, .o ∉ types →
      (∀ row ∈ rows, RowMatches i1 types row) → (∀ cell ∈ tableCells rows i1 types, (Wire.cellItem cell).Short) →
      Left ser (Wire.encodeAll ((tableCells rows i1 types).map Wire.cellItem) ++ rest) →
      ∃ ser', getColumns (BitVec.ofNat 32 rows.length) (types.map fun type => type.char.toUInt8) (cols, ser) =
        some (cols ++ colsFrom rows i1 types, ser') ∧ Left ser' rest := by
  induction types with
  | nil =>
    intro i1 cols ser _ _ _ h
    exact ⟨ser, by rw [colsFrom, List.append_nil]; rfl, h⟩
  | cons type types ih =>
    intro i1 cols ser ho hm hs h
    have htype : type ≠ .o := fun he => ho (he ▸ List.mem_cons_self)
    obtain ⟨hlen, hmatch⟩ := Wire.Reader.columnCells_match hm
    rw [tableCells, List.map_append, Wire.encodeAll_append, List.append_assoc] at h
    obtain ⟨ser₁, hcol, h₁⟩ := getColumn_eq htype hmatch (by rw [hlen]; exact hn)
      (fun cell hc => hs cell (List.mem_append_left _ hc)) h
    have htail : ∀ row ∈ rows, RowMatches (i1 + 1) types row := by
      intro row hr
      obtain ⟨-, -, -, ht⟩ := (hm row hr).head
      exact ht
    obtain ⟨ser', hrest, hl⟩ := @ih (i1 + 1) (cols ++ [(columnCells i1 rows).map TableCellValue.ofCell]) ser₁
      (fun hm => ho (List.mem_cons_of_mem _ hm)) htail (fun cell hc => hs cell (List.mem_append_right _ hc)) h₁
    rw [hlen] at hcol
    refine ⟨ser', ?_, hl⟩
    rw [List.map_cons, getColumns, pushColumn, knownType_char htype]
    simp only [hcol, Option.map_some, Option.bind_some]
    rw [hrest, List.append_assoc]
    rfl

/-- A table in the common form is loaded as it is kept in C++. -/
theorem load_eq {t : Wire.Table} (ho : .o ∉ t.types) (hs : ∀ item ∈ t.items, item.Short)
    (hlen : (Wire.encodeAll t.items).length < 2 ^ 32) (hn : t.rows.length < 2 ^ 31) :
    load (Wire.encodeAll t.items) new = some (inNative t) := by
  have htypes : Wire.utf8 t.columnsType = t.types.map fun type => type.char.toUInt8 := utf8_types t.types
  have hshort : (Wire.utf8 t.columnsType).length < 2 ^ 32 :=
    hs (.string t.columnsType) (by simp [Wire.Table.items, Wire.Table.header])
  have hnames : ∀ b ∈ (t.names.getD []).map Wire.utf8, b.length < 2 ^ 32 := by
    intro b hb
    obtain ⟨s, hm, rfl⟩ := List.mem_map.mp hb
    exact hs _ (List.mem_append_right _ (List.mem_append_left _ (List.mem_map_of_mem hm)))
  have hcells : ∀ cell ∈ tableCells t.rows 0 t.types, (Wire.cellItem cell).Short := fun cell hm =>
    hs _ (List.mem_append_right _ (List.mem_append_right _ (List.mem_map_of_mem hm)))
  have hstrings : Wire.encodeAll ((t.names.getD []).map Wire.Item.string) =
      Wire.encodeAll (((t.names.getD []).map Wire.utf8).map Wire.Item.bytes) := by
    unfold Wire.encodeAll
    rw [List.flatMap_map, List.flatMap_map, List.flatMap_map]
    rfl
  have hbytes : Wire.encodeAll t.items =
      Wire.varintBytes t.flag ++ (Wire.varintBytes t.rows.length ++
        (Wire.varintBytes (Wire.utf8 t.columnsType).length ++ (Wire.utf8 t.columnsType ++
          (Wire.encodeAll (((t.names.getD []).map Wire.utf8).map Wire.Item.bytes) ++
            (Wire.encodeAll ((tableCells t.rows 0 t.types).map Wire.cellItem) ++ []))))) := by
    rw [← hstrings]
    simp [Wire.Table.items, Wire.Table.header, Wire.Table.body, Wire.encodeAll_cons, Wire.encodeAll_append,
      Wire.Item.encode, Wire.Item.pieces]
  have h := Left.prepareUnser hlen
  unfold load
  generalize prepareUnser ((Wire.encodeAll t.items).map some) (BitVec.ofNat 32 (Wire.encodeAll t.items).length) = ser at h
  rw [hbytes] at h
  obtain ⟨ser₁, hget₁, h₁⟩ := left_getVarint t.flag_lt h
  obtain ⟨ser₂, hget₂, h₂⟩ := left_getVarint (by omega) h₁
  obtain ⟨ser₃, hget₃, h₃⟩ := left_getBytes hshort h₂
  obtain ⟨ser₄, hget₄, h₄⟩ := getStrings_eq hnames h₃
  obtain ⟨ser₅, hget₅, -⟩ := @getColumns_eq [] t.rows hn t.types 0 [] ser₄ ho t.rows_match hcells h₄
  have hget₄' : getNames (BitVec.ofNat 32 t.flag) (Wire.utf8 t.columnsType).length ser₃ =
      some ((t.names.getD []).map Wire.utf8, ser₄) := by
    unfold getNames Wire.Table.flag
    rw [htypes, List.length_map]
    cases hnm : t.names with
    | none =>
      rw [hnm] at hget₄
      obtain ⟨-, rfl⟩ := Prod.mk.inj (Option.some.inj hget₄)
      rfl
    | some ns =>
      rw [hnm, Option.getD_some, List.length_map, t.names_length ns hnm] at hget₄
      rw [if_pos (by simp), hget₄, Option.getD_some]
  rw [← htypes] at hget₅
  simp only [Option.bind_eq_bind, hget₁, hget₂, hget₃, hget₄', Option.bind_some]
  change (getColumns _ _ ([], ser₄)).bind _ = _
  rw [hget₅, Option.bind_some, List.nil_append]
  rfl

end TableSerializer

end PxpRpc.Codec.Native
