import PxpRpc.Codec.JavaTable

/-!
# Tables in Java, written and read back

The loop that writes an object column ends with its first row, and the loop that
reads one stores the cells in the row whose number is that of the column.
-/
namespace PxpRpc.Codec.Java

open PxpRpc.Lib

namespace Cell

/-- The pieces in which a cell is put. -/
def pieces : Cell (List UInt8) → List (List UInt8)
  | null => [leBytes 4 (-1 : BitVec 32).toNat]
  | int v => [leBytes 4 v.toNat]
  | long v => [leBytes 8 v.toNat]
  | float v => [leBytes 4 v.toNat]
  | double v => [leBytes 8 v.toNat]
  | bytes b => bytesPieces b
  | string v => bytesPieces (getBytes v)
  | boolean v => [varintPiece (if v then 1 else 0)]
  | object value => [leBytes 4 value.toNat]

/-- Objects are compared by their index, and null has the index -1. -/
def byIndex {β : Type} : Cell β → Cell β
  | object value => if value ≠ -1 then object value else null
  | cell => cell

/-- The strings of a cell are well-formed. -/
def WellFormed {β : Type} : Cell β → Prop
  | string v => Java.WellFormed v
  | _ => True

/-- The buffer object of a cell. -/
def buffer : Cell Nat → Option Nat
  | bytes b => some b
  | _ => none

end Cell

/-- The cells of a column. -/
def columnCells {β : Type} (i1 : Nat) (rows : List (Row β)) : List (Cell β) := rows.filterMap fun row => row[i1]?

/-- The cells of a table, column by column. -/
def tableCells {β : Type} (rows : List (Row β)) : Nat → List ValueType → List (Cell β)
  | _, [] => []
  | i1, _ :: types => columnCells i1 rows ++ tableCells rows (i1 + 1) types

/-- The cells that are put. -/
def putCells {β : Type} (rows : List (Row β)) : Nat → List ValueType → List (Cell β)
  | _, [] => []
  | i1, type :: types => columnCells i1 (TableSerializer.visited type rows) ++ putCells rows (i1 + 1) types

/-- The buffers after a cell has been put. -/
def consume (heap : Heap) : Cell Nat → Heap
  | .bytes b => Function.update heap b []
  | _ => heap

/-- The cells with the bytes that are put for them, one after another. -/
def resolve : Heap → List (Cell Nat) → List (Cell (List UInt8))
  | _, [] => []
  | heap, cell :: cells => cell.map heap :: resolve (consume heap cell) cells

theorem resolve_append (heap : Heap) (cells cells' : List (Cell Nat)) :
    resolve heap (cells ++ cells') = resolve heap cells ++ resolve (cells.foldl consume heap) cells' := by
  induction cells generalizing heap with
  | nil => rfl
  | cons cell cells ih => rw [List.cons_append, resolve, ih, resolve, List.foldl_cons, List.cons_append]

/-- From the column `i1` on, the row has one cell for each type, which it matches. -/
def RowMatches {β : Type} (i1 : Nat) (types : List ValueType) (row : Row β) : Prop :=
  List.Forall₂ Cell.Matches types (row.drop i1)

theorem RowMatches.head {β : Type} {i1 : Nat} {type : ValueType} {types : List ValueType} {row : Row β}
    (h : RowMatches i1 (type :: types) row) :
    ∃ cell, row[i1]? = some cell ∧ cell.Matches type ∧ RowMatches (i1 + 1) types row := by
  obtain ⟨cell, rest, hm, hrest, hdrop⟩ := List.forall₂_cons_left_iff.mp h
  have hcell : row[i1]? = some cell := by
    rw [← Nat.add_zero i1, ← List.getElem?_drop, hdrop]
    rfl
  have htail : row.drop (i1 + 1) = rest := by
    rw [← List.drop_drop, hdrop]
    rfl
  exact ⟨cell, hcell, hm, by rw [RowMatches, htail]; exact hrest⟩

namespace TableSerializer

/-! ### What is put -/

theorem putCell_eq {type : ValueType} {cell : Cell Nat} (h : cell.Matches type) (ser : Serializer2) (heap : Heap) :
    putCell type cell (ser, heap) = (ser.putAll (cell.map heap).pieces).map (·, consume heap cell) := by
  cases type <;> cases cell <;> first
    | exact absurd h id
    | rfl
    | (simp only [putCell, Cell.map, Cell.pieces, consume, Serializer2.putAll_singleton, Serializer2.putBytes_eq,
        Serializer2.putString, Serializer2.putVarint_eq]
       try rfl)

theorem putCells_eq {type : ValueType} {i1 : Nat} {rows : List (Row Nat)}
    (h : ∀ row ∈ rows, ∃ cell, row[i1]? = some cell ∧ cell.Matches type) : ∀ (ser : Serializer2) (heap : Heap),
    putCells type i1 rows (ser, heap) =
      (ser.putAll ((resolve heap (columnCells i1 rows)).flatMap Cell.pieces)).map
        (·, (columnCells i1 rows).foldl consume heap) := by
  induction rows with
  | nil => intro ser heap; rfl
  | cons row rows ih =>
    intro ser heap
    obtain ⟨cell, hcell, hm⟩ := h row List.mem_cons_self
    have hcells : columnCells i1 (row :: rows) = cell :: columnCells i1 rows := List.filterMap_cons_some hcell
    rw [putCells, hcell, Option.bind_some, putCell_eq hm, hcells, resolve, List.flatMap_cons, Serializer2.putAll_append,
      List.foldl_cons]
    cases ser.putAll (cell.map heap).pieces with
    | none => rfl
    | some ser => exact ih (fun row hr => h row (List.mem_cons_of_mem _ hr)) ser (consume heap cell)

theorem visited_subset {β : Type} (type : ValueType) (rows : List (Row β)) : visited type rows ⊆ rows := by
  rw [visited]
  split
  · exact List.take_subset 1 rows
  · exact List.Subset.refl rows

theorem putColumns_eq {rows : List (Row Nat)} {types : List ValueType} : ∀ {i1 : Nat},
    (∀ row ∈ rows, RowMatches i1 types row) → ∀ (ser : Serializer2) (heap : Heap),
    putColumns rows i1 (types.map ValueType.char) (ser, heap) =
      (ser.putAll ((resolve heap (Java.putCells rows i1 types)).flatMap Cell.pieces)).map
        (·, (Java.putCells rows i1 types).foldl consume heap) := by
  induction types with
  | nil => intro i1 _ ser heap; rfl
  | cons type types ih =>
    intro i1 h ser heap
    have hcol : ∀ row ∈ visited type rows, ∃ cell, row[i1]? = some cell ∧ cell.Matches type := fun row hr => by
      obtain ⟨cell, hcell, hm, -⟩ := (h row (visited_subset type rows hr)).head
      exact ⟨cell, hcell, hm⟩
    rw [List.map_cons, putColumns, ValueType.ofChar_char, Option.bind_some, putCells_eq hcol, Java.putCells,
      resolve_append, List.flatMap_append, Serializer2.putAll_append, List.foldl_append]
    cases ser.putAll ((resolve heap (columnCells i1 (visited type rows))).flatMap Cell.pieces) with
    | none => rfl
    | some ser =>
      exact ih (fun row hr => by obtain ⟨_, _, _, ht⟩ := (h row hr).head; exact ht) ser _

theorem putStrings_eq (ss : List Utf16) (ser : Serializer2) :
    putStrings ss ser = ser.putAll (ss.flatMap fun s => bytesPieces (getBytes s)) := by
  induction ss generalizing ser with
  | nil => rfl
  | cons s ss ih =>
    rw [putStrings, List.flatMap_cons, Serializer2.putAll_append, Serializer2.putString, Serializer2.putBytes_eq]
    exact congrArg _ (funext ih)

end TableSerializer

/-! ### What is read -/

/-- The cell that is read for one that was put. -/
def Cell.received {β : Type} : Cell β → Cell β
  | object value => if value ≠ -1 then object value else null
  | string v => string (newString (getBytes v))
  | cell => cell

theorem Cell.received_eq_byIndex_iff {β : Type} (cell : Cell β) : cell.received = cell.byIndex ↔ cell.WellFormed := by
  cases cell with
  | string v => simp only [received, byIndex, WellFormed, Cell.string.injEq, newString_getBytes_iff]
  | _ => exact ⟨fun _ => trivial, fun _ => rfl⟩

/-- The number of bytes of some cells. -/
def size (cells : List (Cell (List UInt8))) : Nat := ((cells.flatMap Cell.pieces).map List.length).sum

theorem size_nil : size [] = 0 := rfl

theorem size_append (cells cells' : List (Cell (List UInt8))) : size (cells ++ cells') = size cells + size cells' := by
  rw [size, List.flatMap_append, List.map_append, List.sum_append]
  rfl

theorem size_cons (cell : Cell (List UInt8)) (cells : List (Cell (List UInt8))) :
    size (cell :: cells) = (cell.pieces.map List.length).sum + size cells := by
  rw [size, List.flatMap_cons, List.map_append, List.sum_append]
  rfl

theorem varintPiece_pos (v : BitVec 32) : 0 < (varintPiece v).length := by
  rw [varintPiece]
  split <;> simp

theorem Cell.pieces_pos (cell : Cell (List UInt8)) : 0 < (cell.pieces.map List.length).sum := by
  have hv := varintPiece_pos
  cases cell with
  | bytes b => simp [pieces, bytesPieces, hv]
  | string v => simp [pieces, bytesPieces, hv]
  | boolean v => simp [pieces, hv]
  | _ => simp [pieces]

namespace TableSerializer

variable {ser : Serializer2} {rest : List UInt8}

theorem getCell_eq {type : ValueType} {cell : Cell (List UInt8)} (hm : cell.Matches type) (hs : size [cell] < 2 ^ 31)
    (h : Reads ser (cell.pieces.flatten ++ rest)) :
    ∃ ser', getCell type ser = some (cell.received, ser') ∧ Reads ser' rest := by
  have hword : ∀ {w : Nat} {v : BitVec (8 * w)}, Reads ser ([leBytes w v.toNat].flatten ++ rest) →
      ∃ ser', ser.getWord w = some (v, ser') ∧ Reads ser' rest := fun h => Reads.getWord (by simpa using h)
  cases cell with
  | null =>
    cases type <;> try exact absurd hm id
    obtain ⟨ser', hget, hr⟩ := hword (w := 4) (v := -1) h
    exact ⟨ser', by rw [getCell, Serializer2.getInt, hget]; rfl, hr⟩
  | int v =>
    cases type <;> try exact absurd hm id
    obtain ⟨ser', hget, hr⟩ := hword (w := 4) (v := v) h
    exact ⟨ser', by rw [getCell, Serializer2.getInt, hget]; rfl, hr⟩
  | long v =>
    cases type <;> try exact absurd hm id
    obtain ⟨ser', hget, hr⟩ := hword (w := 8) (v := v) h
    exact ⟨ser', by rw [getCell, Serializer2.getLong, hget]; rfl, hr⟩
  | float v =>
    cases type <;> try exact absurd hm id
    obtain ⟨ser', hget, hr⟩ := hword (w := 4) (v := v) h
    exact ⟨ser', by rw [getCell, Serializer2.getFloat, hget]; rfl, hr⟩
  | double v =>
    cases type <;> try exact absurd hm id
    obtain ⟨ser', hget, hr⟩ := hword (w := 8) (v := v) h
    exact ⟨ser', by rw [getCell, Serializer2.getDouble, hget]; rfl, hr⟩
  | object value =>
    cases type <;> try exact absurd hm id
    obtain ⟨ser', hget, hr⟩ := hword (w := 4) (v := value) h
    exact ⟨ser', by rw [getCell, Serializer2.getInt, hget]; rfl, hr⟩
  | bytes b =>
    cases type <;> try exact absurd hm id
    have hb : b.length < 2 ^ 31 := by
      simp only [size, List.flatMap_singleton, Cell.pieces, bytesPieces, List.map_cons, List.sum_cons] at hs
      omega
    obtain ⟨ser', hget, hr⟩ := Reads.getBytes hb h
    exact ⟨ser', by rw [getCell, hget]; rfl, hr⟩
  | string v =>
    cases type <;> try exact absurd hm id
    have hb : (getBytes v).length < 2 ^ 31 := by
      simp only [size, List.flatMap_singleton, Cell.pieces, bytesPieces, List.map_cons, List.sum_cons] at hs
      omega
    obtain ⟨ser', hget, hr⟩ := Reads.getString hb h
    exact ⟨ser', by rw [getCell, hget]; rfl, hr⟩
  | boolean v =>
    cases type <;> try exact absurd hm id
    have hp : Reads ser (varintPiece (if v then 1 else 0) ++ rest) := by simpa [Cell.pieces] using h
    obtain ⟨ser', hget, hr⟩ := hp.getVarint (by cases v <;> decide)
    refine ⟨ser', ?_, hr⟩
    rw [getCell, hget]
    cases v <;> rfl

/-- A row of `n` cells of which `i1` have been read. -/
def filled (n i1 : Nat) (row : Row (List UInt8)) : Row (List UInt8) :=
  (row.map Cell.received).take i1 ++ List.replicate (n - i1) .null

theorem set_filled {n i1 : Nat} {row : Row (List UInt8)} {cell : Cell (List UInt8)} (hn : row.length = n)
    (hc : row[i1]? = some cell) : (filled n i1 row).set i1 cell.received = filled n (i1 + 1) row := by
  have hlt : i1 < n := hn ▸ (List.getElem?_eq_some_iff.mp hc).1
  have htake : ((row.map Cell.received).take i1).length = i1 := by
    simp
    omega
  have hnulls : List.replicate (n - i1) (Cell.null : Cell (List UInt8)) =
      .null :: List.replicate (n - (i1 + 1)) .null := by
    rw [← List.replicate_succ]
    congr 1
    omega
  rw [filled, filled, List.set_append_right _ _ (by omega), htake, Nat.sub_self, hnulls, List.set_cons_zero,
    List.take_add_one, List.getElem?_map, hc]
  simp

/-- The rest of a column. -/
theorem getCells_eq {type : ValueType} {n i1 : Nat} {rows : List (Row (List UInt8))}
    (hrows : ∀ row ∈ rows, row.length = n ∧ ∃ cell, row[i1]? = some cell ∧ cell.Matches type)
    (hsize : size (columnCells i1 rows) < 2 ^ 31) : ∀ (done : List (Row (List UInt8))) {ser : Serializer2},
    (type = .o → rows.length = 0 ∨ rows.length = 1 ∧ i1 = done.length) →
    Reads ser (((columnCells i1 rows).flatMap Cell.pieces).flatten ++ rest) →
    ∃ ser', getCells type i1 rows.length done.length (done.map (filled n (i1 + 1)) ++ rows.map (filled n i1), ser) =
      some ((done ++ rows).map (filled n (i1 + 1)), ser') ∧ Reads ser' rest := by
  induction rows with
  | nil =>
    intro done ser _ h
    exact ⟨ser, by simp [getCells], by simpa [columnCells] using h⟩
  | cons row rows ih =>
    intro done ser ho h
    obtain ⟨hn, cell, hcell, hm⟩ := hrows row List.mem_cons_self
    have hcells : columnCells i1 (row :: rows) = cell :: columnCells i1 rows := List.filterMap_cons_some hcell
    rw [hcells, size_cons] at hsize
    rw [hcells, List.flatMap_cons, List.flatten_append, List.append_assoc] at h
    obtain ⟨ser₁, hget, hr₁⟩ := getCell_eq hm (by rw [size_cons, size_nil]; omega) h
    have hindex : (if type = .o then i1 else done.length) = done.length := by
      split
      · rename_i hto
        rcases ho hto with hlen | ⟨-, hi⟩
        · cases hlen
        · exact hi
      · rfl
    have hset : setCell (done.map (filled n (i1 + 1)) ++ (row :: rows).map (filled n i1)) done.length i1 cell.received =
        some ((done ++ [row]).map (filled n (i1 + 1)) ++ rows.map (filled n i1)) := by
      rw [setCell, List.getElem?_append_right (by simp), List.length_map, Nat.sub_self, List.map_cons,
        List.getElem?_cons_zero, Option.map_some, set_filled hn hcell, List.set_append_right _ _ (by simp),
        List.length_map, Nat.sub_self, List.set_cons_zero]
      simp
    obtain ⟨ser', hrest, hr⟩ := ih (fun row hr => hrows row (List.mem_cons_of_mem _ hr)) (by omega) (done ++ [row])
      (fun hto => by
        rcases ho hto with hlen | ⟨hlen, -⟩
        · cases hlen
        · exact .inl (by simpa using hlen)) hr₁
    refine ⟨ser', ?_, hr⟩
    rw [List.length_cons, getCells, hget, Option.bind_some]
    simp only [hindex]
    rw [hset, Option.bind_some]
    simpa using hrest

end TableSerializer

/-- Where an object column is there are no rows, or there is one row and the column is the first. -/
def ObjectsReadable (types : List ValueType) (rowCnt : Nat) : Prop :=
  ∀ i, types[i]? = some .o → rowCnt = 0 ∨ rowCnt = 1 ∧ i = 0

namespace TableSerializer

variable {ser : Serializer2} {rest : List UInt8}

theorem getColumns_eq {n : Nat} {rows : List (Row (List UInt8))} (hn : ∀ row ∈ rows, row.length = n)
    {types : List ValueType} : ∀ {i1 : Nat} {ser : Serializer2}, (∀ row ∈ rows, RowMatches i1 types row) →
    size (tableCells rows i1 types) < 2 ^ 31 →
    (∀ i, types[i]? = some .o → rows.length = 0 ∨ rows.length = 1 ∧ i1 + i = 0) →
    Reads ser (((tableCells rows i1 types).flatMap Cell.pieces).flatten ++ rest) →
    ∃ ser', getColumns rows.length i1 (types.map ValueType.char) (rows.map (filled n i1), ser) =
      some (rows.map (filled n (i1 + types.length)), ser') ∧ Reads ser' rest := by
  induction types with
  | nil =>
    intro i1 ser _ _ _ h
    exact ⟨ser, rfl, by simpa [tableCells] using h⟩
  | cons type types ih =>
    intro i1 ser hm hsize ho h
    rw [tableCells, size_append] at hsize
    rw [tableCells, List.flatMap_append, List.flatten_append, List.append_assoc] at h
    have hrows : ∀ row ∈ rows, row.length = n ∧ ∃ cell, row[i1]? = some cell ∧ cell.Matches type := fun row hr => by
      obtain ⟨cell, hcell, hc, -⟩ := (hm row hr).head
      exact ⟨hn row hr, cell, hcell, hc⟩
    obtain ⟨ser₁, hcells, hr₁⟩ := getCells_eq hrows (by omega) [] (fun hto => by
      rcases ho 0 (by rw [hto]; rfl) with h0 | ⟨h1, hi⟩
      · exact .inl h0
      · exact .inr ⟨h1, by simpa using hi⟩) h
    obtain ⟨ser', hcols, hr⟩ := @ih (i1 + 1) _
      (fun row hr => by obtain ⟨_, _, _, ht⟩ := (hm row hr).head; exact ht) (by omega) (fun i hi => by
        rcases ho (i + 1) (by simpa using hi) with h0 | ⟨-, h1⟩
        · exact .inl h0
        · omega) hr₁
    refine ⟨ser', ?_, hr⟩
    simp only [List.map_nil, List.nil_append, List.length_nil] at hcells
    rw [List.map_cons, getColumns, ValueType.ofChar_char, Option.bind_some, hcells, Option.bind_some, hcols]
    congr 3
    simp [Nat.add_comm, Nat.add_left_comm]

theorem getRowsData_eq {types : List ValueType} {rows : List (Row (List UInt8))}
    (hm : ∀ row ∈ rows, RowMatches 0 types row) (hlt : rows.length < 2 ^ 31)
    (hsize : size (tableCells rows 0 types) < 2 ^ 31) (ho : ObjectsReadable types rows.length)
    (h : Reads ser (((tableCells rows 0 types).flatMap Cell.pieces).flatten ++ rest)) :
    ∃ ser', getRowsData (types.map ValueType.char) (BitVec.ofNat 32 rows.length) ser =
      some (rows.map fun row => row.map Cell.received, ser') ∧ Reads ser' rest := by
  have hn : ∀ row ∈ rows, row.length = types.length := fun row hr => by
    have := (hm row hr).length_eq
    simpa using this.symm
  have hcnt : (BitVec.ofNat 32 rows.length).toInt.toNat = rows.length := by
    rw [BitVec.toInt_eq_toNat_of_lt (by rw [BitVec.toNat_ofNat]; omega), BitVec.toNat_ofNat]
    omega
  obtain ⟨ser', hcols, hr⟩ := getColumns_eq hn hm hsize (by simpa [ObjectsReadable] using ho) h
  refine ⟨ser', ?_, hr⟩
  have hstart : rows.map (filled types.length 0) = List.replicate rows.length (List.replicate types.length .null) := by
    rw [List.eq_replicate_iff]
    exact ⟨by simp, fun row hr => by
      obtain ⟨r, -, rfl⟩ := List.mem_map.mp hr
      simp [filled]⟩
  have hend : rows.map (filled types.length (0 + types.length)) = rows.map fun row => row.map Cell.received :=
    List.map_congr_left fun row hr => by simp [filled, ← hn row hr]
  simp only [getRowsData, hcnt, List.length_map, ← hstart]
  rw [hcols, hend]

/-! ### An object column that is not read -/

theorem setCell_length {β : Type} {rows rows' : List (Row β)} {i2 i1 : Nat} {cell : Cell β}
    (h : setCell rows i2 i1 cell = some rows') : rows'.length = rows.length ∧ i2 < rows.length := by
  obtain ⟨row, hr, rfl⟩ := Option.map_eq_some_iff.mp h
  exact ⟨List.length_set, (List.getElem?_eq_some_iff.mp hr).1⟩

theorem getCells_length {type : ValueType} {i1 n : Nat} : ∀ {i2 : Nat} {out out' : List (Row (List UInt8)) × Serializer2},
    getCells type i1 n i2 out = some out' →
    out'.1.length = out.1.length ∧ (type = .o → n = 0 ∨ i1 < out.1.length) := by
  induction n with
  | zero =>
    intro i2 out out' h
    obtain rfl := Option.some.inj h
    exact ⟨rfl, fun _ => .inl rfl⟩
  | succ n ih =>
    intro i2 out out' h
    obtain ⟨⟨cell, ser⟩, -, h⟩ := Option.bind_eq_some_iff.mp h
    obtain ⟨rows, hs, h⟩ := Option.bind_eq_some_iff.mp h
    obtain ⟨hlen, hlt⟩ := setCell_length hs
    refine ⟨(ih h).1.trans hlen, fun hto => .inr ?_⟩
    rwa [if_pos hto] at hlt

theorem getColumns_objects {n : Nat} {types : List ValueType} : ∀ {i1 : Nat}
    {out out' : List (Row (List UInt8)) × Serializer2}, out.1.length = n →
    getColumns n i1 (types.map ValueType.char) out = some out' →
    ∀ i, types[i]? = some .o → n = 0 ∨ i1 + i < n := by
  induction types with
  | nil =>
    intro i1 out out' _ _ i hi
    cases hi
  | cons type types ih =>
    intro i1 out out' hlen h i hi
    rw [List.map_cons, getColumns, ValueType.ofChar_char, Option.bind_some] at h
    obtain ⟨out₁, hcells, h⟩ := Option.bind_eq_some_iff.mp h
    obtain ⟨hlen₁, hobj⟩ := getCells_length hcells
    cases i with
    | zero =>
      rw [List.getElem?_cons_zero, Option.some.injEq] at hi
      rw [Nat.add_zero, ← hlen]
      exact hlen ▸ hobj hi
    | succ i =>
      rcases ih (hlen₁.trans hlen) h i (by simpa using hi) with h0 | hlt
      · exact .inl h0
      · exact .inr (by omega)

/-! ### The header -/

theorem getStrings_eq {ss : List Utf16} : ∀ {ser : Serializer2},
    ((ss.flatMap fun s => bytesPieces (getBytes s)).map List.length).sum < 2 ^ 31 →
    Reads ser ((ss.flatMap fun s => bytesPieces (getBytes s)).flatten ++ rest) →
    ∃ ser', getStrings ss.length ser = some (ss.map fun s => newString (getBytes s), ser') ∧ Reads ser' rest := by
  induction ss with
  | nil =>
    intro ser _ h
    exact ⟨ser, rfl, by simpa using h⟩
  | cons s ss ih =>
    intro ser hs h
    rw [List.flatMap_cons, List.map_append, List.sum_append] at hs
    rw [List.flatMap_cons, List.flatten_append, List.append_assoc] at h
    have hb : (getBytes s).length < 2 ^ 31 := by
      simp only [bytesPieces, List.map_cons, List.sum_cons] at hs
      omega
    obtain ⟨ser₁, hget, hr₁⟩ := Reads.getString hb h
    obtain ⟨ser', hrest, hr⟩ := ih (by omega) hr₁
    refine ⟨ser', ?_, hr⟩
    rw [List.length_cons, getStrings, hget, Option.bind_some]
    simp only [hrest]
    rfl

end TableSerializer

/-! ### Buffers that are put twice -/

/-- A buffer object that is put twice is empty. -/
def PutOnce (heap : Heap) (cells : List (Cell Nat)) : Prop :=
  (cells.filterMap Cell.buffer).Pairwise fun b b' => b = b' → heap b = []

def cellsIn (heap : Heap) (cells : List (Cell Nat)) : List (Cell (List UInt8)) := cells.map (Cell.map heap)

theorem size_cellsIn_cons (heap : Heap) (cell : Cell Nat) (cells : List (Cell Nat)) :
    size (cellsIn heap (cell :: cells)) = ((cell.map heap).pieces.map List.length).sum + size (cellsIn heap cells) :=
  size_cons _ _

theorem consume_apply (heap : Heap) (cell : Cell Nat) (b : Nat) :
    consume heap cell b = if cell.buffer = some b then [] else heap b := by
  cases cell with
  | bytes b' =>
    by_cases hb : b = b'
    · simp [consume, Cell.buffer, hb]
    · simp [consume, Cell.buffer, hb, Ne.symm hb]
  | _ => rfl

/-- A used buffer has fewer bytes, unless it was empty. -/
theorem piece_consume_le (heap : Heap) (used cell : Cell Nat) :
    ((cell.map (consume heap used)).pieces.map List.length).sum ≤ ((cell.map heap).pieces.map List.length).sum ∧
    (((cell.map (consume heap used)).pieces.map List.length).sum = ((cell.map heap).pieces.map List.length).sum →
      ∀ b, cell.buffer = some b → used.buffer = some b → heap b = []) := by
  cases cell with
  | bytes b =>
    rw [Cell.map, Cell.map, consume_apply]
    split
    · rename_i hb
      have hpos := varintPiece_pos (BitVec.ofNat 32 (heap b).length)
      have hnil : (varintPiece (BitVec.ofNat 32 0)).length = 1 := by decide
      simp only [Cell.pieces, bytesPieces, List.map_cons, List.map_nil, List.sum_cons, List.sum_nil, List.length_nil, hnil]
      refine ⟨by omega, fun heq b' hb' _ => ?_⟩
      obtain rfl := Option.some.inj hb'
      exact List.length_eq_zero_iff.mp (by omega)
    · rename_i hb
      refine ⟨le_rfl, fun _ b' hb' hu => ?_⟩
      obtain rfl := Option.some.inj hb'
      exact absurd hu hb
  | _ => exact ⟨le_rfl, fun _ b hb => by cases hb⟩

theorem size_consume_le (heap : Heap) (used : Cell Nat) (cells : List (Cell Nat)) :
    size (cellsIn (consume heap used) cells) ≤ size (cellsIn heap cells) ∧
    (size (cellsIn (consume heap used) cells) = size (cellsIn heap cells) →
      ∀ cell ∈ cells, ∀ b, cell.buffer = some b → used.buffer = some b → heap b = []) := by
  induction cells with
  | nil => exact ⟨le_rfl, fun _ cell hc => by cases hc⟩
  | cons cell cells ih =>
    obtain ⟨hle, heq⟩ := piece_consume_le heap used cell
    rw [size_cellsIn_cons, size_cellsIn_cons]
    refine ⟨by omega, fun h cell' hc => ?_⟩
    rcases List.mem_cons.mp hc with rfl | hc
    · exact heq (by omega)
    · exact ih.2 (by omega) cell' hc

/-- No more bytes are put than the buffers have, and fewer if one of them is put twice. -/
theorem size_resolve_le (cells : List (Cell Nat)) : ∀ heap : Heap,
    size (resolve heap cells) ≤ size (cellsIn heap cells) ∧
    (size (resolve heap cells) = size (cellsIn heap cells) → PutOnce heap cells) := by
  induction cells with
  | nil => exact fun heap => ⟨le_rfl, fun _ => List.Pairwise.nil⟩
  | cons cell cells ih =>
    intro heap
    obtain ⟨hle, honce⟩ := ih (consume heap cell)
    obtain ⟨hle', hempty⟩ := size_consume_le heap cell cells
    rw [resolve, size_cons, size_cellsIn_cons]
    refine ⟨by omega, fun heq => ?_⟩
    have honce := honce (by omega)
    have hempty := hempty (by omega)
    have htail : PutOnce heap cells := List.Pairwise.imp_of_mem (fun {b b'} hb _ hp heqb => by
      have hcb := hp heqb
      rw [consume_apply] at hcb
      split at hcb
      · rename_i hu
        obtain ⟨c, hc, hcbuf⟩ := List.mem_filterMap.mp hb
        exact hempty c hc b hcbuf hu
      · exact hcb) honce
    rw [PutOnce, List.filterMap_cons]
    split
    · exact htail
    · rename_i b hb
      refine List.pairwise_cons.mpr ⟨fun b' hb' heqb => ?_, htail⟩
      obtain ⟨c, hc, hcbuf⟩ := List.mem_filterMap.mp hb'
      exact hempty c hc b (heqb ▸ hcbuf) hb

theorem resolve_congr {heap heap' : Heap} {cells : List (Cell Nat)}
    (h : ∀ cell ∈ cells, ∀ b, cell.buffer = some b → heap b = heap' b) : resolve heap cells = resolve heap' cells := by
  induction cells generalizing heap heap' with
  | nil => rfl
  | cons cell cells ih =>
    have hcell : cell.map heap = cell.map heap' := by
      cases cell with
      | bytes b => rw [Cell.map, Cell.map, h _ List.mem_cons_self b rfl]
      | _ => rfl
    rw [resolve, resolve, hcell]
    refine congrArg _ (ih fun c hc b hb => ?_)
    rw [consume_apply, consume_apply, h c (List.mem_cons_of_mem _ hc) b hb]

/-- When no buffer is put twice the cells have the bytes that they had at the start. -/
theorem resolve_putOnce {heap : Heap} {cells : List (Cell Nat)} (h : PutOnce heap cells) :
    resolve heap cells = cellsIn heap cells := by
  induction cells with
  | nil => rfl
  | cons cell cells ih =>
    have htail : PutOnce heap cells := h.sublist ((List.sublist_cons_self cell cells).filterMap _)
    have hsame : ∀ c ∈ cells, ∀ b, c.buffer = some b → consume heap cell b = heap b := fun c hc b hb => by
      rw [consume_apply]
      split
      · rename_i hu
        rw [PutOnce, List.filterMap_cons_some hu] at h
        exact ((List.pairwise_cons.mp h).1 b (List.mem_filterMap.mpr ⟨c, hc, hb⟩) rfl).symm
      · rfl
    rw [resolve, resolve_congr hsame, ih htail]
    rfl

/-! ### Cells that are not put -/

theorem putCells_sublist {β : Type} (rows : List (Row β)) (types : List ValueType) :
    ∀ i1, (putCells rows i1 types).Sublist (tableCells rows i1 types) := by
  induction types with
  | nil => exact fun _ => .refl _
  | cons type types ih =>
    intro i1
    refine List.Sublist.append (List.Sublist.filterMap _ ?_) (ih (i1 + 1))
    rw [TableSerializer.visited]
    split
    · exact List.take_sublist 1 rows
    · exact .refl rows

theorem size_sublist {cells cells' : List (Cell (List UInt8))} (h : cells.Sublist cells') :
    size cells ≤ size cells' ∧ (size cells = size cells' → cells = cells') := by
  induction h with
  | slnil => exact ⟨le_rfl, fun _ => rfl⟩
  | cons cell _ ih =>
    have := cell.pieces_pos
    rw [size_cons]
    exact ⟨by omega, fun _ => by omega⟩
  | cons_cons cell _ ih =>
    rw [size_cons, size_cons]
    exact ⟨by omega, fun heq => congrArg _ (ih.2 (by omega))⟩

theorem length_columnCells {β : Type} {i1 : Nat} {rows : List (Row β)} (h : ∀ row ∈ rows, i1 < row.length) :
    (columnCells i1 rows).length = rows.length := by
  rw [columnCells, List.length_filterMap_eq_countP, List.countP_eq_length]
  exact fun row hr => by simpa using h row hr

/-- All cells are put when an object column has at most one row. -/
theorem putCells_eq_iff {β : Type} {rows : List (Row β)} {types : List ValueType} : ∀ {i1 : Nat},
    (∀ row ∈ rows, i1 + types.length ≤ row.length) →
    (putCells rows i1 types).length ≤ (tableCells rows i1 types).length ∧
    ((putCells rows i1 types).length = (tableCells rows i1 types).length → .o ∈ types → rows.length ≤ 1) ∧
    ((.o ∈ types → rows.length ≤ 1) → putCells rows i1 types = tableCells rows i1 types) := by
  induction types with
  | nil => exact fun _ => ⟨le_rfl, fun _ h => absurd h List.not_mem_nil, fun _ => rfl⟩
  | cons type types ih =>
    intro i1 hlen
    have hcol : ∀ row ∈ rows, i1 < row.length := fun row hr => by
      have := hlen row hr
      rw [List.length_cons] at this
      omega
    have hvis := length_columnCells fun row hr => hcol row (TableSerializer.visited_subset type rows hr)
    obtain ⟨hle, heq, hall⟩ := @ih (i1 + 1) fun row hr => by
      have := hlen row hr
      rw [List.length_cons] at this
      omega
    simp only [putCells, tableCells, List.length_append, hvis, length_columnCells hcol]
    by_cases hto : type = .o
    · simp only [TableSerializer.visited, if_pos hto, List.length_take]
      refine ⟨by omega, fun h hm => by omega, fun h => ?_⟩
      have h1 := h (hto ▸ List.mem_cons_self)
      rw [List.take_of_length_le h1, hall fun _ => h1]
    · simp only [TableSerializer.visited, if_neg hto]
      refine ⟨by omega, fun h hm => ?_, fun h => ?_⟩
      · rcases List.mem_cons.mp hm with hm | hm
        · exact absurd hm.symm hto
        · exact heq (by omega) hm
      · rw [hall fun hm => h (List.mem_cons_of_mem _ hm)]

/-! ### Tables -/

/-- Types, names and rows that go together; an `int` counts the rows. -/
structure Sheet where
  types : List ValueType
  names : Option (List Utf16)
  rows : List (Row Nat)
  heap : Heap
  names_length : ∀ ns ∈ names, ns.length = types.length
  rows_match : ∀ row ∈ rows, RowMatches 0 types row
  rows_lt : rows.length < 2 ^ 31

namespace Sheet

variable (t : Sheet)

def values : List (Row (List UInt8)) := t.rows.map fun row => row.map (Cell.map t.heap)

def columnsType : Utf16 := t.types.map ValueType.char

/-- The pieces of the header that `build` writes. -/
def header : List (List UInt8) :=
  [varintPiece (if t.names.isNone then TableSerializer.FLAG_NO_COLUMN_NAME else 0),
    varintPiece (BitVec.ofNat 32 t.rows.length)] ++ bytesPieces (getBytes t.columnsType) ++
  (t.names.getD []).flatMap fun s => bytesPieces (getBytes s)

/-- One cell for each row in every column. -/
def cells : List (Cell Nat) := tableCells t.rows 0 t.types

def body : List (List UInt8) := (cellsIn t.heap t.cells).flatMap Cell.pieces

/-- `build` writes the header and one cell for each row in every column, and `load` gives back
the types, the names and the rows. -/
def BuildsAndLoads : Prop :=
  ∃ buf heap t', TableSerializer.build ⟨t.names, some t.columnsType, t.rows, none⟩ t.heap = some (buf, heap) ∧
    buf.remaining = (t.header ++ t.body).flatten ∧
    (TableSerializer.new Nat).load (some buf) = some t' ∧
    t'.columnsType = some t.columnsType ∧ t'.columnsName = t.names ∧
    t'.rows = t.values.map fun row => row.map Cell.byIndex

/-- `putRowsData`, with a buffer of the given size, writes one cell for each row in every column,
and `getRowsData` with the same types gives back the rows. -/
def PutsAndGets (initBufSize : BitVec 31) : Prop :=
  ∃ ser out heap rows ser', Serializer2.prepareSerializing (initBufSize.setWidth 32) = some ser ∧
    TableSerializer.putRowsData t.columnsType t.rows (ser, t.heap) = some (out, heap) ∧
    out.build.remaining = t.body.flatten ∧
    TableSerializer.getRowsData t.columnsType (BitVec.ofNat 32 t.rows.length)
      (Serializer2.prepareUnserializing out.build) = some (rows, ser') ∧
    rows = t.values.map fun row => row.map Cell.byIndex

/-- Object columns are readable, no buffer with bytes in it is put twice, and the strings are well-formed. -/
structure Writable : Prop where
  objects : ObjectsReadable t.types t.rows.length
  once : PutOnce t.heap t.cells
  strings : ∀ row ∈ t.rows, ∀ cell ∈ row, cell.WellFormed

variable {t}

/-- The pieces that are put for the cells. -/
def put (t : Sheet) : List (List UInt8) := (resolve t.heap (putCells t.rows 0 t.types)).flatMap Cell.pieces

theorem putRowsData_eq (ser : Serializer2) : TableSerializer.putRowsData t.columnsType t.rows (ser, t.heap) =
    (ser.putAll t.put).map (·, (putCells t.rows 0 t.types).foldl consume t.heap) :=
  TableSerializer.putColumns_eq t.rows_match ser t.heap

theorem rows_length {row : Row Nat} (h : row ∈ t.rows) : row.length = t.types.length := by
  have := (t.rows_match row h).length_eq
  rw [List.drop_zero] at this
  exact this.symm

theorem put_eq_body (ho : .o ∈ t.types → t.rows.length ≤ 1) (honce : PutOnce t.heap t.cells) : t.put = t.body := by
  have hall := (@putCells_eq_iff _ t.rows t.types 0 fun row hr => by rw [rows_length hr]; omega).2.2 ho
  rw [put, hall, show tableCells t.rows 0 t.types = t.cells from rfl, resolve_putOnce honce, body]

/-- Where not every cell is put, or a buffer is put twice, there are fewer bytes. -/
theorem of_put_length (h : t.put.flatten.length = t.body.flatten.length) :
    (.o ∈ t.types → t.rows.length ≤ 1) ∧ PutOnce t.heap t.cells := by
  rw [List.length_flatten, List.length_flatten] at h
  change size (resolve t.heap (putCells t.rows 0 t.types)) = size (cellsIn t.heap t.cells) at h
  obtain ⟨hle, honce⟩ := size_resolve_le (putCells t.rows 0 t.types) t.heap
  have hsub := putCells_sublist t.rows t.types 0
  obtain ⟨hle', heq⟩ := size_sublist (hsub.map (Cell.map t.heap))
  change size (cellsIn t.heap _) ≤ size (cellsIn t.heap t.cells) at hle'
  change size (cellsIn t.heap _) = size (cellsIn t.heap t.cells) → cellsIn t.heap _ = cellsIn t.heap t.cells at heq
  have hlen : (putCells t.rows 0 t.types).length = (tableCells t.rows 0 t.types).length := by
    simpa [cellsIn, cells] using congrArg List.length (heq (by omega))
  refine ⟨(putCells_eq_iff fun row hr => by rw [rows_length hr]; omega).2.1 hlen, ?_⟩
  rw [cells, ← hsub.eq_of_length hlen]
  exact honce (by omega)

theorem matches_map {β γ : Type} {f : β → γ} {type : ValueType} {cell : Cell β} (h : cell.Matches type) :
    (cell.map f).Matches type := by
  cases type <;> cases cell <;> first | exact absurd h id | trivial

theorem values_match {row : Row (List UInt8)} (h : row ∈ t.values) : RowMatches 0 t.types row := by
  obtain ⟨row, hr, rfl⟩ := List.mem_map.mp h
  have hm := t.rows_match row hr
  rw [RowMatches, List.drop_zero] at hm ⊢
  exact List.forall₂_map_right_iff.mpr (hm.imp fun _ _ => matches_map)

theorem columnCells_map (heap : Heap) (rows : List (Row Nat)) (i1 : Nat) :
    columnCells i1 (rows.map fun row => row.map (Cell.map heap)) = cellsIn heap (columnCells i1 rows) := by
  rw [columnCells, columnCells, cellsIn, List.filterMap_map, List.map_filterMap]
  exact congrArg₂ _ (funext fun row => by simp) rfl

theorem tableCells_map (heap : Heap) (rows : List (Row Nat)) (types : List ValueType) : ∀ i1,
    tableCells (rows.map fun row => row.map (Cell.map heap)) i1 types = cellsIn heap (tableCells rows i1 types) := by
  induction types with
  | nil => exact fun _ => rfl
  | cons type types ih =>
    intro i1
    rw [tableCells, tableCells, columnCells_map, ih, cellsIn, cellsIn, cellsIn, List.map_append]

theorem getRowsData_body {ser : Serializer2} {rest : List UInt8} (ho : ObjectsReadable t.types t.rows.length)
    (hsize : (t.body.map List.length).sum < 2 ^ 31) (h : Reads ser (t.body.flatten ++ rest)) :
    ∃ ser', TableSerializer.getRowsData t.columnsType (BitVec.ofNat 32 t.rows.length) ser =
      some (t.values.map fun row => row.map Cell.received, ser') ∧ Reads ser' rest := by
  have hcells : tableCells t.values 0 t.types = cellsIn t.heap t.cells := tableCells_map t.heap t.rows t.types 0
  have hlen : t.values.length = t.rows.length := List.length_map _
  rw [← hlen]
  exact TableSerializer.getRowsData_eq (fun row => values_match) (hlen ▸ t.rows_lt) (by rw [hcells]; exact hsize)
    (hlen ▸ ho) (by rw [hcells]; exact h)

/-- Object columns that have been put and read. -/
theorem objectsReadable {ser : Serializer2} {out : List (Row (List UInt8)) × Serializer2}
    (h1 : .o ∈ t.types → t.rows.length ≤ 1)
    (h : TableSerializer.getRowsData t.columnsType (BitVec.ofNat 32 t.rows.length) ser = some out) :
    ObjectsReadable t.types t.rows.length := by
  have hcnt : (BitVec.ofNat 32 t.rows.length).toInt.toNat = t.rows.length := by
    have := t.rows_lt
    rw [BitVec.toInt_eq_toNat_of_lt (by rw [BitVec.toNat_ofNat]; omega), BitVec.toNat_ofNat]
    omega
  rw [TableSerializer.getRowsData, hcnt] at h
  intro i hi
  have hle := h1 (List.mem_of_getElem? hi)
  rcases TableSerializer.getColumns_objects (by simp) h i hi with h0 | hlt
  · exact .inl h0
  · omega

theorem received_iff : (t.values.map fun row => row.map Cell.received) = (t.values.map fun row => row.map Cell.byIndex) ↔
    ∀ row ∈ t.rows, ∀ cell ∈ row, cell.WellFormed := by
  have hcell : ∀ cell : Cell Nat, (cell.map t.heap).WellFormed ↔ cell.WellFormed := fun cell => by
    cases cell <;> exact Iff.rfl
  simp only [List.map_inj_left, values, List.forall_mem_map, Cell.received_eq_byIndex_iff, hcell]

theorem prepareSerializing_some {n : BitVec 32} (h : n.msb = false) :
    ∃ ser, Serializer2.prepareSerializing n = some ser ∧ Written ser [] ∧ ser.buf.array.length = n.toNat := by
  have hs : Serializer2.prepareSerializing n = some ⟨⟨List.replicate n.toNat 0, 0, n.toNat⟩⟩ := by
    rw [Serializer2.prepareSerializing, ByteBuffer.allocate, h]
    rfl
  exact ⟨_, hs, Written.prepareSerializing hs⟩

/-- Parameters are put and got back exactly when they are writable and fit. -/
theorem putsAndGets_iff (initBufSize : BitVec 31) :
    t.PutsAndGets initBufSize ↔ t.Writable ∧ Fits initBufSize.toNat 0 (t.body.map List.length) := by
  have hmsb : (initBufSize.setWidth 32).msb = false := by
    have := initBufSize.isLt
    rw [BitVec.msb_eq_decide, BitVec.toNat_setWidth]
    simp
    omega
  have hnat : (initBufSize.setWidth 32).toNat = initBufSize.toNat := by
    have := initBufSize.isLt
    rw [BitVec.toNat_setWidth]
    omega
  obtain ⟨ser₀, hser, hw, hcap⟩ := prepareSerializing_some hmsb
  rw [hnat] at hcap
  obtain ⟨hfit, hnofit⟩ := @Written.putAll t.put _ _ hw
  rw [hcap] at hfit hnofit
  constructor
  · rintro ⟨ser, out, heap, rows, ser', hs, hput, hbytes, hget, hrows⟩
    obtain rfl := Option.some.inj (hser.symm.trans hs)
    rw [putRowsData_eq] at hput
    have hf : Fits initBufSize.toNat 0 (t.put.map List.length) := by
      by_contra hf
      rw [hnofit hf] at hput
      cases hput
    obtain ⟨ser₁, hall, hw₁⟩ := hfit hf
    rw [hall] at hput
    obtain ⟨rfl, -⟩ := Prod.mk.inj (Option.some.inj hput)
    rw [hw₁.build, List.nil_append] at hbytes
    obtain ⟨h1, honce⟩ := of_put_length (congrArg List.length hbytes)
    rw [put_eq_body h1 honce] at hf hw₁
    have ho := objectsReadable h1 hget
    have hlt := hf.lt initBufSize.isLt (Nat.zero_le _)
    rw [Nat.zero_add] at hlt
    obtain ⟨ser₂, hrecv, -⟩ := @getRowsData_body _ _ [] ho hlt (by simpa using Reads.build hw₁)
    rw [hrecv] at hget
    obtain ⟨rfl, -⟩ := Prod.mk.inj (Option.some.inj hget)
    exact ⟨⟨ho, honce, received_iff.mp hrows⟩, hf⟩
  · rintro ⟨⟨ho, honce, hstr⟩, hf⟩
    have h1 : .o ∈ t.types → t.rows.length ≤ 1 := fun hm => by
      obtain ⟨i, hi⟩ := List.getElem?_of_mem hm
      rcases ho i hi with h0 | ⟨h1, -⟩ <;> omega
    have hbody := put_eq_body h1 honce
    obtain ⟨out, hall, hw₁⟩ := hfit (hbody ▸ hf)
    rw [List.nil_append, hbody] at hw₁
    have hlt := hf.lt initBufSize.isLt (Nat.zero_le _)
    rw [Nat.zero_add] at hlt
    obtain ⟨ser', hrecv, -⟩ := @getRowsData_body _ _ [] ho hlt (by simpa using Reads.build hw₁)
    exact ⟨ser₀, out, _, _, ser', hser, by rw [putRowsData_eq, hall]; rfl, hw₁.build, hrecv, received_iff.mpr hstr⟩

/-! ### With a header -/

theorem columnsType_wellFormed : newString (getBytes t.columnsType) = t.columnsType := by
  refine (newString_getBytes_iff _).mpr ⟨t.types.map fun type => Char.ofNat type.char.toNat, ?_⟩
  rw [toUtf16, List.flatMap_map, columnsType, List.map_eq_flatMap]
  exact congrArg₂ _ (funext fun type => by cases type <;> rfl) rfl

theorem build_eq : TableSerializer.build ⟨t.names, some t.columnsType, t.rows, none⟩ t.heap =
    (Serializer2.prepareSerializing 64).bind fun ser =>
      (ser.putAll (t.header ++ t.put)).map fun ser =>
        (ser.build, (putCells t.rows 0 t.types).foldl consume t.heap) := by
  have hstart : (none : Option Serializer2).orElse (fun _ => Serializer2.prepareSerializing 64) =
      Serializer2.prepareSerializing 64 := rfl
  simp only [TableSerializer.build, hstart, Option.bind_eq_bind]
  refine congrArg _ (funext fun ser => ?_)
  simp only [header, Serializer2.putAll_append, Option.bind_assoc, Option.map_bind, Serializer2.putVarint_eq,
    Serializer2.putString, Serializer2.putBytes_eq, TableSerializer.putStrings_eq,
    show ∀ a b : List UInt8, [a, b] = [a] ++ [b] from fun _ _ => rfl]
  simp only [Option.orElse_some, Option.bind_some, Option.pure_def, Option.map_eq_bind, Option.bind_assoc,
    Function.comp_def, putRowsData_eq]

theorem load_eq {buf : ByteBuffer} {rest : List UInt8} (hsize : (t.header.map List.length).sum < 2 ^ 31)
    (h : Reads (Serializer2.prepareUnserializing buf) (t.header.flatten ++ rest)) :
    ∃ ser', Reads ser' rest ∧ (TableSerializer.new Nat).load (some buf) =
      (TableSerializer.getRowsData t.columnsType (BitVec.ofNat 32 t.rows.length) ser').map fun (rows, ser) =>
        ⟨t.names.map fun names => names.map fun s => newString (getBytes s), some t.columnsType, rows, some ser⟩ := by
  have hrows := t.rows_lt
  have hcnt : (BitVec.ofNat 32 t.rows.length).msb = false := by
    rw [BitVec.msb_eq_decide, BitVec.toNat_ofNat]
    simp
    omega
  have hpieces : ((bytesPieces (getBytes t.columnsType)).map List.length).sum =
      (varintPiece (BitVec.ofNat 32 (getBytes t.columnsType).length)).length + (getBytes t.columnsType).length := by
    simp [bytesPieces]
  simp only [header, List.map_append, List.sum_append, hpieces] at hsize
  simp only [header, List.flatten_append, List.flatten_cons, List.flatten_nil, List.append_nil, List.append_assoc] at h
  obtain ⟨ser₁, hflag, hr₁⟩ := h.getVarint (by split <;> decide)
  obtain ⟨ser₂, hcount, hr₂⟩ := hr₁.getVarint hcnt
  obtain ⟨ser₃, htypes, hr₃⟩ := hr₂.getString (by omega)
  rw [columnsType_wellFormed] at htypes
  have htlen : t.columnsType.length = t.types.length := List.length_map _
  simp only [TableSerializer.load, Option.map_some, Option.orElse_some, Option.bind_eq_bind, Option.bind_some, hflag,
    hcount, htypes]
  cases hn : t.names with
  | none =>
    refine ⟨ser₃, by simpa [hn] using hr₃, ?_⟩
    rw [if_neg (by simp [TableSerializer.FLAG_NO_COLUMN_NAME])]
    cases TableSerializer.getRowsData t.columnsType (BitVec.ofNat 32 t.rows.length) ser₃ <;> rfl
  | some ns =>
    simp only [hn, Option.getD_some] at hr₃ hsize
    obtain ⟨ser₄, hnames, hr₄⟩ := TableSerializer.getStrings_eq (by omega) hr₃
    refine ⟨ser₄, hr₄, ?_⟩
    rw [if_pos (by simp), htlen, ← t.names_length ns hn, hnames]
    cases hg : TableSerializer.getRowsData t.columnsType (BitVec.ofNat 32 t.rows.length) ser₄ <;> simp [hg]

theorem names_received_iff :
    (t.names.map fun names => names.map fun s => newString (getBytes s)) = t.names ↔
      ∀ ns ∈ t.names, ∀ s ∈ ns, WellFormed s := by
  cases t.names with
  | none => simp
  | some ns =>
    simp only [Option.map_some, Option.some.injEq, Option.mem_def, forall_eq', ← newString_getBytes_iff]
    conv_lhs => rw [← List.map_id ns, List.map_map]
    exact List.map_inj_left

/-- Tables are built and loaded exactly when they are writable and fit, header and all. -/
theorem buildsAndLoads_iff : t.BuildsAndLoads ↔
    t.Writable ∧ (∀ ns ∈ t.names, ∀ s ∈ ns, WellFormed s) ∧ Fits 64 0 ((t.header ++ t.body).map List.length) := by
  obtain ⟨ser₀, hser, hw, hcap⟩ := prepareSerializing_some (n := 64) (by decide)
  obtain ⟨hfit, hnofit⟩ := @Written.putAll (t.header ++ t.put) _ _ hw
  rw [hcap, show (64 : BitVec 32).toNat = 64 from rfl] at hfit hnofit
  have hsums : Fits 64 0 ((t.header ++ t.body).map List.length) →
      (t.header.map List.length).sum < 2 ^ 31 ∧ (t.body.map List.length).sum < 2 ^ 31 := fun hf => by
    have hlt := hf.lt (by decide) (Nat.zero_le _)
    rw [List.map_append, List.sum_append] at hlt
    omega
  constructor
  · rintro ⟨buf, heap, t', hbuild, hbytes, hload, -, hnames, hrows⟩
    rw [build_eq, hser, Option.bind_some] at hbuild
    have hf : Fits 64 0 ((t.header ++ t.put).map List.length) := by
      by_contra hf
      rw [hnofit hf] at hbuild
      cases hbuild
    obtain ⟨ser₁, hall, hw₁⟩ := hfit hf
    rw [hall] at hbuild
    obtain ⟨rfl, -⟩ := Prod.mk.inj (Option.some.inj hbuild)
    rw [hw₁.build, List.nil_append, List.flatten_append, List.flatten_append] at hbytes
    obtain ⟨h1, honce⟩ := of_put_length (congrArg List.length (List.append_cancel_left hbytes))
    rw [put_eq_body h1 honce] at hf hw₁
    obtain ⟨hheader, hbody⟩ := hsums hf
    have hreads := Reads.build hw₁
    rw [List.nil_append, List.flatten_append] at hreads
    obtain ⟨ser₂, hr₂, hload'⟩ := load_eq hheader hreads
    rw [hload'] at hload
    obtain ⟨out, hget, hout⟩ := Option.map_eq_some_iff.mp hload
    have ho := objectsReadable h1 hget
    obtain ⟨ser₃, hrecv, -⟩ := @getRowsData_body _ _ [] ho hbody (by simpa using hr₂)
    obtain rfl := Option.some.inj (hrecv.symm.trans hget)
    obtain rfl := hout
    exact ⟨⟨ho, honce, received_iff.mp hrows⟩, names_received_iff.mp hnames, hf⟩
  · rintro ⟨⟨ho, honce, hstr⟩, hnames, hf⟩
    have h1 : .o ∈ t.types → t.rows.length ≤ 1 := fun hm => by
      obtain ⟨i, hi⟩ := List.getElem?_of_mem hm
      rcases ho i hi with h0 | ⟨h1, -⟩ <;> omega
    have hbody := put_eq_body h1 honce
    obtain ⟨hheader, hsize⟩ := hsums hf
    obtain ⟨ser₁, hall, hw₁⟩ := hfit (hbody ▸ hf)
    rw [List.nil_append, hbody] at hw₁
    have hreads := Reads.build hw₁
    rw [List.flatten_append] at hreads
    obtain ⟨ser₂, hr₂, hload⟩ := load_eq hheader hreads
    obtain ⟨ser₃, hrecv, -⟩ := @getRowsData_body _ _ [] ho hsize (by simpa using hr₂)
    rw [hrecv, Option.map_some] at hload
    refine ⟨ser₁.build, _, _, by rw [build_eq, hser, Option.bind_some, hall]; rfl, hw₁.build, hload, rfl, ?_, ?_⟩
    · exact names_received_iff.mpr hnames
    · exact received_iff.mpr hstr

/-- Tables, with a header or as parameters, are written whole and read back exactly when
object columns are readable, no buffer with bytes in it is put twice, the strings are
well-formed, and the buffer can grow as far as it has to. -/
theorem sheet_roundTrips_iff (t : Sheet) :
    (t.BuildsAndLoads ↔ t.Writable ∧ (∀ ns ∈ t.names, ∀ s ∈ ns, WellFormed s) ∧
      Fits 64 0 ((t.header ++ t.body).map List.length)) ∧
    ∀ initBufSize : BitVec 31,
      t.PutsAndGets initBufSize ↔ t.Writable ∧ Fits initBufSize.toNat 0 (t.body.map List.length) :=
  ⟨buildsAndLoads_iff, putsAndGets_iff⟩

/-- An object column with two rows. -/
def twoObjects : Sheet where
  types := [.o]
  names := none
  rows := [[.null], [.null]]
  heap := fun _ => []
  names_length := by simp
  rows_match := by simp [RowMatches, Cell.Matches]
  rows_lt := by decide

/-- Only one cell of the column is written. -/
theorem twoObjects_loses : ¬ twoObjects.BuildsAndLoads ∧ ¬ twoObjects.PutsAndGets 32 := by
  have hobj : ¬ ObjectsReadable twoObjects.types twoObjects.rows.length := fun h => by
    have := h 0 rfl
    simp [twoObjects] at this
  exact ⟨fun h => hobj (buildsAndLoads_iff.mp h).1.objects, fun h => hobj ((putsAndGets_iff 32).mp h).1.objects⟩

end Sheet

end PxpRpc.Codec.Java
