import PxpRpc.Codec.JavaTableRoundTrip

/-!
# What Java loads of a table that it has built

The cells as they are put, some of them with buffers that have been used up already, are
the cells of a table, and that is the table that is loaded.
-/
namespace PxpRpc.Codec.Java

open PxpRpc.Lib

variable {β : Type}

/-! ### Cells and rows -/

/-- The cells are `n` of each type, one type after another. -/
def ColumnsMatch (n : Nat) : List ValueType → List (Cell β) → Prop
  | [], cells => cells = []
  | type :: types, cells =>
    (cells.take n).length = n ∧ (∀ cell ∈ cells.take n, cell.Matches type) ∧ ColumnsMatch n types (cells.drop n)

theorem columnsMatch_append {n : Nat} {type : ValueType} {types : List ValueType} {col cells : List (Cell β)}
    (hlen : col.length = n) (hm : ∀ cell ∈ col, cell.Matches type) (h : ColumnsMatch n types cells) :
    ColumnsMatch n (type :: types) (col ++ cells) := by
  have htake : (col ++ cells).take n = col := List.take_left' hlen
  have hdrop : (col ++ cells).drop n = cells := List.drop_left' hlen
  refine ⟨by rw [htake, hlen], ?_, by rwa [hdrop]⟩
  rwa [htake]

theorem columnsMatch_tableCells {rows : List (Row β)} {types : List ValueType} : ∀ {i1 : Nat},
    (∀ row ∈ rows, RowMatches i1 types row) → ColumnsMatch rows.length types (tableCells rows i1 types) := by
  induction types with
  | nil => exact fun _ => rfl
  | cons type types ih =>
    intro i1 h
    refine columnsMatch_append (length_columnCells fun row hr => ?_) (fun cell hc => ?_) (ih fun row hr => ?_)
    · obtain ⟨cell, hcell, -⟩ := (h row hr).head
      exact (List.getElem?_eq_some_iff.mp hcell).1
    · obtain ⟨row, hr, hcell⟩ := List.mem_filterMap.mp hc
      obtain ⟨cell', hcell', hm, -⟩ := (h row hr).head
      rwa [Option.some.inj (hcell.symm.trans hcell')]
    · obtain ⟨-, -, -, ht⟩ := (h row hr).head
      exact ht

theorem length_resolve (heap : Heap) (cells : List (Cell Nat)) : (resolve heap cells).length = cells.length := by
  induction cells generalizing heap with
  | nil => rfl
  | cons cell cells ih => rw [resolve, List.length_cons, List.length_cons, ih]

theorem resolve_match {heap : Heap} {cells : List (Cell Nat)} {type : ValueType}
    (h : ∀ cell ∈ cells, cell.Matches type) : ∀ cell ∈ resolve heap cells, cell.Matches type := by
  induction cells generalizing heap with
  | nil => exact fun cell hc => absurd hc List.not_mem_nil
  | cons cell cells ih =>
    obtain ⟨hcell, hcells⟩ := List.forall_mem_cons.mp h
    exact List.forall_mem_cons.mpr ⟨Sheet.matches_map hcell, ih hcells⟩

theorem columnsMatch_resolve {n : Nat} {types : List ValueType} : ∀ {heap : Heap} {cells : List (Cell Nat)},
    ColumnsMatch n types cells → ColumnsMatch n types (resolve heap cells) := by
  induction types with
  | nil =>
    intro heap cells h
    obtain rfl : cells = [] := h
    rfl
  | cons type types ih =>
    rintro heap cells ⟨hlen, hm, h⟩
    rw [← List.take_append_drop n cells, resolve_append]
    exact columnsMatch_append (by rw [length_resolve, hlen]) (resolve_match hm) (ih h)

theorem columnCells_cons (col : List (Cell β)) : ∀ {rows : List (Row β)}, rows.length = col.length →
    columnCells 0 (List.zipWith List.cons col rows) = col ∧
    ∀ i1, columnCells (i1 + 1) (List.zipWith List.cons col rows) = columnCells i1 rows := by
  induction col with
  | nil =>
    intro rows h
    obtain rfl := List.length_eq_zero_iff.mp h
    exact ⟨rfl, fun _ => rfl⟩
  | cons cell col ih =>
    intro rows h
    cases rows with
    | nil => cases h
    | cons row rows =>
      obtain ⟨hfirst, hnext⟩ := ih (Nat.succ.inj h)
      refine ⟨?_, fun i1 => ?_⟩
      · have hcells : columnCells 0 ((cell :: row) :: List.zipWith List.cons col rows) =
            cell :: columnCells 0 (List.zipWith List.cons col rows) := List.filterMap_cons_some rfl
        rw [List.zipWith_cons_cons, hcells, hfirst]
      · have htail := hnext i1
        unfold columnCells at htail ⊢
        rw [List.zipWith_cons_cons, List.filterMap_cons, List.filterMap_cons, htail, List.getElem?_cons_succ]

theorem tableCells_cons {col : List (Cell β)} {rows : List (Row β)} (h : rows.length = col.length)
    (types : List ValueType) : ∀ i1,
    tableCells (List.zipWith List.cons col rows) (i1 + 1) types = tableCells rows i1 types := by
  induction types with
  | nil => exact fun _ => rfl
  | cons type types ih =>
    intro i1
    rw [tableCells, tableCells, (columnCells_cons col h).2, ih]

/-- Cells that are `n` of each type are those of a table with `n` rows. -/
theorem exists_rows {n : Nat} {types : List ValueType} : ∀ {cells : List (Cell β)}, ColumnsMatch n types cells →
    ∃ rows : List (Row β), rows.length = n ∧ (∀ row ∈ rows, RowMatches 0 types row) ∧
      tableCells rows 0 types = cells := by
  induction types with
  | nil =>
    intro cells h
    obtain rfl : cells = [] := h
    refine ⟨List.replicate n [], List.length_replicate, fun row hr => ?_, rfl⟩
    obtain rfl := List.eq_of_mem_replicate hr
    exact List.Forall₂.nil
  | cons type types ih =>
    rintro cells ⟨hlen, hm, h⟩
    obtain ⟨rows, hrows, hmatch, hcells⟩ := ih h
    have hsame : rows.length = (cells.take n).length := hrows.trans hlen.symm
    refine ⟨List.zipWith List.cons (cells.take n) rows, by rw [List.length_zipWith, hsame, min_self, hlen],
      fun row hr => ?_, ?_⟩
    · obtain ⟨i, hi, rfl⟩ := List.getElem_of_mem hr
      rw [List.length_zipWith] at hi
      rw [List.getElem_zipWith, RowMatches, List.drop_zero]
      exact List.Forall₂.cons (hm _ (List.getElem_mem _)) (by simpa [RowMatches] using hmatch _ (List.getElem_mem _))
    · rw [tableCells, (columnCells_cons _ hsame).1, tableCells_cons hsame, hcells, List.take_append_drop]

/-! ### Tables -/

namespace Sheet

variable {t : Sheet} {rows : List (Row (List UInt8))}

/-- `build` and `load` succeed, and the table that is loaded has these names and rows. -/
def Loads (t : Sheet) (names : Option (List Utf16)) (rows : List (Row (List UInt8))) : Prop :=
  ∃ buf heap t', TableSerializer.build ⟨t.names, some t.columnsType, t.rows, none⟩ t.heap = some (buf, heap) ∧
    (TableSerializer.new Nat).load (some buf) = some t' ∧ t'.columnsName = names ∧ t'.rows = rows

/-- The rows as they are put. -/
structure Puts (t : Sheet) (rows : List (Row (List UInt8))) : Prop where
  length_eq : rows.length = t.rows.length
  rows_match : ∀ row ∈ rows, RowMatches 0 t.types row
  cells : tableCells rows 0 t.types = resolve t.heap t.cells

/-- A cell that is received as it was has been put with all of its bytes. -/
theorem resolve_eq_cellsIn {heap heap' : Heap} {cells : List (Cell Nat)}
    (h : (resolve heap' cells).map Cell.received = (cellsIn heap cells).map Cell.byIndex) :
    resolve heap' cells = cellsIn heap cells := by
  induction cells generalizing heap' with
  | nil => rfl
  | cons cell cells ih =>
    have hcons : cellsIn heap (cell :: cells) = cell.map heap :: cellsIn heap cells := rfl
    rw [hcons, resolve, List.map_cons, List.map_cons] at h
    obtain ⟨hcell, hcells⟩ := List.cons.inj h
    rw [hcons, resolve, ih hcells]
    cases cell with
    | bytes b => rw [show (Cell.bytes b).map heap' = (Cell.bytes b).map heap from hcell]
    | _ => rfl

theorem tableCells_map_cells {γ : Type} (f : Cell β → Cell γ) (rows : List (Row β)) (types : List ValueType) : ∀ i1,
    tableCells (rows.map fun row => row.map f) i1 types = (tableCells rows i1 types).map f := by
  induction types with
  | nil => exact fun _ => rfl
  | cons type types ih =>
    intro i1
    have hcol : columnCells i1 (rows.map fun row => row.map f) = (columnCells i1 rows).map f := by
      rw [columnCells, columnCells, List.filterMap_map, List.map_filterMap]
      exact congrArg₂ _ (funext fun row => List.getElem?_map) rfl
    rw [tableCells, tableCells, hcol, ih, List.map_append]

/-- The rows that are put are received as they were if and only if no buffer with bytes in it is
put twice and the strings are well-formed. -/
theorem exists_puts (t : Sheet) : ∃ rows, t.Puts rows ∧
    ((rows.map fun row => row.map Cell.received) = (t.values.map fun row => row.map Cell.byIndex) ↔
      PutOnce t.heap t.cells ∧ ∀ row ∈ t.rows, ∀ cell ∈ row, cell.WellFormed) := by
  have hvalues : tableCells t.values 0 t.types = cellsIn t.heap t.cells := tableCells_map t.heap t.rows t.types 0
  by_cases honce : PutOnce t.heap t.cells
  · refine ⟨t.values, ⟨List.length_map _, fun row => values_match, ?_⟩, ?_⟩
    · rw [hvalues, resolve_putOnce honce]
    · rw [received_iff, and_iff_right honce]
  · have hmatch : ColumnsMatch t.rows.length t.types (resolve t.heap t.cells) :=
      columnsMatch_resolve (columnsMatch_tableCells t.rows_match)
    obtain ⟨rows, hlen, hm, hcells⟩ := exists_rows hmatch
    refine ⟨rows, ⟨hlen, hm, hcells⟩, iff_of_false (fun hsame => honce ?_) fun h => honce h.1⟩
    have hmap := congrArg (fun rows => tableCells rows 0 t.types) hsame
    rw [tableCells_map_cells, tableCells_map_cells, hcells, hvalues] at hmap
    exact (size_resolve_le t.cells t.heap).2 (congrArg size (resolve_eq_cellsIn hmap))

/-- All cells are put. -/
theorem put_eq (h1 : .o ∈ t.types → t.rows.length ≤ 1) : t.put = (resolve t.heap t.cells).flatMap Cell.pieces := by
  have hall := (@putCells_eq_iff _ t.rows t.types 0 fun row hr => by rw [rows_length hr]; omega).2.2 h1
  rw [put, hall]
  rfl

theorem getRowsData_puts {ser : Serializer2} {rest : List UInt8} (h1 : .o ∈ t.types → t.rows.length ≤ 1)
    (hp : t.Puts rows) (ho : ObjectsReadable t.types t.rows.length) (hsize : (t.put.map List.length).sum < 2 ^ 31)
    (h : Reads ser (t.put.flatten ++ rest)) :
    ∃ ser', TableSerializer.getRowsData t.columnsType (BitVec.ofNat 32 t.rows.length) ser =
      some (rows.map fun row => row.map Cell.received, ser') ∧ Reads ser' rest := by
  rw [put_eq h1] at hsize h
  rw [← hp.length_eq] at ho ⊢
  exact TableSerializer.getRowsData_eq hp.rows_match (hp.length_eq ▸ t.rows_lt) (by rw [hp.cells]; exact hsize) ho
    (by rw [hp.cells]; exact h)

/-- A table is loaded when it fits and its object columns are readable, with the rows that are put. -/
theorem loads_iff {names' : Option (List Utf16)} {rows' : List (Row (List UInt8))}
    (h1 : .o ∈ t.types → t.rows.length ≤ 1) (hp : t.Puts rows) : t.Loads names' rows' ↔
      Fits 64 0 ((t.header ++ t.put).map List.length) ∧ ObjectsReadable t.types t.rows.length ∧
      (t.names.map fun names => names.map fun s => newString (getBytes s)) = names' ∧
      (rows.map fun row => row.map Cell.received) = rows' := by
  obtain ⟨ser₀, hser, hw, hcap⟩ := prepareSerializing_some (n := 64) (by decide)
  obtain ⟨hfit, hnofit⟩ := @Written.putAll (t.header ++ t.put) _ _ hw
  rw [hcap, show (64 : BitVec 32).toNat = 64 from rfl] at hfit hnofit
  have hbuilt : Fits 64 0 ((t.header ++ t.put).map List.length) → ∃ buf heap ser,
      TableSerializer.build ⟨t.names, some t.columnsType, t.rows, none⟩ t.heap = some (buf, heap) ∧
      Reads ser t.put.flatten ∧ (t.put.map List.length).sum < 2 ^ 31 ∧ (TableSerializer.new Nat).load (some buf) =
        (TableSerializer.getRowsData t.columnsType (BitVec.ofNat 32 t.rows.length) ser).map fun out =>
          ⟨t.names.map fun names => names.map fun s => newString (getBytes s), some t.columnsType, out.1, some out.2⟩ := by
    intro hf
    obtain ⟨ser₁, hall, hw₁⟩ := hfit hf
    have hlt := hf.lt (by decide) (Nat.zero_le _)
    rw [List.map_append, List.sum_append, Nat.zero_add] at hlt
    have hreads := Reads.build hw₁
    rw [List.nil_append, List.flatten_append] at hreads
    obtain ⟨ser₂, hr₂, hload⟩ := load_eq (by omega) hreads
    exact ⟨ser₁.build, _, ser₂, by rw [build_eq, hser, Option.bind_some, hall]; rfl, hr₂, by omega, hload⟩
  constructor
  · rintro ⟨buf, heap, t', hbuild, hload, rfl, rfl⟩
    have hf : Fits 64 0 ((t.header ++ t.put).map List.length) := by
      by_contra hf
      rw [build_eq, hser, Option.bind_some, hnofit hf] at hbuild
      cases hbuild
    obtain ⟨buf', heap', ser, hbuild', hreads, hsize, hload'⟩ := hbuilt hf
    obtain ⟨rfl, -⟩ := Prod.mk.inj (Option.some.inj (hbuild'.symm.trans hbuild))
    rw [hload'] at hload
    obtain ⟨out, hget, rfl⟩ := Option.map_eq_some_iff.mp hload
    have ho := objectsReadable h1 hget
    obtain ⟨ser', hrecv, -⟩ := getRowsData_puts h1 hp ho hsize ((List.append_nil t.put.flatten).symm ▸ hreads)
    obtain rfl := Option.some.inj (hrecv.symm.trans hget)
    exact ⟨hf, ho, rfl, rfl⟩
  · rintro ⟨hf, ho, rfl, rfl⟩
    obtain ⟨buf, heap, ser, hbuild, hreads, hsize, hload⟩ := hbuilt hf
    obtain ⟨ser', hrecv, -⟩ := getRowsData_puts h1 hp ho hsize ((List.append_nil t.put.flatten).symm ▸ hreads)
    rw [hrecv] at hload
    exact ⟨buf, heap, _, hbuild, hload, rfl, rfl⟩

end Sheet

end PxpRpc.Codec.Java
