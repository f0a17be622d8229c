import PxpRpc.Codec.TableInterop

/-!
# Rows of values

The arguments of a call, and its results, are a row that is put without a header: the
types of its columns are in the declaration that both ends have.
-/
namespace PxpRpc.Codec

open PxpRpc.Lib
open PxpRpc.Codec.Java (Cell Row RowMatches ValueType tableCells)
open PxpRpc.Codec.Wire

/-- A row can be put in columns of these types, in fewer than `2 ^ 31` bytes. -/
structure Wire.Passes (types : List ValueType) (row : Row (List UInt8)) : Prop where
  matching : List.Forall₂ Cell.Matches types row
  text : ∀ cell ∈ row, cell.WellFormed
  objects : Cell.object (-1) ∉ row
  size : (encodeAll (row.map cellItem)).length < 2 ^ 31

namespace TypeScript

/-- A new serializer, `putRowsData` of one row, `build`. -/
def putRow (initBufSize : Nat) (types : List ValueType) (row : Row (List UInt8)) : Option (List UInt8) :=
  ((Serializer.writer.putRowsData (types.map some) [row] (Serializer.prepareSerializing initBufSize)).bind
    Serializer.build).map View.bytes

/-- `getRowsData(1)[0]` -/
def getRow (types : List ValueType) (buf : View) : Option (Row (List UInt8)) :=
  (Serializer.reader.getRowsData (types.map some) 1 (Serializer.prepareUnserializing buf)).bind fun out => out.1[0]?

end TypeScript

namespace Python

def putRow (types : List ValueType) (row : Row (List UInt8)) : Option (List UInt8) :=
  (Serializer.writer.putRowsData (types.map some) [row] Serializer.prepareSerializing).map Serializer.build

def getRow (types : List ValueType) (buf : List UInt8) : Option (Row (List UInt8)) :=
  (Serializer.reader.getRowsData (types.map some) 1 (Serializer.prepareUnserializing buf)).bind fun out => out.1[0]?

end Python

namespace Wire

variable {types : List ValueType} {row : Row (List UInt8)}

/-- Column by column, the cells of one row are the row. -/
theorem tableCells_single : ∀ {types : List ValueType} {i1 : Nat}, RowMatches i1 types row →
    tableCells [row] i1 types = row.drop i1 := by
  intro types
  induction types with
  | nil =>
    intro i1 h
    exact (List.forall₂_nil_left_iff.mp h).symm
  | cons type types ih =>
    intro i1 h
    obtain ⟨cell, hcell, -, ht⟩ := h.head
    have hdrop : row.drop i1 = cell :: row.drop (i1 + 1) := by
      obtain ⟨hlt, rfl⟩ := List.getElem?_eq_some_iff.mp hcell
      exact List.drop_eq_getElem_cons hlt
    have hcol : Java.columnCells i1 [row] = [cell] := List.filterMap_cons_some hcell
    rw [tableCells, hcol, ih ht, hdrop]
    rfl

namespace Passes

theorem rowMatches (h : Passes types row) : RowMatches 0 types row := by
  rw [RowMatches, List.drop_zero]
  exact h.matching

theorem cells (h : Passes types row) : tableCells [row] 0 types = row := tableCells_single h.rowMatches

theorem wellFormed (h : Passes types row) : ∀ item ∈ row.map cellItem, item.WellFormed := by
  intro item hi
  obtain ⟨cell, hc, rfl⟩ := List.mem_map.mp hi
  have hw := h.text cell hc
  cases cell with
  | string s => exact hw
  | _ => exact trivial

theorem short (h : Passes types row) : ∀ item ∈ row.map cellItem, item.Short := by
  intro item hi
  have hle : item.encode.length ≤ (encodeAll (row.map cellItem)).length :=
    (List.sublist_flatten_of_mem (List.mem_map_of_mem hi)).length_le
  have hsize := h.size
  obtain ⟨cell, -, rfl⟩ := List.mem_map.mp hi
  cases cell with
  | boolean v =>
    change (if v then 1 else 0) < 2 ^ 32
    cases v <;> decide
  | bytes b =>
    have hb : b.length ≤ (cellItem (.bytes b)).encode.length := by simp [cellItem, Item.encode, Item.pieces]
    exact (hb.trans hle).trans_lt (hsize.trans (by decide))
  | string s =>
    have hs : (utf8 s).length ≤ (cellItem (.string s)).encode.length := by simp [cellItem, Item.encode, Item.pieces]
    exact (hs.trans hle).trans_lt (hsize.trans (by decide))
  | _ => exact trivial

theorem putRowsData {S : Type} {W : Writer S} (h : Passes types row) (ser : S) :
    W.putRowsData (types.map some) [row] ser = W.putAll (row.map cellItem) ser := by
  have hrows : ∀ row' ∈ [row], RowMatches 0 types row' := fun row' hr => by
    rw [List.mem_singleton.mp hr]
    exact h.rowMatches
  rw [Writer.putRowsData, Writer.putColumns_eq hrows, h.cells]

theorem getRowsData {S : Type} {R : Reader S} {Reads : S → List UInt8 → Prop} {heard : List Char → Utf16}
    (hR : R.Source Reads heard) (h : Passes types row) {ser : S}
    (hr : Reads ser (encodeAll (row.map cellItem) ++ [])) :
    ∃ ser', R.getRowsData (types.map some) 1 ser = some ([row.map (cellHeard heard)], ser') := by
  have hcells := h.cells
  have hshort : ∀ cell ∈ tableCells [row] 0 types, (cellItem cell).Short := fun cell hc =>
    h.short _ (List.mem_map_of_mem (hcells ▸ hc))
  have hrows : ∀ row' ∈ [row], RowMatches 0 types row' := fun row' hr => by
    rw [List.mem_singleton.mp hr]
    exact h.rowMatches
  have hobj : ∀ row' ∈ [row], Cell.object (-1) ∉ row' := fun row' hr => by
    rw [List.mem_singleton.mp hr]
    exact h.objects
  obtain ⟨ser', hget, -⟩ := Reader.getColumns_eq hR hobj hrows hshort (hcells.symm ▸ hr)
  have hlen := h.rowMatches.length_eq
  rw [List.drop_zero] at hlen
  refine ⟨ser', ?_⟩
  have htake : [row].map (fun row => (row.take (0 + types.length)).map (cellHeard heard)) =
      [row.map (cellHeard heard)] := by
    rw [Nat.zero_add, hlen, List.map_singleton, List.take_length]
  rw [htake] at hget
  exact hget

end Passes

end Wire

variable {types : List ValueType} {row : Row (List UInt8)}

/-- A row is put as its items in both languages. -/
theorem TypeScript.putRow_eq (h : Wire.Passes types row) (initBufSize : Nat) :
    TypeScript.putRow initBufSize types row = some (encodeAll (row.map cellItem)) := by
  have hsize : ((allPieces (row.map cellItem)).map List.length).sum = (encodeAll (row.map cellItem)).length := by
    rw [← flatten_allPieces, List.length_flatten]
  have hfits : TypeScript.Fits initBufSize 0 ((allPieces (row.map cellItem)).map List.length) :=
    TypeScript.fits_of_lt (by rw [Nat.zero_add, hsize]; exact h.size)
  obtain ⟨v, hv, -, hbytes⟩ := (TypeScript.write_iff h.wellFormed).1 hfits
  rw [TypeScript.Serializer.write] at hv
  rw [TypeScript.putRow, h.putRowsData, hv, Option.map_some, hbytes]

theorem Python.putRow_eq (h : Wire.Passes types row) :
    Python.putRow types row = some (encodeAll (row.map cellItem)) := by
  rw [Python.putRow, h.putRowsData]
  exact Python.write_eq h.wellFormed h.short

/-- It is read as it was put, up to a byte order mark in front of a string. -/
theorem TypeScript.getRow_eq (h : Wire.Passes types row) {buf : TypeScript.View} (hv : buf.Valid)
    (hb : buf.bytes = encodeAll (row.map cellItem)) :
    TypeScript.getRow types buf = some (row.map (cellHeard TypeScript.heard)) := by
  have hr : TypeScript.Reads (TypeScript.Serializer.prepareUnserializing buf)
      (encodeAll (row.map cellItem) ++ []) := by
    rw [List.append_nil, ← hb]
    exact TypeScript.Reads.prepareUnserializing hv
  obtain ⟨ser', hget⟩ := h.getRowsData TypeScript.source hr
  rw [TypeScript.getRow, hget]
  rfl

theorem Python.getRow_eq (h : Wire.Passes types row) :
    Python.getRow types (encodeAll (row.map cellItem)) = some row := by
  have hr : Python.Reads (Python.Serializer.prepareUnserializing (encodeAll (row.map cellItem)))
      (encodeAll (row.map cellItem) ++ []) := by
    rw [List.append_nil]
    exact Python.Reads.prepareUnserializing _
  obtain ⟨ser', hget⟩ := h.getRowsData Python.source hr
  have hheard : row.map (cellHeard toUtf16) = row := by
    refine Table.map_cellHeard_iff.mpr fun s hs => ?_
    exact toUtf16_fromUtf16_iff.mpr (h.text _ hs)
  rw [Python.getRow, hget, hheard]
  rfl

end PxpRpc.Codec
