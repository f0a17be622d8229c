import PxpRpc.Codec.NativeTable
import PxpRpc.Lib.Columns

/-!
# Rows of a C++ table

A row is read across the columns. Adding one, at once or value by value, pushes its
values to the columns; `addValue` goes on from the column behind the one it filled last.
-/
namespace PxpRpc.Codec.Native.TableSerializer

open PxpRpc.Lib

/-- `getRow`; an index out of range is undefined. -/
def getRow (rowIndex : Int) (t : TableSerializer) : Option (List TableCellValue) :=
  if 0 ≤ rowIndex then t.cols.mapM fun col => col[rowIndex.toNat]? else none

def getRowCount (t : TableSerializer) : Int := t.rowCnt.toInt

theorem getRow_eq (i : Nat) (t : TableSerializer) : t.getRow i = Columns.row t.cols i := if_pos (Int.natCast_nonneg i)

variable {t t' : TableSerializer} {row vs : List TableCellValue} {cols cols' : List (List TableCellValue)}

/-! ### Rows added at once -/

theorem pushRow_push (h : row.length = cols.length) : pushRow cols.length row cols = some (Columns.push cols row) := by
  induction cols generalizing row with
  | nil => rfl
  | cons col cols ih =>
    cases row with
    | nil => cases h
    | cons v row =>
      rw [List.length_cons, pushRow, ih (Nat.succ.inj h)]
      rfl

theorem pushRow_length {n : Nat} (h : pushRow n row cols = some cols') : cols'.length = cols.length := by
  induction n generalizing row cols cols' with
  | zero =>
    obtain rfl := Option.some.inj h
    rfl
  | succ n ih =>
    cases row with
    | nil => cases h
    | cons v row =>
      cases cols with
      | nil => cases h
      | cons col cols =>
        obtain ⟨rest, hrest, rfl⟩ := Option.map_eq_some_iff.mp h
        rw [List.length_cons, ih hrest, List.length_cons]

theorem addRow_length (h : t.addRow row = some t') : t'.cols.length = t.cols.length := by
  obtain ⟨cols', hpush, rfl⟩ := Option.map_eq_some_iff.mp h
  exact pushRow_length hpush

theorem addRow_push (hcols : t.cols.length = t.columnsType.length) (hrow : row.length = t.columnsType.length) :
    t.addRow row = some { t with cols := Columns.push t.cols row, rowCnt := t.rowCnt + 1 } := by
  rw [addRow, ← hcols, pushRow_push (hrow.trans hcols.symm), Option.map_some]

/-! ### Rows added value by value -/

theorem addValues_length (h : t.addValues vs = some t') : t'.cols.length = t.cols.length := by
  induction vs generalizing t with
  | nil =>
    obtain rfl := Option.some.inj h
    rfl
  | cons v vs ih =>
    obtain ⟨t₁, hadd, hrest⟩ := Option.bind_eq_some_iff.mp h
    obtain ⟨col, -, rfl⟩ := Option.map_eq_some_iff.mp hadd
    rw [ih hrest, List.length_set]
    rfl

/-- The column that gets a value. -/
theorem addValue_eq {done rest : List (List TableCellValue)} {col : List TableCellValue} {v : TableCellValue}
    (hcols : t.cols = done ++ col :: rest) (hmove : t.moveToNextValuePosX.currentAddValuePosX = done.length) :
    t.addValue v =
      some { t.moveToNextValuePosX with cols := done ++ (col ++ [v]) :: rest, currentAddValuePosX := done.length } := by
  have hframe : t.moveToNextValuePosX.cols = t.cols := rfl
  rw [addValue]
  simp only [hmove, Int.toNat_natCast, hframe, hcols]
  rw [List.getElem?_append_right le_rfl, Nat.sub_self, List.getElem?_cons_zero, Option.map_some,
    List.set_append_right _ _ le_rfl, Nat.sub_self, List.set_cons_zero, ← hmove]

/-- Values behind the first one of a row. -/
theorem addValues_rest {done rest : List (List TableCellValue)} (hcols : t.cols = done ++ rest)
    (hpos : t.currentAddValuePosX + 1 = done.length) (hdone : done ≠ []) (hvs : vs.length = rest.length) :
    t.addValues vs =
      some { t with
        cols := done ++ Columns.push rest vs
        currentAddValuePosX := (done.length + vs.length : Nat) - 1 } := by
  induction vs generalizing t done rest with
  | nil =>
    obtain rfl := List.length_eq_zero_iff.mp hvs.symm
    have hcur : ((done.length + ([] : List TableCellValue).length : Nat) : Int) - 1 = t.currentAddValuePosX := by
      rw [List.length_nil]
      omega
    rw [hcur]
    change some t = some { t with cols := done ++ [] }
    rw [← hcols]
  | cons v vs ih =>
    cases rest with
    | nil => cases hvs
    | cons col rest =>
      have hlen : 0 < done.length := List.length_pos_of_ne_nil hdone
      have hmove : t.moveToNextValuePosX = { t with currentAddValuePosX := done.length } := by
        have hsize : t.cols.length = done.length + (rest.length + 1) := by
          rw [hcols, List.length_append, List.length_cons]
        unfold moveToNextValuePosX
        rw [hpos, hsize, if_neg (by omega)]
        simp only [show ¬ ((done.length : Nat) : Int) = 0 by omega, if_false]
      have hadd := addValue_eq (v := v) hcols (congrArg currentAddValuePosX hmove)
      rw [hmove] at hadd
      rw [addValues, hadd, Option.bind_some]
      have hnext := @ih { t with cols := done ++ (col ++ [v]) :: rest, currentAddValuePosX := done.length }
        (done ++ [col ++ [v]]) rest (by simp) (by simp) (by simp) (Nat.succ.inj hvs)
      refine hnext.trans ?_
      rw [List.append_assoc, List.length_append, List.length_singleton, List.length_cons,
        Nat.add_right_comm, Nat.add_assoc done.length]
      rfl

/-- Between two rows the position is before the first column or on the last. -/
def BetweenRows (t : TableSerializer) : Prop :=
  t.currentAddValuePosX = -1 ∨ t.currentAddValuePosX + 1 = t.cols.length

/-- All values of a row. -/
theorem addValues_push (hb : t.BetweenRows) (hrow : row.length = t.cols.length) (hne : row ≠ []) :
    t.addValues row =
      some { t with
        rowCnt := t.rowCnt + 1
        cols := Columns.push t.cols row
        currentAddValuePosX := (t.cols.length : Int) - 1 } := by
  cases row with
  | nil => exact absurd rfl hne
  | cons v row =>
    obtain ⟨col, rest, hcols⟩ := List.exists_cons_of_length_eq_add_one hrow.symm
    have hrest : row.length = rest.length := by
      rw [hcols] at hrow
      exact Nat.succ.inj hrow
    have hmove : t.moveToNextValuePosX = { t with currentAddValuePosX := 0, rowCnt := t.rowCnt + 1 } := by
      have hx : (if t.currentAddValuePosX + 1 ≥ t.cols.length then 0 else t.currentAddValuePosX + 1) = 0 := by
        rcases hb with hb | hb
        · rw [hb, hcols, List.length_cons, if_neg (by omega)]
          rfl
        · rw [hb, if_pos le_rfl]
      unfold moveToNextValuePosX
      simp only [hx, if_true]
    have hadd := @addValue_eq t [] rest col v hcols (congrArg currentAddValuePosX hmove)
    rw [hmove] at hadd
    rw [addValues, hadd, Option.bind_some]
    have hnext := @addValues_rest { t with
        cols := (col ++ [v]) :: rest, currentAddValuePosX := 0, rowCnt := t.rowCnt + 1 }
      row [col ++ [v]] rest rfl rfl (by simp) hrest
    refine hnext.trans ?_
    rw [List.length_singleton, Nat.add_comm 1, hrest, hcols, List.length_cons]
    rfl

end PxpRpc.Codec.Native.TableSerializer
