import PxpRpc.Codec.NativeTableRoundTrip
import PxpRpc.Lib.Run

/-!
# A C++ table in memory

One `TableSerializer` through any calls of `setColumnsInfo`, `addRow`, `addValue` and
`load`, with the rows of the table that it should hold. `load` puts its columns behind
those that are there, `setColumnsInfo` takes none away.
-/
namespace PxpRpc.Codec.Native

open PxpRpc.Lib
open PxpRpc.Codec.Java (ValueType)

namespace TableSerializer

/-! ### What is loaded -/

theorem getColumns_behind (rowCnt : BitVec 32) (types : List UInt8) (front cols : List (List TableCellValue))
    (ser : Serializer) :
    getColumns rowCnt types (front ++ cols, ser) =
      (getColumns rowCnt types (cols, ser)).map fun (cols, ser) => (front ++ cols, ser) := by
  induction types generalizing cols ser with
  | nil => rfl
  | cons ch types ih =>
    have hpush : pushColumn rowCnt ch (front ++ cols, ser) =
        (pushColumn rowCnt ch (cols, ser)).map fun (cols, ser) => (front ++ cols, ser) := by
      unfold pushColumn
      cases knownType ch with
      | none => rfl
      | some type =>
        dsimp only
        cases getColumn rowCnt type ser with
        | none => rfl
        | some out => simp only [Option.map_some, List.append_assoc]
    rw [getColumns, getColumns, hpush]
    cases pushColumn rowCnt ch (cols, ser) with
    | none => rfl
    | some out => exact ih out.1 out.2

/-- What a new object loads is put behind the columns of another. -/
theorem load_behind (data : List UInt8) (t : TableSerializer) :
    t.load data = (new.load data).map fun l =>
      { l with cols := t.cols ++ l.cols, currentAddValuePosX := t.currentAddValuePosX } := by
  have hcols := fun (rowCnt : BitVec 32) (types : List UInt8) (ser : Serializer) =>
    getColumns_behind rowCnt types t.cols [] ser
  simp only [List.append_nil] at hcols
  simp only [load, hcols, Option.bind_eq_bind, Option.map_bind, Option.bind_map,
    Function.comp_def]
  rfl

theorem length_leWords (w n : Nat) (bs : List UInt8) : (leWords w n bs).length = n := by
  induction n generalizing bs with
  | zero => rfl
  | succ n ih => rw [leWords, List.length_cons, ih]

variable {ser ser' : Serializer} {rowCnt : BitVec 32} {n : Nat} {cells : List TableCellValue}

theorem getWords_length {w : Nat} {vs : List Nat} (h : getWords w n ser = some (vs, ser')) : vs.length = n := by
  obtain ⟨r, -, hr⟩ := Option.map_eq_some_iff.mp h
  obtain ⟨rfl, -⟩ := Prod.mk.inj hr
  exact length_leWords w n r.1

theorem getVec_length {w : Nat} {get : Nat → Serializer → Option (List (BitVec (8 * w)) × Serializer)}
    (hget : ∀ n ser, get n ser = (getWords w n ser).map fun r => (r.1.map (BitVec.ofNat (8 * w)), r.2))
    {f : BitVec (8 * w) → TableCellValue}
    (h : (getVec get rowCnt ser).map (fun r => (r.1.map f, r.2)) = some (cells, ser')) :
    cells.length = rowCnt.toInt.toNat := by
  obtain ⟨⟨vs, ser₁⟩, hvec, hr⟩ := Option.map_eq_some_iff.mp h
  obtain ⟨rfl, -⟩ := Prod.mk.inj hr
  rw [getVec] at hvec
  split at hvec
  · cases hvec
  case isFalse hneg =>
    obtain ⟨⟨ws, ser₂⟩, hwords, hr⟩ := Option.map_eq_some_iff.mp (hget _ _ ▸ hvec)
    obtain ⟨rfl, -⟩ := Prod.mk.inj hr
    rw [List.length_map, List.length_map, getWords_length hwords, BitVec.toInt_eq_msb_cond, if_neg hneg,
      Int.toNat_natCast]

theorem getStrings_length {bs : List (List UInt8)} (h : getStrings n ser = some (bs, ser')) : bs.length = n := by
  induction n generalizing ser bs with
  | zero =>
    obtain ⟨rfl, -⟩ := Prod.mk.inj (Option.some.inj h)
    rfl
  | succ n ih =>
    obtain ⟨out, -, hrest⟩ := Option.bind_eq_some_iff.mp h
    obtain ⟨⟨rest, ser₁⟩, hget, hr⟩ := Option.map_eq_some_iff.mp hrest
    obtain ⟨rfl, rfl⟩ := Prod.mk.inj hr
    rw [List.length_cons, ih hget]

theorem getBools_length (h : getBools n ser = some (cells, ser')) : cells.length = n := by
  induction n generalizing ser cells with
  | zero =>
    obtain ⟨rfl, -⟩ := Prod.mk.inj (Option.some.inj h)
    rfl
  | succ n ih =>
    obtain ⟨out, -, hrest⟩ := Option.bind_eq_some_iff.mp h
    obtain ⟨⟨rest, ser₁⟩, hget, hr⟩ := Option.map_eq_some_iff.mp hrest
    obtain ⟨rfl, rfl⟩ := Prod.mk.inj hr
    rw [List.length_cons, ih hget]

/-- A column has as many cells as the table has rows, none for a negative number. -/
theorem getColumn_length {type : ValueType} (ho : type ≠ .o) (h : getColumn rowCnt type ser = some (cells, ser')) :
    cells.length = rowCnt.toInt.toNat := by
  cases type with
  | i => exact getVec_length (w := 4) (fun _ _ => rfl) h
  | l => exact getVec_length (w := 8) (fun _ _ => rfl) h
  | f => exact getVec_length (w := 4) (fun _ _ => rfl) h
  | d => exact getVec_length (w := 8) (fun _ _ => rfl) h
  | b =>
    obtain ⟨⟨bs, ser₁⟩, hget, hr⟩ := Option.map_eq_some_iff.mp h
    obtain ⟨rfl, -⟩ := Prod.mk.inj hr
    rw [List.length_map, getStrings_length hget]
  | s =>
    obtain ⟨⟨bs, ser₁⟩, hget, hr⟩ := Option.map_eq_some_iff.mp h
    obtain ⟨rfl, -⟩ := Prod.mk.inj hr
    rw [List.length_map, getStrings_length hget]
  | c => exact getBools_length h
  | o => exact absurd rfl ho

/-- The types `i`, `l`, `f`, `d`, `b`, `s` and `c`, and at least one. -/
def Typed (columnsType : List UInt8) : Prop := columnsType ≠ [] ∧ ∀ ch ∈ columnsType, (knownType ch).isSome

instance (columnsType : List UInt8) : Decidable (Typed columnsType) := inferInstanceAs (Decidable (_ ∧ _))

theorem getColumns_full {types : List UInt8} {cols cols' : List (List TableCellValue)}
    (hfull : ∀ col ∈ cols, col.length = rowCnt.toInt.toNat)
    (h : getColumns rowCnt types (cols, ser) = some (cols', ser')) :
    (∀ col ∈ cols', col.length = rowCnt.toInt.toNat) ∧
      ((∀ ch ∈ types, (knownType ch).isSome) → cols'.length = cols.length + types.length) := by
  induction types generalizing cols ser with
  | nil =>
    obtain ⟨rfl, -⟩ := Prod.mk.inj (Option.some.inj h)
    exact ⟨hfull, fun _ => rfl⟩
  | cons ch types ih =>
    obtain ⟨⟨cols₁, ser₁⟩, hpush, hrest⟩ := Option.bind_eq_some_iff.mp h
    rw [pushColumn] at hpush
    split at hpush
    case h_1 type htype =>
      obtain ⟨⟨col, ser₂⟩, hget, hr⟩ := Option.map_eq_some_iff.mp hpush
      obtain ⟨rfl, rfl⟩ := Prod.mk.inj hr
      have ho : type ≠ .o := by simpa using (Option.filter_eq_some_iff.mp htype).2
      have hcol := getColumn_length ho hget
      obtain ⟨hfull', hlen⟩ := @ih _ (cols ++ [col]) (fun c hc => by
        rcases List.mem_append.mp hc with hc | hc
        · exact hfull c hc
        · rw [List.mem_singleton.mp hc, hcol]) hrest
      refine ⟨hfull', fun hall => ?_⟩
      rw [hlen fun c hc => hall c (List.mem_cons_of_mem _ hc), List.length_append, List.length_cons, List.length_nil,
        List.length_cons]
      omega
    case h_2 hnone =>
      obtain ⟨rfl, rfl⟩ := Prod.mk.inj (Option.some.inj hpush)
      obtain ⟨hfull', -⟩ := ih hfull hrest
      exact ⟨hfull', fun hall => absurd (hall ch List.mem_cons_self) (by rw [hnone]; decide)⟩

/-- What a new object has after `load`. -/
theorem load_full {data : List UInt8} {l : TableSerializer} (h : new.load data = some l) :
    (∀ col ∈ l.cols, col.length = l.rowCnt.toInt.toNat) ∧
      (Typed l.columnsType → l.cols.length = l.columnsType.length) := by
  simp only [load, Option.bind_eq_bind, Option.bind_eq_some_iff] at h
  obtain ⟨⟨flag, ser₁⟩, -, ⟨rowCnt, ser₂⟩, -, ⟨types, ser₃⟩, -, ⟨names, ser₄⟩, -, ⟨cols, ser₅⟩, hcols, hl⟩ := h
  obtain rfl := Option.some.inj hl
  obtain ⟨hfull, hlen⟩ := getColumns_full (fun col hc => absurd hc List.not_mem_nil) hcols
  exact ⟨hfull, fun htyped => (hlen htyped.2).trans (Nat.zero_add _)⟩

end TableSerializer

/-! ### Any calls on one object -/

open TableSerializer

/-- An object, and the rows of the last `load` followed by those added since. -/
structure TableHistory where
  table : TableSerializer
  rows : List (List TableCellValue)
deriving DecidableEq, Repr

inductive TableOp where
  | setColumnsInfo (columnsType : List UInt8) (columnsName : List (List UInt8))
  | addRow (row : List TableCellValue)
  /-- `addValue` for each cell of a row -/
  | addValues (row : List TableCellValue)
  | load (data : List UInt8)
deriving DecidableEq, Repr

namespace TableHistory

def init : TableHistory := ⟨new, []⟩

def step (s : TableHistory) : TableOp → Option TableHistory
  | .setColumnsInfo columnsType columnsName =>
    some { s with table := s.table.setColumnsInfo columnsType columnsName }
  | .addRow row => (s.table.addRow row).map fun table => ⟨table, s.rows ++ [row]⟩
  | .addValues row => (s.table.addValues row).map fun table => ⟨table, s.rows ++ [row]⟩
  | .load data => (s.table.load data).bind fun table =>
      (new.load data).map fun l => ⟨table, Columns.toRows l.rowCnt.toInt.toNat l.cols⟩

/-- Columns are of known types, there is one at least, a row has a value for each, and what is loaded is a table. -/
def Legal (s : TableHistory) : TableOp → Prop
  | .setColumnsInfo columnsType _ => Typed columnsType
  | .addRow row | .addValues row => s.table.columnsType ≠ [] ∧ row.length = s.table.columnsType.length
  | .load data => ∃ l ∈ new.load data, Typed l.columnsType

/-- The object shows its table: every column has `getRowCount()` cells, and `getRow` gives each row. -/
structure Shows (s : TableHistory) : Prop where
  count : s.table.getRowCount = s.rows.length
  full : ∀ col ∈ s.table.cols, (col.length : Int) = s.table.getRowCount
  row : ∀ i (h : i < s.rows.length), s.table.getRow i = some s.rows[i]

/-- Columns are only added to a table without rows. Rows are only added where there are as many columns as
types, while their number stays an `int32_t`. A table is only loaded where there are no columns or, without
rows, no rows. -/
def Fits (s : TableHistory) : TableOp → Prop
  | .setColumnsInfo columnsType _ => columnsType.length ≤ s.table.cols.length ∨ s.table.rowCnt = 0
  | .addRow _ | .addValues _ =>
    s.table.cols.length = s.table.columnsType.length ∧ s.table.rowCnt.toInt + 1 < 2 ^ 31
  | .load data => ∀ l ∈ new.load data,
    (s.table.cols = [] ∨ s.table.rowCnt = 0 ∧ l.rowCnt = 0) ∧ 0 ≤ l.rowCnt.toInt

instance (s : TableHistory) : ∀ op, Decidable (s.Legal op)
  | .setColumnsInfo columnsType _ => inferInstanceAs (Decidable (Typed columnsType))
  | .addRow row | .addValues row =>
    inferInstanceAs (Decidable (s.table.columnsType ≠ [] ∧ row.length = s.table.columnsType.length))
  | .load data => inferInstanceAs (Decidable (∃ l ∈ new.load data, Typed l.columnsType))

instance (s : TableHistory) : ∀ op, Decidable (s.Fits op)
  | .setColumnsInfo columnsType _ =>
    inferInstanceAs (Decidable (columnsType.length ≤ s.table.cols.length ∨ s.table.rowCnt = 0))
  | .addRow _ | .addValues _ =>
    inferInstanceAs (Decidable (s.table.cols.length = s.table.columnsType.length ∧ s.table.rowCnt.toInt + 1 < 2 ^ 31))
  | .load data => inferInstanceAs (Decidable (∀ l ∈ new.load data,
    (s.table.cols = [] ∨ s.table.rowCnt = 0 ∧ l.rowCnt = 0) ∧ 0 ≤ l.rowCnt.toInt))

variable {s s' : TableHistory}

theorem shows_iff : Shows s ↔ s.table.getRowCount = s.rows.length ∧ Columns.Holds s.table.cols s.rows := by
  constructor
  · exact fun h => ⟨h.count, fun col hc => Int.natCast_inj.mp ((h.full col hc).trans h.count),
      fun i hi => by rw [← getRow_eq, h.row i hi]⟩
  · exact fun ⟨hcount, h⟩ => ⟨hcount, fun col hc => by rw [hcount, h.full col hc],
      fun i hi => by rw [getRow_eq, h.row i hi]⟩

/-- An object that shows its table, between two calls. -/
structure Regular (s : TableHistory) : Prop where
  shows : Shows s
  width : s.table.columnsType.length ≤ s.table.cols.length
  between : s.table.BetweenRows
  /-- without a cell there is no row, and none has been begun -/
  blank : (∀ col ∈ s.table.cols, col = []) → s.rows = [] ∧ s.table.currentAddValuePosX = -1

theorem Regular.init : Regular .init where
  shows := ⟨rfl, fun _ hc => absurd hc List.not_mem_nil, fun i hi => absurd hi (Nat.not_lt_zero i)⟩
  width := le_rfl
  between := .inl rfl
  blank _ := ⟨rfl, rfl⟩

theorem Regular.rowCnt_zero (hr : Regular s) : s.table.rowCnt = 0 ↔ s.rows = [] := by
  have hcount := hr.shows.count
  rw [← BitVec.toInt_inj, ← List.length_eq_zero_iff]
  change s.table.getRowCount = 0 ↔ _
  omega

theorem Regular.holds (hr : Regular s) : Columns.Holds s.table.cols s.rows := (shows_iff.mp hr.shows).2

/-- Without rows there are no cells, and none has been added. -/
theorem Regular.untouched (hr : Regular s) (h : s.table.rowCnt = 0) :
    (∀ col ∈ s.table.cols, col = []) ∧ s.table.currentAddValuePosX = -1 := by
  have hholds := hr.holds
  rw [hr.rowCnt_zero.mp h] at hholds
  have hnil := Columns.holds_nil_iff.mp hholds
  exact ⟨hnil, (hr.blank hnil).2⟩

/-! ### Rows -/

/-- One more row is counted while the number stays an `int32_t`. -/
theorem count_succ_iff (n : BitVec 32) (rows : List (List TableCellValue)) (row : List TableCellValue) :
    (n + 1).toInt = ((rows ++ [row]).length : Int) ↔ n.toInt = rows.length ∧ n.toInt + 1 < 2 ^ 31 := by
  rw [List.length_append, List.length_singleton, BitVec.toInt_add]
  have hlo := n.two_mul_toInt_lt
  have hhi := n.le_two_mul_toInt
  have hone : (1 : BitVec 32).toInt = 1 := by decide
  rw [hone, Int.bmod_def]
  omega

variable {row : List TableCellValue}

/-- A row that is pushed shows while the rows can be counted. -/
theorem Regular.pushed (hr : Regular s) (hne : row ≠ []) (hrow : row.length = s.table.cols.length) (pos : Int)
    (hpos : pos = s.table.currentAddValuePosX ∨ pos + 1 = s.table.cols.length)
    (h : s' = ⟨{ s.table with
      rowCnt := s.table.rowCnt + 1
      cols := Columns.push s.table.cols row
      currentAddValuePosX := pos }, s.rows ++ [row]⟩) :
    (Shows s' ↔ s.table.rowCnt.toInt + 1 < 2 ^ 31) ∧ (Shows s' → Regular s') := by
  subst h
  have hsize : (Columns.push s.table.cols row).length = s.table.cols.length := by
    rw [← List.length_map List.length, Columns.map_length_push hrow, List.length_map]
  have hshows : Shows ⟨{ s.table with
      rowCnt := s.table.rowCnt + 1
      cols := Columns.push s.table.cols row
      currentAddValuePosX := pos }, s.rows ++ [row]⟩ ↔ s.table.rowCnt.toInt + 1 < 2 ^ 31 := by
    rw [shows_iff]
    change (s.table.rowCnt + 1).toInt = _ ∧ Columns.Holds (Columns.push _ _) _ ↔ _
    rw [count_succ_iff, Columns.holds_push_iff hrow, and_iff_left ⟨hr.holds, rfl⟩]
    exact and_iff_right hr.shows.count
  refine ⟨hshows, fun hs => ⟨hs, ?_, ?_, fun hnil => ?_⟩⟩
  · change _ ≤ (Columns.push _ _).length
    rw [hsize]
    exact hr.width
  · change pos = -1 ∨ pos + 1 = ((Columns.push _ _).length : Int)
    rw [hsize]
    have hbetween := hr.between
    rw [BetweenRows] at hbetween
    omega
  · obtain ⟨col, hcol⟩ := List.exists_mem_of_length_pos (l := Columns.push s.table.cols row) (by
      rw [hsize, ← hrow]
      exact List.length_pos_of_ne_nil hne)
    have hfull := (shows_iff.mp hs).2.full col hcol
    rw [hnil col hcol, List.length_append] at hfull
    exact absurd hfull (Nat.succ_ne_zero _).symm

/-- A row does not show where it is not as wide as the columns. -/
theorem not_shows (hrows : s'.rows = s.rows ++ [row]) (hrow : row.length ≠ s'.table.cols.length) : ¬ Shows s' := by
  intro h
  obtain ⟨-, hholds⟩ := shows_iff.mp h
  exact hrow (hholds.width row (by rw [hrows]; exact List.mem_append_right _ (List.mem_singleton_self row)))

/-- A row, in whichever way it is added. -/
theorem Regular.added (hr : Regular s) {add : Option TableSerializer} (hne : s.table.columnsType ≠ [])
    (hrow : row.length = s.table.columnsType.length)
    (hlen : ∀ t ∈ add, t.cols.length = s.table.cols.length)
    (hpush : row ≠ [] → row.length = s.table.cols.length → ∃ pos,
      (pos = s.table.currentAddValuePosX ∨ pos + 1 = (s.table.cols.length : Int)) ∧
        add = some { s.table with
          rowCnt := s.table.rowCnt + 1
          cols := Columns.push s.table.cols row
          currentAddValuePosX := pos }) :
    ((∃ s' ∈ add.map fun table => ⟨table, s.rows ++ [row]⟩, Shows s') ↔
      s.table.cols.length = s.table.columnsType.length ∧ s.table.rowCnt.toInt + 1 < 2 ^ 31) ∧
      ∀ s' ∈ add.map fun table => ⟨table, s.rows ++ [row]⟩, Shows s' → Regular s' := by
  by_cases hwide : row.length = s.table.cols.length
  · have hvalues : row ≠ [] := by
      refine List.ne_nil_of_length_pos ?_
      rw [hrow]
      exact List.length_pos_of_ne_nil hne
    obtain ⟨pos, hpos, hadd⟩ := hpush hvalues hwide
    obtain ⟨hshows, hregular⟩ := hr.pushed hvalues hwide pos hpos rfl
    rw [hadd, Option.map_some, and_iff_right (hwide.symm.trans hrow), ← hshows]
    exact ⟨by simp, fun s' hs' => by obtain rfl := Option.some.inj hs'; exact hregular⟩
  · have hnot : ∀ s' ∈ add.map fun table => ⟨table, s.rows ++ [row]⟩, ¬ Shows s' := by
      intro s' hs'
      obtain ⟨t, ht, rfl⟩ := Option.map_eq_some_iff.mp hs'
      exact not_shows rfl (by simpa only [hlen t ht] using hwide)
    refine ⟨iff_of_false (fun ⟨s', hs', hs⟩ => hnot s' hs' hs) fun hc => hwide (hrow.trans hc.1.symm), ?_⟩
    exact fun s' hs' hs => absurd hs (hnot s' hs')

/-! ### Columns -/

section

variable {columnsType : List UInt8} {columnsName : List (List UInt8)}

theorem Regular.shows_setColumnsInfo_iff (hr : Regular s) :
    Shows { s with table := s.table.setColumnsInfo columnsType columnsName } ↔
      columnsType.length ≤ s.table.cols.length ∨ s.table.rowCnt = 0 := by
  rw [shows_iff]
  change s.table.getRowCount = _ ∧ Columns.Holds (s.table.cols ++ List.replicate _ []) _ ↔ _
  rw [Columns.holds_grown_iff, Nat.sub_eq_zero_iff_le, and_iff_right hr.shows.count, and_iff_right hr.holds,
    hr.rowCnt_zero]

theorem Regular.setColumnsInfo (hr : Regular s)
    (hs : Shows { s with table := s.table.setColumnsInfo columnsType columnsName }) :
    Regular { s with table := s.table.setColumnsInfo columnsType columnsName } where
  shows := hs
  width := by
    change columnsType.length ≤ (s.table.cols ++ List.replicate _ []).length
    rw [List.length_append, List.length_replicate]
    omega
  between := by
    change s.table.currentAddValuePosX = -1 ∨ _ + 1 = ((s.table.cols ++ List.replicate _ []).length : Int)
    rcases hr.shows_setColumnsInfo_iff.mp hs with hle | hzero
    · rw [Nat.sub_eq_zero_of_le hle, List.replicate_zero, List.append_nil]
      exact hr.between
    · exact .inl (hr.untouched hzero).2
  blank hnil := hr.blank fun col hc => hnil col (List.mem_append_left _ hc)

end

section

variable {data : List UInt8} {l : TableSerializer}

theorem step_load (hl : new.load data = some l) : s.step (.load data) =
    some ⟨{ l with cols := s.table.cols ++ l.cols, currentAddValuePosX := s.table.currentAddValuePosX },
      Columns.toRows l.rowCnt.toInt.toNat l.cols⟩ := by
  rw [step, load_behind, hl, Option.map_some, Option.bind_some, Option.map_some]

theorem Regular.shows_load_iff (hr : Regular s) (hl : new.load data = some l) :
    Shows ⟨{ l with cols := s.table.cols ++ l.cols, currentAddValuePosX := s.table.currentAddValuePosX },
        Columns.toRows l.rowCnt.toInt.toNat l.cols⟩ ↔
      (s.table.cols = [] ∨ s.table.rowCnt = 0 ∧ l.rowCnt = 0) ∧ 0 ≤ l.rowCnt.toInt := by
  have hholds := Columns.holds_toRows (load_full hl).1
  have hlen : (Columns.toRows l.rowCnt.toInt.toNat l.cols).length = l.rowCnt.toInt.toNat := by simp [Columns.toRows]
  have hnone : Columns.toRows l.rowCnt.toInt.toNat l.cols = [] ↔ l.rowCnt.toInt.toNat = 0 := by
    rw [← List.length_eq_zero_iff, hlen]
  have hempty : (∀ col ∈ s.table.cols, col = []) ↔ s.table.rowCnt = 0 :=
    ⟨fun h => hr.rowCnt_zero.mpr (hr.blank h).1, fun h => (hr.untouched h).1⟩
  have hzero : l.rowCnt = 0 ↔ l.rowCnt.toInt = 0 := by rw [← BitVec.toInt_inj]; rfl
  rw [shows_iff]
  change l.rowCnt.toInt = _ ∧ Columns.Holds (s.table.cols ++ l.cols) _ ↔ _
  rw [Columns.holds_append_iff hholds, hnone, hlen, hempty, hzero]
  constructor
  · rintro ⟨hcount, hcols⟩
    exact ⟨hcols.imp_right fun h => ⟨h.2, by omega⟩, by omega⟩
  · rintro ⟨hcols, hnonneg⟩
    exact ⟨by omega, hcols.imp_right fun h => ⟨by omega, h.1⟩⟩

theorem Regular.load (hr : Regular s) (hl : new.load data = some l) (htyped : Typed l.columnsType)
    (hs : Shows ⟨{ l with cols := s.table.cols ++ l.cols, currentAddValuePosX := s.table.currentAddValuePosX },
      Columns.toRows l.rowCnt.toInt.toNat l.cols⟩) :
    Regular ⟨{ l with cols := s.table.cols ++ l.cols, currentAddValuePosX := s.table.currentAddValuePosX },
      Columns.toRows l.rowCnt.toInt.toNat l.cols⟩ where
  shows := hs
  width := by
    change l.columnsType.length ≤ (s.table.cols ++ l.cols).length
    rw [List.length_append, (load_full hl).2 htyped]
    exact Nat.le_add_left _ _
  between := by
    rcases ((hr.shows_load_iff hl).mp hs).1 with hcols | ⟨hzero, -⟩
    · exact .inl (hr.blank fun col hc => absurd (hcols ▸ hc) List.not_mem_nil).2
    · exact .inl (hr.untouched hzero).2
  blank hnil := by
    obtain ⟨col, hcol⟩ := List.exists_mem_of_length_pos (l := l.cols) (by
      rw [(load_full hl).2 htyped]
      exact List.length_pos_of_ne_nil htyped.1)
    have hfull := (load_full hl).1 col hcol
    rw [hnil col (List.mem_append_right _ hcol)] at hfull
    refine ⟨List.length_eq_zero_iff.mp ?_, (hr.blank fun col hc => hnil col (List.mem_append_left _ hc)).2⟩
    simpa [Columns.toRows] using hfull.symm

end

/-! ### Calls -/

theorem Regular.step_iff {op : TableOp} (hr : Regular s) (hl : s.Legal op) :
    ((∃ s' ∈ s.step op, Shows s') ↔ s.Fits op) ∧ ∀ s' ∈ s.step op, Shows s' → Regular s' := by
  cases op with
  | setColumnsInfo columnsType columnsName =>
    have hshows := @Regular.shows_setColumnsInfo_iff s columnsType columnsName hr
    refine ⟨Iff.trans (by simp [step]) hshows, fun s' hs' hs => ?_⟩
    obtain rfl := Option.some.inj hs'
    exact hr.setColumnsInfo hs
  | addRow row =>
    obtain ⟨hne, hrow⟩ := hl
    refine hr.added hne hrow (fun t ht => addRow_length ht) fun _ hwide => ⟨_, .inl rfl, ?_⟩
    exact addRow_push (hwide.symm.trans hrow) hrow
  | addValues row =>
    obtain ⟨hne, hrow⟩ := hl
    refine hr.added hne hrow (fun t ht => addValues_length ht) fun hvalues hwide =>
      ⟨(s.table.cols.length : Int) - 1, .inr (by omega), ?_⟩
    exact addValues_push hr.between hwide hvalues
  | load data =>
    obtain ⟨l, hload, htyped⟩ := hl
    have hfits : s.Fits (.load data) ↔
        (s.table.cols = [] ∨ s.table.rowCnt = 0 ∧ l.rowCnt = 0) ∧ 0 ≤ l.rowCnt.toInt := by
      refine ⟨fun h => h l hload, fun h l' hl' => ?_⟩
      obtain rfl := Option.some.inj (hload.symm.trans hl')
      exact h
    rw [step_load hload, hfits, ← hr.shows_load_iff hload]
    refine ⟨by simp, fun s' hs' hs => ?_⟩
    obtain rfl := Option.some.inj hs'
    exact hr.load hload htyped hs

/-- Through any calls with whole rows the object shows its table after each of them exactly where each call fits. -/
theorem memory_shows_iff {ops : List TableOp} (h : Along step Legal .init ops) :
    Along step (fun s op => ∃ s' ∈ s.step op, Shows s') .init ops ↔ Along step Fits .init ops :=
  along_iff (J := Regular)
    (fun s op s' hr hl hfits hs => by
      obtain ⟨s₁, h₁, hshows⟩ := (hr.step_iff hl).1.mpr hfits
      obtain rfl := Option.some.inj (h₁.symm.trans hs)
      exact (hr.step_iff hl).2 _ hs hshows)
    (fun s op hr hl => (hr.step_iff hl).1) Regular.init h

set_option maxRecDepth 2048

/-- One flag, without column names and with one row. -/
def flagTable : List UInt8 := [1, 1, 1, 99, 1]

/-- A loaded row, and one more in either way. -/
theorem memory_shows_loaded :
    Along step (fun s op => ∃ s' ∈ s.step op, Shows s') .init
      [.load flagTable, .addRow [.i32 0], .addValues [.i32 1], .setColumnsInfo [99] [[97]]] :=
  (memory_shows_iff (by decide)).mpr (by decide)

/-- Loaded twice, the object has two columns for one. -/
theorem memory_shows_twice :
    Along step Legal .init [.load flagTable, .load flagTable] ∧
      ∃ s, run step .init [.load flagTable, .load flagTable] = some s ∧ ¬ Shows s := by
  refine ⟨by decide, _, rfl, fun h => ?_⟩
  have hrow := h.row 0 (by decide)
  exact absurd hrow (by decide)

end TableHistory

end PxpRpc.Codec.Native
