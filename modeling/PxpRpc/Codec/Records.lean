import PxpRpc.Codec.JavaTableRoundTrip
import PxpRpc.Lib.Records

/-!
# Lists of records as tables

The columns of the table are the keys of the first record, in the order in which it lists them.
-/
namespace PxpRpc.Codec

open PxpRpc.Lib
open PxpRpc.Codec.Java (Cell Row RowMatches ValueType)

variable {β γ : Type}

/-- Records that have the same keys and, for each of them, values of one type. -/
structure RecordList (β : Type) where
  records : List (Record Utf16 (Cell β))
  typeOf : Utf16 → ValueType
  same_keys : ∀ r ∈ records, ∀ r' ∈ records, ∀ key, key ∈ r → key ∈ r'
  same_types : ∀ r ∈ records, ∀ key, ∀ cell ∈ r.lookup key, cell.Matches (typeOf key)

/-- `toMapArray`; a name that is not to be set is left out of the records. -/
def toMapArray (isSet : Utf16 → Bool) (columnsName : Option (List Utf16)) (rows : List (Row β)) :
    Option (List (Record Utf16 (Cell β))) :=
  columnsName.bind fun names => rows.mapM fun row => do
    let entries ← names.zipIdx.mapM fun ((name, t2) : Utf16 × Nat) => row[t2]?.map fun cell => (name, cell)
    return ofEntries (entries.filter fun entry => isSet entry.1)

namespace RecordList

variable (x : RecordList β)

def names : List Utf16 := (x.records.head?.map AList.keys).getD []

def types : List ValueType := x.names.map x.typeOf

def rows : List (Row β) := x.records.map fun r => x.names.filterMap fun name => r.lookup name

/-- What the keys and the strings in the records are. -/
def Strings (P : Utf16 → Prop) : Prop :=
  (∀ name ∈ x.names, P name) ∧ ∀ row ∈ x.rows, ∀ s, Cell.string s ∈ row → P s

/-- The records have the same keys and values. -/
def SameAs (f : Cell β → Cell γ) (out : List (Record Utf16 (Cell γ))) : Prop :=
  List.Forall₂ (fun r r' => ∀ key, r'.lookup key = (r.lookup key).map f) x.records out

theorem names_nodup : x.names.Nodup := by
  rw [names]
  cases x.records.head? with
  | none => exact List.nodup_nil
  | some r => exact r.keys_nodup

variable {x}

theorem mem_iff {r : Record Utf16 (Cell β)} (hr : r ∈ x.records) (key : Utf16) : key ∈ r ↔ key ∈ x.names := by
  obtain ⟨first, hfirst⟩ : ∃ first, x.records.head? = some first := by
    rw [← Option.isSome_iff_exists, List.isSome_head?]
    exact List.ne_nil_of_mem hr
  have hmem := List.mem_of_head? hfirst
  rw [names, hfirst, Option.map_some, Option.getD_some, ← AList.mem_keys]
  exact ⟨x.same_keys r hr first hmem key, x.same_keys first hmem r hr key⟩

theorem rowOf_eq {r : Record Utf16 (Cell β)} (hr : r ∈ x.records) :
    rowOf x.names r = some (x.names.filterMap fun name => r.lookup name) := by
  rw [rowOf]
  refine mapM_eq_some_filterMap fun name hname => ?_
  exact AList.lookup_isSome.mpr ((mem_iff hr name).mpr hname)

theorem mapM_rowOf : x.records.mapM (rowOf x.names) = some x.rows := by
  rw [mapM_eq_some_iff, rows, List.forall₂_map_right_iff]
  exact List.forall₂_same.mpr fun r hr => rowOf_eq hr

theorem length_row {row : Row β} (h : row ∈ x.rows) : row.length = x.names.length := by
  obtain ⟨r, hr, rfl⟩ := List.mem_map.mp h
  exact ((forall₂_iff_getElem?.mp (mapM_eq_some_iff.mp (rowOf_eq hr))).1).symm

theorem rows_match {row : Row β} (h : row ∈ x.rows) : RowMatches 0 x.types row := by
  obtain ⟨r, hr, rfl⟩ := List.mem_map.mp h
  rw [RowMatches, List.drop_zero, types, List.forall₂_map_left_iff]
  exact (mapM_eq_some_iff.mp (rowOf_eq hr)).imp fun name cell hcell => x.same_types r hr name cell hcell

/-! ### Records of rows -/

theorem toMapArray_eq (isSet : Utf16 → Bool) {names : List Utf16} {rows : List (Row γ)}
    (h : ∀ row ∈ rows, row.length = names.length) : toMapArray isSet (some names) rows =
      some (rows.map fun row => ofEntries ((names.zip row).filter fun entry => isSet entry.1)) := by
  rw [toMapArray, Option.bind_some, mapM_eq_some_iff, List.forall₂_map_right_iff]
  refine List.forall₂_same.mpr fun row hr => ?_
  have hentries : (names.zipIdx.mapM fun ((name, t2) : Utf16 × Nat) => row[t2]?.map fun cell => (name, cell)) =
      some (names.zip row) := by
    rw [mapM_eq_some_iff, forall₂_iff_getElem?]
    refine ⟨by simp [h row hr], fun i x y hx hy => ?_⟩
    obtain ⟨hname, hcell⟩ := List.getElem?_zip_eq_some.mp hy
    rw [List.getElem?_zipIdx, hname, Option.map_some, Nat.zero_add] at hx
    obtain rfl := Option.some.inj hx
    simp only [hcell, Option.map_some]
  rw [hentries]
  rfl

/-- Records that are made of rows are the same if and only if the rows have the same values. -/
theorem sameAs_iff (isSet : Utf16 → Bool) {rows : List (Row γ)} {f : Cell β → Cell γ}
    (hset : ∀ name ∈ x.names, isSet name) (h : ∀ row ∈ rows, row.length = x.names.length) :
    x.SameAs f (rows.map fun row => ofEntries ((x.names.zip row).filter fun entry => isSet entry.1)) ↔
      rows = x.rows.map fun row => row.map f := by
  have hfilter : ∀ row : Row γ, ((x.names.zip row).filter fun entry => isSet entry.1) = x.names.zip row := fun row =>
    List.filter_eq_self.mpr fun entry he => hset _ (List.of_mem_zip he).1
  simp only [hfilter]
  rw [SameAs, List.forall₂_map_right_iff, RecordList.rows, List.map_map]
  refine forall₂_iff_eq_map fun r hr row hrow => ?_
  exact ofEntries_zip_iff x.names_nodup (mem_iff hr) (rowOf_eq hr) (h row hrow)

/-- Every key is that of a column, and is set. -/
theorem names_of_sameAs (isSet : Utf16 → Bool) {names : List Utf16} {rows : List (Row γ)} {f : Cell β → Cell γ}
    (hne : x.records ≠ []) (h : x.SameAs f
      (rows.map fun row => ofEntries ((names.zip row).filter fun entry => isSet entry.1))) :
    ∀ name ∈ x.names, name ∈ names ∧ isSet name := by
  intro name hname
  obtain ⟨r, hr⟩ := List.exists_mem_of_ne_nil _ hne
  obtain ⟨i, hi⟩ := List.getElem?_of_mem hr
  obtain ⟨hlen, hsame⟩ := forall₂_iff_getElem?.mp h
  have hout := List.getElem?_eq_getElem (hlen ▸ (List.getElem?_eq_some_iff.mp hi).1)
  obtain ⟨row, -, hrow⟩ := List.mem_map.mp (List.mem_of_getElem? hout)
  have hlookup := hsame i _ _ hi hout
  rw [← hrow] at hlookup
  obtain ⟨entry, he, rfl⟩ := List.mem_map.mp (subset_of_lookup_ofEntries hlookup name ((mem_iff hr name).mpr hname))
  obtain ⟨hzip, hset⟩ := List.mem_filter.mp he
  exact ⟨(List.of_mem_zip hzip).1, hset⟩

end RecordList

end PxpRpc.Codec
