import PxpRpc.Codec.WireRecords

/-!
# Lists of records in Java

The types of the columns are guessed from the classes of the values in the first row, where a null
has no class.
-/
namespace PxpRpc.Codec

open PxpRpc.Lib
open PxpRpc.Codec.Java

namespace Java.TableSerializer

/-- `fromMapArray`; there are no names to count where there are no records. -/
def fromMapArray (t : TableSerializer Nat) (val : List (Record Utf16 (Cell Nat))) : Option (TableSerializer Nat) :=
  let columnsName := t.columnsName.orElse fun _ => val.head?.map AList.keys
  columnsName.map fun names =>
    { t with
      columnsName := columnsName
      rows := t.rows ++ val.map fun record => names.map fun name => (record.lookup name).getD .null }

/-- `fromMapArray`, `build`, `load` and `toMapArray`. -/
def thereAndBack (val : List (Record Utf16 (Cell Nat))) (heap : Heap) :
    Option (List (Record Utf16 (Cell (List UInt8)))) := do
  let t ← (TableSerializer.new Nat).fromMapArray val
  let (buf, _) ← t.build heap
  let t ← (TableSerializer.new Nat).load (some buf)
  toMapArray (fun _ => true) t.columnsName t.rows

theorem build_guessed (names : Option (List Utf16)) (rows : List (Row Nat)) (heap : Heap) :
    build ⟨names, none, rows, none⟩ heap =
      (guessTypes rows).bind fun types => build ⟨names, some types, rows, none⟩ heap := by
  cases hg : guessTypes rows with
  | none =>
    simp only [build, Option.orElse_none, hg, Option.bind_eq_bind, Option.bind_none]
    exact Option.bind_fun_none _
  | some types =>
    simp only [build, Option.orElse_none, Option.orElse_some, hg, Option.bind_eq_bind, Option.bind_some]

end Java.TableSerializer

/-- Records with the buffers that they have; a list has no more than 2^31 - 1 elements. -/
structure JavaRecords extends RecordList Nat where
  heap : Heap
  length_lt : records.length < 2 ^ 31

namespace JavaRecords

variable (x : JavaRecords)

/-- The records come back, with the bytes of the buffers and null for an object of the index -1. -/
def RoundTrips : Prop :=
  ∃ out, TableSerializer.thereAndBack x.records x.heap = some out ∧
    x.SameAs (fun cell => (cell.map x.heap).byIndex) out

def sheet : Sheet where
  types := x.types
  names := some x.names
  rows := x.rows
  heap := x.heap
  names_length := by simp [RecordList.types]
  rows_match := fun _ => RecordList.rows_match
  rows_lt := by simpa [RecordList.rows] using x.length_lt

/-- There are records, the first one has no null, and the table can be written and loaded. -/
structure Storable : Prop where
  records_ne : x.records ≠ []
  notNull : ∀ row ∈ x.rows.head?, Cell.null ∉ row
  objects : ObjectsReadable x.types x.rows.length
  once : PutOnce x.heap x.sheet.cells
  strings : x.Strings WellFormed
  fits : Fits 64 0 ((x.sheet.header ++ x.sheet.body).map List.length)

/-! ### What is built -/

theorem fromMapArray_eq (hne : x.records ≠ []) :
    (TableSerializer.new Nat).fromMapArray x.records = some ⟨some x.names, none, x.rows, none⟩ := by
  have hhead : x.records.head?.map AList.keys = some x.names := by
    obtain ⟨first, hfirst⟩ := Option.isSome_iff_exists.mp (List.isSome_head?.mpr hne)
    rw [RecordList.names, hfirst]
    rfl
  have hrows : (x.records.map fun record => x.names.map fun name => (record.lookup name).getD .null) = x.rows := by
    refine List.map_congr_left fun r hr => ?_
    have hrow := mapM_eq_some_iff.mp (RecordList.rowOf_eq hr)
    symm
    refine (forall₂_iff_eq_map fun name _ cell _ => Iff.rfl).mp (hrow.imp fun name cell hcell => ?_)
    rw [hcell]
    rfl
  rw [TableSerializer.fromMapArray]
  simp only [TableSerializer.new, Option.orElse_none, hhead, Option.map_some, hrows, List.nil_append]

theorem jtypeToValueInfo_eq {type : ValueType} {cell : Cell Nat} (h : cell.Matches type) (hn : cell ≠ .null) :
    cell.jtypeToValueInfo = some type := by
  cases type <;> cases cell <;> first | exact absurd h id | exact absurd rfl hn | rfl

/-- The types are guessed if and only if there is no null in the first row. -/
theorem guessTypes_iff (hne : x.records ≠ []) {text : Utf16} : TableSerializer.guessTypes x.rows = some text ↔
    (∀ row ∈ x.rows.head?, Cell.null ∉ row) ∧ text = x.sheet.columnsType := by
  obtain ⟨row, rest, hrows⟩ : ∃ row rest, x.rows = row :: rest :=
    List.exists_cons_of_ne_nil (by simpa [RecordList.rows] using hne)
  have hmem : row ∈ x.rows := hrows ▸ List.mem_cons_self
  have hm := RecordList.rows_match hmem
  rw [RowMatches, List.drop_zero, forall₂_iff_getElem?] at hm
  rw [hrows, TableSerializer.guessTypes, List.head?_cons]
  simp only [Option.mem_def, Option.some.injEq, forall_eq', Option.map_eq_some_iff]
  have hguess : Cell.null ∉ row → row.mapM Cell.jtypeToValueInfo = some x.types := fun hnull => by
    refine mapM_eq_some_iff.mpr (forall₂_iff_getElem?.mpr ⟨hm.1.symm, fun i cell type hc ht => ?_⟩)
    exact jtypeToValueInfo_eq (hm.2 i type cell ht hc) fun h => hnull (h ▸ List.mem_of_getElem? hc)
  constructor
  · rintro ⟨types, htypes, rfl⟩
    have hnull : Cell.null ∉ row := fun hmem => by
      obtain ⟨type, -, htype⟩ := exists_of_mem_right (mapM_eq_some_iff.mp htypes).flip _ hmem
      cases htype
    exact ⟨hnull, congrArg (List.map ValueType.char) (Option.some.inj (htypes.symm.trans (hguess hnull)))⟩
  · rintro ⟨hnull, rfl⟩
    exact ⟨x.types, hguess hnull, rfl⟩

/-! ### What is loaded -/

theorem names_wellFormed_iff : (x.names.map fun s => newString (getBytes s)) = x.names ↔
    ∀ name ∈ x.names, WellFormed name := by
  simp only [← newString_getBytes_iff]
  conv_lhs => rw [← List.map_id x.names, List.map_map]
  exact List.map_inj_left

theorem values_iff : (x.rows.map fun row => row.map fun cell => (cell.map x.heap).byIndex) =
    x.sheet.values.map fun row => row.map Cell.byIndex := by
  rw [Sheet.values, List.map_map]
  refine List.map_congr_left fun row _ => ?_
  change _ = (row.map (Cell.map x.heap)).map Cell.byIndex
  rw [List.map_map]
  rfl

/-- Records come back through a table that has been loaded if and only if it has the names and values. -/
theorem sameAs_iff {names : List Utf16} {put : List (Row (List UInt8))} (hne : x.records ≠ [])
    (hp : x.sheet.Puts put) (hnames : names = x.names.map fun s => newString (getBytes s)) :
    (∃ out, toMapArray (fun _ => true) (some names) (put.map fun row => row.map Cell.received) = some out ∧
      x.SameAs (fun cell => (cell.map x.heap).byIndex) out) ↔
    (∀ name ∈ x.names, WellFormed name) ∧
      (put.map fun row => row.map Cell.received) = x.sheet.values.map fun row => row.map Cell.byIndex := by
  have hlen : ∀ row ∈ put.map fun row => row.map Cell.received, row.length = x.names.length := by
    rw [List.forall_mem_map]
    intro row hr
    have hm := (hp.rows_match row hr).length_eq
    rw [List.drop_zero] at hm
    rw [List.length_map, ← hm]
    exact List.length_map _
  have hlen' : ∀ row ∈ put.map fun row => row.map Cell.received, row.length = names.length := by
    rwa [hnames, List.length_map]
  have hmade := RecordList.toMapArray_eq (fun _ => true) hlen'
  simp only [hmade, Option.some.injEq, exists_eq_left']
  constructor
  · intro h
    have hwell : ∀ name ∈ x.names, WellFormed name := fun name hname => by
      obtain ⟨hmem, -⟩ := RecordList.names_of_sameAs (fun _ => true) hne h name hname
      rw [hnames] at hmem
      obtain ⟨other, -, rfl⟩ := List.mem_map.mp hmem
      exact ⟨_, rfl⟩
    rw [hnames, x.names_wellFormed_iff.mpr hwell, RecordList.sameAs_iff _ (fun _ _ => rfl) hlen,
      values_iff] at h
    exact ⟨hwell, h⟩
  · rintro ⟨hwell, h⟩
    rw [hnames, x.names_wellFormed_iff.mpr hwell, RecordList.sameAs_iff _ (fun _ _ => rfl) hlen, values_iff]
    exact h

theorem strings_iff : (∀ name ∈ x.names, WellFormed name) ∧ (∀ row ∈ x.rows, ∀ cell ∈ row, cell.WellFormed) ↔
    x.Strings WellFormed := by
  refine and_congr_right fun _ => ⟨fun h row hr s hs => h row hr _ hs, fun h row hr cell hc => ?_⟩
  cases cell with
  | string s => exact h row hr s hc
  | _ => exact trivial

theorem thereAndBack_eq (hne : x.records ≠ []) : TableSerializer.thereAndBack x.records x.heap =
    (TableSerializer.guessTypes x.rows).bind fun types =>
      (TableSerializer.build ⟨some x.names, some types, x.rows, none⟩ x.heap).bind fun (buf, _) =>
        ((TableSerializer.new Nat).load (some buf)).bind fun t =>
          toMapArray (fun _ => true) t.columnsName t.rows := by
  rw [TableSerializer.thereAndBack, x.fromMapArray_eq hne]
  simp only [Option.bind_eq_bind, Option.bind_some, TableSerializer.build_guessed, Option.bind_assoc]

/-- In Java records come back, and there is one at most where there are objects, if and only if they
are storable. -/
theorem roundTrips_iff_storable : x.RoundTrips ∧ (.o ∈ x.types → x.records.length ≤ 1) ↔ x.Storable := by
  rcases eq_or_ne x.records [] with hempty | hne
  · refine iff_of_false (fun h => ?_) fun h => h.records_ne hempty
    obtain ⟨⟨out, hout, -⟩, -⟩ := h
    rw [hempty] at hout
    cases hout
  obtain ⟨put, hp, hsame⟩ := x.sheet.exists_puts
  have hnames : x.sheet.names.map (fun names => names.map fun s => newString (getBytes s)) =
      some (x.names.map fun s => newString (getBytes s)) := rfl
  have hlen : x.sheet.rows.length = x.records.length := List.length_map _
  have hback := x.sameAs_iff hne hp rfl
  rw [RoundTrips, x.thereAndBack_eq hne, ← hlen]
  constructor
  · rintro ⟨⟨out, hout, hsameAs⟩, h1⟩
    obtain ⟨types, htypes, hout⟩ := Option.bind_eq_some_iff.mp hout
    obtain ⟨hnull, rfl⟩ := (x.guessTypes_iff hne).mp htypes
    obtain ⟨⟨buf, heap⟩, hbuild, hout⟩ := Option.bind_eq_some_iff.mp hout
    obtain ⟨t, hload, hout⟩ := Option.bind_eq_some_iff.mp hout
    obtain ⟨hfits, hobjects, ht, hrows⟩ := (Sheet.loads_iff h1 hp).mp ⟨buf, heap, t, hbuild, hload, rfl, rfl⟩
    rw [← hrows, ← ht, hnames] at hout
    obtain ⟨hwell, hvalues⟩ := hback.mp ⟨out, hout, hsameAs⟩
    obtain ⟨honce, hcells⟩ := hsame.mp hvalues
    rw [Sheet.put_eq_body h1 honce] at hfits
    exact ⟨hne, hnull, hobjects, honce, x.strings_iff.mp ⟨hwell, hcells⟩, hfits⟩
  · intro hs
    have h1 : .o ∈ x.sheet.types → x.sheet.rows.length ≤ 1 := fun hm => by
      obtain ⟨i, hi⟩ := List.getElem?_of_mem hm
      rcases hs.objects i hi with h0 | ⟨h1, -⟩
      · exact h0.le.trans (Nat.zero_le 1)
      · exact h1.le
    obtain ⟨hwell, hcells⟩ := x.strings_iff.mpr hs.strings
    have hfits := hs.fits
    rw [← Sheet.put_eq_body h1 hs.once] at hfits
    obtain ⟨buf, heap, t, hbuild, hload, ht, hrows⟩ := (Sheet.loads_iff h1 hp).mpr ⟨hfits, hs.objects, rfl, rfl⟩
    obtain ⟨out, hout, hsameAs⟩ := hback.mpr ⟨hwell, hsame.mpr ⟨hs.once, hcells⟩⟩
    refine ⟨⟨out, ?_, hsameAs⟩, h1⟩
    rw [(x.guessTypes_iff hne).mpr ⟨hs.notNull, rfl⟩, Option.bind_some]
    change (TableSerializer.build ⟨x.sheet.names, _, x.sheet.rows, none⟩ x.sheet.heap).bind _ = _
    rw [hbuild, Option.bind_some]
    change ((TableSerializer.new Nat).load (some buf)).bind _ = _
    rw [hload, Option.bind_some, ht, hrows]
    exact hout

theorem lookup_pair {γ : Type} (a b : Utf16) (x y : γ) (key : Utf16) : (ofEntries [(a, x), (b, y)]).lookup key =
    if key = b then some y else if key = a then some x else none := by
  rw [ofEntries, List.foldl_cons, List.foldl_cons, List.foldl_nil]
  split_ifs with hb ha
  · rw [hb, AList.lookup_insert]
  · rw [AList.lookup_insert_ne hb, ha, AList.lookup_insert]
  · rw [AList.lookup_insert_ne hb, AList.lookup_insert_ne ha, AList.lookup_empty]

def replacements : Utf16 := List.replicate 81 0xfffd

/-- The index has the bytes of the length of the string and of its first character, and what the
string has behind these is read as a length and the same string. -/
def byChance : JavaRecords where
  records := [ofEntries [([115], .string replacements), ([111], .object 0xbdbfeff3)],
    ofEntries [([115], .string []), ([111], .null)]]
  typeOf name := if name = [111] then .o else .s
  same_keys := by decide
  same_types := by
    have hrow : ∀ (s : Utf16) (object : Cell Nat), object.Matches .o → ∀ (key : Utf16),
        ∀ cell ∈ (ofEntries [([115], Cell.string s), ([111], object)]).lookup key,
          cell.Matches (if key = [111] then .o else .s) := by
      intro s object ho key cell hc
      rw [lookup_pair, Option.mem_def] at hc
      split_ifs at hc ⊢
      · obtain rfl := Option.some.inj hc
        exact ho
      · obtain rfl := Option.some.inj hc
        exact trivial
    exact List.forall_mem_cons.mpr ⟨hrow _ _ trivial, List.forall_mem_singleton.mpr (hrow _ _ trivial)⟩
  heap _ := []
  length_lt := by decide

/-- Where there are more records with objects, some come back all the same. -/
theorem byChance_roundTrips : byChance.RoundTrips ∧ .o ∈ byChance.types ∧ byChance.records.length = 2 := by
  have hloads : ((((TableSerializer.new Nat).fromMapArray byChance.records).bind fun t =>
      t.build byChance.heap).bind fun out => (TableSerializer.new Nat).load (some out.1)).map
        (fun t => (t.columnsName, t.rows)) =
      some (some byChance.names, byChance.rows.map fun row => row.map fun cell => (cell.map byChance.heap).byIndex) := by
    decide +kernel
  obtain ⟨t, ht, heq⟩ := Option.map_eq_some_iff.mp hloads
  obtain ⟨hnames, hrows⟩ := Prod.mk.inj heq
  obtain ⟨out, hbuild, hload⟩ := Option.bind_eq_some_iff.mp ht
  obtain ⟨t₀, hmap, hbuild⟩ := Option.bind_eq_some_iff.mp hbuild
  have hlen : ∀ row ∈ t.rows, row.length = byChance.names.length := by
    rw [hrows]
    decide +kernel
  refine ⟨⟨_, ?_, (RecordList.sameAs_iff (fun _ => true) (fun _ _ => rfl) hlen).mpr hrows⟩, by decide, rfl⟩
  rw [TableSerializer.thereAndBack, hmap, Option.bind_eq_bind, Option.bind_some, hbuild, Option.bind_eq_bind,
    Option.bind_some]
  change ((TableSerializer.new Nat).load (some out.1)).bind _ = _
  rw [hload, Option.bind_some, hnames]
  exact RecordList.toMapArray_eq _ hlen

end JavaRecords

/-- In Python records come back if and only if there are any, strings are text, and counts and lengths are words. In
TypeScript, where these are words, it takes besides that no key is `__proto__`, that no string has a byte order mark in
front, and that the bytes fit the buffers that are made for them. In Java, where there is no more than one record
if there are objects, they come back if and only if they are storable, and in any case if they are. -/
theorem records_roundTrip_iff (x : WireRecords) (y : JavaRecords) :
    (x.RoundTrips Python.thereAndBack ↔
      x.records ≠ [] ∧ x.Strings WellFormed ∧ ∀ item ∈ x.items, item.Short) ∧
    (x.table.Short → (x.RoundTrips TypeScript.thereAndBack ↔
      x.records ≠ [] ∧ TypeScript.proto ∉ x.names ∧
      x.Strings (fun s => WellFormed s ∧ (fromUtf16 s).head? ≠ some (Char.ofNat 0xfeff)) ∧
      TypeScript.Fits 64 0 ((Wire.allPieces x.items).map List.length))) ∧
    (y.RoundTrips ∧ (.o ∈ y.types → y.records.length ≤ 1) ↔ y.Storable) :=
  ⟨x.python_roundTrips_iff, x.typeScript_roundTrips_iff, y.roundTrips_iff_storable⟩

def noRecords (β : Type) : RecordList β := ⟨[], fun _ => .s, by simp, by simp⟩

/-- The empty list comes back in no language. -/
theorem noRecords_raise :
    ¬ WireRecords.RoundTrips ⟨noRecords _, by simp [noRecords]⟩ TypeScript.thereAndBack ∧
    ¬ WireRecords.RoundTrips ⟨noRecords _, by simp [noRecords]⟩ Python.thereAndBack ∧
    ¬ JavaRecords.RoundTrips ⟨noRecords _, fun _ => [], by simp [noRecords]⟩ := by
  refine ⟨fun h => ?_, fun h => ?_, fun h => ?_⟩ <;> obtain ⟨out, hout, -⟩ := h <;> cases hout

end PxpRpc.Codec
