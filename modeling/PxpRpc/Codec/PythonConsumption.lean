import PxpRpc.Codec.TableAgreement

/-!
# What the Python serializer consumes

Whatever is read, and from whichever bytes, the bytes it would be written as are not
more than those that were consumed.
-/
namespace PxpRpc.Codec.Python

open PxpRpc.Lib
open PxpRpc.Codec.Wire
open PxpRpc.Codec.Java (Cell Row RowMatches ValueType columnCells tableCells)

/-- At least `n` bytes of the buffer are read between the two. -/
def Consumes (ser ser' : Serializer) (n : Nat) : Prop :=
  ser'.buf = ser.buf ∧ min ser.pos ser.buf.length + n ≤ min ser'.pos ser.buf.length

theorem Consumes.trans {ser ser₁ ser' : Serializer} {n m : Nat} (h : Consumes ser ser₁ n) (h' : Consumes ser₁ ser' m) :
    Consumes ser ser' (n + m) := by
  obtain ⟨hbuf, hn⟩ := h
  obtain ⟨hbuf', hm⟩ := h'
  rw [hbuf] at hm
  exact ⟨hbuf'.trans hbuf, by omega⟩

theorem Consumes.refl (ser : Serializer) : Consumes ser ser 0 := ⟨rfl, by omega⟩

theorem Consumes.mono {ser ser' : Serializer} {n m : Nat} (h : Consumes ser ser' m) (hn : n ≤ m) :
    Consumes ser ser' n := ⟨h.1, by have := h.2; omega⟩

variable {ser ser' : Serializer}

theorem getRaw_consumes {n : Nat} {b : List UInt8} (h : ser.getRaw n = some (b, ser')) :
    Consumes ser ser' n ∧ b.length = n ∧ ser'.pos ≤ ser'.buf.length := by
  unfold Serializer.getRaw at h
  split at h
  · rename_i hle
    obtain ⟨rfl, rfl⟩ := Prod.mk.inj (Option.some.inj h)
    refine ⟨⟨rfl, by dsimp only; omega⟩, ?_, hle⟩
    rw [List.length_take, List.length_drop]
    omega
  · cases h

theorem getWord_consumes {w : Nat} {v : BitVec (8 * w)} (h : Serializer.reader.getWord w ser = some (v, ser')) :
    Consumes ser ser' w := by
  obtain ⟨⟨b, ser₁⟩, hget, heq⟩ := Option.map_eq_some_iff.mp h
  obtain ⟨-, rfl⟩ := Prod.mk.inj heq
  exact (getRaw_consumes hget).1

theorem length_varintBytes_le {n m : Nat} (h : n ≤ m) : (varintBytes n).length ≤ (varintBytes m).length := by
  unfold varintBytes
  split <;> split <;> simp
  omega

theorem getVarint_consumes {n : Nat} (h : Serializer.reader.getVarint ser = some (n, ser')) :
    Consumes ser ser' (varintBytes n).length ∧ ser'.pos ≤ ser'.buf.length := by
  obtain ⟨⟨b, ser₁⟩, hget, hrest⟩ := Option.bind_eq_some_iff.mp h
  obtain ⟨hfirst, hlen, hpos⟩ := getRaw_consumes hget
  dsimp only at hrest
  split at hrest
  · obtain ⟨⟨b', ser₂⟩, hget', heq⟩ := Option.map_eq_some_iff.mp hrest
    obtain ⟨rfl, rfl⟩ := Prod.mk.inj heq
    obtain ⟨hword, -, hpos'⟩ := getRaw_consumes hget'
    refine ⟨(hfirst.trans hword).mono ?_, hpos'⟩
    unfold varintBytes
    split <;> simp
  · rename_i hne
    obtain ⟨rfl, rfl⟩ := Prod.mk.inj (Option.some.inj hrest)
    refine ⟨hfirst.mono ?_, hpos⟩
    have hlt := leValue_lt b
    rw [hlen] at hlt
    have hsmall : leValue b < 255 := by
      change leValue b ≠ 255 at hne
      omega
    unfold varintBytes
    rw [if_pos hsmall]
    rfl

theorem getBytes_consumes {b : List UInt8} (h : Serializer.reader.getBytes ser = some (b, ser')) :
    Consumes ser ser' ((varintBytes b.length).length + b.length) := by
  obtain ⟨⟨n, ser₁⟩, hlen, hcontent⟩ := Option.bind_eq_some_iff.mp h
  obtain ⟨hvar, hpos⟩ := getVarint_consumes hlen
  obtain ⟨rfl, rfl⟩ := Prod.mk.inj (Option.some.inj hcontent)
  have hb : ((ser₁.buf.drop ser₁.pos).take n).length = min n (ser₁.buf.length - ser₁.pos) := by
    rw [List.length_take, List.length_drop]
  refine (hvar.mono (length_varintBytes_le (by omega))).trans ⟨rfl, ?_⟩
  dsimp only
  omega

theorem getString_consumes {s : Utf16} (h : Serializer.reader.getString ser = some (s, ser')) :
    Consumes ser ser' (Item.string s).encode.length := by
  obtain ⟨⟨b, ser₁⟩, hget, hdecode⟩ := Option.bind_eq_some_iff.mp h
  obtain ⟨s', hs, heq⟩ := Option.map_eq_some_iff.mp hdecode
  obtain ⟨rfl, rfl⟩ := Prod.mk.inj heq
  have hutf : utf8 s' = b := by
    change decodeText b = some s' at hs
    unfold decodeText at hs
    split at hs
    · rename_i hb
      obtain rfl := Option.some.inj hs
      rw [utf8, fromUtf16_toUtf16, hb]
    · cases hs
  have hlen : (Item.string s').encode.length = (varintBytes b.length).length + b.length := by
    simp [Item.encode, Item.pieces, hutf]
  rw [hlen]
  exact getBytes_consumes hget

/-- The bytes of cells. -/
def cellsLength (cells : List (Cell (List UInt8))) : Nat := (encodeAll (cells.map cellItem)).length

theorem cellsLength_append (cells cells' : List (Cell (List UInt8))) :
    cellsLength (cells ++ cells') = cellsLength cells + cellsLength cells' := by
  unfold cellsLength
  rw [List.map_append, encodeAll_append, List.length_append]

theorem cellsLength_cons (cell : Cell (List UInt8)) (cells : List (Cell (List UInt8))) :
    cellsLength (cell :: cells) = (cellItem cell).encode.length + cellsLength cells := by
  unfold cellsLength
  rw [List.map_cons, encodeAll_cons, List.length_append]

theorem getCell_consumes {type : ValueType} {cell : Cell (List UInt8)}
    (h : Serializer.reader.getCell type ser = some (cell, ser')) :
    Consumes ser ser' (cellItem cell).encode.length := by
  have hword : ∀ {w : Nat} (v : BitVec (8 * w)), [leBytes w v.toNat].flatten.length = w := fun v => by simp
  cases type <;>
    (obtain ⟨⟨v, ser₁⟩, hget, heq⟩ := Option.map_eq_some_iff.mp h
     obtain ⟨rfl, rfl⟩ := Prod.mk.inj heq)
  · exact (getWord_consumes hget).mono (hword (w := 4) v).le
  · exact (getWord_consumes hget).mono (hword (w := 8) v).le
  · exact (getWord_consumes hget).mono (hword (w := 4) v).le
  · exact (getWord_consumes hget).mono (hword (w := 8) v).le
  · exact (getBytes_consumes hget).mono (by simp [cellItem, Item.encode, Item.pieces])
  · exact getString_consumes hget
  · refine (getVarint_consumes hget).1.mono ?_
    have hpos := length_varintBytes_pos v
    simp only [cellItem, Item.encode, Item.pieces, List.flatten_singleton]
    split <;> exact hpos
  · refine (getWord_consumes hget).mono ?_
    split <;> simp [cellItem, Item.encode, Item.pieces]

theorem getCells_consumes {type : ValueType} {n : Nat} : ∀ {cells : List (Cell (List UInt8))} {ser : Serializer},
    Serializer.reader.getCells type n ser = some (cells, ser') →
      cells.length = n ∧ Consumes ser ser' (cellsLength cells) := by
  induction n with
  | zero =>
    intro cells ser h
    obtain ⟨rfl, rfl⟩ := Prod.mk.inj (Option.some.inj h)
    exact ⟨rfl, Consumes.refl ser⟩
  | succ n ih =>
    intro cells ser h
    obtain ⟨⟨cell, ser₁⟩, hcell, hrest⟩ := Option.bind_eq_some_iff.mp h
    obtain ⟨⟨cells', ser₂⟩, hcells, heq⟩ := Option.map_eq_some_iff.mp hrest
    obtain ⟨rfl, rfl⟩ := Prod.mk.inj heq
    obtain ⟨hlen, hc⟩ := ih hcells
    refine ⟨by rw [List.length_cons, hlen], ?_⟩
    rw [cellsLength_cons]
    exact (getCell_consumes hcell).trans hc

theorem getStrings_consumes {n : Nat} : ∀ {ss : List Utf16} {ser : Serializer},
    Serializer.reader.getStrings n ser = some (ss, ser') →
      Consumes ser ser' (encodeAll (ss.map Item.string)).length := by
  induction n with
  | zero =>
    intro ss ser h
    obtain ⟨rfl, rfl⟩ := Prod.mk.inj (Option.some.inj h)
    exact Consumes.refl ser
  | succ n ih =>
    intro ss ser h
    obtain ⟨⟨s, ser₁⟩, hs, hrest⟩ := Option.bind_eq_some_iff.mp h
    obtain ⟨⟨ss', ser₂⟩, hss, heq⟩ := Option.map_eq_some_iff.mp hrest
    obtain ⟨rfl, rfl⟩ := Prod.mk.inj heq
    rw [List.map_cons, encodeAll_cons, List.length_append]
    exact (getString_consumes hs).trans (ih hss)

theorem length_zipWith_push {rows : List (Row (List UInt8))} : ∀ {cells : List (Cell (List UInt8))},
    cells.length = rows.length →
      (List.zipWith (fun row cell => row ++ [cell]) rows cells).length = rows.length ∧
      cellsLength (List.zipWith (fun row cell => row ++ [cell]) rows cells).flatten =
        cellsLength rows.flatten + cellsLength cells := by
  induction rows with
  | nil =>
    intro cells h
    obtain rfl := List.length_eq_zero_iff.mp h
    exact ⟨rfl, rfl⟩
  | cons row rows ih =>
    intro cells h
    cases cells with
    | nil => cases h
    | cons cell cells =>
      obtain ⟨hlen, hsum⟩ := ih (Nat.succ.inj h)
      refine ⟨by rw [List.zipWith_cons_cons, List.length_cons, hlen, List.length_cons], ?_⟩
      rw [List.zipWith_cons_cons, List.flatten_cons, List.flatten_cons, cellsLength_append, cellsLength_append,
        cellsLength_append, hsum, cellsLength_cons, cellsLength_cons]
      simp only [show cellsLength [] = 0 from rfl]
      omega

theorem getColumns_consumes {n : Nat} {types : List (Option ValueType)} :
    ∀ {acc rows : List (Row (List UInt8))} {ser : Serializer}, acc.length = n →
      Serializer.reader.getColumns n types (acc, ser) = some (rows, ser') →
        rows.length = n ∧ ∃ m, Consumes ser ser' m ∧ cellsLength rows.flatten = cellsLength acc.flatten + m := by
  induction types with
  | nil =>
    intro acc rows ser hn h
    obtain ⟨rfl, rfl⟩ := Prod.mk.inj (Option.some.inj h)
    exact ⟨hn, 0, Consumes.refl ser, rfl⟩
  | cons type types ih =>
    intro acc rows ser hn h
    cases type with
    | none => cases h
    | some type =>
      rw [Reader.getColumns, Option.bind_some] at h
      obtain ⟨⟨cells, ser₁⟩, hcells, hrest⟩ := Option.bind_eq_some_iff.mp h
      obtain ⟨hlen, hc⟩ := getCells_consumes hcells
      obtain ⟨hzip, hsum⟩ := length_zipWith_push (hlen.trans hn.symm)
      obtain ⟨hrows, m, hm, htotal⟩ := ih (hzip.trans hn) hrest
      exact ⟨hrows, cellsLength cells + m, hc.trans hm, by rw [htotal, hsum, Nat.add_assoc]⟩

/-- The cells column by column have as many bytes as row by row. -/
theorem cellsLength_tableCells {rows : List (Row (List UInt8))} {types : List ValueType} :
    ∀ {i1 : Nat}, (∀ row ∈ rows, RowMatches i1 types row) →
      cellsLength (tableCells rows i1 types) = cellsLength (rows.map (List.drop i1)).flatten := by
  induction types with
  | nil =>
    intro i1 h
    have hnil : (rows.map (List.drop i1)).flatten = [] := by
      rw [List.flatten_eq_nil_iff]
      intro l hl
      obtain ⟨row, hr, rfl⟩ := List.mem_map.mp hl
      exact List.forall₂_nil_left_iff.mp (h row hr)
    rw [hnil]
    rfl
  | cons type types ih =>
    intro i1 h
    have htail : ∀ row ∈ rows, RowMatches (i1 + 1) types row := by
      intro row hr
      obtain ⟨-, -, -, ht⟩ := (h row hr).head
      exact ht
    have hcolumn : cellsLength (columnCells i1 rows) + cellsLength (rows.map (List.drop (i1 + 1))).flatten =
        cellsLength (rows.map (List.drop i1)).flatten := by
      clear ih htail
      induction rows with
      | nil => rfl
      | cons row rows ihrows =>
        obtain ⟨cell, hcell, -⟩ := (h row List.mem_cons_self).head
        have hcells : columnCells i1 (row :: rows) = cell :: columnCells i1 rows := List.filterMap_cons_some hcell
        obtain ⟨hlt, hget⟩ := List.getElem?_eq_some_iff.mp hcell
        have hdrop : row.drop i1 = cell :: row.drop (i1 + 1) := by rw [List.drop_eq_getElem_cons hlt, hget]
        have hrest := ihrows fun r hr => h r (List.mem_cons_of_mem _ hr)
        rw [hcells, List.map_cons, List.map_cons, List.flatten_cons, List.flatten_cons, hdrop, cellsLength_cons,
          cellsLength_append, cellsLength_append, cellsLength_cons]
        omega
    rw [tableCells, cellsLength_append, ih htail, hcolumn]

theorem getNames_consumes {flag n : Nat} {names : Option (List Utf16)}
    (h : Wire.TableSerializer.getNames Serializer.reader flag n ser = some (names, ser')) :
    Consumes ser ser' (encodeAll ((names.getD []).map Item.string)).length := by
  unfold Wire.TableSerializer.getNames at h
  split at h
  · obtain ⟨⟨ss, ser₁⟩, hss, heq⟩ := Option.map_eq_some_iff.mp h
    obtain ⟨rfl, rfl⟩ := Prod.mk.inj heq
    exact getStrings_consumes hss
  · obtain ⟨rfl, rfl⟩ := Prod.mk.inj (Option.some.inj h)
    exact Consumes.refl ser

/-- A table is never loaded from fewer bytes than it has itself. -/
theorem length_of_load {t : Table} {data : List UInt8} {ser : Serializer}
    (h : TableSerializer.load data = some (t.serializer, ser)) : (encodeAll t.items).length ≤ data.length := by
  obtain ⟨⟨flag, ser₁⟩, hflag, h⟩ := Option.bind_eq_some_iff.mp h
  obtain ⟨⟨cnt, ser₂⟩, hcnt, h⟩ := Option.bind_eq_some_iff.mp h
  obtain ⟨⟨types, ser₃⟩, htypes, h⟩ := Option.bind_eq_some_iff.mp h
  obtain ⟨⟨names, ser₄⟩, hnames, h⟩ := Option.bind_eq_some_iff.mp h
  obtain ⟨⟨rows, ser₅⟩, hrows, h⟩ := Option.bind_eq_some_iff.mp h
  obtain ⟨heq, rfl⟩ := Prod.mk.inj (Option.some.inj h)
  obtain ⟨hn, ht, hr⟩ := (Wire.TableSerializer.mk.injEq ..).mp heq
  subst hn ht hr
  obtain ⟨hlen, m, hm, htotal⟩ := getColumns_consumes List.length_replicate hrows
  have hflat : ((t.rows.map (List.drop 0)).flatten) = t.rows.flatten := by
    rw [show (List.drop 0 : Row (List UInt8) → _) = id from funext fun _ => List.drop_zero .., List.map_id]
  have hcells : cellsLength (tableCells t.rows 0 t.types) = m := by
    rw [cellsLength_tableCells t.rows_match, hflat, htotal]
    simp [cellsLength, encodeAll]
  have hone : (varintBytes t.flag).length = 1 := by
    unfold Table.flag
    split <;> rfl
  have hpos := length_varintBytes_pos flag
  have hall := (((((getVarint_consumes hflag).1.mono (show 1 ≤ _ by omega)).trans (getVarint_consumes hcnt).1).trans
    (getString_consumes htypes)).trans (getNames_consumes hnames)).trans hm
  have hitems : (encodeAll t.items).length = 1 + (varintBytes cnt).length + (Item.string t.columnsType).encode.length +
      (encodeAll ((t.names.getD []).map Item.string)).length + m := by
    rw [← hcells, cellsLength, ← hone, ← hlen]
    simp only [Table.items, Table.header, Table.body, encodeAll_cons, encodeAll_append, List.length_append,
      Item.encode, Item.pieces, List.flatten_singleton, show encodeAll [] = [] from rfl, List.length_nil]
    omega
  have hbound : min 0 data.length + _ ≤ min _ data.length := hall.2
  rw [hitems]
  omega

end PxpRpc.Codec.Python
