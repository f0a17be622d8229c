import PxpRpc.Codec.NativeTableRoundTrip
import PxpRpc.Codec.PythonConsumption

/-!
# Tables between C++ and the others

The C serializer writes 255 as one byte, which the others take for the start of the
long form. Apart from that its bytes are theirs, as far as its buffer can grow.
-/
namespace PxpRpc.Codec

open PxpRpc.Lib
open PxpRpc.Codec.Java (Cell Row RowMatches ValueType columnCells tableCells)

/-- The count or the length of an item is 255. -/
def Wire.Item.Escapes : Wire.Item → Prop
  | .varint n => n = 255
  | .bytes b => b.length = 255
  | .string s => (Wire.utf8 s).length = 255
  | _ => False

namespace Native

theorem encodeVarint_eq {n : Nat} (hn : n < 2 ^ 32) (hne : n ≠ 255) :
    encodeVarint (BitVec.ofNat 32 n) = Wire.varintBytes n := by
  have hnat : (BitVec.ofNat 32 n).toNat = n := by
    rw [BitVec.toNat_ofNat]
    omega
  have hle : BitVec.ofNat 32 n ≤ 0xff ↔ n ≤ 255 := by
    rw [BitVec.le_def, hnat]
    rfl
  unfold encodeVarint Wire.varintBytes
  by_cases h : n < 255
  · rw [if_pos h, if_pos (hle.mpr (by omega)), hnat]
  · rw [if_neg h, if_neg (mt hle.mp (by omega)), hnat]

/-- In C++ a count never takes more bytes. -/
theorem length_encodeVarint (n : Nat) :
    (encodeVarint (BitVec.ofNat 32 n)).length ≤ (Wire.varintBytes n).length := by
  unfold encodeVarint Wire.varintBytes
  by_cases h : n < 255
  · have hle : BitVec.ofNat 32 n ≤ 0xff := by
      rw [BitVec.le_def, BitVec.toNat_ofNat]
      exact (Nat.mod_le _ _).trans (by change n ≤ 255; omega)
    rw [if_pos h, if_pos hle]
    rfl
  · rw [if_neg h]
    split <;> simp

/-- In C++ 255 takes fewer bytes. -/
theorem length_encodeVarint_lt {n : Nat} (hn : n = 255) :
    (encodeVarint (BitVec.ofNat 32 n)).length < (Wire.varintBytes n).length := by
  subst hn
  decide

theorem length_take_mod {b : List UInt8} : (b.take (b.length % 2 ^ 32)).length = b.length % 2 ^ 32 := by
  rw [List.length_take]
  exact Nat.min_eq_left (Nat.mod_le _ _)

theorem pieces_nativeItem {item : Wire.Item} (hs : item.Short) (he : ¬ item.Escapes) :
    (nativeItem item).pieces = item.pieces := by
  cases item with
  | int v | long v | float v | double v => simp [nativeItem, Item.pieces, Wire.Item.pieces]
  | varint n => simp only [nativeItem, Item.pieces, Wire.Item.pieces, encodeVarint_eq hs he]
  | bytes b => simp only [nativeItem, Item.pieces, Wire.Item.pieces, encodeVarint_eq hs he]
  | string s =>
    have hlen : (Wire.utf8 s).length % 2 ^ 32 = (Wire.utf8 s).length := Nat.mod_eq_of_lt hs
    simp only [nativeItem, Item.pieces, Wire.Item.pieces, hlen, List.take_length, encodeVarint_eq hs he]

theorem length_nativeItem (item : Wire.Item) :
    (nativeItem item).encode.length ≤ item.encode.length ∧
    (item.Escapes → (nativeItem item).encode.length < item.encode.length) := by
  cases item with
  | int v | long v | float v | double v =>
    refine ⟨?_, fun he => absurd he id⟩
    simp [nativeItem, Item.encode, Wire.Item.encode, Wire.Item.pieces]
  | varint n =>
    simp only [nativeItem, Item.encode, Wire.Item.encode, Wire.Item.pieces, List.flatten_singleton]
    exact ⟨length_encodeVarint n, length_encodeVarint_lt⟩
  | bytes b =>
    simp only [nativeItem, Item.encode, Wire.Item.encode, Wire.Item.pieces, List.flatten_cons, List.flatten_nil,
      List.append_nil, List.length_append]
    have hle := length_encodeVarint b.length
    refine ⟨by omega, fun he => ?_⟩
    have hlt := length_encodeVarint_lt he
    omega
  | string s =>
    simp only [nativeItem, Item.encode, Wire.Item.encode, Wire.Item.pieces, List.flatten_cons, List.flatten_nil,
      List.append_nil, List.length_append, length_take_mod]
    have hmod := Nat.mod_le (Wire.utf8 s).length (2 ^ 32)
    have hle := length_encodeVarint ((Wire.utf8 s).length % 2 ^ 32)
    have hmono := Python.length_varintBytes_le hmod
    refine ⟨by omega, fun he => ?_⟩
    have hlen : (Wire.utf8 s).length = 255 := he
    have hsame : (Wire.utf8 s).length % 2 ^ 32 = (Wire.utf8 s).length :=
      Nat.mod_eq_of_lt (hlen.trans_lt (by decide))
    have hlt := length_encodeVarint_lt hlen
    rw [hsame]
    omega

/-- In C++ no more bytes are written, and fewer where a count or length is 255. -/
theorem length_encodeAll (items : List Wire.Item) :
    (encodeAll (items.map nativeItem)).length ≤ (Wire.encodeAll items).length ∧
    ((∃ item ∈ items, item.Escapes) →
      (encodeAll (items.map nativeItem)).length < (Wire.encodeAll items).length) := by
  induction items with
  | nil => exact ⟨le_rfl, fun ⟨_, hi, _⟩ => absurd hi List.not_mem_nil⟩
  | cons item items ih =>
    have hcons : encodeAll ((item :: items).map nativeItem) =
        (nativeItem item).encode ++ encodeAll (items.map nativeItem) := List.flatMap_cons
    obtain ⟨hle, hlt⟩ := length_nativeItem item
    obtain ⟨hles, hlts⟩ := ih
    rw [hcons, Wire.encodeAll_cons, List.length_append, List.length_append]
    refine ⟨by omega, ?_⟩
    rintro ⟨i, hi, he⟩
    rcases List.mem_cons.mp hi with rfl | hi
    · have := hlt he
      omega
    · have := hlts ⟨i, hi, he⟩
      omega

theorem allPieces_nativeItem {items : List Wire.Item} (hs : ∀ item ∈ items, item.Short)
    (he : ∀ item ∈ items, ¬ item.Escapes) : allPieces (items.map nativeItem) = Wire.allPieces items := by
  unfold allPieces Wire.allPieces
  rw [List.flatMap_map]
  exact List.flatMap_congr fun item hi => pieces_nativeItem (hs item hi) (he item hi)

end Native

/-- Pieces of fewer than `2 ^ 31` bytes together fit in TypeScript. -/
theorem TypeScript.fits_of_lt {ns : List Nat} : ∀ {capacity pos : Nat}, pos + ns.sum < 2 ^ 31 →
    TypeScript.Fits capacity pos ns := by
  induction ns with
  | nil => exact fun _ => trivial
  | cons n ns ih =>
    intro capacity pos h
    rw [List.sum_cons] at h
    have hgrow : ∃ capacity', TypeScript.grow capacity pos n = some capacity' := by
      unfold TypeScript.grow
      split
      · exact ⟨_, rfl⟩
      · rw [if_pos (by omega)]
        exact ⟨_, rfl⟩
    obtain ⟨capacity', hg⟩ := hgrow
    exact ⟨capacity', hg, ih (by omega)⟩

namespace Wire.Table

/-- What C++ writes for the table is loaded in TypeScript and in Python, and what they
write for it is loaded in C++. -/
def Interoperates (t : Table) : Prop :=
  ∃ bytes,
    (∀ ways : List (Bool × List Native.TableCellValue),
      ways.map Prod.snd = (t.rows.map fun row => row.map Native.TableCellValue.ofCell) →
      ∃ s ser, Native.added t ways = some s ∧ s.buildSer = some ser ∧
        (Native.build ser).1.read 0 (Native.build ser).2.toNat = some bytes) ∧
    (∀ v : TypeScript.View, v.Valid → v.bytes = bytes →
      ∃ ser, TypeScript.TableSerializer.load v = some (t.serializer, ser)) ∧
    (∃ ser, Python.TableSerializer.load bytes = some (t.serializer, ser)) ∧
    (∃ v, TypeScript.TableSerializer.build 64 t.serializer = some v ∧
      Native.TableSerializer.load v.bytes Native.TableSerializer.new = some (Native.inNative t)) ∧
    ∃ data, Python.TableSerializer.build t.serializer = some data ∧
      Native.TableSerializer.load data Native.TableSerializer.new = some (Native.inNative t)

variable {t : Table}

theorem length_items (t : Table) : (encodeAll t.items).length = ((allPieces t.items).map List.length).sum := by
  rw [← flatten_allPieces, List.length_flatten]

/-- There are no more rows than bytes. -/
theorem length_rows_le (hne : t.types ≠ []) : t.rows.length ≤ (encodeAll t.items).length := by
  have hcells : t.rows.length ≤ (tableCells t.rows 0 t.types).length := by
    cases ht : t.types with
    | nil => exact absurd ht hne
    | cons type types =>
      have hm := t.rows_match
      rw [ht] at hm
      rw [tableCells, List.length_append, (Reader.columnCells_match hm).1]
      exact Nat.le_add_right ..
  have hle : t.rows.length ≤ t.items.length := by
    simp only [items, body, List.length_append, List.length_map]
    omega
  have hbytes : ∀ items : List Item, items.length ≤ (encodeAll items).length := by
    intro items
    induction items with
    | nil => exact Nat.zero_le _
    | cons item items ih =>
      have hpos := item.encode_pos
      rw [encodeAll_cons, List.length_append, List.length_cons]
      omega
  exact hle.trans (hbytes t.items)

/-- A table of fewer than `2 ^ 31` bytes and rows has counts and lengths that are words. -/
theorem short_of_lt (hlen : (encodeAll t.items).length < 2 ^ 31) (hrows : t.rows.length < 2 ^ 31) : t.Short := by
  intro item hi
  have hle : item.encode.length ≤ (encodeAll t.items).length :=
    (List.sublist_flatten_of_mem (List.mem_map_of_mem hi)).length_le
  cases item with
  | varint n =>
    change n < 2 ^ 32
    rcases List.mem_append.mp hi with h | h
    · have hn : n = t.flag ∨ n = t.rows.length := by simpa [header] using h
      rcases hn with rfl | rfl
      · exact t.flag_lt
      · exact hrows.trans (by decide)
    · rcases mem_body h with ⟨_, _, _, _, he⟩ | ⟨_, _, cell, _, he⟩
      · cases he
      · cases cell with
        | boolean v =>
          cases v <;> cases he <;> decide
        | _ => cases he
  | bytes b =>
    have hb : b.length ≤ (Item.bytes b).encode.length := by simp [Item.encode, Item.pieces]
    exact (hb.trans hle).trans_lt (hlen.trans (by decide))
  | string s =>
    have hs : (utf8 s).length ≤ (Item.string s).encode.length := by simp [Item.encode, Item.pieces]
    exact (hs.trans hle).trans_lt (hlen.trans (by decide))
  | _ => exact trivial

theorem bytes_mem {b : List UInt8} (h : Item.bytes b ∈ t.items) : ∃ row ∈ t.rows, Cell.bytes b ∈ row := by
  rcases List.mem_append.mp h with h | h
  · simp [header] at h
  · rcases mem_body h with ⟨_, _, _, _, he⟩ | ⟨row, hr, cell, hc, he⟩
    · cases he
    · cases cell with
      | bytes b' =>
        obtain rfl : b = b' := Item.bytes.inj he
        exact ⟨row, hr, hc⟩
      | _ => cases he

theorem sized_nativeItem (hb : ∀ row ∈ t.rows, ∀ b, Cell.bytes b ∈ row → b.length < 2 ^ 31) :
    ∀ item ∈ t.items.map Native.nativeItem, item.Sized := by
  intro item hm
  obtain ⟨item', hi, rfl⟩ := List.mem_map.mp hm
  cases item' with
  | int v | long v | float v | double v => simp [Native.nativeItem, Native.Item.Sized]
  | varint n => exact trivial
  | bytes b =>
    obtain ⟨row, hr, hc⟩ := bytes_mem hi
    exact (hb row hr b hc).trans (by decide)
  | string s =>
    change ((utf8 s).take _).length < 2 ^ 32
    rw [Native.length_take_mod]
    exact Nat.mod_lt _ (by decide)

/-- What is written in C++. -/
theorem native_written (hne : t.types ≠ []) (ho : .o ∉ t.types)
    (hb : ∀ row ∈ t.rows, ∀ b, Cell.bytes b ∈ row → b.length < 2 ^ 31) (pos : Int) :
    (∃ ser, Native.TableSerializer.buildSer { Native.inNative t with currentAddValuePosX := pos } = some ser ∧
      (Native.build ser).1.read 0 (Native.build ser).2.toNat =
        some (Native.encodeAll (t.items.map Native.nativeItem)) ∧
      Fits 16 0 ((Native.allPieces (t.items.map Native.nativeItem)).map List.length)) ∨
    (Native.TableSerializer.buildSer { Native.inNative t with currentAddValuePosX := pos } = none ∧
      ¬ Fits 16 0 ((Native.allPieces (t.items.map Native.nativeItem)).map List.length)) := by
  have hnew := Native.wrote_prepareSer (n := 16) (by decide)
  have hlen : (Native.prepareSer 16).buf.length = 16 := by decide
  rw [Native.TableSerializer.buildSer_eq hne ho]
  rcases Native.puts_putAll (sized_nativeItem hb) _ _ hnew.located with ⟨ser, hput, -, hkept, hfit⟩ | ⟨hput, hfit⟩
  · have hwrote := hkept hnew
    refine .inl ⟨ser, hput, ?_, ?_⟩
    · have hread := hwrote.holds.read (Nat.zero_add _).le
      rw [List.nil_append, Native.flatten_allPieces, List.drop_zero, List.take_length] at hread
      have hpos := hwrote.pos
      rw [List.nil_append, Native.flatten_allPieces] at hpos
      change ser.buf.read 0 ser.pos.toNat = _
      rw [hpos, hread]
    · have h := (hfit []).mpr trivial
      rw [hlen, List.append_nil] at h
      exact h
  · refine .inr ⟨hput, ?_⟩
    have h := hfit []
    rw [hlen, List.append_nil] at h
    exact h

theorem exists_ways (t : Table) : ∃ ways : List (Bool × List Native.TableCellValue),
    ways.map Prod.snd = t.rows.map fun row => row.map Native.TableCellValue.ofCell := by
  refine ⟨t.rows.map fun row => (false, row.map Native.TableCellValue.ofCell), ?_⟩
  rw [List.map_map]
  rfl

theorem Interoperates.short (h : t.Interoperates) : t.Short := by
  obtain ⟨-, -, -, -, -, data, hdata, -⟩ := h
  rw [python_build] at hdata
  exact fun item hi => (Python.write_some hdata item hi).2

/-- The bytes are those that C++ writes. -/
theorem Interoperates.bytes (h : t.Interoperates) (hne : t.types ≠ []) (ho : .o ∉ t.types)
    (hb : ∀ row ∈ t.rows, ∀ b, Cell.bytes b ∈ row → b.length < 2 ^ 31) :
    Fits 16 0 ((Native.allPieces (t.items.map Native.nativeItem)).map List.length) ∧
    (∀ v : TypeScript.View, v.Valid → v.bytes = Native.encodeAll (t.items.map Native.nativeItem) →
      ∃ ser, TypeScript.TableSerializer.load v = some (t.serializer, ser)) ∧
    ∃ ser, Python.TableSerializer.load (Native.encodeAll (t.items.map Native.nativeItem)) =
      some (t.serializer, ser) := by
  obtain ⟨bytes, hcpp, hts, hpy, -⟩ := h
  obtain ⟨ways, hways⟩ := exists_ways t
  obtain ⟨pos, hadd⟩ := Native.added_eq hne hways
  obtain ⟨s, ser, hs, hser, hread⟩ := hcpp ways hways
  obtain rfl := Option.some.inj (hadd.symm.trans hs)
  rcases native_written hne ho hb pos with ⟨ser', hser', hread', hfit⟩ | ⟨hser', -⟩
  · obtain rfl := Option.some.inj (hser.symm.trans hser')
    obtain rfl := Option.some.inj (hread.symm.trans hread')
    exact ⟨hfit, hts, hpy⟩
  · rw [hser'] at hser
    cases hser

/-- Loaded in Python, the table takes all bytes that the others write for it. -/
theorem Interoperates.not_escapes (h : t.Interoperates) (hne : t.types ≠ []) (ho : .o ∉ t.types)
    (hb : ∀ row ∈ t.rows, ∀ b, Cell.bytes b ∈ row → b.length < 2 ^ 31) : ∀ item ∈ t.items, ¬ item.Escapes := by
  obtain ⟨-, -, ser, hpy⟩ := h.bytes hne ho hb
  intro item hi he
  have hlt := (Native.length_encodeAll t.items).2 ⟨item, hi, he⟩
  have hle := Python.length_of_load hpy
  omega

/-- Tables are exchanged with C++ if and only if no string has a byte order mark in
front, no count or length is 255, and the bytes fit the buffers that C makes for
them. -/
theorem interoperates_iff (t : Table) (hne : t.types ≠ []) (ho : .o ∉ t.types)
    (hb : ∀ row ∈ t.rows, ∀ b, Cell.bytes b ∈ row → b.length < 2 ^ 31) :
    t.Interoperates ↔
      t.Unmarked ∧ (∀ item ∈ t.items, ¬ item.Escapes) ∧ Fits 16 0 ((allPieces t.items).map List.length) := by
  constructor
  · intro h
    have hshort := h.short
    have hesc := h.not_escapes hne ho hb
    obtain ⟨hfit, hts, -⟩ := h.bytes hne ho hb
    have hpieces := Native.allPieces_nativeItem hshort hesc
    have hbytes : Native.encodeAll (t.items.map Native.nativeItem) = encodeAll t.items := by
      rw [← Native.flatten_allPieces, hpieces, flatten_allPieces]
    rw [hpieces] at hfit
    have hof : (TypeScript.View.of (encodeAll t.items)).bytes = encodeAll t.items := by
      simp [TypeScript.View.of, TypeScript.View.bytes]
    have hvalid : (TypeScript.View.of (encodeAll t.items)).Valid := (Nat.zero_add _).le
    obtain ⟨ser, hload⟩ := hts _ hvalid (hof.trans hbytes.symm)
    obtain ⟨ser', hload', -⟩ := typeScript_load hshort hvalid hof
    have hheard := (Prod.mk.inj (Option.some.inj (hload'.symm.trans hload))).1
    exact ⟨(heard_unmarked_iff t).mp hheard, hesc, hfit⟩
  · rintro ⟨hmark, hesc, hfit⟩
    have hlen : (encodeAll t.items).length < 2 ^ 31 := by
      have hlt := hfit.lt (by decide) (Nat.zero_le _)
      rw [Nat.zero_add] at hlt
      rwa [length_items]
    have hrows := (length_rows_le hne).trans_lt hlen
    have hshort := short_of_lt hlen hrows
    have hpieces := Native.allPieces_nativeItem hshort hesc
    have hbytes : Native.encodeAll (t.items.map Native.nativeItem) = encodeAll t.items := by
      rw [← Native.flatten_allPieces, hpieces, flatten_allPieces]
    have hnative := Native.TableSerializer.load_eq ho hshort (hlen.trans (by decide)) hrows
    have hwell : ∀ item ∈ t.items, item.WellFormed := fun _ => items_wellFormed
    refine ⟨encodeAll t.items, ?_, ?_, ?_, ?_, ?_⟩
    · intro ways hways
      obtain ⟨pos, hadd⟩ := Native.added_eq hne hways
      rcases native_written hne ho hb pos with ⟨ser, hser, hread, -⟩ | ⟨-, hfull⟩
      · exact ⟨_, ser, hadd, hser, by rw [hread, hbytes]⟩
      · rw [hpieces] at hfull
        exact absurd hfit hfull
    · intro v hvalid hv
      obtain ⟨ser, hload, -⟩ := typeScript_load hshort hvalid hv
      rw [(heard_unmarked_iff t).mpr hmark] at hload
      exact ⟨ser, hload⟩
    · obtain ⟨ser, hload, -⟩ := python_load hshort
      exact ⟨ser, hload⟩
    · have hts : TypeScript.Fits 64 0 ((allPieces t.items).map List.length) :=
        TypeScript.fits_of_lt (by rw [Nat.zero_add, ← length_items]; exact hlen)
      obtain ⟨v, hv, -, hvb⟩ := (TypeScript.write_iff hwell).1 hts
      refine ⟨v, ?_, ?_⟩
      · rw [typeScript_build, hv]
      · rw [hvb, hnative]
    · refine ⟨encodeAll t.items, ?_, hnative⟩
      rw [python_build, Python.write_eq hwell hshort]

/-- A table of one cell. -/
def single (b : List UInt8) : Table where
  types := [.b]
  names := none
  rows := [[.bytes b]]
  names_length := length_of_none
  rows_match := by simp [Java.RowMatches, Java.Cell.Matches]
  names_text := text_of_none
  cells_text := by simp [Java.Cell.WellFormed]
  objects := by simp

theorem single_interoperates : (single [1, 2, 3]).Interoperates := by
  have hitems : (single [1, 2, 3]).items = [.varint 1, .varint 1, .string [98], .bytes [1, 2, 3]] := rfl
  refine (interoperates_iff (single [1, 2, 3]) (by decide) (by decide) ?_).mpr ⟨?_, ?_, ?_⟩
  · simp [single]
  · exact ⟨by simp [single], by simp [single]⟩
  · rw [hitems]
    simp only [List.forall_mem_cons, Item.Escapes]
    exact ⟨by decide, by decide, by decide, by decide, fun _ h => absurd h List.not_mem_nil⟩
  · rw [hitems]
    exact ⟨16, by decide, 16, by decide, 16, by decide, 16, by decide, 16, by decide, 16, by decide, trivial⟩

/-- 255 bytes are written behind the single byte 255, which TypeScript and Python take
for the start of a long length. -/
theorem single_lost :
    ((Native.added (single (List.replicate 255 0)) [(true, [.bytes (List.replicate 255 0)])]).bind fun s =>
      s.buildSer.bind fun ser => (Native.build ser).1.read 0 (Native.build ser).2.toNat) =
        some ([1, 1, 1, 98, 255] ++ List.replicate 255 0) ∧
    (TypeScript.TableSerializer.load (TypeScript.View.of ([1, 1, 1, 98, 255] ++ List.replicate 255 0))).map
      (fun out => out.1.rows) = some [[.bytes []]] ∧
    (Python.TableSerializer.load ([1, 1, 1, 98, 255] ++ List.replicate 255 0)).map
      (fun out => out.1.rows) = some [[.bytes []]] ∧
    ¬ (single (List.replicate 255 0)).Interoperates := by
  refine ⟨by decide +kernel, by decide +kernel, by decide +kernel, fun h => ?_⟩
  refine h.not_escapes (by decide) (by decide) ?_ (.bytes (List.replicate 255 0)) ?_ List.length_replicate
  · intro row hr b hb
    obtain rfl := List.mem_singleton.mp hr
    obtain rfl := Cell.bytes.inj (List.mem_singleton.mp hb)
    rw [List.length_replicate]
    decide
  · exact List.mem_append_right _ (List.mem_append_right _ List.mem_cons_self)

end Wire.Table

end PxpRpc.Codec
