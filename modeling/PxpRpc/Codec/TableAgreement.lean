import PxpRpc.Codec.SerializerAgreement
import PxpRpc.Codec.WireTable

/-!
# Tables in TypeScript and Python

Which tables both build as the same bytes, and both load from them.
-/
namespace PxpRpc.Codec

open PxpRpc.Lib
open PxpRpc.Codec.Wire
open PxpRpc.Codec.Java (ValueType)

namespace TypeScript.TableSerializer

/-- `build`, with a serializer of the given size bound. -/
def build (initBufSize : Nat) (t : TableSerializer) : Option View :=
  (t.build Serializer.writer Serializer.reader (Serializer.prepareSerializing initBufSize)).bind Serializer.build

def load (buf : View) : Option (TableSerializer × Serializer) :=
  Wire.TableSerializer.load Serializer.reader (Serializer.prepareUnserializing buf)

end TypeScript.TableSerializer

namespace Python.TableSerializer

def build (t : TableSerializer) : Option (List UInt8) :=
  (t.build Serializer.writer Serializer.reader Serializer.prepareSerializing).map Serializer.build

def load (buf : List UInt8) : Option (TableSerializer × Serializer) :=
  Wire.TableSerializer.load Serializer.reader (Serializer.prepareUnserializing buf)

end Python.TableSerializer

/-! ### Declarations -/

theorem TypeScript.declares : TypeScript.Serializer.reader.Declares TypeScript.heard where
  columns types := by
    change (types.map ValueType.char).map ValueType.ofChar = _
    rw [List.map_map]
    exact List.map_congr_left fun type _ => ValueType.ofChar_char type
  heard types := by
    have hstrip : TypeScript.stripBom (types.map fun type => Char.ofNat type.char.toNat) =
        types.map fun type => Char.ofNat type.char.toNat := by
      cases types with
      | nil => rfl
      | cons type types =>
        rw [List.map_cons, TypeScript.stripBom, if_neg (by cases type <;> decide)]
    rw [TypeScript.heard, hstrip, toUtf16_types]

theorem Python.declares : Python.Serializer.reader.Declares toUtf16 where
  columns types := by
    change (fromUtf16 (types.map ValueType.char)).map _ = _
    rw [fromUtf16_types, List.map_map]
    exact List.map_congr_left fun type _ => by cases type <;> rfl
  heard := toUtf16_types

/-! ### Agreement -/

namespace Wire.Table

/-- Both languages build the same bytes, and load the table from them, wherever they
are, up to their end. -/
def Agree (t : Table) (initBufSize : Nat) : Prop :=
  ∃ bytes,
    (∃ v, TypeScript.TableSerializer.build initBufSize t.serializer = some v ∧ v.bytes = bytes) ∧
    Python.TableSerializer.build t.serializer = some bytes ∧
    (∀ v : TypeScript.View, v.Valid → v.bytes = bytes →
      ∃ ser, TypeScript.TableSerializer.load v = some (t.serializer, ser) ∧ ser.pos = ser.dv.byteLength) ∧
    ∃ ser, Python.TableSerializer.load bytes = some (t.serializer, ser) ∧ ser.pos = ser.buf.length

/-- No string has a byte order mark in front. -/
def Unmarked (t : Table) : Prop := t.Strings fun s => (fromUtf16 s).head? ≠ some (Char.ofNat 0xfeff)

/-- Counts and lengths are words. -/
def Short (t : Table) : Prop := ∀ item ∈ t.items, item.Short

variable {t : Table}

theorem typeScript_build (t : Table) (n : Nat) :
    TypeScript.TableSerializer.build n t.serializer = TypeScript.Serializer.write n t.items := by
  rw [TypeScript.TableSerializer.build, t.build_eq TypeScript.declares, TypeScript.Serializer.write]

theorem python_build (t : Table) : Python.TableSerializer.build t.serializer = Python.Serializer.write t.items := by
  rw [Python.TableSerializer.build, t.build_eq Python.declares, Python.Serializer.write]

theorem typeScript_load (hs : t.Short) {v : TypeScript.View} (hv : v.Valid) (hb : v.bytes = encodeAll t.items) :
    ∃ ser, TypeScript.TableSerializer.load v = some (t.heard TypeScript.heard, ser) ∧
      ser.pos = ser.dv.byteLength := by
  have hr : TypeScript.Reads (TypeScript.Serializer.prepareUnserializing v) (encodeAll t.items ++ []) := by
    rw [List.append_nil, ← hb]
    exact TypeScript.Reads.prepareUnserializing hv
  obtain ⟨ser, hload, hend⟩ := t.load_eq TypeScript.source TypeScript.declares hs hr
  exact ⟨ser, hload, hend.length⟩

theorem python_load (hs : t.Short) :
    ∃ ser, Python.TableSerializer.load (encodeAll t.items) = some (t.serializer, ser) ∧
      ser.pos = ser.buf.length := by
  have hr : Python.Reads (Python.Serializer.prepareUnserializing (encodeAll t.items))
      (encodeAll t.items ++ []) := by
    rw [List.append_nil]
    exact Python.Reads.prepareUnserializing _
  have hheard : t.heard toUtf16 = t.serializer :=
    t.heard_iff.mpr ((Strings.congr fun _ hw => iff_of_true (toUtf16_fromUtf16_iff.mpr hw) hw).mpr t.strings_wellFormed)
  obtain ⟨ser, hload, hend⟩ := t.load_eq Python.source Python.declares hs hr
  rw [hheard] at hload
  exact ⟨ser, hload, hend.length⟩

theorem heard_unmarked_iff (t : Table) : t.heard TypeScript.heard = t.serializer ↔ t.Unmarked :=
  t.heard_iff.trans (Strings.congr fun _ => TypeScript.heard_iff)

theorem Agree.short {n : Nat} (h : t.Agree n) : t.Short := by
  obtain ⟨bytes, -, hpy, -⟩ := h
  rw [python_build] at hpy
  exact fun item hi => (Python.write_some hpy item hi).2

theorem Agree.fits {n : Nat} (h : t.Agree n) : TypeScript.Fits n 0 ((allPieces t.items).map List.length) := by
  obtain ⟨bytes, ⟨v, hv, -⟩, -⟩ := h
  rw [typeScript_build] at hv
  by_contra hf
  rw [(TypeScript.write_iff fun _ => items_wellFormed).2 hf] at hv
  cases hv

theorem Agree.unmarked {n : Nat} (h : t.Agree n) : t.Unmarked := by
  have hshort := h.short
  obtain ⟨bytes, -, hpy, hts, -⟩ := h
  rw [python_build, Python.write_eq (fun _ => items_wellFormed) hshort] at hpy
  obtain rfl := Option.some.inj hpy
  have hof : (TypeScript.View.of (encodeAll t.items)).bytes = encodeAll t.items := by
    simp [TypeScript.View.of, TypeScript.View.bytes]
  have hvalid : (TypeScript.View.of (encodeAll t.items)).Valid := (Nat.zero_add _).le
  obtain ⟨ser, hload, -⟩ := hts _ hvalid hof
  obtain ⟨ser', hload', -⟩ := typeScript_load hshort hvalid hof
  exact (heard_unmarked_iff t).mp (Prod.mk.inj (Option.some.inj (hload'.symm.trans hload))).1

/-- Tables are built and loaded alike if and only if no string has a byte order mark
in front, counts and lengths are words, and the bytes fit the buffers that
TypeScript makes for them. -/
theorem tables_agree_iff (t : Table) (initBufSize : Nat) : t.Agree initBufSize ↔
    t.Unmarked ∧ t.Short ∧ TypeScript.Fits initBufSize 0 ((allPieces t.items).map List.length) := by
  constructor
  · exact fun h => ⟨h.unmarked, h.short, h.fits⟩
  · rintro ⟨hmark, hshort, hfits⟩
    have hwell : ∀ item ∈ t.items, item.WellFormed := fun _ => items_wellFormed
    obtain ⟨v, hv, -, hvb⟩ := (TypeScript.write_iff hwell).1 hfits
    refine ⟨encodeAll t.items, ⟨v, ?_, hvb⟩, ?_, ?_, python_load hshort⟩
    · rw [typeScript_build, hv]
    · rw [python_build, Python.write_eq hwell hshort]
    · intro v' hvalid hv'
      obtain ⟨ser, hload, hend⟩ := typeScript_load hshort hvalid hv'
      rw [(heard_unmarked_iff t).mpr hmark] at hload
      exact ⟨ser, hload, hend⟩

/-- One cell, a byte order mark. -/
def marked : Table where
  types := [.s]
  names := none
  rows := [[.string [0xfeff]]]
  names_length := by simp
  rows_match := by simp [Java.RowMatches, Java.Cell.Matches]
  names_text := text_of_none
  cells_text := by
    simp only [List.mem_singleton, forall_eq]
    exact ⟨[Char.ofNat 0xfeff], by decide⟩
  objects := by simp

/-- TypeScript loads an empty string from its own bytes. -/
theorem marked_lost :
    (TypeScript.TableSerializer.build 64 marked.serializer).map TypeScript.View.bytes =
      some [1, 1, 1, 115, 3, 0xef, 0xbb, 0xbf] ∧
    Python.TableSerializer.build marked.serializer = some [1, 1, 1, 115, 3, 0xef, 0xbb, 0xbf] ∧
    (TypeScript.TableSerializer.load (TypeScript.View.of [1, 1, 1, 115, 3, 0xef, 0xbb, 0xbf])).map
      (fun out => out.1.rows) = some [[.string []]] ∧
    ∀ initBufSize, ¬ marked.Agree initBufSize := by
  refine ⟨by decide, by decide, by decide, fun n hagree => ?_⟩
  exact hagree.unmarked.2 [.string [0xfeff]] List.mem_cons_self [0xfeff] List.mem_cons_self (by decide)

end Wire.Table

end PxpRpc.Codec
