import PxpRpc.Codec.TableAgreement
import PxpRpc.Codec.WireTruncation

/-!
# Truncated tables

Where the bytes of a table end too early, the Python `load` raises unless it is the
slice of the last item that is too short, and the TypeScript `load` unless the
buffer goes on behind the view.
-/
namespace PxpRpc.Codec

open PxpRpc.Lib
open PxpRpc.Codec.Wire

namespace Python

/-- A slice has the bytes that are left. -/
def spill (bs : List UInt8) (_ : Nat) : Option (List UInt8) := some bs

theorem ends : Serializer.reader.Ends Reads (fun ser => ser.buf.length < ser.pos) spill where
  raw := by
    intro ser bs n h hn
    have hlen := h.length
    exact if_neg (by omega)
  content := by
    intro ser bs n h hn
    have hlen := h.length
    refine ⟨{ ser with pos := ser.pos + n }, by dsimp only; omega, ?_⟩
    change some _ = some _
    rw [h.remaining, List.take_of_length_le (by omega)]
  past := by
    intro ser n h hn
    exact if_neg (by omega)
  not_reads := by
    intro ser bs h hr
    have hpos := hr.pos
    omega

end Python

namespace TypeScript

/-- The bytes that are left in the view, and behind it as far as its buffer goes. -/
def spill (behind bs : List UInt8) (n : Nat) : Option (List UInt8) :=
  if n ≤ (bs ++ behind).length then some ((bs ++ behind).take n) else none

/-- The bytes to be read, and those behind the view. -/
def ReadsBefore (behind : List UInt8) (ser : Serializer) (bs : List UInt8) : Prop :=
  Reads ser bs ∧ ser.dv.behind = behind

theorem ReadsBefore.prepareUnserializing {v : View} (h : v.Valid) :
    ReadsBefore v.behind (Serializer.prepareUnserializing v) v.bytes :=
  ⟨Reads.prepareUnserializing h, rfl⟩

theorem getRaw_dv {n : Nat} {ser ser' : Serializer} {b : List UInt8} (h : ser.getRaw n = some (b, ser')) :
    ser'.dv = ser.dv := by
  unfold Serializer.getRaw at h
  split at h
  · obtain ⟨-, rfl⟩ := Prod.mk.inj (Option.some.inj h)
    rfl
  · cases h

theorem getContent_dv {n : Nat} {ser ser' : Serializer} {b : List UInt8} (h : ser.getContent n = some (b, ser')) :
    ser'.dv = ser.dv := by
  obtain ⟨val, -, heq⟩ := Option.map_eq_some_iff.mp h
  obtain ⟨-, rfl⟩ := Prod.mk.inj heq
  rfl

theorem source_before (behind : List UInt8) : Serializer.reader.Source (ReadsBefore behind) heard where
  raw := by
    rintro ser bs rest ⟨h, hbehind⟩
    obtain ⟨ser', hget, h'⟩ := source.raw h
    exact ⟨ser', hget, h', by rw [getRaw_dv hget, hbehind]⟩
  content := by
    rintro ser bs rest ⟨h, hbehind⟩
    obtain ⟨ser', hget, h'⟩ := source.content h
    exact ⟨ser', hget, h', by rw [getContent_dv hget, hbehind]⟩
  decode := source.decode

/-- From the position on the buffer has what is left of the view, and what is behind it. -/
theorem ReadsBefore.drop {behind bs : List UInt8} {ser : Serializer} (h : ReadsBefore behind ser bs) :
    ser.dv.buffer.drop (ser.dv.byteOffset + ser.pos) = bs ++ behind := by
  obtain ⟨hr, rfl⟩ := h
  have hpos := hr.pos
  have hvalid := hr.valid
  unfold View.Valid at hvalid
  have hsplit : ser.dv.buffer.drop ser.dv.byteOffset = ser.dv.bytes ++ ser.dv.behind := by
    unfold View.bytes View.behind
    rw [← List.drop_drop, List.take_append_drop]
  rw [← List.drop_drop, hsplit, List.drop_append_of_le_length, hr.remaining]
  rw [Reads.bytes_length hr.valid]
  exact hpos

theorem ends (behind : List UInt8) :
    Serializer.reader.Ends (ReadsBefore behind) (fun ser => ser.dv.byteLength < ser.pos) (spill behind) where
  raw := by
    rintro ser bs n ⟨h, -⟩ hn
    have hlen := h.length
    exact if_neg (by omega)
  content := by
    rintro ser bs n h hn
    have hlen := h.1.length
    have hvalid := h.1.valid
    have hdrop := h.drop
    have hsize := congrArg List.length hdrop
    rw [List.length_drop] at hsize
    unfold View.Valid at hvalid
    refine ⟨{ ser with pos := ser.pos + n }, by dsimp only; omega, ?_⟩
    change (View.new ser.dv.buffer (ser.dv.byteOffset + ser.pos) n).map _ = _
    unfold View.new spill
    by_cases hroom : n ≤ (bs ++ behind).length
    · rw [if_pos hroom, if_pos (by omega), Option.map_some, Option.map_some]
      simp only [View.bytes, hdrop]
    · rw [if_neg hroom, if_neg (by omega)]
      rfl
  past := by
    intro ser n h hn
    exact if_neg (by omega)
  not_reads := by
    rintro ser bs h ⟨hr, -⟩
    have hpos := hr.pos
    omega

end TypeScript

namespace Wire.Table

/-- The bytes that Python builds are those of the items. -/
theorem short_of_build {t : Table} {bytes : List UInt8} (h : Python.TableSerializer.build t.serializer = some bytes) :
    t.Short ∧ encodeAll t.items = bytes := by
  rw [python_build] at h
  have hshort : t.Short := fun item hi => (Python.write_some h item hi).2
  exact ⟨hshort, Option.some.inj ((Python.write_eq (fun _ => items_wellFormed) hshort).symm.trans h)⟩

theorem python_rejects_iff {t : Table} {bytes q : List UInt8}
    (h : Python.TableSerializer.build t.serializer = some bytes) (hq : q <+: bytes) (hne : q ≠ bytes) :
    Python.TableSerializer.load q = none ↔ ¬ t.CutAccepted Python.Serializer.reader Python.spill q := by
  obtain ⟨hshort, rfl⟩ := short_of_build h
  have hlt : q.length < (encodeAll t.items).length :=
    Nat.lt_of_le_of_ne hq.length_le fun he => hne (hq.eq_of_length he)
  rw [← t.load_cut Python.source Python.ends Python.declares hshort (Python.Reads.prepareUnserializing q) hq hlt]
  exact Option.not_isSome_iff_eq_none.symm

theorem typeScript_rejects_iff {t : Table} {bytes : List UInt8} {v : TypeScript.View}
    (h : Python.TableSerializer.build t.serializer = some bytes) (hv : v.Valid) (hq : v.bytes <+: bytes)
    (hne : v.bytes ≠ bytes) : TypeScript.TableSerializer.load v = none ↔
      ¬ t.CutAccepted TypeScript.Serializer.reader (TypeScript.spill v.behind) v.bytes := by
  obtain ⟨hshort, rfl⟩ := short_of_build h
  have hlt : v.bytes.length < (encodeAll t.items).length :=
    Nat.lt_of_le_of_ne hq.length_le fun he => hne (hq.eq_of_length he)
  rw [← t.load_cut (TypeScript.source_before v.behind) (TypeScript.ends v.behind) TypeScript.declares hshort
    (TypeScript.ReadsBefore.prepareUnserializing hv) hq hlt]
  exact Option.not_isSome_iff_eq_none.symm

/-- In a whole buffer nothing is open. -/
theorem not_cutAccepted {t : Table} {q : List UInt8} :
    ¬ t.CutAccepted TypeScript.Serializer.reader (TypeScript.spill []) q := by
  have hspill : ∀ {c b : List UInt8} {j : Nat}, j < c.length → TypeScript.spill [] (c.take j) c.length ≠ some b := by
    intro c b j hj hs
    unfold TypeScript.spill at hs
    rw [if_neg (by simp; omega)] at hs
    cases hs
  rintro (⟨j, hj, -, b, -, hs, -⟩ | ⟨q', -, pre, item, q'', -, -, c, -, j, hj, -, b, hs, -⟩)
  · exact hspill hj hs
  · exact hspill hj hs

end Wire.Table

/-- Truncated tables are rejected except where the cut is open: Python raises on a
proper prefix, and TypeScript on a view of one, if and only if the cut is not
inside the last of its strings of bytes (or inside a declaration behind which
there is nothing to read) with something to take for the rest. The gets keep to
the buffer, or the view, if and only if no length goes beyond it with something
to take. -/
theorem truncation_iff (t : Table) (bytes : List UInt8) (h : Python.TableSerializer.build t.serializer = some bytes) :
    (∀ q : List UInt8, q <+: bytes → q ≠ bytes →
      (Python.TableSerializer.load q = none ↔ ¬ t.CutAccepted Python.Serializer.reader Python.spill q)) ∧
    (∀ v : TypeScript.View, v.Valid → v.bytes <+: bytes → v.bytes ≠ bytes →
      (TypeScript.TableSerializer.load v = none ↔
        ¬ t.CutAccepted TypeScript.Serializer.reader (TypeScript.spill v.behind) v.bytes) ∧
      (v.behind = [] → TypeScript.TableSerializer.load v = none)) ∧
    (∀ (ser : Python.Serializer) (bs : List UInt8), Python.Reads ser bs →
      (Python.Serializer.reader.Contained Python.Reads ser bs ↔
        ∀ n rest, Reader.lengthAt bs = some (n, rest) → n ≤ rest.length)) ∧
    (∀ (ser : TypeScript.Serializer) (bs : List UInt8), TypeScript.Reads ser bs →
      (TypeScript.Serializer.reader.Contained (TypeScript.ReadsBefore ser.dv.behind) ser bs ↔
        ∀ n rest, Reader.lengthAt bs = some (n, rest) →
          n ≤ rest.length ∨ (rest ++ ser.dv.behind).length < n)) := by
  refine ⟨fun q hq hne => Table.python_rejects_iff h hq hne, fun v hv hq hne => ?_, fun ser bs h => ?_,
    fun ser bs h => ?_⟩
  · have hiff := Table.typeScript_rejects_iff h hv hq hne
    refine ⟨hiff, fun hb => hiff.mpr ?_⟩
    rw [hb]
    exact Table.not_cutAccepted
  · rw [Reader.contained_iff Python.source Python.ends h]
    refine forall_congr' fun n => forall_congr' fun rest => forall_congr' fun _ => ?_
    constructor
    · intro hspill
      by_contra hlt
      exact absurd (hspill (Nat.lt_of_not_le hlt)) (Option.some_ne_none _)
    · exact fun hle hlt => absurd hlt (Nat.not_lt_of_le hle)
  · rw [Reader.contained_iff (TypeScript.source_before ser.dv.behind) (TypeScript.ends ser.dv.behind) ⟨h, rfl⟩]
    refine forall_congr' fun n => forall_congr' fun rest => forall_congr' fun _ => ?_
    have hspill : TypeScript.spill ser.dv.behind rest n = none ↔ (rest ++ ser.dv.behind).length < n := by
      simp [TypeScript.spill]
    rw [hspill]
    omega

/-- One cell of two bytes. -/
def twoBytes : Table where
  types := [.b]
  names := none
  rows := [[.bytes [7, 8]]]
  names_length := length_of_none
  rows_match := by simp [Java.RowMatches, Java.Cell.Matches]
  names_text := text_of_none
  cells_text := by simp [Java.Cell.WellFormed]
  objects := by simp

theorem twoBytes_build : Python.TableSerializer.build twoBytes.serializer = some [1, 1, 1, 98, 2, 7, 8] := by
  decide

/-- Without its last byte it is loaded in Python with a cell of one byte, and in
TypeScript with the byte behind the view. -/
theorem twoBytes_cut :
    Python.TableSerializer.build twoBytes.serializer = some [1, 1, 1, 98, 2, 7, 8] ∧
    (Python.TableSerializer.load [1, 1, 1, 98, 2, 7]).map (fun out => (out.1.rows, out.2.pos)) =
      some ([[.bytes [7]]], 7) ∧
    (TypeScript.TableSerializer.load ⟨[1, 1, 1, 98, 2, 7, 9], 0, 6⟩).map (fun out => (out.1.rows, out.2.pos)) =
      some ([[.bytes [7, 9]]], 7) ∧
    TypeScript.TableSerializer.load (TypeScript.View.of [1, 1, 1, 98, 2, 7]) = none := by
  refine ⟨twoBytes_build, ?_, ?_, ?_⟩ <;> decide

/-- The same prefix, and the one before it. -/
theorem twoBytes_rejects :
    (Python.TableSerializer.load [1, 1, 1, 98, 2, 7] = none ↔
      ¬ twoBytes.CutAccepted Python.Serializer.reader Python.spill [1, 1, 1, 98, 2, 7]) ∧
    (Python.TableSerializer.load [1, 1, 1, 98] = none ↔
      ¬ twoBytes.CutAccepted Python.Serializer.reader Python.spill [1, 1, 1, 98]) :=
  ⟨(truncation_iff twoBytes _ twoBytes_build).1 _ ⟨[8], rfl⟩ (by decide),
    (truncation_iff twoBytes _ twoBytes_build).1 _ ⟨[2, 7, 8], rfl⟩ (by decide)⟩

end PxpRpc.Codec
