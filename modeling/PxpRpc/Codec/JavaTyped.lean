import PxpRpc.Codec.JavaTableLoads
import PxpRpc.Lib.Records

/-!
# Objects of a class in Java tables

Three orders are used for the public fields of a class: that in which reflection lists them, that of the
fields which have a column when a table is made, and that of the columns of the table that is read.
`toTypedObjectArray` looks up the column of a field by its name, and then reads the row
at the position of the field.
-/
namespace PxpRpc.Codec.Java

open PxpRpc.Lib

/-! ### Fields -/

inductive Primitive where
  | boolean | int | long | float | double
deriving DecidableEq, Repr

namespace Primitive

def valueType : Primitive → ValueType
  | boolean => .c
  | int => .i
  | long => .l
  | float => .f
  | double => .d

/-- The number of a format with `prec` bits of precision that is nearest to an integer; of two,
the even one. -/
def nearest (w prec bias : Nat) (v : Int) : BitVec w :=
  if v = 0 then 0 else
    let n := v.natAbs
    let e := n.log2
    let unit := 2 ^ (e - (prec - 1))
    let significand := n * 2 ^ (prec - 1 - e) / unit
    let up := 2 * (n % unit) > unit ∨ 2 * (n % unit) = unit ∧ significand % 2 = 1
    let magnitude := (e + bias) * 2 ^ (prec - 1) + (significand - 2 ^ (prec - 1)) + if up then 1 else 0
    BitVec.ofNat w (magnitude + if v < 0 then 2 ^ (w - 1) else 0)

def intToFloat (v : Int) : BitVec 32 := nearest 32 24 127 v

def intToDouble (v : Int) : BitVec 64 := nearest 64 53 1023 v

def floatToDouble (v : BitVec 32) : BitVec 64 :=
  let sign := v.toNat / 2 ^ 31
  let exponent := v.toNat / 2 ^ 23 % 2 ^ 8
  let fraction := v.toNat % 2 ^ 23
  let magnitude :=
    if exponent = 255 then 2047 * 2 ^ 52 + fraction * 2 ^ 29
    else if exponent ≠ 0 then (exponent + (1023 - 127)) * 2 ^ 52 + fraction * 2 ^ 29
    else if fraction = 0 then 0
    -- A subnormal number; its leading bit becomes the implicit one.
    else (fraction.log2 + (1023 - 149)) * 2 ^ 52 + (fraction - 2 ^ fraction.log2) * 2 ^ (52 - fraction.log2)
  BitVec.ofNat 64 (sign * 2 ^ 63 + magnitude)

/-- A value is unwrapped and converted to the type if it is as wide. -/
def convert : Primitive → Cell (List UInt8) → Option (Cell (List UInt8))
  | boolean, .boolean v => some (.boolean v)
  | int, .int v => some (.int v)
  | long, .int v => some (.long (v.signExtend 64))
  | long, .long v => some (.long v)
  | float, .int v => some (.float (intToFloat v.toInt))
  | float, .long v => some (.float (intToFloat v.toInt))
  | float, .float v => some (.float v)
  | double, .int v => some (.double (intToDouble v.toInt))
  | double, .long v => some (.double (intToDouble v.toInt))
  | double, .float v => some (.double (floatToDouble v))
  | double, .double v => some (.double v)
  | _, _ => none

theorem convert_eq {type : Primitive} {cell : Cell (List UInt8)} (h : cell.Matches type.valueType) :
    type.convert cell = some cell := by
  cases type <;> cases cell <;> first | exact absurd h id | rfl

/-- A widening rounds to even, and makes a subnormal number a normal one. -/
example : float.convert (.int 16777219) = some (.float 0x4b800002) ∧
    double.convert (.int (-3)) = some (.double 0xc008000000000000) ∧
    double.convert (.float 0x00000001) = some (.double 0x36a0000000000000) := by decide

end Primitive

/-- The type of a field. `byteBuffer` is `ByteBuffer` or a class under it, to which the buffers of a table may not
be assignable; `object` is any other class, with the classes of values that are assignable to it. -/
inductive FieldType where
  | primitive (type : Primitive)
  | boxed (type : Primitive)
  | string
  | byteBuffer (assignable : Bool)
  | void
  | object (assignable : ValueType → Bool)

namespace FieldType

def jtypeToValueInfo : FieldType → UInt16
  | primitive type => type.valueType.char
  | boxed type => type.valueType.char
  | string => ValueType.s.char
  | byteBuffer _ => ValueType.b.char
  | void => 0
  | object _ => ValueType.o.char

/-- The type of the column of a valid field. -/
def valueType : FieldType → ValueType
  | primitive type | boxed type => type.valueType
  | string => .s
  | byteBuffer _ => .b
  | void | object _ => .o

theorem jtypeToValueInfo_eq {type : FieldType} (h : type ≠ void) : type.jtypeToValueInfo = type.valueType.char := by
  cases type <;> first | exact absurd rfl h | rfl

/-- A value of the class is assignable to a variable of the type. -/
def accepts : FieldType → ValueType → Bool
  | boxed type, cls => type.valueType = cls
  | string, cls => cls = .s
  | byteBuffer assignable, cls => cls = .b ∧ assignable
  | object assignable, cls => assignable cls
  | _, _ => false

/-- `Field.set` -/
def set : FieldType → Cell (List UInt8) → Option (Cell (List UInt8))
  | primitive type, v => type.convert v
  | _, .null => some .null
  | type, v => if v.jtypeToValueInfo.any type.accepts then some v else none

/-- A field of the type may have the value. Values that no table has stand for any object. -/
def Holds {β : Type} : FieldType → Cell β → Prop
  | primitive type, v => v.Matches type.valueType
  | boxed type, v => v = .null ∨ v.Matches type.valueType
  | string, v => v = .null ∨ v.Matches .s
  | byteBuffer _, v => v = .null ∨ v.Matches .b
  | void, v => v = .null
  | object _, _ => True

theorem Holds.matches {β : Type} {type : FieldType} {v : Cell β} (h : type.Holds v) (hv : type ≠ void)
    (ho : type.jtypeToValueInfo ≠ ValueType.o.char) (hn : v ≠ .null) : v.Matches type.valueType := by
  cases type with
  | primitive type => exact h
  | boxed type => exact h.resolve_left hn
  | string => exact h.resolve_left hn
  | byteBuffer assignable => exact h.resolve_left hn
  | void => exact absurd rfl hv
  | object assignable => exact absurd rfl ho

theorem set_eq {type : FieldType} {v : Cell (List UInt8)} (h : v.Matches type.valueType) (ho : type.valueType ≠ .o)
    (hb : type ≠ byteBuffer false) : type.set v = some v := by
  cases type with
  | primitive type => exact Primitive.convert_eq h
  | boxed type =>
    cases v with
    | null => rfl
    | _ => cases type <;> first | exact absurd h id | rfl
  | string => cases v <;> first | exact absurd h id | rfl
  | byteBuffer assignable =>
    cases assignable with
    | false => exact absurd rfl hb
    | true => cases v <;> first | exact absurd h id | rfl
  | void => exact absurd rfl ho
  | object assignable => exact absurd rfl ho

theorem set_buffer {v : Cell (List UInt8)} (h : v.Matches .b) : (byteBuffer false).set v = none := by
  cases v <;> first | exact absurd h id | rfl

end FieldType

/-- A public field of a class. A new instance has the initial value in it. -/
structure Field where
  name : List Char
  type : FieldType
  initial : Cell (List UInt8)

namespace Field

def getName (field : Field) : Utf16 := toUtf16 field.name

/-- Nested objects are not supported. -/
def valid (field : Field) : Bool := field.type.jtypeToValueInfo ≠ ValueType.o.char

end Field

/-- An object has one value for each field that `getFields` lists. -/
abbrev Instance (β : Type) := List (Cell β)

def Typed {β : Type} (fields : List Field) (obj : Instance β) : Prop :=
  List.Forall₂ (fun field v => field.type.Holds v) fields obj

def validField (fields : List Field) : List Field := fields.filter Field.valid

/-- The values of the valid fields. -/
def validValues {β : Type} (fields : List Field) (obj : Instance β) : Row β :=
  ((fields.zip obj).filter fun (field, _) => field.valid).map Prod.snd

namespace TableSerializer

/-- `none` is the index -1. -/
def getColIndex (columnsName : List Utf16) (name : Utf16) : Option Nat :=
  columnsName.findIdx? fun columnName => columnName = name

/-- One round of the loop over the rows. Note that the row is not read at `colIndex`. -/
def setFields (fields : List (Field × Option Nat)) (row : Row (List UInt8)) : Option (Instance (List UInt8)) :=
  fields.zipIdx.mapM fun ((field, colIndex), i2) =>
    if colIndex.isSome then row[i2]?.bind field.type.set else some field.initial

def toTypedObjectArray (t : TableSerializer (List UInt8)) (fields : List Field) :
    Option (List (Instance (List UInt8))) := do
  let colsIndex ← fields.mapM fun field => t.columnsName.map fun names => getColIndex names field.getName
  t.rows.mapM (setFields (fields.zip colsIndex))

/-- The class is that of the first object. -/
def fromTypedObjectArray {β : Type} (t : TableSerializer β) (fields : List Field) (objs : List (Instance β)) :
    TableSerializer β :=
  let fields := if objs.length > 0 then fields else []
  { t with
    columnsType := some ((validField fields).map fun field => field.type.jtypeToValueInfo)
    columnsName := some ((validField fields).map Field.getName)
    rows := t.rows ++ objs.map (validValues fields) }

end TableSerializer

/-! ### Fields and columns -/

/-- The field has the value of the column of its name, or its initial one if there is none. -/
def ByName (columnsName : List Utf16) (row : Row (List UInt8)) (field : Field) (v : Cell (List UInt8)) : Prop :=
  match TableSerializer.getColIndex columnsName field.getName with
  | some c => row[c]?.bind field.type.set = some v
  | none => v = field.initial

/-- Objects are made of the rows, with the fields set by name. -/
def SetsByName (t : TableSerializer (List UInt8)) (columnsName : List Utf16) (fields : List Field) : Prop :=
  ∃ objs, t.toTypedObjectArray fields = some objs ∧
    List.Forall₂ (fun row obj => List.Forall₂ (ByName columnsName row) fields obj) t.rows objs

/-- Where a field has a column, the value at the position of the field is as good as that of the column. -/
def SameByPosition (columnsName : List Utf16) (fields : List Field) (row : Row (List UInt8)) : Prop :=
  ∀ (i : Nat) (field : Field) c, fields[i]? = some field →
    TableSerializer.getColIndex columnsName field.getName = some c →
    ∃ v, row[i]?.bind field.type.set = some v ∧ row[c]?.bind field.type.set = some v

namespace TableSerializer

variable {columnsName : List Utf16} {fields : List Field} {row : Row (List UInt8)}

theorem getElem?_fields {i : Nat} {field : Field} (h : fields[i]? = some field) :
    (fields.zip (fields.map fun field => getColIndex columnsName field.getName)).zipIdx[i]? =
      some ((field, getColIndex columnsName field.getName), i) := by
  rw [List.getElem?_zipIdx, List.zip, List.getElem?_zipWith, List.getElem?_map, h]
  simp

theorem setFields_eq_some_iff {obj : Instance (List UInt8)} :
    setFields (fields.zip (fields.map fun field => getColIndex columnsName field.getName)) row = some obj ↔
      obj.length = fields.length ∧ ∀ (i : Nat) (field : Field) v, fields[i]? = some field → obj[i]? = some v →
        (if (getColIndex columnsName field.getName).isSome then row[i]?.bind field.type.set else some field.initial) =
          some v := by
  rw [setFields, mapM_eq_some_iff, forall₂_iff_getElem?]
  refine and_congr ?_ ⟨fun h i field v hf hv => h i _ v (getElem?_fields hf) hv, fun h i x v hx hv => ?_⟩
  · simp [eq_comm]
  · have hlt := (List.getElem?_eq_some_iff.mp hx).1
    rw [List.length_zipIdx, List.length_zip, List.length_map, min_self] at hlt
    have hf := List.getElem?_eq_getElem hlt
    obtain rfl := Option.some.inj ((getElem?_fields hf).symm.trans hx)
    exact h i _ v hf hv

theorem toTypedObjectArray_eq {t : TableSerializer (List UInt8)} (h : t.columnsName = some columnsName) :
    t.toTypedObjectArray fields =
      t.rows.mapM (setFields (fields.zip (fields.map fun field => getColIndex columnsName field.getName))) := by
  have hcols : (fields.mapM fun field => t.columnsName.map fun names => getColIndex names field.getName) =
      some (fields.map fun field => getColIndex columnsName field.getName) := by
    rw [mapM_eq_some_iff, h, List.forall₂_map_right_iff]
    exact List.forall₂_same.mpr fun _ _ => rfl
  rw [toTypedObjectArray, hcols]
  rfl

/-- A row gives the fields by name if and only if it has the same values by position. -/
theorem setFields_byName_iff :
    (∃ obj, setFields (fields.zip (fields.map fun field => getColIndex columnsName field.getName)) row = some obj ∧
      List.Forall₂ (ByName columnsName row) fields obj) ↔ SameByPosition columnsName fields row := by
  constructor
  · rintro ⟨obj, hset, hby⟩ i field c hf hc
    obtain ⟨hlen, hset⟩ := setFields_eq_some_iff.mp hset
    have hlt := (List.getElem?_eq_some_iff.mp hf).1
    have hv := List.getElem?_eq_getElem (hlen ▸ hlt : i < obj.length)
    have hpos := hset i field _ hf hv
    have hname := (forall₂_iff_getElem?.mp hby).2 i field _ hf hv
    rw [hc, Option.isSome_some, if_pos rfl] at hpos
    rw [ByName, hc] at hname
    exact ⟨_, hpos, hname⟩
  · intro h
    obtain ⟨obj, hobj⟩ : ∃ obj, List.Forall₂ (fun (x : Field × Nat) v => ByName columnsName row x.1 v ∧
        (if (getColIndex columnsName x.1.getName).isSome then row[x.2]?.bind x.1.type.set else some x.1.initial) =
          some v) fields.zipIdx obj := by
      refine exists_forall₂ fun (field, i) hi => ?_
      simp only [ByName]
      cases hc : getColIndex columnsName field.getName with
      | none => exact ⟨_, rfl, rfl⟩
      | some c =>
        obtain ⟨v, hpos, hname⟩ := h i field c (List.mem_zipIdx_iff_getElem?.mp hi) hc
        exact ⟨v, hname, hpos⟩
    rw [forall₂_iff_getElem?, List.length_zipIdx] at hobj
    have hget : ∀ {i : Nat} {field : Field}, fields[i]? = some field → fields.zipIdx[i]? = some (field, i) :=
      fun hf => by simp [hf]
    refine ⟨obj, setFields_eq_some_iff.mpr ⟨hobj.1.symm, fun i field v hf hv => ?_⟩,
      forall₂_iff_getElem?.mpr ⟨hobj.1, fun i field v hf hv => ?_⟩⟩
    · exact (hobj.2 i _ v (hget hf) hv).2
    · exact (hobj.2 i _ v (hget hf) hv).1

theorem setsByName_iff {t : TableSerializer (List UInt8)} (h : t.columnsName = some columnsName) :
    SetsByName t columnsName fields ↔ ∀ row ∈ t.rows, SameByPosition columnsName fields row := by
  rw [SetsByName, toTypedObjectArray_eq h]
  constructor
  · rintro ⟨objs, hobjs, hby⟩ row hr
    rw [mapM_eq_some_iff] at hobjs
    obtain ⟨i, hi⟩ := List.getElem?_of_mem hr
    have hlt := (List.getElem?_eq_some_iff.mp hi).1
    have hobj := List.getElem?_eq_getElem (hobjs.length_eq ▸ hlt : i < objs.length)
    exact setFields_byName_iff.mp
      ⟨_, (forall₂_iff_getElem?.mp hobjs).2 i row _ hi hobj, (forall₂_iff_getElem?.mp hby).2 i row _ hi hobj⟩
  · intro hsame
    obtain ⟨objs, hobjs⟩ := exists_forall₂ fun row hr => setFields_byName_iff.mpr (hsame row hr)
    exact ⟨objs, mapM_eq_some_iff.mpr (hobjs.imp fun _ _ h => h.1), hobjs.imp fun _ _ h => h.2⟩

theorem getColIndex_isSome_iff {name : Utf16} : (getColIndex columnsName name).isSome ↔ name ∈ columnsName := by
  simp [getColIndex]

end TableSerializer

/-! ### Rows of valid fields -/

theorem Cell.Matches.received {β : Type} {type : ValueType} {cell : Cell β} (h : cell.Matches type) :
    cell.received.Matches type := by
  cases type <;> cases cell <;> first | exact absurd h id | trivial | (rw [Cell.received]; split <;> trivial)

theorem Cell.Matches.byIndex_eq {β : Type} {type : ValueType} {cell : Cell β} (h : cell.Matches type) (ho : type ≠ .o) :
    cell.byIndex = cell := by
  cases cell with
  | object value => cases type <;> first | exact absurd h id | exact absurd rfl ho
  | _ => rfl

/-- The valid fields stand in front of the others, which have other names. -/
structure InFront (fields : List Field) : Prop where
  prefix_fields : validField fields <+: fields
  names : ∀ field ∈ fields, ¬ field.valid → field.getName ∉ (validField fields).map Field.getName

theorem Typed.validValues {β : Type} {fields : List Field} {obj : Instance β} (h : Typed fields obj) :
    List.Forall₂ (fun (field : Field) v => field.type.Holds v) (validField fields) (validValues fields obj) := by
  induction h with
  | nil => exact List.Forall₂.nil
  | @cons field v fields obj hv _ ih =>
    rw [Java.validValues] at ih
    rw [Java.validValues, validField, List.zip_cons_cons, List.filter_cons, List.filter_cons]
    split
    · exact List.Forall₂.cons hv ih
    · exact ih

section InFront

variable {fields : List Field} {row vals : Row (List UInt8)}

theorem validValues_eq {β : Type} {obj : Instance β} (h : validField fields <+: fields)
    (hlen : obj.length = fields.length) : validValues fields obj = obj.take (validField fields).length := by
  obtain ⟨rest, hrest, hnot⟩ := exists_append_of_filter_isPrefix h
  have hn := congrArg List.length hrest
  rw [List.length_append] at hn
  change fields.length = (validField fields).length + rest.length at hn
  have hm : (validField fields).length = (obj.take (validField fields).length).length := by
    rw [List.length_take]
    omega
  have hzip : fields.zip obj = (validField fields).zip (obj.take (validField fields).length) ++
      rest.zip (obj.drop (validField fields).length) := by
    rw [← List.zip_append hm, List.take_append_drop]
    exact congrArg₂ _ hrest rfl
  have hfront : ∀ x ∈ (validField fields).zip (obj.take (validField fields).length), x.1.valid := fun x hx =>
    List.of_mem_filter (List.of_mem_zip hx).1
  have hback : ∀ x ∈ rest.zip (obj.drop (validField fields).length), ¬ x.1.valid := fun x hx =>
    Bool.eq_false_iff.mp (hnot _ (List.of_mem_zip hx).1)
  rw [validValues, hzip, List.filter_append, List.filter_eq_self.mpr hfront, List.filter_eq_nil_iff.mpr hback,
    List.append_nil, List.map_snd_zip (by omega)]

theorem Field.valid_of_mem {field : Field} (h : field ∈ validField fields) : field.valid :=
  List.of_mem_filter h

/-- A row with values for the valid fields gives them back if and only if these stand in front. -/
theorem setFields_validValues_iff
    (hrow : List.Forall₂ (fun (field : Field) v => v.Matches field.type.valueType) (validField fields) row)
    (ho : ∀ field ∈ validField fields, field.type.valueType ≠ .o) :
    (∃ obj, TableSerializer.setFields (fields.zip (fields.map fun field =>
        TableSerializer.getColIndex ((validField fields).map Field.getName) field.getName)) row = some obj ∧
      validValues fields obj = vals) ↔
    InFront fields ∧ (∀ field ∈ validField fields, field.type ≠ .byteBuffer false) ∧ row = vals := by
  have hm := hrow.length_eq
  constructor
  · rintro ⟨obj, hset, hvals⟩
    obtain ⟨hlen, hset⟩ := TableSerializer.setFields_eq_some_iff.mp hset
    -- A field with a column is set from the row, which is as long as there are valid fields.
    have hcol : ∀ (i : Nat) field, fields[i]? = some field → field.getName ∈ (validField fields).map Field.getName →
        ∃ cell v, row[i]? = some cell ∧ obj[i]? = some v ∧ field.type.set cell = some v := fun i field hf hname => by
      have hlt := (List.getElem?_eq_some_iff.mp hf).1
      have hv := List.getElem?_eq_getElem (hlen ▸ hlt : i < obj.length)
      have h := hset i field _ hf hv
      rw [if_pos (TableSerializer.getColIndex_isSome_iff.mpr hname), Option.bind_eq_some_iff] at h
      obtain ⟨cell, hcell, h⟩ := h
      exact ⟨cell, _, hcell, hv, h⟩
    have hfirst : validField fields <+: fields := filter_isPrefix fun i field hf hvalid => by
      obtain ⟨cell, -, hcell, -⟩ := hcol i field hf
        (List.mem_map_of_mem (List.mem_filter.mpr ⟨List.mem_of_getElem? hf, hvalid⟩))
      rw [← validField, hm]
      exact (List.getElem?_eq_some_iff.mp hcell).1
    have hsame : ∀ {i : Nat} {field : Field}, (validField fields)[i]? = some field → fields[i]? = some field :=
      fun hf => by
        obtain ⟨hlt, rfl⟩ := List.getElem?_eq_some_iff.mp hf
        exact List.prefix_iff_getElem?.mp hfirst _ hlt
    have hin : ∀ {i : Nat} {field : Field}, (validField fields)[i]? = some field →
        ∃ cell v, row[i]? = some cell ∧ obj[i]? = some v ∧ field.type.set cell = some v ∧
          cell.Matches field.type.valueType := fun hf => by
      obtain ⟨cell, v, hcell, hv, hset⟩ := hcol _ _ (hsame hf)
        (List.mem_map_of_mem (List.mem_of_getElem? hf))
      exact ⟨cell, v, hcell, hv, hset, (forall₂_iff_getElem?.mp hrow).2 _ _ _ hf hcell⟩
    have hbuf : ∀ field ∈ validField fields, field.type ≠ .byteBuffer false := fun field hf hb => by
      obtain ⟨i, hi⟩ := List.getElem?_of_mem hf
      obtain ⟨cell, v, -, -, hset, hmatch⟩ := hin hi
      rw [hb] at hset hmatch
      rw [FieldType.set_buffer hmatch] at hset
      cases hset
    refine ⟨⟨hfirst, fun field hf hvalid hname => ?_⟩, hbuf, ?_⟩
    · obtain ⟨i, hi⟩ := List.getElem?_of_mem hf
      obtain ⟨cell, -, hcell, -⟩ := hcol i field hi hname
      have hlt : i < (validField fields).length := hm ▸ (List.getElem?_eq_some_iff.mp hcell).1
      obtain rfl := Option.some.inj (hi.symm.trans (hsame (List.getElem?_eq_getElem hlt)))
      exact hvalid (Field.valid_of_mem (List.getElem_mem hlt))
    · rw [← hvals, validValues_eq hfirst hlen]
      refine List.ext_getElem? fun i => ?_
      rcases lt_or_ge i (validField fields).length with hlt | hge
      · have hf := List.getElem?_eq_getElem hlt
        obtain ⟨cell, v, hcell, hv, hset, hmatch⟩ := hin hf
        rw [FieldType.set_eq hmatch (ho _ (List.getElem_mem hlt)) (hbuf _ (List.getElem_mem hlt))] at hset
        rw [List.getElem?_take_of_lt hlt, hcell, hv, hset]
      · rw [List.getElem?_eq_none (hm ▸ hge), List.getElem?_eq_none]
        rw [List.length_take]
        omega
  · rintro ⟨hfront, hbuf, rfl⟩
    obtain ⟨rest, hrest, hnot⟩ := exists_append_of_filter_isPrefix hfront.prefix_fields
    change fields = validField fields ++ rest at hrest
    have hlen : (row ++ rest.map Field.initial).length = fields.length := by
      rw [List.length_append, ← hm, List.length_map, ← List.length_append, ← hrest]
    refine ⟨row ++ rest.map Field.initial, TableSerializer.setFields_eq_some_iff.mpr ⟨hlen, ?_⟩, ?_⟩
    · intro i field v hf hv
      rcases lt_or_ge i (validField fields).length with hlt | hge
      · rw [hrest, List.getElem?_append_left hlt] at hf
        rw [List.getElem?_append_left (hm ▸ hlt)] at hv
        have hmem := List.mem_of_getElem? hf
        rw [if_pos (TableSerializer.getColIndex_isSome_iff.mpr (List.mem_map_of_mem hmem)), hv, Option.bind_some]
        exact FieldType.set_eq ((forall₂_iff_getElem?.mp hrow).2 _ _ _ hf hv) (ho _ hmem) (hbuf _ hmem)
      · rw [hrest, List.getElem?_append_right hge] at hf
        rw [List.getElem?_append_right (hm ▸ hge), ← hm, List.getElem?_map, hf] at hv
        have hmem := List.mem_of_getElem? hf
        have hname := hfront.names field (hrest ▸ List.mem_append_right _ hmem) (Bool.eq_false_iff.mp (hnot _ hmem))
        rw [if_neg (fun h => hname (TableSerializer.getColIndex_isSome_iff.mp h))]
        exact hv
    · rw [validValues_eq hfront.prefix_fields hlen, hm, List.take_left]

/-- The same of the rows of a table, if there are any. -/
theorem toTypedObjectArray_validValues_iff {t : TableSerializer (List UInt8)} {vals : List (Row (List UInt8))}
    (hnames : t.columnsName = some ((validField fields).map Field.getName)) (hne : t.rows ≠ [])
    (hrows : ∀ row ∈ t.rows,
      List.Forall₂ (fun (field : Field) v => v.Matches field.type.valueType) (validField fields) row)
    (ho : ∀ field ∈ validField fields, field.type.valueType ≠ .o) :
    (∃ objs, t.toTypedObjectArray fields = some objs ∧ objs.map (validValues fields) = vals) ↔
    InFront fields ∧ (∀ field ∈ validField fields, field.type ≠ .byteBuffer false) ∧ t.rows = vals := by
  rw [TableSerializer.toTypedObjectArray_eq hnames]
  constructor
  · rintro ⟨objs, hobjs, rfl⟩
    rw [mapM_eq_some_iff, forall₂_iff_getElem?] at hobjs
    obtain ⟨hlen, hobjs⟩ := hobjs
    have hrow : ∀ (i : Nat) row obj, t.rows[i]? = some row → objs[i]? = some obj → InFront fields ∧
        (∀ field ∈ validField fields, field.type ≠ .byteBuffer false) ∧ row = validValues fields obj :=
      fun i row obj hr hobj => (setFields_validValues_iff (hrows row (List.mem_of_getElem? hr)) ho).mp
        ⟨obj, hobjs i row obj hr hobj, rfl⟩
    have hpos : 0 < t.rows.length := List.length_pos_iff.mpr hne
    obtain ⟨hfront, hbuf, -⟩ := hrow 0 _ _ (List.getElem?_eq_getElem hpos) (List.getElem?_eq_getElem (hlen ▸ hpos))
    refine ⟨hfront, hbuf, ?_⟩
    have hsame : List.Forall₂ (fun row obj => row = validValues fields obj) t.rows objs :=
      forall₂_iff_getElem?.mpr ⟨hlen, fun i row obj hr hobj => (hrow i row obj hr hobj).2.2⟩
    rw [← List.forall₂_eq_eq_eq, List.forall₂_map_right_iff]
    exact hsame
  · rintro ⟨hfront, hbuf, rfl⟩
    obtain ⟨objs, hobjs⟩ := exists_forall₂ fun row hr =>
      (setFields_validValues_iff (hrows row hr) ho).mpr ⟨hfront, hbuf, rfl⟩
    refine ⟨objs, mapM_eq_some_iff.mpr (hobjs.imp fun _ _ h => h.1), ?_⟩
    rw [← List.forall₂_eq_eq_eq, List.forall₂_map_left_iff]
    exact hobjs.flip.imp fun _ _ h => h.2

end InFront

/-! ### What can be put -/

namespace TableSerializer

theorem putCell_matches {type : ValueType} {cell : Cell Nat} {out out' : Serializer2 × Heap} (ho : type ≠ .o)
    (h : putCell type cell out = some out') : cell.Matches type := by
  cases type <;> cases cell <;> trivial

theorem putCells_matches {type : ValueType} {i1 : Nat} {rows : List (Row Nat)} (ho : type ≠ .o) :
    ∀ {out out' : Serializer2 × Heap}, putCells type i1 rows out = some out' →
      ∀ row ∈ rows, ∃ cell, row[i1]? = some cell ∧ cell.Matches type := by
  induction rows with
  | nil => exact fun _ row hr => absurd hr List.not_mem_nil
  | cons row rows ih =>
    intro out out' h
    obtain ⟨cell, hcell, h⟩ := Option.bind_eq_some_iff.mp h
    obtain ⟨out₁, hput, h⟩ := Option.bind_eq_some_iff.mp h
    exact List.forall_mem_cons.mpr ⟨⟨cell, hcell, putCell_matches ho hput⟩, ih h⟩

theorem putColumns_types {rows : List (Row Nat)} {text : Utf16} : ∀ {i1 : Nat} {out out' : Serializer2 × Heap},
    putColumns rows i1 text out = some out' → ∀ ch ∈ text, (ValueType.ofChar ch).isSome := by
  induction text with
  | nil => exact fun _ ch hch => absurd hch List.not_mem_nil
  | cons ch text ih =>
    intro i1 out out' h
    obtain ⟨type, htype, h⟩ := Option.bind_eq_some_iff.mp h
    obtain ⟨out₁, hput, h⟩ := Option.bind_eq_some_iff.mp h
    exact List.forall_mem_cons.mpr ⟨Option.isSome_iff_exists.mpr ⟨type, htype⟩, ih h⟩

/-- Rows that are put have values of the types of the columns, where no column has objects. -/
theorem putColumns_matches {rows : List (Row Nat)} {types : List ValueType} (ho : .o ∉ types) :
    ∀ {i1 : Nat} {out out' : Serializer2 × Heap}, putColumns rows i1 (types.map ValueType.char) out = some out' →
      ∀ row ∈ rows, row.length = i1 + types.length → RowMatches i1 types row := by
  induction types with
  | nil =>
    intro i1 out out' _ row hr hlen
    rw [RowMatches, List.drop_of_length_le (by simp [hlen])]
    exact List.Forall₂.nil
  | cons type types ih =>
    intro i1 out out' h row hr hlen
    obtain ⟨hto, hrest⟩ := not_or.mp (List.mem_cons.not.mp ho)
    rw [List.map_cons, putColumns, ValueType.ofChar_char, Option.bind_some, visited, if_neg (Ne.symm hto),
      Option.bind_eq_some_iff] at h
    obtain ⟨out₁, hput, h⟩ := h
    obtain ⟨cell, hcell, hm⟩ := putCells_matches (Ne.symm hto) hput row hr
    obtain ⟨hlt, rfl⟩ := List.getElem?_eq_some_iff.mp hcell
    rw [List.length_cons] at hlen
    rw [RowMatches, List.drop_eq_getElem_cons hlt]
    exact List.Forall₂.cons hm (ih hrest h row hr (by omega))

theorem putRowsData_of_build {names : Option (List Utf16)} {text : Utf16} {rows : List (Row Nat)} {heap : Heap}
    {out : ByteBuffer × Heap} (h : build ⟨names, some text, rows, none⟩ heap = some out) :
    ∃ ser out', putRowsData text rows (ser, heap) = some out' := by
  simp only [build, Option.bind_eq_bind, Option.bind_eq_some_iff, Option.orElse_some, Option.some.injEq] at h
  obtain ⟨_, -, _, rfl, _, -, _, -, _, -, ser, -, out', hput, -⟩ := h
  exact ⟨ser, out', hput⟩

end TableSerializer

/-! ### There and back -/

/-- Objects of a class with these fields, and the buffers that they have. -/
structure Objects (fields : List Field) where
  objs : List (Instance Nat)
  heap : Heap
  objs_ne : objs ≠ []
  objs_lt : objs.length < 2 ^ 31
  typed : ∀ obj ∈ objs, Typed fields obj

namespace Objects

variable {fields : List Field} (x : Objects fields)

/-- `fromTypedObjectArray`, `build`, `load` and `toTypedObjectArray` give objects with the same
values of the valid fields. -/
def RoundTrips : Prop :=
  ∃ buf heap t objs, ((TableSerializer.new Nat).fromTypedObjectArray fields x.objs).build x.heap = some (buf, heap) ∧
    (TableSerializer.new Nat).load (some buf) = some t ∧ t.toTypedObjectArray fields = some objs ∧
    objs.map (validValues fields) = x.objs.map fun obj => (validValues fields obj).map (Cell.map x.heap)

def rows : List (Row Nat) := x.objs.map (validValues fields)

/-- The values of the valid fields, field by field. -/
def cells : List (Cell Nat) := tableCells x.rows 0 ((validField fields).map fun field => field.type.valueType)

def pieces : List (List UInt8) :=
  [varintPiece 0, varintPiece (BitVec.ofNat 32 x.objs.length)] ++
  bytesPieces (getBytes ((validField fields).map fun field => field.type.jtypeToValueInfo)) ++
  ((validField fields).flatMap fun field => bytesPieces (getBytes field.getName)) ++
  (cellsIn x.heap x.cells).flatMap Cell.pieces

/-- The fields have values that a table can have, and they fit. -/
structure Storable : Prop where
  types : ∀ field ∈ fields, field.type ≠ .void ∧ field.type ≠ .byteBuffer false
  values : ∀ row ∈ x.rows, ∀ cell ∈ row, cell ≠ .null ∧ cell.WellFormed
  once : PutOnce x.heap x.cells
  fits : Fits 64 0 (x.pieces.map List.length)

theorem valueType_ne_of_valid {field : Field} (hv : field.type ≠ .void) (h : field ∈ validField fields) :
    field.type.valueType ≠ .o := fun ho => by
  have hvalid := Field.valid_of_mem h
  rw [Field.valid, decide_eq_true_eq, FieldType.jtypeToValueInfo_eq hv, ho] at hvalid
  exact hvalid rfl

/-- The table that is made of the objects. -/
def sheet (hrows : ∀ row ∈ x.rows, RowMatches 0 ((validField fields).map fun field => field.type.valueType) row) :
    Sheet where
  types := (validField fields).map fun field => field.type.valueType
  names := some ((validField fields).map Field.getName)
  rows := x.rows
  heap := x.heap
  names_length := by simp
  rows_match := hrows
  rows_lt := by simpa [rows] using x.objs_lt

section Sheet

variable {x} (hrows : ∀ row ∈ x.rows, RowMatches 0 ((validField fields).map fun field => field.type.valueType) row)

theorem columnsType_eq (hv : ∀ field ∈ fields, field.type ≠ .void) :
    ((validField fields).map fun field => field.type.jtypeToValueInfo) =
    (x.sheet hrows).columnsType := by
  rw [Sheet.columnsType, sheet, List.map_map]
  exact List.map_congr_left fun field hf => FieldType.jtypeToValueInfo_eq (hv field (List.mem_of_mem_filter hf))

theorem pieces_eq (hv : ∀ field ∈ fields, field.type ≠ .void) :
    x.pieces = (x.sheet hrows).header ++ (x.sheet hrows).body := by
  rw [pieces, Sheet.header, ← columnsType_eq hrows hv, Sheet.body]
  simp [sheet, rows, cells, Sheet.cells, List.flatMap_map]

theorem build_eq (hv : ∀ field ∈ fields, field.type ≠ .void) :
    ((TableSerializer.new Nat).fromTypedObjectArray fields x.objs).build x.heap =
    TableSerializer.build ⟨(x.sheet hrows).names, some (x.sheet hrows).columnsType, (x.sheet hrows).rows, none⟩
      x.heap := by
  rw [← columnsType_eq hrows hv, TableSerializer.fromTypedObjectArray, if_pos (List.length_pos_iff.mpr x.objs_ne)]
  rfl

theorem not_object (hv : ∀ field ∈ fields, field.type ≠ .void) :
    .o ∉ (validField fields).map fun field => field.type.valueType := fun ho => by
  obtain ⟨field, hf, ho⟩ := List.mem_map.mp ho
  exact valueType_ne_of_valid (hv field (List.mem_of_mem_filter hf)) hf ho

theorem byIndex_values (hv : ∀ field ∈ fields, field.type ≠ .void) :
    ((x.sheet hrows).values.map fun row => row.map Cell.byIndex) = (x.sheet hrows).values := by
  conv_rhs => rw [← List.map_id (x.sheet hrows).values]
  refine List.map_congr_left fun row hr => ?_
  conv_rhs => rw [id, ← List.map_id row]
  refine List.map_congr_left fun cell hc => ?_
  have hm := Sheet.values_match hr
  rw [RowMatches, List.drop_zero] at hm
  obtain ⟨type, htype, hcell⟩ := exists_of_mem_right hm cell hc
  exact hcell.byIndex_eq fun ho => not_object hv (ho ▸ htype)

/-- The rows of the table that is loaded are those of the objects. -/
theorem roundTrips_iff_of_rowMatches (hrows : ∀ row ∈ x.rows,
    RowMatches 0 ((validField fields).map fun field => field.type.valueType) row)
    (hv : ∀ field ∈ fields, field.type ≠ .void) :
    x.RoundTrips ↔ InFront fields ∧ (∀ field ∈ validField fields, field.type ≠ .byteBuffer false) ∧
      PutOnce x.heap x.cells ∧ (∀ row ∈ x.rows, ∀ cell ∈ row, cell.WellFormed) ∧
      Fits 64 0 (x.pieces.map List.length) := by
  obtain ⟨put, hp, hsame⟩ := (x.sheet hrows).exists_puts
  have h1 : .o ∈ (x.sheet hrows).types → (x.sheet hrows).rows.length ≤ 1 := fun ho => absurd ho (not_object hv)
  have hvals : (x.objs.map fun obj => (validValues fields obj).map (Cell.map x.heap)) = (x.sheet hrows).values :=
    (List.map_map ..).symm
  have hnames : ((x.sheet hrows).names.map fun names => names.map fun s => newString (getBytes s)) =
      some ((validField fields).map Field.getName) := by
    refine congrArg some ((List.map_map ..).trans (List.map_congr_left fun field _ => ?_))
    exact (newString_getBytes_iff _).mpr ⟨field.name, rfl⟩
  have hmatch : ∀ row ∈ put.map fun row => row.map Cell.received,
      List.Forall₂ (fun (field : Field) v => v.Matches field.type.valueType) (validField fields) row :=
    List.forall_mem_map.mpr fun row hr => by
      have hm := hp.rows_match row hr
      rw [RowMatches, List.drop_zero, sheet, List.forall₂_map_left_iff] at hm
      exact List.forall₂_map_right_iff.mpr (hm.imp fun _ _ => Cell.Matches.received)
  have hne : (put.map fun row => row.map Cell.received) ≠ [] := by
    rw [← List.length_pos_iff, List.length_map, hp.length_eq]
    simpa [sheet, rows, List.length_pos_iff] using x.objs_ne
  rw [byIndex_values hrows hv] at hsame
  constructor
  · rintro ⟨buf, heap, t, objs, hbuild, hload, hto, hobjs⟩
    rw [build_eq hrows hv] at hbuild
    obtain ⟨hfits, -, ht, htrows⟩ := (Sheet.loads_iff h1 hp).mp ⟨buf, heap, t, hbuild, hload, rfl, rfl⟩
    rw [hnames] at ht
    rw [htrows] at hsame hmatch hne
    obtain ⟨hfront, hbuf, hrows'⟩ := (toTypedObjectArray_validValues_iff ht.symm hne hmatch
      fun field hf => valueType_ne_of_valid (hv field (List.mem_of_mem_filter hf)) hf).mp ⟨objs, hto, hobjs⟩
    obtain ⟨honce, hwf⟩ := hsame.mp (hrows'.trans hvals)
    rw [Sheet.put_eq_body h1 honce, ← pieces_eq hrows hv] at hfits
    exact ⟨hfront, hbuf, honce, hwf, hfits⟩
  · rintro ⟨hfront, hbuf, honce, hwf, hfits⟩
    rw [pieces_eq hrows hv, ← Sheet.put_eq_body h1 honce] at hfits
    obtain ⟨buf, heap, t, hbuild, hload, ht, htrows⟩ := (Sheet.loads_iff h1 hp).mpr
      ⟨hfits, fun i hi => absurd (List.mem_of_getElem? hi) (not_object hv), hnames, rfl⟩
    rw [← htrows] at hsame hmatch hne
    obtain ⟨objs, hto, hobjs⟩ := (toTypedObjectArray_validValues_iff ht hne hmatch
      fun field hf => valueType_ne_of_valid (hv field (List.mem_of_mem_filter hf)) hf).mpr
      ⟨hfront, hbuf, (hsame.mpr ⟨honce, hwf⟩).trans hvals.symm⟩
    exact ⟨buf, heap, t, objs, by rw [build_eq hrows hv]; exact hbuild, hload, hto, hobjs⟩

end Sheet

theorem row_holds {row : Row Nat} (hr : row ∈ x.rows) :
    List.Forall₂ (fun (field : Field) v => field.type.Holds v) (validField fields) row := by
  obtain ⟨obj, hobj, rfl⟩ := List.mem_map.mp hr
  exact (x.typed obj hobj).validValues

/-- Objects go there and back if and only if the fields without a column are behind the others, and have other
names, and the values of the others are storable. -/
theorem roundTrips_iff_storable : x.RoundTrips ↔ InFront fields ∧ x.Storable := by
  have hvalid : ∀ field ∈ fields, field.type = .void ∨ field.type = .byteBuffer false → field ∈ validField fields :=
    fun field hf ht => List.mem_filter.mpr ⟨hf, by rcases ht with ht | ht <;> rw [Field.valid, ht] <;> decide⟩
  constructor
  · intro h
    obtain ⟨buf, heap, -, -, hbuild, -⟩ := id h
    rw [TableSerializer.fromTypedObjectArray, if_pos (List.length_pos_iff.mpr x.objs_ne)] at hbuild
    obtain ⟨ser, out, hput⟩ := TableSerializer.putRowsData_of_build hbuild
    have hv : ∀ field ∈ fields, field.type ≠ .void := fun field hf ht => by
      have hchar := TableSerializer.putColumns_types hput _ (List.mem_map_of_mem (hvalid field hf (.inl ht)))
      rw [ht] at hchar
      exact absurd hchar (by decide)
    have htext : ((validField fields).map fun field => field.type.jtypeToValueInfo) =
        ((validField fields).map fun field => field.type.valueType).map ValueType.char := by
      rw [List.map_map]
      exact List.map_congr_left fun field hf => FieldType.jtypeToValueInfo_eq (hv field (List.mem_of_mem_filter hf))
    have hrows : ∀ row ∈ x.rows, RowMatches 0 ((validField fields).map fun field => field.type.valueType) row :=
      fun row hr => by
        rw [TableSerializer.putRowsData, htext] at hput
        refine TableSerializer.putColumns_matches (not_object hv) hput row hr ?_
        rw [List.length_map, (x.row_holds hr).length_eq, Nat.zero_add]
    obtain ⟨hfront, hbuf, honce, hwf, hfits⟩ := (roundTrips_iff_of_rowMatches hrows hv).mp h
    refine ⟨hfront, fun field hf => ⟨hv field hf, fun ht => hbuf field (hvalid field hf (.inr ht)) ht⟩,
      fun row hr cell hc => ⟨fun hnull => ?_, hwf row hr cell hc⟩, honce, hfits⟩
    obtain ⟨type, htype, hm⟩ := exists_of_mem_right (hrows row hr) cell hc
    subst hnull
    cases type <;> first | exact hm | exact not_object hv htype
  · rintro ⟨hfront, hs⟩
    have hv : ∀ field ∈ fields, field.type ≠ .void := fun field hf => (hs.types field hf).1
    have hrows : ∀ row ∈ x.rows, RowMatches 0 ((validField fields).map fun field => field.type.valueType) row :=
      fun row hr => by
        rw [RowMatches, List.drop_zero, List.forall₂_map_left_iff, forall₂_iff_getElem?]
        obtain ⟨hlen, hholds⟩ := forall₂_iff_getElem?.mp (x.row_holds hr)
        refine ⟨hlen, fun i field v hf hcell => (hholds i field v hf hcell).matches ?_ ?_ ?_⟩
        · exact hv field (List.mem_of_mem_filter (List.mem_of_getElem? hf))
        · exact of_decide_eq_true (Field.valid_of_mem (List.mem_of_getElem? hf))
        · exact (hs.values row hr v (List.mem_of_getElem? hcell)).1
    exact (roundTrips_iff_of_rowMatches hrows hv).mpr ⟨hfront,
      fun field hf => (hs.types field (List.mem_of_mem_filter hf)).2, hs.once,
      fun row hr cell hc => (hs.values row hr cell hc).2, hs.fits⟩

end Objects

/-- Objects go there and back through a table if and only if the fields that have a column stand in front of the
others, and the values can be stored; and from a table fields are set by name if and only if every row has the same
values by position. -/
theorem typedObjects_iff (fields : List Field) :
    (∀ x : Objects fields, x.RoundTrips ↔ InFront fields ∧ x.Storable) ∧
    ∀ (columnsName : List Utf16) (columnsType : Option Utf16) (rows : List (Row (List UInt8)))
        (ser : Option Serializer2),
      SetsByName ⟨some columnsName, columnsType, rows, ser⟩ columnsName fields ↔
        ∀ row ∈ rows, SameByPosition columnsName fields row :=
  ⟨fun x => x.roundTrips_iff_storable, fun _ _ _ _ => TableSerializer.setsByName_iff rfl⟩

/-- The fields `Object tag` and `int id`. -/
def tagged : List Field :=
  [⟨['t', 'a', 'g'], .object fun _ => true, .null⟩, ⟨['i', 'd'], .primitive .int, .int 0⟩]

def oneTagged : Objects tagged where
  objs := [[.null, .int 12]]
  heap := fun _ => []
  objs_ne := by simp
  objs_lt := by decide
  typed := by simp [Typed, tagged, FieldType.Holds, Cell.Matches, Primitive.valueType]

/-- The fields `int x` and `int y`. -/
def point : List Field := [⟨['x'], .primitive .int, .int 0⟩, ⟨['y'], .primitive .int, .int 0⟩]

/-- One row, with the column `y` in front of the column `x`. -/
def swapped : TableSerializer (List UInt8) :=
  ⟨some [toUtf16 ['y'], toUtf16 ['x']], none, [[.int 1, .int 2]], none⟩

/-- The table of the tagged object has one column, and its value is read at the position 1. In the other
table, `x` is read from the column `y`. -/
theorem oneTagged_raises : ¬ oneTagged.RoundTrips ∧ ¬ SetsByName swapped [toUtf16 ['y'], toUtf16 ['x']] point := by
  constructor
  · intro h
    obtain ⟨hfront, -⟩ := oneTagged.roundTrips_iff_storable.mp h
    have hvalid : validField tagged = [⟨['i', 'd'], .primitive .int, .int 0⟩] := rfl
    have hfirst := hfront.prefix_fields
    rw [hvalid, tagged, List.cons_prefix_cons] at hfirst
    exact absurd (congrArg Field.name hfirst.1) (by decide)
  · intro h
    have hsame := (TableSerializer.setsByName_iff rfl).mp h _ List.mem_cons_self
    obtain ⟨v, hx, hy⟩ := hsame 0 _ 1 rfl (by decide)
    exact absurd (hx.trans hy.symm) (by decide)

end PxpRpc.Codec.Java
