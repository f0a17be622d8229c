import PxpRpc.Session.Values

/-!
# Rows at the two ends

A row of values is put as a row of cells in which an index stands for each object. It is
read as the same values with what the indices stand for in their place.
-/
namespace PxpRpc.Session

open PxpRpc.Lib PxpRpc.Codec
open PxpRpc.Codec.Java (Cell Row ValueType)
open PxpRpc.Codec.Wire (Passes Writer encodeAll cellItem cellHeard)

variable {R T : Type}

namespace Value

/-- The cell that is put for a value; `P` relates its object to its index. -/
def Puts (P : R → BitVec 32 → Prop) : Value R → Cell (List UInt8) → Prop
  | object r, cell => ∃ index, cell = .object index ∧ P r index
  | v, cell => cell = v.cell fun _ => 0

variable {P Q : R → BitVec 32 → Prop} {v : Value R} {cell : Cell (List UInt8)}

theorem Puts.mono (hPQ : ∀ r index, P r index → Q r index) (h : v.Puts P cell) : v.Puts Q cell := by
  cases v with
  | object r =>
    obtain ⟨index, hc, hp⟩ := h
    exact ⟨index, hc, hPQ r index hp⟩
  | _ => exact h

theorem Puts.matches {type : ValueType} (h : v.Puts P cell) (hm : v.Matches type) : cell.Matches type := by
  cases v with
  | object r =>
    obtain ⟨index, rfl, -⟩ := h
    cases type <;> exact hm
  | _ =>
    obtain rfl := h
    exact hm

theorem Puts.wellFormed (h : v.Puts P cell) (ht : v.Text) : cell.WellFormed := by
  cases v with
  | object r =>
    obtain ⟨index, rfl, -⟩ := h
    exact trivial
  | string s =>
    obtain rfl := h
    exact ht.1
  | _ =>
    obtain rfl := h
    exact trivial

/-- A string is heard as it was put. -/
theorem Puts.heard_eq (h : v.Puts P cell) (ht : v.Text) (lang : Server.Tasks.Lang) {s : Utf16} (hc : cell = .string s) :
    heard lang (fromUtf16 s) = s := by
  cases v with
  | object r =>
    obtain ⟨index, hc', -⟩ := h
    cases hc'.symm.trans hc
  | string s' =>
    obtain rfl := h
    obtain rfl := Cell.string.inj hc
    cases lang with
    | typeScript => exact (TypeScript.heard_iff ht.1).mpr ht.2
    | python => exact Wire.toUtf16_fromUtf16_iff.mpr ht.1
  | _ =>
    obtain rfl := h
    cases hc

theorem Puts.size (h : v.Puts P cell) : (cellItem cell).encode.length = v.size := by
  cases v with
  | object r =>
    obtain ⟨index, rfl, -⟩ := h
    simp [Value.size, Value.cell, cellItem, Wire.Item.encode, Wire.Item.pieces]
  | _ =>
    obtain rfl := h
    rfl

theorem Puts.object (h : v.Puts P cell) {index : BitVec 32} (hc : cell = .object index) :
    ∃ r, v = Value.object r ∧ P r index := by
  cases v with
  | object r =>
    obtain ⟨index', hc', hp⟩ := h
    obtain rfl := Cell.object.inj (hc.symm.trans hc')
    exact ⟨r, rfl, hp⟩
  | _ =>
    obtain rfl := h
    cases hc

/-- What arrives for a value is the value; `Q` relates its object to the one at the other end. -/
inductive Arrives (Q : R → T → Prop) : Value R → Value T → Prop
  | null : Arrives Q null null
  | int (v : BitVec 32) : Arrives Q (int v) (int v)
  | long (v : BitVec 64) : Arrives Q (long v) (long v)
  | float (v : BitVec 32) : Arrives Q (float v) (float v)
  | double (v : BitVec 64) : Arrives Q (double v) (double v)
  | bytes (b : List UInt8) : Arrives Q (bytes b) (bytes b)
  | string (s : Utf16) : Arrives Q (string s) (string s)
  | boolean (v : Bool) : Arrives Q (boolean v) (boolean v)
  | object {r : R} {t : T} (h : Q r t) : Arrives Q (object r) (object t)

theorem Arrives.mono {Q Q' : R → T → Prop} {w : Value T} (hQ : ∀ r t, Q r t → Q' r t) (h : v.Arrives Q w) :
    v.Arrives Q' w := by
  cases h with
  | object h => exact .object (hQ _ _ h)
  | _ => constructor

/-- What the other end makes of the cell. -/
theorem Puts.ofCell {at' : BitVec 32 → Option (Value T)} {Q : R → T → Prop}
    (hat : ∀ r index, P r index → ∃ t, at' index = some (Value.object t) ∧ Q r t) (h : v.Puts P cell) :
    ∃ w, Value.ofCell at' cell = some w ∧ v.Arrives Q w := by
  cases v with
  | object r =>
    obtain ⟨index, rfl, hp⟩ := h
    obtain ⟨t, ht, hq⟩ := hat r index hp
    exact ⟨.object t, ht, .object hq⟩
  | _ =>
    obtain rfl := h
    exact ⟨_, rfl, by constructor⟩

end Value

open Value

variable {P : R → BitVec 32 → Prop} {values : List (Value R)} {row : Row (List UInt8)} {types : List ValueType}

theorem length_encodeAll_cells (h : List.Forall₂ (Puts P) values row) :
    (encodeAll (row.map cellItem)).length = (values.map Value.size).sum := by
  induction h with
  | nil => rfl
  | cons hv _ ih =>
    rw [List.map_cons, Wire.encodeAll_cons, List.length_append, hv.size, ih, List.map_cons, List.sum_cons]

/-- Declared values are put as a row that passes, as long as no index is the one of `null`. -/
theorem Declared.passes (hd : Declared types values) (h : List.Forall₂ (Puts P) values row)
    (hne : ∀ r index, P r index → index ≠ -1) : Passes types row where
  matching := by
    obtain ⟨hm, -, -⟩ := hd
    induction h generalizing types with
    | nil =>
      obtain rfl := List.forall₂_nil_right_iff.mp hm
      exact .nil
    | cons hv _ ih =>
      obtain ⟨type, types, hm₁, hm₂, rfl⟩ := List.forall₂_cons_right_iff.mp hm
      exact .cons (hv.matches hm₁) (ih hm₂)
  text := by
    obtain ⟨-, ht, -⟩ := hd
    induction h with
    | nil => simp
    | cons hv _ ih =>
      obtain ⟨ht₁, ht₂⟩ := List.forall_mem_cons.mp ht
      exact List.forall_mem_cons.mpr ⟨hv.wellFormed ht₁, ih ht₂⟩
  objects := by
    intro hmem
    obtain ⟨k, hk⟩ := List.getElem?_of_mem hmem
    obtain ⟨hlt, hcell⟩ := List.getElem?_eq_some_iff.mp hk
    have hput := h.get (by rw [h.length_eq]; exact hlt) hlt
    obtain ⟨r, -, hp⟩ := hput.object hcell
    exact hne r _ hp rfl
  size := by
    rw [length_encodeAll_cells h]
    exact hd.size

/-- The cells of declared values are heard as they were put. -/
theorem Declared.map_heard (hd : Declared types values) (h : List.Forall₂ (Puts P) values row)
    (lang : Server.Tasks.Lang) : row.map (cellHeard (heard lang)) = row := by
  refine Wire.Table.map_cellHeard_iff.mpr fun s hs => ?_
  obtain ⟨k, hk⟩ := List.getElem?_of_mem hs
  obtain ⟨hlt, hcell⟩ := List.getElem?_eq_some_iff.mp hk
  have hlt' : k < values.length := h.length_eq ▸ hlt
  exact (h.get hlt' hlt).heard_eq (hd.text _ (List.getElem_mem hlt')) lang hcell

/-- The values that the other end makes of a row. -/
theorem mapM_ofCell {at' : BitVec 32 → Option (Value T)} {Q : R → T → Prop}
    (hat : ∀ r index, P r index → ∃ t, at' index = some (.object t) ∧ Q r t) (h : List.Forall₂ (Puts P) values row) :
    ∃ ws, row.mapM (Value.ofCell at') = some ws ∧ List.Forall₂ (Value.Arrives Q) values ws := by
  induction h with
  | nil => exact ⟨[], rfl, .nil⟩
  | cons hv _ ih =>
    obtain ⟨w, hw, hw'⟩ := hv.ofCell hat
    obtain ⟨ws, hws, hws'⟩ := ih
    refine ⟨w :: ws, ?_, .cons hw' hws'⟩
    rw [List.mapM_cons, hw, hws]
    rfl

/-! ### The bytes of a row -/

/-- The bytes of a row: a single `b` is sent as it is. -/
def rowBytes (types : List ValueType) (row : Row (List UInt8)) : List UInt8 :=
  match types, row with
  | [.b], [.bytes b] => b
  | _, row => encodeAll (row.map cellItem)

theorem rowBytes_of_ne (h : types ≠ [.b]) (row : Row (List UInt8)) :
    rowBytes types row = encodeAll (row.map cellItem) := by
  unfold rowBytes
  split
  · exact absurd rfl h
  · rfl

/-- A value of a raw `b` is put as its bytes. -/
theorem raw_eq (hm : List.Forall₂ Value.Matches [.b] values) : ∃ b, values = [.bytes b] := by
  obtain ⟨v, rest, hv, hrest, rfl⟩ := List.forall₂_cons_left_iff.mp hm
  obtain rfl := List.forall₂_nil_left_iff.mp hrest
  cases v <;> first
    | exact ⟨_, rfl⟩
    | exact absurd hv id

theorem raw_row {b : List UInt8} (h : List.Forall₂ (Puts P) [.bytes b] row) : row = [.bytes b] := by
  obtain ⟨cell, rest, hv, hrest, rfl⟩ := List.forall₂_cons_left_iff.mp h
  obtain rfl := List.forall₂_nil_left_iff.mp hrest
  obtain rfl : cell = _ := hv
  rfl

theorem valid_behind (header bytes : List UInt8) :
    (⟨header ++ bytes, header.length, bytes.length⟩ : TypeScript.View).Valid ∧
    (⟨header ++ bytes, header.length, bytes.length⟩ : TypeScript.View).bytes = bytes := by
  refine ⟨?_, ?_⟩
  · change header.length + bytes.length ≤ (header ++ bytes).length
    rw [List.length_append]
  · change ((header ++ bytes).drop header.length).take bytes.length = bytes
    rw [List.drop_left, List.take_length]

theorem getRow_eq (lang : Server.Tasks.Lang) (hd : Declared types values) (h : List.Forall₂ (Puts P) values row)
    (hne : ∀ r index, P r index → index ≠ -1) (header : List UInt8) :
    getRow lang types header (encodeAll (row.map cellItem)) = some row := by
  have hpass := hd.passes h hne
  cases lang with
  | typeScript =>
    have hrow := TypeScript.getRow_eq hpass (valid_behind header _).1 (valid_behind header _).2
    exact hrow.trans (congrArg some (hd.map_heard h .typeScript))
  | python => exact Python.getRow_eq hpass

/-- The arguments are sent as their row. -/
theorem serArgs_eq {handles : List Handle} {args : List (Value Nat)} {P : Nat → BitVec 32 → Prop}
    (hd : Declared types args) (h : List.Forall₂ (Puts P) args row) (hne : ∀ r index, P r index → index ≠ -1)
    (hrow : args.map (Value.cell (indexAt handles)) = row) : serArgs types handles args = some (rowBytes types row) := by
  unfold serArgs
  split
  · rename_i hraw
    subst hraw
    obtain ⟨b, rfl⟩ := raw_eq hd.matching
    obtain rfl := raw_row h
    rfl
  · rename_i hraw
    rw [hrow, TypeScript.putRow_eq (hd.passes h hne), rowBytes_of_ne hraw]

section Server

variable {Obj Hook : Type} {pool : Pool.Managed.RefPool Obj Hook} {lang : Server.Tasks.Lang}

/-- The server reads the arguments with the objects that the indices stand for. -/
theorem readParameter_eq {Q : R → Obj → Prop} (hd : Declared types values) (h : List.Forall₂ (Puts P) values row)
    (hne : ∀ r index, P r index → index ≠ -1)
    (hat : ∀ r index, P r index → ∃ obj, objectOf lang pool index = some (.object obj) ∧ Q r obj)
    (header : List UInt8) : ∃ args, readParameter lang types header (rowBytes types row) pool = some args ∧
      List.Forall₂ (Value.Arrives Q) values args := by
  unfold readParameter
  split
  · rename_i hraw
    subst hraw
    obtain ⟨b, rfl⟩ := raw_eq hd.matching
    obtain rfl := raw_row h
    exact ⟨_, rfl, .cons (.bytes b) .nil⟩
  · rename_i hraw
    rw [rowBytes_of_ne hraw, getRow_eq lang hd h hne, Option.bind_some]
    exact mapM_ofCell hat h

end Server

/-! ### The response at the client -/

/-- The references in a row, with their places. -/
def refs (n : Nat) : Nat → Row (List UInt8) → List (BitVec 32 × (Nat × Nat))
  | _, [] => []
  | j, .object index :: row => (index, (n, j)) :: refs n (j + 1) row
  | j, _ :: row => refs n (j + 1) row

/-- The new objects of a row. -/
def newHandles (n j : Nat) (row : Row (List UInt8)) : List Handle :=
  (refs n j row).map fun e => ⟨some e.1, e.2⟩

theorem unserRet_eq (hd : Declared types values) (h : List.Forall₂ (Puts P) values row)
    (hne : ∀ r index, P r index → index ≠ -1) (header : List UInt8) :
    unserRet types header (rowBytes types row) = some row := by
  unfold unserRet
  split
  · rename_i hraw
    subst hraw
    obtain ⟨b, rfl⟩ := raw_eq hd.matching
    obtain rfl := raw_row h
    rfl
  · rename_i hraw
    rw [rowBytes_of_ne hraw]
    exact getRow_eq .typeScript hd h hne header

/-- The objects among values. -/
def objects (values : List (Value Nat)) : List Nat := values.filterMap fun v =>
  match v with
  | .object i => some i
  | _ => none

/-- Where there is no object, the value that is read is taken as it is. -/
theorem take_plain {v : Value R} {cell : Cell (List UInt8)} {Q : R → Nat → Prop}
    (hv : ∀ r, v ≠ .object r) (h : v.Puts P cell) (n j : Nat) (row : Row (List UInt8)) (handles : List Handle) :
    ∃ w, v.Arrives Q w ∧ (∀ ws, objects (w :: ws) = objects ws) ∧ refs n j (cell :: row) = refs n (j + 1) row ∧
      take n j (cell :: row) handles = (w :: (take n (j + 1) row handles).1, (take n (j + 1) row handles).2) := by
  cases v with
  | object r => exact absurd rfl (hv r)
  | _ =>
    obtain rfl := h
    exact ⟨_, by constructor, fun _ => rfl, rfl, rfl⟩

/-- The objects are numbered behind those that the client has; the one that is returned for an
object has its place. -/
theorem take_eq (n : Nat) (h : List.Forall₂ (Puts P) values row) :
    ∀ (j : Nat) (handles : List Handle), ∃ taken, take n j row handles = (taken, handles ++ newHandles n j row) ∧
      objects taken = List.range' handles.length (refs n j row).length ∧
      List.Forall₂ (Value.Arrives fun r i => handles.length ≤ i ∧ ∃ h' k, (handles ++ newHandles n j row)[i]? = some h' ∧
        h'.origin = (n, j + k) ∧ values[k]? = some (.object r)) values taken := by
  induction h with
  | nil =>
    intro j handles
    exact ⟨[], by simp [take, newHandles, refs], rfl, .nil⟩
  | @cons v cell values row hv _ ih =>
    intro j handles
    have hbehind : ∀ {handles' : List Handle} {l : List Handle} {r : R} {i : Nat}, handles.length ≤ handles'.length →
        handles' ++ newHandles n (j + 1) row = handles ++ l →
        (handles'.length ≤ i ∧ ∃ h' k, (handles' ++ newHandles n (j + 1) row)[i]? = some h' ∧
          h'.origin = (n, j + 1 + k) ∧ values[k]? = some (.object r)) →
        handles.length ≤ i ∧ ∃ h' k, (handles ++ l)[i]? = some h' ∧ h'.origin = (n, j + k) ∧
          (v :: values)[k]? = some (.object r) := by
      rintro handles' l r i hle hl ⟨hlen, h', k, hi, ho, hk⟩
      exact ⟨hle.trans hlen, h', k + 1, hl ▸ hi, by rw [ho, Nat.add_assoc, Nat.add_comm 1 k], hk⟩
    by_cases hobj : ∃ r, v = .object r
    · obtain ⟨r, rfl⟩ := hobj
      obtain ⟨index, rfl, -⟩ := hv
      obtain ⟨taken, htake, hobjects, hrest⟩ := ih (j + 1) (handles ++ [⟨some index, (n, j)⟩])
      have hnew : handles ++ [⟨some index, (n, j)⟩] ++ newHandles n (j + 1) row =
          handles ++ newHandles n j (.object index :: row) := by
        rw [List.append_assoc]
        rfl
      refine ⟨.object handles.length :: taken, ?_, ?_, .cons (.object ⟨le_rfl, ?_⟩) ?_⟩
      · rw [← hnew]
        simp only [take, htake]
      · rw [List.length_append] at hobjects
        exact congrArg (handles.length :: ·) hobjects
      · exact ⟨⟨some index, (n, j)⟩, 0, by simp [newHandles, refs], rfl, rfl⟩
      · refine hrest.imp fun _ _ harr => harr.mono fun r' i hi => hbehind ?_ hnew hi
        simp
    · obtain ⟨w, harr, hplain, hrefs, htake₁⟩ := take_plain (Q := fun r i => handles.length ≤ i ∧ ∃ h' k,
        (handles ++ newHandles n j (cell :: row))[i]? = some h' ∧ h'.origin = (n, j + k) ∧
          (v :: values)[k]? = some (.object r)) (fun r he => hobj ⟨r, he⟩) hv n j row handles
      obtain ⟨taken, htake, hobjects, hrest⟩ := ih (j + 1) handles
      have hnew : newHandles n j (cell :: row) = newHandles n (j + 1) row := by
        rw [newHandles, hrefs, newHandles]
      refine ⟨w :: taken, ?_, ?_, .cons harr ?_⟩
      · rw [htake₁, htake, hnew]
      · rw [hplain, hrefs, hobjects]
      · exact hrest.imp fun _ _ harr => harr.mono fun r' i hi => hbehind le_rfl (by rw [hnew]) hi

end PxpRpc.Session
