import PxpRpc.Pool.Managed
import PxpRpc.Session.Rows

/-!
# References of the server

The references that are held, and where the objects of results are put.
-/
namespace PxpRpc.Session

open PxpRpc.Lib PxpRpc.Codec
open PxpRpc.Codec.Java (Cell Row ValueType)
open PxpRpc.Codec.Wire (Writer encodeAll cellItem)
open PxpRpc.Pool
open PxpRpc.Pool.Managed (RefPool Sound)
open PxpRpc.Server.Tasks (Lang)

variable {Obj Hook : Type} {lang : Lang} {pool : RefPool Obj Hook}

/-- An expansion creates one entry more than this. -/
def last : Lang → Nat
  | .typeScript => 255
  | .python => 256

theorem expandRefPools_eq (lang : Lang) :
    (Server.Tasks.expandRefPools lang : RefPool Obj Hook → RefPool Obj Hook) = Managed.expandRefPools (last lang) 255 := by
  cases lang <;> rfl

theorem linked_le (lang : Lang) : 255 ≤ last lang := by cases lang <;> decide

/-- Besides the free entries of the pool, and those that Python leaves out, these are in use. -/
def Holds (lang : Lang) (pool : RefPool Obj Hook) (held : Multiset Nat) : Prop :=
  ∃ live : List Nat, (live : Multiset Nat) = held ∧ Sound (last lang) 255 pool live

def objectAt (pool : RefPool Obj Hook) (i : Nat) : Option Obj := pool.refPool[i]?.bind fun ref => ref.object

namespace Holds

variable {held : Multiset Nat}

theorem empty : Holds lang (RefPool.empty : RefPool Obj Hook) 0 := ⟨[], rfl, Managed.sound_empty⟩

theorem lt (h : Holds lang pool held) {i : Nat} (hi : i ∈ held) : i < pool.refPool.length := by
  obtain ⟨live, rfl, hs⟩ := h
  exact hs.live_lt (Multiset.mem_coe.mp hi)

theorem nodup (h : Holds lang pool held) : held.Nodup := by
  obtain ⟨live, rfl, hs⟩ := h
  exact Multiset.coe_nodup.mpr hs.nodup

/-- The references in use do not depend on their order. -/
theorem sound (h : Holds lang pool held) {live : List Nat} (hl : (live : Multiset Nat) = held) :
    Sound (last lang) 255 pool live := by
  obtain ⟨live', he, hs⟩ := h
  have hperm : live'.Perm live := Multiset.coe_eq_coe.mp (he.trans hl.symm)
  obtain ⟨free, lost, hf, hp, hlost⟩ := hs.partition
  exact ⟨⟨free, lost, hf, ((hperm.symm.append_right lost).append_left free).trans hp, hlost⟩, hs.indexed⟩

end Holds

theorem objectAt_of_contents {pool' : RefPool Obj Hook} {i : Nat} (h : pool'.contents i = pool.contents i) :
    objectAt pool' i = objectAt pool i := by
  have := congrArg (fun c => c.bind Prod.fst) h
  simpa [RefPool.contents, objectAt, Option.bind_map, Function.comp_def] using this

theorem length_allocRef {pool' : RefPool Obj Hook} {i : Nat}
    (h : Managed.allocRef (Server.Tasks.expandRefPools lang) pool = some (pool', i)) :
    pool'.refPool.length ≤ pool.refPool.length + 257 := by
  obtain ⟨i', -, h⟩ := Option.bind_eq_some_iff.mp h
  obtain ⟨ref, -, h⟩ := Option.map_eq_some_iff.mp h
  obtain ⟨rfl, -⟩ := Prod.mk.inj h
  have hexp := @Managed.length_expandRefPools Obj Hook (last lang) 255 pool
  have hlast : last lang + 1 ≤ 257 := by cases lang <;> decide
  cases hf : pool.freeRefEntry with
  | none =>
    change (Server.Tasks.expandRefPools lang pool).refPool.length ≤ _
    rw [expandRefPools_eq, hexp]
    omega
  | some j => exact Nat.le_add_right _ _

/-- An object has got a reference that was not in use; nothing has become of the others. -/
structure Adds (lang : Lang) (pool pool' : RefPool Obj Hook) (held : Multiset Nat) (obj : Obj) (i : Nat) : Prop where
  holds : Holds lang pool' (i ::ₘ held)
  object : objectAt pool' i = some obj
  keeps : ∀ j ∈ held, objectAt pool' j = objectAt pool j
  length : pool'.refPool.length ≤ pool.refPool.length + 257

theorem allocRef_adds {held : Multiset Nat} (h : Holds lang pool held) (obj : Obj) : ∃ pool₁ i ref,
    Managed.allocRef (Server.Tasks.expandRefPools lang) pool = some (pool₁, i) ∧ pool₁.refPool[i]? = some ref ∧
    ∀ onFree, Adds lang pool { pool₁ with refPool := pool₁.refPool.set i { ref with object := some obj, onFree } }
      held obj i := by
  obtain ⟨live, rfl, hs⟩ := h
  obtain ⟨pool₁, i, halloc, hi, hs₁, hkeep⟩ := Managed.allocRef_sound hs (linked_le lang)
  rw [← expandRefPools_eq] at halloc
  obtain ⟨ref, hget⟩ : ∃ ref, pool₁.refPool[i]? = some ref :=
    ⟨_, List.getElem?_eq_getElem (hs₁.live_lt List.mem_cons_self)⟩
  have hset (onFree : Option Hook) : Managed.setRef i (some obj) onFree pool₁ =
      some { pool₁ with refPool := pool₁.refPool.set i { ref with object := some obj, onFree } } := by
    rw [Managed.setRef, hget, Option.map_some]
  refine ⟨pool₁, i, ref, halloc, hget, fun onFree =>
    ⟨⟨i :: live, rfl, Managed.setRef_sound hs₁ (hset onFree)⟩, ?_, fun j hj => ?_, ?_⟩⟩
  · simp [objectAt, (List.getElem?_eq_some_iff.mp hget).1]
  · have hne : i ≠ j := fun he => hi (he ▸ Multiset.mem_coe.mp hj)
    refine Eq.trans ?_ (objectAt_of_contents (hkeep j (Multiset.mem_coe.mp hj)))
    simp [objectAt, hne]
  · rw [List.length_set]
    exact length_allocRef halloc

theorem allocRefFor_eq {held : Multiset Nat} (h : Holds lang pool held) (onFree : Obj → Option Hook) (obj : Obj) :
    ∃ pool' i, allocRefFor lang onFree obj pool = some (pool', i) ∧ Adds lang pool pool' held obj i := by
  obtain ⟨pool₁, i, ref, halloc, hget, hadds⟩ := allocRef_adds h obj
  refine ⟨_, i, ?_, hadds (onFree obj)⟩
  rw [allocRefFor, halloc, Option.bind_some]
  simp only [Managed.setRef, hget, Option.map_some]

/-- The object that `getFunc` finds gets a reference; its `onFree` stays what it was. -/
theorem getFunc_eq {Callable : Type} {app : Server.Tasks.Application Obj Callable} {held : Multiset Nat}
    (h : Holds lang pool held) {r : Server.Tasks.PxpRequest} {obj : Obj} (hf : app.funcMap r.parameter = some (some obj)) :
    ∃ pool' i, Server.Tasks.getFunc lang app pool r = some (pool', { r with result := leBytes 4 i }) ∧
      Adds lang pool pool' held obj i := by
  obtain ⟨pool₁, i, ref, halloc, hget, hadds⟩ := allocRef_adds h obj
  refine ⟨_, i, ?_, hadds ref.onFree⟩
  simp only [Server.Tasks.getFunc, hf, Option.bind_some, halloc, Option.map_some, Server.Tasks.setObject]
  rw [List.modify_eq_set_getElem?, hget]
  rfl

/-- A reference that is freed is not in use any more. -/
theorem freeRef_eq {held : Multiset Nat} (h : Holds lang pool held) {i : Nat} (hi : i ∈ held) :
    ∃ pool' hook, Managed.freeRef i pool = some (pool', hook) ∧ Holds lang pool' (held.erase i) ∧
      ∀ j, j ≠ i → objectAt pool' j = objectAt pool j := by
  obtain ⟨live, rfl, hs⟩ := h
  obtain ⟨pool', hook, hfree, -, hs'⟩ := Managed.freeRef_sound hs (Multiset.mem_coe.mp hi)
  refine ⟨pool', hook, hfree, ⟨live.erase i, (Multiset.coe_erase live i).symm, hs'⟩, fun j hj => ?_⟩
  obtain ⟨ref, -, h⟩ := Option.map_eq_some_iff.mp hfree
  obtain ⟨rfl, -⟩ := Prod.mk.inj h
  simp [objectAt, Ne.symm hj]

/-! ### Results -/

/-- The indices in a row. -/
def indices (row : Row (List UInt8)) : Multiset Nat := ((refs 0 0 row).map fun e => e.1.toNat : List Nat)

theorem map_refs (n j : Nat) (row : Row (List UInt8)) : ((refs n j row).map fun e => e.1.toNat : List Nat) = indices row := by
  unfold indices
  have hfst : ∀ (n j n' j' : Nat) (row : Row (List UInt8)),
      (refs n j row).map (fun e => e.1.toNat) = (refs n' j' row).map fun e => e.1.toNat := by
    intro n j n' j' row
    induction row generalizing j j' with
    | nil => rfl
    | cons cell row ih =>
      cases cell with
      | object index => exact congrArg (index.toNat :: ·) (ih (j + 1) (j' + 1))
      | _ => exact ih (j + 1) (j' + 1)
  rw [hfst n j 0 0 row]

theorem indices_object (index : BitVec 32) (row : Row (List UInt8)) :
    indices (.object index :: row) = index.toNat ::ₘ indices row := by
  rw [← map_refs 0 1 row]
  rfl

/-- An index of the pool under which the object is. -/
def Stores (pool : RefPool Obj Hook) (obj : Obj) (index : BitVec 32) : Prop :=
  index.toNat < 2 ^ 31 ∧ objectAt pool index.toNat = some obj

theorem Stores.ne {obj : Obj} {index : BitVec 32} (h : Stores pool obj index) : index ≠ -1 := by
  rintro rfl
  exact absurd h.1 (by decide)

theorem Stores.toInt {obj : Obj} {index : BitVec 32} (h : Stores pool obj index) : index.toInt = index.toNat :=
  BitVec.toInt_eq_toNat_of_lt (by have := h.1; omega)

theorem Stores.objectOf {obj : Obj} {index : BitVec 32} (h : Stores pool obj index) :
    objectOf lang pool index = some (.object obj) := by
  obtain ⟨ref, hget, hobj⟩ := Option.bind_eq_some_iff.mp h.2
  have hlt := (List.getElem?_eq_some_iff.mp hget).1
  have href : Server.Tasks.getRef lang index.toInt pool = some index.toNat := by
    rw [h.toInt, Server.Tasks.getRef.eq_def, if_pos (Int.natCast_nonneg _), Int.toNat_natCast, if_pos hlt]
  rw [Session.objectOf, href, Option.bind_some, hget, Option.map_some, hobj]

theorem allocCell_plain {alloc : Obj → RefPool Obj Hook → Option (RefPool Obj Hook × Nat)} {v : Value Obj}
    (hv : ∀ obj, v ≠ .object obj) :
    allocCell alloc pool v = some (pool, v.cell fun _ => 0) ∧ (∀ P, v.Puts P (v.cell fun _ => 0)) ∧
    ∀ row, indices (v.cell (fun _ => 0) :: row) = indices row := by
  cases v with
  | object obj => exact absurd rfl (hv obj)
  | _ => exact ⟨rfl, fun _ => rfl, fun row => by rw [← map_refs 0 1 row]; rfl⟩

/-- The results are put as a row in which every object has a reference of its own. -/
theorem putResults_eq {S : Type} (W : Writer S) (onFree : Obj → Option Hook) : ∀ {types : List ValueType}
    {results : List (Value Obj)} {pool : RefPool Obj Hook} {held : Multiset Nat}, Holds lang pool held →
    List.Forall₂ Value.Matches types results → pool.refPool.length + 257 * results.length ≤ 2 ^ 31 →
    ∃ pool' row, Holds lang pool' (indices row + held) ∧ (∀ j ∈ held, objectAt pool' j = objectAt pool j) ∧
      List.Forall₂ (Value.Puts (Stores pool')) results row ∧
      ∀ ser ser' : S, W.putAll (row.map cellItem) ser = some ser' →
        putResults W (allocRefFor lang onFree) types results ser pool = (pool', some (ser', row)) := by
  intro types results pool held h hm hroom
  induction hm generalizing pool held with
  | nil =>
    refine ⟨pool, [], by simpa [indices, refs] using h, fun _ _ => rfl, .nil, fun ser ser' hput => ?_⟩
    obtain rfl := Option.some.inj hput
    rfl
  | @cons type v types results hv _ ih =>
    rw [List.length_cons] at hroom
    by_cases hobj : ∃ obj, v = .object obj
    · obtain ⟨obj, rfl⟩ := hobj
      obtain ⟨pool₁, i, halloc, h₁, hi, hkeep₁, hlen⟩ := allocRefFor_eq h onFree obj
      have hlt := h₁.lt (Multiset.mem_cons_self i held)
      obtain ⟨pool', row, h', hkeep, hrow, hput⟩ := ih h₁ (by omega)
      have hnat : (BitVec.ofNat 32 i).toNat = i := by
        rw [BitVec.toNat_ofNat]
        omega
      have hstore : Stores pool' obj (BitVec.ofNat 32 i) := by
        refine ⟨by rw [hnat]; omega, ?_⟩
        rw [hnat, hkeep i (Multiset.mem_cons_self i held), hi]
      refine ⟨pool', .object (BitVec.ofNat 32 i) :: row, ?_, fun j hj => ?_, .cons ⟨_, rfl, hstore⟩ hrow,
        fun ser ser' hall => ?_⟩
      · rw [indices_object, hnat, Multiset.cons_add, ← Multiset.add_cons]
        exact h'
      · rw [hkeep j (Multiset.mem_cons_of_mem hj), hkeep₁ j hj]
      · rw [List.map_cons, Writer.putAll] at hall
        obtain ⟨ser₁, hcell, hall⟩ := Option.bind_eq_some_iff.mp hall
        have hmatch : Cell.Matches type (.object (BitVec.ofNat 32 i) : Cell (List UInt8)) := by
          cases type <;> exact hv
        rw [← Writer.putCell_eq hmatch] at hcell
        simp only [putResults, allocCell, halloc, Option.map_some, hcell, hput ser₁ ser' hall]
    · obtain ⟨hcell, hputs, hidx⟩ :=
        @allocCell_plain _ _ pool (allocRefFor lang onFree) v fun obj he => hobj ⟨obj, he⟩
      obtain ⟨pool', row, h', hkeep, hrow, hput⟩ := ih h (by omega)
      refine ⟨pool', v.cell (fun _ => 0) :: row, by rw [hidx]; exact h', hkeep, .cons (hputs _) hrow,
        fun ser ser' hall => ?_⟩
      rw [List.map_cons, Writer.putAll] at hall
      obtain ⟨ser₁, hc, hall⟩ := Option.bind_eq_some_iff.mp hall
      rw [← Writer.putCell_eq hv] at hc
      simp only [putResults, hcell, hc, hput ser₁ ser' hall]

theorem writeResult_eq {types : List ValueType} {results : List (Value Obj)} {held : Multiset Nat}
    (h : Holds lang pool held) (onFree : Obj → Option Hook) (hd : Declared types results)
    (hroom : pool.refPool.length + 257 * results.length ≤ 2 ^ 31) :
    ∃ pool' row, writeResult lang onFree types results pool = (pool', some (rowBytes types row, row)) ∧
      Holds lang pool' (indices row + held) ∧ (∀ j ∈ held, objectAt pool' j = objectAt pool j) ∧
      List.Forall₂ (Value.Puts (Stores pool')) results row := by
  unfold writeResult
  split
  · rename_i hraw
    subst hraw
    obtain ⟨b, rfl⟩ := raw_eq hd.matching
    refine ⟨pool, [.bytes b], rfl, ?_, fun _ _ => rfl, .cons rfl .nil⟩
    simpa [indices, refs] using h
  · rename_i hraw
    cases lang with
    | typeScript =>
      obtain ⟨pool', row, h', hkeep, hrow, hput⟩ :=
        putResults_eq TypeScript.Serializer.writer onFree h hd.matching hroom
      have hpass := hd.passes hrow fun _ _ hs => hs.ne
      have hrows := TypeScript.putRow_eq hpass 8
      rw [TypeScript.putRow, hpass.putRowsData] at hrows
      obtain ⟨buf, hb, hbytes⟩ := Option.map_eq_some_iff.mp hrows
      obtain ⟨ser', hall, hbuild⟩ := Option.bind_eq_some_iff.mp hb
      refine ⟨pool', row, ?_, h', hkeep, hrow⟩
      simp only [hput _ ser' hall, Option.bind_some, hbuild, Option.map_some, hbytes, rowBytes_of_ne hraw]
    | python =>
      obtain ⟨pool', row, h', hkeep, hrow, hput⟩ := putResults_eq Python.Serializer.writer onFree h hd.matching hroom
      have hpass := hd.passes hrow fun _ _ hs => hs.ne
      have hrows := Python.putRow_eq hpass
      rw [Python.putRow, hpass.putRowsData] at hrows
      obtain ⟨ser', hall, hbytes⟩ := Option.map_eq_some_iff.mp hrows
      refine ⟨pool', row, ?_, h', hkeep, hrow⟩
      simp only [hput _ ser' hall, Option.map_some, hbytes, rowBytes_of_ne hraw]

end PxpRpc.Session
