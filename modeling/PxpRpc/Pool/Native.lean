import PxpRpc.Lib.Allocator
import PxpRpc.Pool.Entry

/-!
# The reference pool of the C server

A `pxprpc_ref *` is a block and an index into it: `realloc` ends the life of the
old block, and a pointer into it no longer denotes anything. An unexpanded pool
(`ref_pool == NULL`) has no entries. `ref_pool_size` is sixteen bits wide.
-/
namespace PxpRpc.Pool.Native

open PxpRpc.Lib

structure Ptr where
  block : Nat
  index : Nat
deriving DecidableEq, Repr

/-- The pool fields of `pxprpc_server_context_exports`. -/
structure RefPool (Obj Hook : Type) where
  block : Nat
  refPool : List (PxpRef Obj Hook Ptr)
  refPoolSize : BitVec 16
  freeRefEntry : Option Ptr
deriving DecidableEq, Repr

def refPoolExpandCount : Nat := 64

variable {Obj Hook : Type}

namespace RefPool

def empty : RefPool Obj Hook := ⟨0, [], 0, none⟩

/-- `*p` -/
def deref (pool : RefPool Obj Hook) (p : Ptr) : Option (PxpRef Obj Hook Ptr) :=
  if p.block = pool.block then pool.refPool[p.index]? else none

/-- `*p = ref` -/
def store (pool : RefPool Obj Hook) (p : Ptr) (ref : PxpRef Obj Hook Ptr) :
    Option (RefPool Obj Hook) :=
  (pool.deref p).map fun _ => { pool with refPool := pool.refPool.set p.index ref }

/-- `p->nextFree` -/
def next (pool : RefPool Obj Hook) (p : Ptr) : Option Ptr :=
  (pool.deref p).bind PxpRef.nextFree

/-- The indices on the free list, in the order they will be handed out. -/
def FreeList (pool : RefPool Obj Hook) (free : List Nat) : Prop :=
  Threads pool.next pool.freeRefEntry (free.map (Ptr.mk pool.block))

/-- What an entry refers to, as its owner set it. -/
def contents (pool : RefPool Obj Hook) (i : Nat) : Option (Option Obj × Option Hook) :=
  pool.refPool[i]?.map fun ref => (ref.object, ref.onFree)

end RefPool

/-- `_pxprpc__ExpandRefPool`. The entries that `realloc` adds are not
initialised; the loops write every field of them. -/
def expandRefPool (pool : RefPool Obj Hook) : RefPool Obj Hook :=
  let start := pool.refPoolSize.toNat
  let last := start + refPoolExpandCount - 1
  let block := pool.block + 1
  let refs := pool.refPool.take (last + 1) ++
    List.replicate (last + 1 - pool.refPool.length) ⟨none, none, none⟩
  let refs := modifyRange refs start (last - start) fun i ref =>
    { ref with nextFree := some ⟨block, i + 1⟩ }
  let refs := refs.modify last fun ref => { ref with nextFree := none }
  let refs := modifyRange refs start (last + 1 - start) fun _ ref =>
    { ref with onFree := none, object := none }
  let refs := refs.modify last fun ref => { ref with nextFree := pool.freeRefEntry }
  { block, refPool := refs, refPoolSize := BitVec.ofNat 16 (last + 1),
    freeRefEntry := some ⟨block, start⟩ }

/-- `pxprpc_server_alloc_ref`: the entry and, through `*index`, its position. -/
def serverAllocRef (pool : RefPool Obj Hook) : Option (RefPool Obj Hook × Ptr × Nat) :=
  let pool := match pool.freeRefEntry with
    | none => expandRefPool pool
    | some _ => pool
  pool.freeRefEntry.bind fun freeref =>
    (pool.deref freeref).map fun ref =>
      ({ pool with freeRefEntry := ref.nextFree }, freeref, freeref.index)

/-- The part of `pxprpc_server_free_ref` after the call of `on_free`. -/
def pushRef (ref2 : Ptr) (pool : RefPool Obj Hook) : Option (RefPool Obj Hook) :=
  (pool.store ref2 ⟨none, none, pool.freeRefEntry⟩).map fun pool =>
    { pool with freeRefEntry := some ref2 }

/-- `pxprpc_server_get_ref` -/
def serverGetRef (pool : RefPool Obj Hook) (index : Nat) : Ptr := ⟨pool.block, index⟩

/-- `pxprpc_server_free_ref`, with an `on_free` that leaves the pool alone; the
second component is the callback it ran. -/
def serverFreeRef (ref2 : Ptr) (pool : RefPool Obj Hook) :
    Option (RefPool Obj Hook × Option Hook) :=
  (pool.deref ref2).bind fun ref => (pushRef ref2 pool).map fun pool => (pool, ref.onFree)

/-- The owner of an entry sets its object and its callback. -/
def setRef (pool : RefPool Obj Hook) (ref : Ptr) (object : Option Obj) (onFree : Option Hook) :
    Option (RefPool Obj Hook) :=
  (pool.deref ref).bind fun r => pool.store ref { r with object, onFree }

/-! ### Expansion -/

section Expand

variable {pool : RefPool Obj Hook}

theorem length_expandRefPool :
    (expandRefPool pool).refPool.length = pool.refPoolSize.toNat + 64 := by
  simp [expandRefPool, refPoolExpandCount]
  omega

/-- Every entry of the expanded pool: the old ones, then the new block. -/
theorem getElem?_expandRefPool {j : Nat} (hs : pool.refPoolSize.toNat ≤ pool.refPool.length)
    (hj : j < pool.refPoolSize.toNat + 64) :
    (expandRefPool pool).refPool[j]? =
      if j < pool.refPoolSize.toNat then pool.refPool[j]?
      else some ⟨none, none, if j = pool.refPoolSize.toNat + 63 then pool.freeRefEntry
        else some ⟨pool.block + 1, j + 1⟩⟩ := by
  set start := pool.refPoolSize.toNat with hstart
  -- the block handed out by `realloc`, before the loops
  set refs : List (PxpRef Obj Hook Ptr) := pool.refPool.take (start + 64) ++
    List.replicate (start + 64 - pool.refPool.length) ⟨none, none, none⟩ with hrefs
  have hlen : refs.length = start + 64 := by
    simp [hrefs]
    omega
  obtain ⟨ref, href⟩ : ∃ ref, refs[j]? = some ref := ⟨refs[j], List.getElem?_eq_getElem (by omega)⟩
  have hold : j < start → pool.refPool[j]? = some ref := by
    intro hlt
    rw [← href, hrefs, List.getElem?_append_left (by simp; omega), List.getElem?_take_of_lt (by omega)]
  simp only [expandRefPool, refPoolExpandCount, ← hstart, Nat.add_sub_cancel_left,
    show start + 64 - 1 = start + 63 from rfl, show start + 63 + 1 = start + 64 from rfl, ← hrefs]
  rw [List.getElem?_modify, getElem?_modifyRange, List.getElem?_modify, getElem?_modifyRange, href]
  by_cases hlt : j < start
  · simp [hlt, hold hlt, show ¬ start ≤ j from by omega, show start + 63 ≠ j from by omega]
  · by_cases he : j = start + 63
    · subst he
      simp
    · simp [hlt, he, hj, show start ≤ j from by omega, show start + 63 ≠ j from by omega,
        show j < start + 63 from by omega]

end Expand

end PxpRpc.Pool.Native
