import PxpRpc.Lib.Allocator
import PxpRpc.Lib.Bytes
import PxpRpc.Pool.Entry

/-!
# The reference pools of the TypeScript, Java and Python servers

The three pools are one algorithm over an array of entries; they differ in how
many entries an expansion creates and in how many of them it links.
-/
namespace PxpRpc.Pool.Managed

open PxpRpc.Lib

/-- `PxpRef`; its links are positions in the pool. -/
structure IndexedRef (Obj Hook : Type) extends PxpRef Obj Hook Nat where
  index : Nat
deriving DecidableEq, Repr

structure RefPool (Obj Hook : Type) where
  refPool : List (IndexedRef Obj Hook)
  freeRefEntry : Option Nat
deriving DecidableEq, Repr

variable {Obj Hook : Type}

namespace RefPool

def empty : RefPool Obj Hook := ⟨[], none⟩

def next (pool : RefPool Obj Hook) (i : Nat) : Option Nat := pool.refPool[i]?.bind fun ref => ref.nextFree

/-- The indices on the free list, in the order they will be handed out. -/
def FreeList (pool : RefPool Obj Hook) (free : List Nat) : Prop :=
  Threads pool.next pool.freeRefEntry free

def contents (pool : RefPool Obj Hook) (i : Nat) : Option (Option Obj × Option Hook) :=
  pool.refPool[i]?.map fun ref => (ref.object, ref.onFree)

end RefPool

def newRef (i : Nat) : IndexedRef Obj Hook := ⟨⟨none, none, none⟩, i⟩

/-- Create the entries `start .. start + last`, link the first `linked` of them
to their successors, and put the block in front of the free list. -/
def expandRefPools (last linked : Nat) (pool : RefPool Obj Hook) : RefPool Obj Hook :=
  let start := pool.refPool.length
  let refs := pool.refPool ++ (List.range' start (last + 1)).map newRef
  let refs := modifyRange refs start linked fun i ref => { ref with nextFree := some (i + 1) }
  let refs := refs.modify (start + last) fun ref => { ref with nextFree := pool.freeRefEntry }
  { refPool := refs, freeRefEntry := some start }

def allocRef (expand : RefPool Obj Hook → RefPool Obj Hook) (pool : RefPool Obj Hook) :
    Option (RefPool Obj Hook × Nat) :=
  let pool := match pool.freeRefEntry with
    | none => expand pool
    | some _ => pool
  pool.freeRefEntry.bind fun i =>
    pool.refPool[i]?.map fun ref2 => ({ pool with freeRefEntry := ref2.nextFree }, i)

/-- `freeRef`, with an `onFree` that leaves the pool alone; the second component
is the callback it ran. An index without an entry raises. -/
def freeRef (i : Nat) (pool : RefPool Obj Hook) : Option (RefPool Obj Hook × Option Hook) :=
  pool.refPool[i]?.map fun ref =>
    ({ refPool := pool.refPool.set i
        { ref with object := none, onFree := none, nextFree := pool.freeRefEntry }
       freeRefEntry := some i }, ref.onFree)

/-- The owner of an entry sets its object and its callback. -/
def setRef (i : Nat) (object : Option Obj) (onFree : Option Hook) (pool : RefPool Obj Hook) :
    Option (RefPool Obj Hook) :=
  pool.refPool[i]?.map fun ref =>
    { pool with refPool := pool.refPool.set i { ref with object, onFree } }

def refPoolExpandCount : Nat := 256

namespace TypeScript

/-- `Server.expandRefPools` -/
def expandRefPools : RefPool Obj Hook → RefPool Obj Hook :=
  Managed.expandRefPools (refPoolExpandCount - 1) (refPoolExpandCount - 1)

end TypeScript

namespace Java

/-- `ServerContext.expandRefPools` -/
def expandRefPools : RefPool Obj Hook → RefPool Obj Hook :=
  Managed.expandRefPools (refPoolExpandCount - 1) (refPoolExpandCount - 1)

end Java

namespace Python

/-- `ServerContext.expandRefPools`: `end` is one past the block that is linked. -/
def expandRefPools : RefPool Obj Hook → RefPool Obj Hook :=
  Managed.expandRefPools refPoolExpandCount (refPoolExpandCount - 1)

end Python

/-! ### Allocated, free and unreachable entries -/

/-- The entries are divided between the free list, the live references and
entries that no list reaches, `last - linked` of them in each block. -/
structure Sound (last linked : Nat) (pool : RefPool Obj Hook) (live : List Nat) : Prop where
  partition : ∃ free lost, pool.FreeList free ∧
    (free ++ (live ++ lost)).Perm (List.range pool.refPool.length) ∧
    lost.length * (last + 1) = (last - linked) * pool.refPool.length
  indexed : ∀ i (ref : IndexedRef Obj Hook), pool.refPool[i]? = some ref → ref.index = i

variable {last linked : Nat} {pool : RefPool Obj Hook} {live : List Nat}

theorem sound_empty : Sound last linked (RefPool.empty : RefPool Obj Hook) [] where
  partition := ⟨[], [], by simp [RefPool.FreeList, RefPool.empty], by simp [RefPool.empty],
    by simp [RefPool.empty]⟩
  indexed := by simp [RefPool.empty]

namespace Sound

theorem live_lt (h : Sound last linked pool live) {i : Nat} (hi : i ∈ live) :
    i < pool.refPool.length := by
  obtain ⟨free, lost, -, hp, -⟩ := h.partition
  exact List.mem_range.mp (hp.subset (by simp [hi]))

theorem nodup (h : Sound last linked pool live) : live.Nodup := by
  obtain ⟨free, lost, -, hp, -⟩ := h.partition
  have hnd := hp.nodup_iff.mpr List.nodup_range
  exact (List.Nodup.of_append_right hnd).of_append_left

end Sound

/-! ### Allocation -/

theorem allocRef_pop {expand : RefPool Obj Hook → RefPool Obj Hook} {i : Nat} {free : List Nat}
    (hf : pool.FreeList (i :: free)) (hi : i < pool.refPool.length) :
    ∃ pool', allocRef expand pool = some (pool', i) ∧ pool'.FreeList free ∧
      pool'.refPool = pool.refPool := by
  obtain ⟨hh, ht⟩ := Threads.cons_iff.mp hf
  refine ⟨{ pool with freeRefEntry := pool.refPool[i].nextFree }, ?_, ?_, rfl⟩
  · simp [allocRef, hh, hi]
  · have hn : pool.next i = pool.refPool[i].nextFree := by simp [RefPool.next, hi]
    rw [hn] at ht
    exact ht

theorem length_expandRefPools :
    (expandRefPools last linked pool).refPool.length = pool.refPool.length + (last + 1) := by
  simp [expandRefPools]

/-- Every entry of the expanded pool: the old ones, then the new block. -/
theorem getElem?_expandRefPools {j : Nat} (hl : linked ≤ last)
    (hj : j < pool.refPool.length + (last + 1)) :
    (expandRefPools last linked pool).refPool[j]? =
      if j < pool.refPool.length then pool.refPool[j]?
      else some ⟨⟨none, none, if j = pool.refPool.length + last then pool.freeRefEntry
        else if j < pool.refPool.length + linked then some (j + 1) else none⟩, j⟩ := by
  set start := pool.refPool.length with hstart
  simp only [expandRefPools, ← hstart]
  rw [List.getElem?_modify, getElem?_modifyRange]
  by_cases hlt : j < start
  · rw [List.getElem?_append_left (by omega), if_neg (by omega), if_pos hlt]
    simp [show ¬ start + last = j from by omega]
  · have hnew : (pool.refPool ++ (List.range' start (last + 1)).map newRef)[j]? = some (newRef j) := by
      rw [List.getElem?_append_right (by omega), ← hstart, List.getElem?_map,
        List.getElem?_range' (by omega)]
      simp [show start + (j - start) = j from by omega]
    rw [hnew, if_neg hlt]
    by_cases he : start + last = j
    · subst he
      by_cases hk : last < linked
      · omega
      · simp [newRef, hk]
    · by_cases hk : j < start + linked
      · simp [newRef, he, Ne.symm he, hk, show start ≤ j from by omega]
      · simp [newRef, he, Ne.symm he, hk]

theorem freeList_expandRefPools (hl : linked ≤ last) (hf : pool.freeRefEntry = none) :
    (expandRefPools last linked pool).FreeList (List.range' pool.refPool.length (linked + 1)) := by
  have hget : ∀ {j : Nat}, pool.refPool.length ≤ j → j < pool.refPool.length + (last + 1) →
      (expandRefPools last linked pool).next j =
        if j < pool.refPool.length + linked ∧ j ≠ pool.refPool.length + last then some (j + 1)
        else none := by
    intro j hj hj'
    rw [RefPool.next, getElem?_expandRefPools hl hj', if_neg (by omega), hf]
    by_cases he : j = pool.refPool.length + last <;> simp [he]
  have hlast : Threads (expandRefPools last linked pool).next
      ((expandRefPools last linked pool).next (pool.refPool.length + (linked + 1) - 1)) [] := by
    rw [hget (by omega) (by omega), if_neg (by omega)]
    exact Threads.nil_iff.mpr rfl
  have hb := Threads.block id (by omega)
    (fun i hi hi' => by
      rw [id, hget hi (by omega), if_pos (by omega)]
      rfl) hlast
  rw [List.append_nil, List.map_id] at hb
  exact hb

private theorem perm_expand {n : Nat} {live lost : List Nat} (hl : linked ≤ last)
    (hp : (live ++ lost).Perm (List.range n)) :
    (List.range' n (linked + 1) ++
      (live ++ (List.range' (n + (linked + 1)) (last - linked) ++ lost))).Perm
      (List.range (n + (last + 1))) := by
  have hr : List.range (n + (last + 1)) =
      List.range n ++ (List.range' n (linked + 1) ++ List.range' (n + (linked + 1)) (last - linked)) := by
    rw [List.range'_append_1, show linked + 1 + (last - linked) = last + 1 from by omega]
    simp only [List.range_eq_range', ← List.range'_append_1, Nat.zero_add]
  rw [hr]
  have hmid : (live ++ (List.range' (n + (linked + 1)) (last - linked) ++ lost)).Perm
      (List.range' (n + (linked + 1)) (last - linked) ++ (live ++ lost)) := by
    rw [← List.append_assoc, ← List.append_assoc]
    exact List.perm_append_comm.append_right lost
  refine (hmid.append_left _).trans ?_
  rw [← List.append_assoc]
  exact List.perm_append_comm.trans (hp.append_right _)

theorem sound_expandRefPools (h : Sound last linked pool live) (hl : linked ≤ last)
    (hf : pool.FreeList []) : Sound last linked (expandRefPools last linked pool) live ∧
      ∀ i ∈ live, (expandRefPools last linked pool).contents i = pool.contents i := by
  obtain ⟨free, lost, hfree, hp, hlost⟩ := h.partition
  obtain rfl : free = [] := hfree.unique hf
  have hn : pool.freeRefEntry = none := Threads.nil_iff.mp hf
  refine ⟨⟨⟨_, List.range' (pool.refPool.length + (linked + 1)) (last - linked) ++ lost,
    freeList_expandRefPools hl hn, ?_, ?_⟩, ?_⟩, ?_⟩
  · rw [length_expandRefPools]
    exact perm_expand hl hp
  · rw [length_expandRefPools, List.length_append, List.length_range', Nat.add_mul, hlost]
    ring
  · intro i ref hi
    have hlt : i < pool.refPool.length + (last + 1) := by
      rw [← length_expandRefPools]
      exact (List.getElem?_eq_some_iff.mp hi).1
    rw [getElem?_expandRefPools hl hlt] at hi
    split at hi
    · exact h.indexed i ref hi
    · exact (congrArg IndexedRef.index (Option.some.inj hi)).symm
  · intro i hi
    have hil := h.live_lt hi
    rw [RefPool.contents, getElem?_expandRefPools hl (by omega), if_pos hil]
    rfl

/-- Allocation returns an index that is not live, keeps the entries divided, and
changes no live entry. -/
theorem allocRef_sound (h : Sound last linked pool live) (hl : linked ≤ last) :
    ∃ pool' i, allocRef (expandRefPools last linked) pool = some (pool', i) ∧ i ∉ live ∧
      Sound last linked pool' (i :: live) ∧ ∀ j ∈ live, pool'.contents j = pool.contents j := by
  -- the pool after the test for an empty free list
  obtain ⟨p, i, free, hp, hf, ha, hc⟩ : ∃ (p : RefPool Obj Hook) (i : Nat) (free : List Nat),
      Sound last linked p live ∧ p.FreeList (i :: free) ∧
      allocRef (expandRefPools last linked) pool = allocRef (expandRefPools last linked) p ∧
      ∀ j ∈ live, p.contents j = pool.contents j := by
    obtain ⟨free, lost, hf, -⟩ := h.partition
    cases free with
    | cons i free => exact ⟨pool, i, free, h, hf, rfl, fun _ _ => rfl⟩
    | nil =>
      obtain ⟨hs, hc⟩ := sound_expandRefPools h hl hf
      have hn : pool.freeRefEntry = none := Threads.nil_iff.mp hf
      have he : (expandRefPools last linked pool).FreeList _ := freeList_expandRefPools hl hn
      rw [List.range'_succ] at he
      refine ⟨expandRefPools last linked pool, _, _, hs, he, ?_, hc⟩
      simp [allocRef, hn, expandRefPools]
  obtain ⟨free', lost, hf', hperm, hlost⟩ := hp.partition
  obtain rfl := hf.unique hf'
  have hi : i < p.refPool.length := List.mem_range.mp (hperm.subset (by simp))
  obtain ⟨pool', hpop, hfree, hrefs⟩ := @allocRef_pop _ _ _ (expandRefPools last linked) _ _ hf hi
  have hnd := hperm.nodup_iff.mpr List.nodup_range
  refine ⟨pool', i, ha.trans hpop, ?_, ⟨⟨free, lost, hfree, ?_, ?_⟩, ?_⟩, ?_⟩
  · intro hc
    exact (List.nodup_cons.mp hnd).1 (by simp [hc])
  · rw [hrefs]
    exact List.perm_middle.trans hperm
  · rw [hrefs]; exact hlost
  · rw [hrefs]; exact hp.indexed
  · intro j hj
    rw [← hc j hj, RefPool.contents, RefPool.contents, hrefs]

/-! ### Release and use -/

theorem next_set (pool : RefPool Obj Hook) (i : Nat) (ref : IndexedRef Obj Hook)
    (head : Option Nat) (j : Nat) :
    RefPool.next ⟨pool.refPool.set i ref, head⟩ j =
      if j = i ∧ i < pool.refPool.length then ref.nextFree else pool.next j := by
  by_cases hj : i = j
  · subst hj
    by_cases hi : i < pool.refPool.length <;> simp [RefPool.next, hi]
  · simp [RefPool.next, hj, Ne.symm hj]

theorem indexed_set {i : Nat} {ref ref' : IndexedRef Obj Hook} (h : Sound last linked pool live)
    (hi : pool.refPool[i]? = some ref) (he : ref'.index = ref.index) :
    ∀ j (r : IndexedRef Obj Hook), (pool.refPool.set i ref')[j]? = some r → r.index = j := by
  intro j r hr
  rw [List.getElem?_set] at hr
  split at hr
  · subst j
    split at hr
    · rw [← Option.some.inj hr, he]
      exact h.indexed i ref hi
    · cases hr
  · exact h.indexed j r hr

theorem freeRef_sound (h : Sound last linked pool live) {i : Nat} (hi : i ∈ live) :
    ∃ pool' hook, freeRef i pool = some (pool', hook) ∧
      pool'.refPool.length = pool.refPool.length ∧ Sound last linked pool' (live.erase i) := by
  have hil := h.live_lt hi
  obtain ⟨free, lost, hf, hperm, hlost⟩ := h.partition
  have hnd := hperm.nodup_iff.mpr List.nodup_range
  have hifree : i ∉ free := fun hc => (List.nodup_append.mp hnd).2.2 i hc i (by simp [hi]) rfl
  have hget : pool.refPool[i]? = some pool.refPool[i] := List.getElem?_eq_getElem hil
  refine ⟨_, _, by simp [freeRef, hget]; exact ⟨rfl, rfl⟩, by simp, ⟨⟨i :: free, lost, ?_, ?_, ?_⟩, ?_⟩⟩
  · refine Threads.push hf ?_ fun j hj => ?_
    · rw [next_set, if_pos ⟨rfl, hil⟩]
    · rw [next_set, if_neg]
      rintro ⟨rfl, -⟩
      exact hifree hj
  · rw [List.length_set]
    refine List.Perm.trans ?_ hperm
    rw [List.cons_append]
    refine List.perm_middle.symm.trans (List.Perm.append_left free ?_)
    rw [← List.cons_append]
    exact (List.perm_cons_erase hi).symm.append_right lost
  · simpa using hlost
  · exact indexed_set h hget rfl

theorem freeRef_dead (h : Sound last linked pool live) {i : Nat} (hi : i < pool.refPool.length) :
    ∃ pool' hook l, freeRef i pool = some (pool', hook) ∧ pool.FreeList l ∧ ¬ pool'.FreeList l := by
  obtain ⟨free, lost, hf, -⟩ := h.partition
  refine ⟨_, _, free, by simp [freeRef, hi]; exact ⟨rfl, rfl⟩, hf, ?_⟩
  exact Threads.push_ne hf (by rw [next_set, if_pos ⟨rfl, hi⟩])

theorem setRef_sound (h : Sound last linked pool live) {i : Nat} {object : Option Obj}
    {onFree : Option Hook} {pool' : RefPool Obj Hook} (hs : setRef i object onFree pool = some pool') :
    Sound last linked pool' live := by
  simp only [setRef, Option.map_eq_some_iff] at hs
  obtain ⟨ref, hr, rfl⟩ := hs
  obtain ⟨free, lost, hf, hperm, hlost⟩ := h.partition
  refine ⟨⟨free, lost, hf.congr fun j _ => ?_, by simpa using hperm, by simpa using hlost⟩,
    indexed_set h hr rfl⟩
  refine (next_set pool i _ pool.freeRefEntry j).trans ?_
  split
  · rename_i hj
    simp [hj.1, RefPool.next, hr]
  · rfl

end PxpRpc.Pool.Managed
