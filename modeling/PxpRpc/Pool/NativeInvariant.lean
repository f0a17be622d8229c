import PxpRpc.Pool.Native

/-!
# Allocated and free entries of the C pool

While fewer than 65536 references are live the entries are divided between the
live ones and the free list. At 65536 entries `ref_pool_size` has wrapped to
zero, and the next expansion shrinks the pool to its first block.
-/
namespace PxpRpc.Pool.Native

open PxpRpc.Lib

variable {Obj Hook : Type} {pool : RefPool Obj Hook} {live : List Nat}

/-- The number of entries from which on the pool cannot grow. -/
def refPoolLimit : Nat := 65536

structure Sound (pool : RefPool Obj Hook) (live : List Nat) : Prop where
  partition : ∃ free, pool.FreeList free ∧ (free ++ live).Perm (List.range pool.refPool.length)
  small : pool.refPool.length ≤ refPoolLimit
  blocks : 64 ∣ pool.refPool.length
  size : pool.refPoolSize = BitVec.ofNat 16 pool.refPool.length

theorem sound_empty : Sound (RefPool.empty : RefPool Obj Hook) [] where
  partition := ⟨[], by simp [RefPool.FreeList, RefPool.empty], by simp [RefPool.empty]⟩
  small := Nat.zero_le _
  blocks := dvd_zero _
  size := rfl

namespace Sound

theorem toNat_size (h : Sound pool live) :
    pool.refPoolSize.toNat = pool.refPool.length % refPoolLimit := by
  rw [h.size]
  simp [refPoolLimit]

theorem nodup (h : Sound pool live) : live.Nodup := by
  obtain ⟨free, -, hp⟩ := h.partition
  exact List.Nodup.of_append_right (hp.nodup_iff.mpr List.nodup_range)

theorem live_lt (h : Sound pool live) {i : Nat} (hi : i ∈ live) : i < pool.refPool.length := by
  obtain ⟨free, -, hp⟩ := h.partition
  exact List.mem_range.mp (hp.subset (List.mem_append_right free hi))

/-- Each entry is live or on the free list, and only once. -/
theorem count_eq (h : Sound pool live) {free : List Nat} (hf : pool.FreeList free) {i : Nat}
    (hi : i < pool.refPool.length) : free.count i + live.count i = 1 := by
  obtain ⟨free', hf', hp⟩ := h.partition
  obtain rfl : free = free' := List.map_injective_iff.mpr (fun a b h => by injection h)
    (hf.unique hf')
  rw [← List.count_append, hp.count_eq]
  exact List.count_eq_one_of_mem List.nodup_range (List.mem_range.mpr hi)

theorem length_live_le (h : Sound pool live) : live.length ≤ pool.refPool.length := by
  obtain ⟨free, -, hp⟩ := h.partition
  have := hp.length_eq
  simp at this
  omega

end Sound

/-! ### Allocation -/

theorem deref_lt {i : Nat} (hi : i < pool.refPool.length) :
    pool.deref ⟨pool.block, i⟩ = some pool.refPool[i] := by
  simp [RefPool.deref, hi]

/-- Taking the head of the free list. -/
theorem serverAllocRef_pop {i : Nat} {free : List Nat} (hf : pool.FreeList (i :: free))
    (hi : i < pool.refPool.length) :
    ∃ pool', serverAllocRef pool = some (pool', ⟨pool'.block, i⟩, i) ∧ pool'.FreeList free ∧
      pool'.refPool = pool.refPool ∧ pool'.refPoolSize = pool.refPoolSize := by
  obtain ⟨hh, ht⟩ := Threads.cons_iff.mp hf
  refine ⟨{ pool with freeRefEntry := pool.refPool[i].nextFree }, ?_, ?_, rfl, rfl⟩
  · simp [serverAllocRef, hh, deref_lt hi]
  · have hn : pool.next ⟨pool.block, i⟩ = pool.refPool[i].nextFree := by
      simp [RefPool.next, deref_lt hi]
    rw [hn] at ht
    exact ht

/-- The expanded pool threads its new block in front of the old free list. -/
theorem freeList_expandRefPool (hs : pool.refPoolSize.toNat ≤ pool.refPool.length)
    (hf : pool.freeRefEntry = none) :
    (expandRefPool pool).FreeList (List.range' pool.refPoolSize.toNat 64) := by
  have hget : ∀ {j : Nat}, pool.refPoolSize.toNat ≤ j → j < pool.refPoolSize.toNat + 64 →
      (expandRefPool pool).next ⟨pool.block + 1, j⟩ =
        if j = pool.refPoolSize.toNat + 63 then none else some ⟨pool.block + 1, j + 1⟩ := by
    intro j hj hj'
    have hd : (expandRefPool pool).deref ⟨pool.block + 1, j⟩ = _ :=
      (if_pos rfl).trans (getElem?_expandRefPool hs hj')
    rw [RefPool.next, hd, if_neg (show ¬ j < pool.refPoolSize.toNat from by omega), hf]
    rfl
  have hlast : Threads (expandRefPool pool).next
      ((expandRefPool pool).next ⟨pool.block + 1, pool.refPoolSize.toNat + 64 - 1⟩) [] := by
    rw [hget (by omega) (by omega), if_pos (by omega)]
    exact Threads.nil_iff.mpr rfl
  have hb := Threads.block (Ptr.mk (pool.block + 1)) (by omega)
    (fun i hi hi' => by rw [hget hi (by omega), if_neg (by omega)]) hlast
  rw [List.append_nil] at hb
  exact hb

private theorem perm_expand {n : Nat} (hl : live.Perm (List.range n)) :
    (List.range' n 64 ++ live).Perm (List.range (n + 64)) := by
  have hr : List.range (n + 64) = List.range n ++ List.range' n 64 := by
    simp only [List.range_eq_range', ← List.range'_append_1, Nat.zero_add]
  rw [hr]
  exact (List.perm_append_comm).trans (hl.append_right _)

/-- Expanding a pool all of whose entries are live. -/
theorem sound_expandRefPool (h : Sound pool live) (hl : live.length < refPoolLimit)
    (hf : pool.FreeList []) : Sound (expandRefPool pool) live ∧
      ∀ i ∈ live, (expandRefPool pool).contents i = pool.contents i := by
  have hperm : live.Perm (List.range pool.refPool.length) := by
    obtain ⟨free, hfree, hp⟩ := h.partition
    have : free.map (Ptr.mk pool.block) = [] := hfree.unique hf
    rw [List.map_eq_nil_iff.mp this, List.nil_append] at hp
    exact hp
  have hn : live.length = pool.refPool.length := by simpa using hperm.length_eq
  have hs : pool.refPoolSize.toNat = pool.refPool.length := by
    rw [h.toNat_size, Nat.mod_eq_of_lt (by omega)]
  have hlen : (expandRefPool pool).refPool.length = pool.refPool.length + 64 := by
    rw [length_expandRefPool, hs]
  obtain ⟨k, hk⟩ := h.blocks
  refine ⟨⟨⟨_, freeList_expandRefPool hs.le (by simpa [RefPool.FreeList] using hf), ?_⟩, ?_, ?_, ?_⟩, ?_⟩
  · rw [hlen, hs]
    exact perm_expand hperm
  · rw [hlen]
    have := h.small
    simp only [refPoolLimit] at *
    omega
  · rw [hlen]
    omega
  · rw [hlen, ← hs]
    rfl
  · intro i hi
    have hil := h.live_lt hi
    rw [RefPool.contents, getElem?_expandRefPool hs.le (by omega), if_pos (by omega)]
    rfl

/-- With room left, allocation returns the entry of an index that is not live,
keeps the entries divided, and changes no live entry. -/
theorem serverAllocRef_sound (h : Sound pool live) (hl : live.length < refPoolLimit) :
    ∃ pool' i, serverAllocRef pool = some (pool', ⟨pool'.block, i⟩, i) ∧ i ∉ live ∧
      i < pool'.refPool.length ∧ Sound pool' (i :: live) ∧
      ∀ j ∈ live, pool'.contents j = pool.contents j := by
  -- the pool after the test for an empty free list
  obtain ⟨p, i, free, hp, hf, ha, hc⟩ : ∃ (p : RefPool Obj Hook) (i : Nat) (free : List Nat),
      Sound p live ∧ p.FreeList (i :: free) ∧ serverAllocRef pool = serverAllocRef p ∧
      ∀ j ∈ live, p.contents j = pool.contents j := by
    obtain ⟨free, hf, -⟩ := h.partition
    cases free with
    | cons i free => exact ⟨pool, i, free, h, hf, rfl, fun _ _ => rfl⟩
    | nil =>
      obtain ⟨hs, hc⟩ := sound_expandRefPool h hl hf
      have hn : pool.freeRefEntry = none := by simpa [RefPool.FreeList] using hf
      have he := freeList_expandRefPool
        (by rw [h.toNat_size]; exact Nat.mod_le _ _) hn
      refine ⟨expandRefPool pool, _, _, hs, he, ?_, hc⟩
      simp [serverAllocRef, hn, expandRefPool]
  obtain ⟨free', hf', hperm⟩ := hp.partition
  obtain rfl : i :: free = free' := List.map_injective_iff.mpr (fun a b h => by injection h)
    (hf.unique hf')
  have hi : i < p.refPool.length := List.mem_range.mp (hperm.subset (by simp))
  obtain ⟨pool', hpop, hfree, hrefs, hsize⟩ := serverAllocRef_pop hf hi
  have hnd := hperm.nodup_iff.mpr List.nodup_range
  refine ⟨pool', i, ha.trans hpop, ?_, hrefs ▸ hi, ⟨⟨free, hfree, ?_⟩, ?_, ?_, ?_⟩, ?_⟩
  · intro hc
    exact (List.nodup_cons.mp hnd).1 (List.mem_append_right free hc)
  · rw [hrefs]
    exact List.perm_middle.trans hperm
  · rw [hrefs]; exact hp.small
  · rw [hrefs]; exact hp.blocks
  · rw [hrefs, hsize]; exact hp.size
  · intro j hj
    rw [← hc j hj, RefPool.contents, RefPool.contents, hrefs]

/-- With 65536 live references the pool starts again at index zero. -/
theorem serverAllocRef_full (h : Sound pool live) (hl : ¬ live.length < refPoolLimit) :
    ∃ pool', serverAllocRef pool = some (pool', ⟨pool'.block, 0⟩, 0) ∧ 0 ∈ live := by
  obtain ⟨free, hf, hperm⟩ := h.partition
  have hlen := hperm.length_eq
  have hle := h.length_live_le
  have hsm := h.small
  simp only [List.length_append, List.length_range] at hlen
  obtain rfl : free = [] := List.length_eq_zero_iff.mp (by omega)
  have hs : pool.refPoolSize.toNat = 0 := by
    rw [h.toNat_size, show pool.refPool.length = refPoolLimit from by omega, Nat.mod_self]
  have hn : pool.freeRefEntry = none := by simpa [RefPool.FreeList] using hf
  have he := freeList_expandRefPool (by omega) hn
  rw [hs] at he
  obtain ⟨pool', hpop, -⟩ := @serverAllocRef_pop _ _ _ 0 (List.range' 1 63) he
    (by rw [length_expandRefPool]; omega)
  refine ⟨pool', ?_, ?_⟩
  · rw [← hpop]
    simp [serverAllocRef, hn, expandRefPool]
  · refine hperm.symm.subset (List.mem_range.mpr ?_)
    simp only [refPoolLimit] at *
    omega

/-! ### Release and use -/

/-- Pushing any entry onto the free list. -/
theorem pushRef_eq {i : Nat} (hi : i < pool.refPool.length) :
    pushRef ⟨pool.block, i⟩ pool = some
      { pool with
        refPool := pool.refPool.set i ⟨none, none, pool.freeRefEntry⟩
        freeRefEntry := some ⟨pool.block, i⟩ } := by
  simp [pushRef, RefPool.store, deref_lt hi]

theorem next_set (pool : RefPool Obj Hook) (i : Nat) (ref : PxpRef Obj Hook Ptr)
    (head : Option Ptr) (p : Ptr) :
    RefPool.next { pool with refPool := pool.refPool.set i ref, freeRefEntry := head } p =
      if p = ⟨pool.block, i⟩ ∧ i < pool.refPool.length then ref.nextFree else pool.next p := by
  obtain ⟨b, j⟩ := p
  by_cases hb : b = pool.block
  · by_cases hj : i = j
    · subst hj
      by_cases hi : i < pool.refPool.length <;> simp [RefPool.next, RefPool.deref, hb, hi]
    · simp [RefPool.next, RefPool.deref, hb, hj, Ne.symm hj]
  · simp [RefPool.next, RefPool.deref, hb]

/-- Releasing a live index puts it in front of the free list. -/
theorem serverFreeRef_sound (h : Sound pool live) {i : Nat} (hi : i ∈ live) :
    ∃ pool' hook, serverFreeRef (serverGetRef pool i) pool = some (pool', hook) ∧
      pool'.refPool.length = pool.refPool.length ∧ Sound pool' (live.erase i) := by
  have hil := h.live_lt hi
  obtain ⟨free, hf, hperm⟩ := h.partition
  have hnd := hperm.nodup_iff.mpr List.nodup_range
  have hifree : i ∉ free := fun hc => (List.nodup_append.mp hnd).2.2 i hc i hi rfl
  refine ⟨_, _, by simp [serverFreeRef, serverGetRef, deref_lt hil, pushRef_eq hil]; exact ⟨rfl, rfl⟩,
    by simp, ⟨⟨i :: free, ?_, ?_⟩, by simpa using h.small, by simpa using h.blocks,
      by simpa using h.size⟩⟩
  · refine Threads.push hf ?_ fun p hp => ?_
    · rw [next_set, if_pos ⟨rfl, hil⟩]
    · obtain ⟨j, hj, rfl⟩ := List.mem_map.mp hp
      rw [next_set, if_neg]
      rintro ⟨he, -⟩
      injection he with _ he
      exact hifree (he ▸ hj)
  · rw [List.length_set]
    refine List.Perm.trans ?_ hperm
    rw [List.cons_append]
    refine List.perm_middle.symm.trans ?_
    exact List.Perm.append_left free (List.perm_cons_erase hi).symm

/-- Releasing an index that is not live loses the free list there was. -/
theorem serverFreeRef_dead (h : Sound pool live) {i : Nat} (hi : i < pool.refPool.length) :
    ∃ pool' hook l, serverFreeRef (serverGetRef pool i) pool = some (pool', hook) ∧
      pool.FreeList l ∧ ¬ pool'.FreeList l := by
  obtain ⟨free, hf, -⟩ := h.partition
  refine ⟨_, _, free, by simp [serverFreeRef, serverGetRef, deref_lt hi, pushRef_eq hi]; exact ⟨rfl, rfl⟩,
    hf, ?_⟩
  exact Threads.push_ne hf (by rw [next_set, if_pos ⟨rfl, hi⟩])

/-- What an owner writes into its entry is no link. -/
theorem setRef_sound (h : Sound pool live) {ref : Ptr} {object : Option Obj} {onFree : Option Hook}
    {pool' : RefPool Obj Hook} (hs : setRef pool ref object onFree = some pool') :
    Sound pool' live := by
  simp only [setRef, RefPool.store, Option.bind_eq_some_iff, Option.map_eq_some_iff] at hs
  obtain ⟨r, hr, -, -, rfl⟩ := hs
  have hrb : ref.block = pool.block ∧ pool.refPool[ref.index]? = some r := by
    rw [RefPool.deref] at hr
    split at hr
    · exact ⟨‹_›, hr⟩
    · cases hr
  obtain ⟨free, hf, hperm⟩ := h.partition
  refine ⟨⟨free, hf.congr fun p _ => ?_, by simpa using hperm⟩, by simpa using h.small,
    by simpa using h.blocks, by simpa using h.size⟩
  have hn := next_set pool ref.index { r with object, onFree } pool.freeRefEntry p
  refine hn.trans ?_
  split
  · rename_i hp
    simp [hp.1, RefPool.next, RefPool.deref, hrb.2]
  · rfl

end PxpRpc.Pool.Native
