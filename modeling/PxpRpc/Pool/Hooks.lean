import PxpRpc.Pool.NativeInvariant

/-!
# The callbacks of the entries of the C pool

An entry that is free has no `on_free`, so an allocation never hands out one
that still owes a call. The number of calls that a pool owes changes by one with
every callback that is set or taken up, and with nothing else.
-/
namespace PxpRpc.Pool.Native

open PxpRpc.Lib

variable {Obj Hook : Type}

namespace RefPool

/-- `on_free` of the entry at an index. -/
def hookAt (pool : RefPool Obj Hook) (i : Nat) : Option Hook := pool.refPool[i]?.bind PxpRef.onFree

/-- The indices on the free list from a link on. -/
def freeIndices (pool : RefPool Obj Hook) : Nat → Option Ptr → List Nat
  | 0, _ => []
  | _ + 1, none => []
  | n + 1, some p => p.index :: freeIndices pool n (pool.next p)

/-- The index is that of an entry which is not on the free list. -/
def InUse (pool : RefPool Obj Hook) (i : Nat) : Prop :=
  i < pool.refPool.length ∧ i ∉ pool.freeIndices pool.refPool.length pool.freeRefEntry

instance (pool : RefPool Obj Hook) (i : Nat) : Decidable (pool.InUse i) := by
  unfold InUse
  infer_instance

end RefPool

/-- A sound pool whose size has not overflowed and whose free entries have no callback. -/
structure Tidy (pool : RefPool Obj Hook) (live : List Nat) : Prop extends Sound pool live where
  fits : pool.refPool.length < refPoolLimit
  clear : ∀ i, i ∉ live → pool.hookAt i = none

variable {pool pool' : RefPool Obj Hook} {live : List Nat}

theorem freeIndices_of_threads {l : List Nat} : ∀ {head : Option Ptr} {n : Nat},
    Threads pool.next head (l.map (Ptr.mk pool.block)) → l.length ≤ n → pool.freeIndices n head = l := by
  induction l with
  | nil =>
    intro head n h _
    obtain rfl := Threads.nil_iff.mp h
    cases n <;> rfl
  | cons i l ih =>
    intro head n h hn
    obtain ⟨rfl, ht⟩ := Threads.cons_iff.mp h
    cases n with
    | zero => simp at hn
    | succ n =>
      have hn : l.length ≤ n := by simpa using hn
      rw [RefPool.freeIndices, ih ht hn]

namespace Sound

theorem inUse_iff (h : Sound pool live) {i : Nat} : pool.InUse i ↔ i ∈ live := by
  obtain ⟨free, hf, hp⟩ := h.partition
  have hlen := hp.length_eq
  simp only [List.length_append, List.length_range] at hlen
  unfold RefPool.InUse
  rw [freeIndices_of_threads hf (by omega)]
  constructor
  · rintro ⟨hi, hfree⟩
    have hm := hp.symm.subset (List.mem_range.mpr hi)
    exact (List.mem_append.mp hm).resolve_left hfree
  · intro hi
    have hlt := h.live_lt hi
    have hc := h.count_eq hf hlt
    have := List.count_pos_iff.mpr hi
    refine ⟨hlt, fun hm => ?_⟩
    have := List.count_pos_iff.mpr hm
    omega

end Sound

namespace Tidy

theorem toNat_size (h : Tidy pool live) : pool.refPoolSize.toNat = pool.refPool.length := by
  rw [h.toSound.toNat_size, Nat.mod_eq_of_lt h.fits]

theorem empty : Tidy (RefPool.empty : RefPool Obj Hook) [] where
  toSound := sound_empty
  fits := Nat.zero_lt_succ _
  clear _ _ := rfl

/-- An expansion adds entries without a callback. -/
theorem hookAt_expandRefPool (h : Tidy pool live) (i : Nat) : (expandRefPool pool).hookAt i = pool.hookAt i := by
  have hs := h.toNat_size
  unfold RefPool.hookAt
  by_cases hi : i < pool.refPoolSize.toNat + 64
  · rw [getElem?_expandRefPool hs.le hi]
    split
    · rfl
    · rw [List.getElem?_eq_none (by omega)]
      rfl
  · rw [List.getElem?_eq_none (by rw [length_expandRefPool]; omega), List.getElem?_eq_none (by omega)]

/-- An allocation changes no callback, and the entry it returns has none. -/
theorem serverAllocRef (h : Tidy pool live) (hg : pool.freeRefEntry = none → pool.refPoolSize.toNat + 64 < 2 ^ 16)
    {ref : Ptr} {i : Nat} (ha : Native.serverAllocRef pool = some (pool', ref, i)) :
    ref = ⟨pool'.block, i⟩ ∧ i ∉ live ∧ Tidy pool' (i :: live) ∧ (∀ j, pool'.hookAt j = pool.hookAt j) ∧
      pool.refPool.length ≤ pool'.refPool.length ∧ (pool.freeRefEntry ≠ none → pool'.block = pool.block) := by
  have hlive : live.length < refPoolLimit := (h.length_live_le).trans_lt h.fits
  obtain ⟨p, j, hp, hj, hlt, hs, -⟩ := serverAllocRef_sound h.toSound hlive
  obtain ⟨rfl, hr⟩ := Prod.mk.inj (Option.some.inj (hp.symm.trans ha))
  obtain ⟨rfl, rfl⟩ := Prod.mk.inj hr
  have hsize := h.toNat_size
  obtain ⟨hhook, hlen, hfits, hblock⟩ : (∀ j, p.hookAt j = pool.hookAt j) ∧ pool.refPool.length ≤ p.refPool.length ∧
      p.refPool.length < refPoolLimit ∧ (pool.freeRefEntry ≠ none → p.block = pool.block) := by
    rw [Native.serverAllocRef.eq_def] at hp
    obtain ⟨freeref, -, hp⟩ := Option.bind_eq_some_iff.mp hp
    obtain ⟨e, -, hp⟩ := Option.map_eq_some_iff.mp hp
    obtain ⟨rfl, -⟩ := Prod.mk.inj hp
    cases hf : pool.freeRefEntry with
    | some f => exact ⟨fun _ => rfl, le_rfl, h.fits, fun _ => rfl⟩
    | none =>
      have hlt := hg hf
      have hle := @length_expandRefPool _ _ pool
      refine ⟨h.hookAt_expandRefPool, ?_, ?_, fun hne => absurd rfl hne⟩
      · show pool.refPool.length ≤ (expandRefPool pool).refPool.length
        omega
      · show (expandRefPool pool).refPool.length < 65536
        omega
  refine ⟨rfl, hj, ⟨hs, hfits, fun i hi => ?_⟩, hhook, hlen, hblock⟩
  rw [hhook]
  exact h.clear i fun hm => hi (List.mem_cons_of_mem _ hm)

/-- Writes to an entry that is in use. -/
theorem hookAt_set (pool : RefPool Obj Hook) {i : Nat} (hi : i < pool.refPool.length) (e : PxpRef Obj Hook Ptr)
    (head : Option Ptr) (j : Nat) :
    RefPool.hookAt { pool with refPool := pool.refPool.set i e, freeRefEntry := head } j =
      if j = i then e.onFree else pool.hookAt j := by
  unfold RefPool.hookAt
  by_cases hj : j = i
  · subst hj
    simp [hi]
  · simp [hj, Ne.symm hj]

/-- The owner of an entry sets its object and its callback; anybody may take them away. -/
theorem setRef (h : Tidy pool live) {ref : Ptr} {object : Option Obj} {onFree : Option Hook}
    (hi : ref.index ∈ live ∨ onFree = none) (hs : Native.setRef pool ref object onFree = some pool') :
    Tidy pool' live ∧ (∀ j, pool'.hookAt j = if j = ref.index then onFree else pool.hookAt j) ∧
      pool'.block = pool.block ∧ pool'.refPool.length = pool.refPool.length ∧ pool'.freeRefEntry = pool.freeRefEntry := by
  have hsound := setRef_sound h.toSound hs
  obtain ⟨r, hr, hs⟩ := Option.bind_eq_some_iff.mp hs
  obtain ⟨r', -, rfl⟩ := Option.map_eq_some_iff.mp hs
  have hlt : ref.index < pool.refPool.length := by
    rw [RefPool.deref] at hr
    split at hr
    · exact (List.getElem?_eq_some_iff.mp hr).1
    · cases hr
  have hhook := hookAt_set pool hlt { r with object, onFree } pool.freeRefEntry
  refine ⟨⟨hsound, by simpa using h.fits, fun j hj => ?_⟩, hhook, rfl, by simp, rfl⟩
  refine (hhook j).trans ?_
  split
  · rename_i he
    exact hi.resolve_left fun hm => hj (he ▸ hm)
  · exact h.clear j hj

/-- An entry that is in use is put on the free list without its callback. -/
theorem pushRef (h : Tidy pool live) {ref : Ptr} (hi : ref.index ∈ live) (hp : Native.pushRef ref pool = some pool') :
    Tidy pool' (live.erase ref.index) ∧ (∀ j, pool'.hookAt j = if j = ref.index then none else pool.hookAt j) ∧
      pool'.block = pool.block := by
  have hlt := h.live_lt hi
  obtain ⟨b, i⟩ := ref
  obtain rfl : b = pool.block := by
    obtain ⟨p, hs, -⟩ := Option.map_eq_some_iff.mp hp
    obtain ⟨e, hd, -⟩ := Option.map_eq_some_iff.mp hs
    rw [RefPool.deref] at hd
    split at hd
    · assumption
    · cases hd
  rw [pushRef_eq hlt] at hp
  obtain rfl := Option.some.inj hp
  obtain ⟨p, hook, hfree, -, hsound⟩ := serverFreeRef_sound h.toSound hi
  have hp : p = { pool with
      refPool := pool.refPool.set i ⟨none, none, pool.freeRefEntry⟩
      freeRefEntry := some ⟨pool.block, i⟩ } := by
    simp only [serverFreeRef, serverGetRef, deref_lt hlt, pushRef_eq hlt, Option.bind_some, Option.map_some,
      Option.some.injEq, Prod.mk.injEq] at hfree
    exact hfree.1.symm
  have hhook := hookAt_set pool hlt ⟨none, none, pool.freeRefEntry⟩ (some ⟨pool.block, i⟩)
  refine ⟨⟨hp ▸ hsound, by simpa using h.fits, fun j hj => ?_⟩, hhook, rfl⟩
  refine (hhook j).trans ?_
  by_cases he : j = i
  · rw [if_pos he]
  · rw [if_neg he]
    exact h.clear j fun hm => hj ((List.mem_erase_of_ne he).mpr hm)

end Tidy

/-- Reading an entry reads its callback. -/
theorem hookAt_deref {ref : Ptr} {e : PxpRef Obj Hook Ptr} (h : pool.deref ref = some e) :
    pool.hookAt ref.index = e.onFree ∧ ref.index < pool.refPool.length ∧ ref.block = pool.block := by
  rw [RefPool.deref] at h
  split at h
  · rename_i hb
    refine ⟨?_, (List.getElem?_eq_some_iff.mp h).1, hb⟩
    rw [RefPool.hookAt, h]
    rfl
  · cases h

/-- An owner that writes the object of its entry keeps the callback. -/
theorem store_object {ref : Ptr} {e : PxpRef Obj Hook Ptr} {object : Option Obj} (h : pool.deref ref = some e) :
    pool.store ref { e with object } = setRef pool ref object e.onFree := by
  rw [setRef, h, Option.bind_some]

/-! ### What is owed -/

/-- The number of entries that have a callback and are not being freed. -/
noncomputable def owed (hooks : Nat → Option Hook) (busy : List Nat) (hook : Hook) : Nat :=
  {i | hooks i = some hook ∧ i ∉ busy}.ncard

section

variable {hooks hooks' : Nat → Option Hook} {busy busy' : List Nat} {hook hook' : Hook} {i : Nat}

theorem owed_congr (h : ∀ i, hooks' i = some hook ∧ i ∉ busy' ↔ hooks i = some hook ∧ i ∉ busy) :
    owed hooks' busy' hook = owed hooks busy hook :=
  congrArg Set.ncard (Set.ext h)

theorem owed_eq_zero (h : ∀ i, hooks i = none ∨ i ∈ busy) : owed hooks busy hook = 0 := by
  unfold owed
  rw [show {i | hooks i = some hook ∧ i ∉ busy} = ∅ from ?_, Set.ncard_empty]
  refine Set.eq_empty_of_forall_notMem fun i hi => ?_
  obtain ⟨hs, hb⟩ := hi
  rcases h i with hn | hm
  · rw [hn] at hs
    cases hs
  · exact hb hm

variable [DecidableEq Hook]

/-- A callback that has not been called is owed. -/
theorem owed_cons (hfin : {i | hooks i ≠ none}.Finite) (hi : hooks i = some hook') (hb : i ∉ busy) :
    owed hooks busy hook = owed hooks (i :: busy) hook + if hook' = hook then 1 else 0 := by
  by_cases he : hook' = hook
  · subst he
    have hset : {j | hooks j = some hook' ∧ j ∉ busy} = insert i {j | hooks j = some hook' ∧ j ∉ i :: busy} := by
      ext j
      by_cases hj : j = i
      · subst hj
        simp [hi, hb]
      · simp [hj]
    rw [if_pos rfl]
    unfold owed
    rw [hset]
    refine Set.ncard_insert_of_notMem (by simp) (hfin.subset fun j hj => ?_)
    show hooks j ≠ none
    rw [hj.1]
    simp
  · rw [if_neg he, Nat.add_zero]
    refine (owed_congr fun j => ?_).symm
    by_cases hj : j = i
    · subst hj
      simp [hi, he]
    · simp [hj]

/-- A callback that is set is owed from then on. -/
theorem owed_set (hfin : {i | hooks i ≠ none}.Finite) (hn : hooks i = none) (hb : i ∉ busy)
    (hs : ∀ j, hooks' j = if j = i then some hook' else hooks j) :
    owed hooks' busy hook = owed hooks busy hook + if hook' = hook then 1 else 0 := by
  have hi : hooks' i = some hook' := (hs i).trans (if_pos rfl)
  have hfin' : {j | hooks' j ≠ none}.Finite := by
    refine (hfin.insert i).subset fun j hj => ?_
    by_cases he : j = i
    · exact .inl he
    · exact .inr (by rwa [Set.mem_ofPred_eq, hs, if_neg he] at hj)
  rw [owed_cons hfin' hi hb]
  congr 1
  refine owed_congr fun j => ?_
  by_cases he : j = i
  · subst he
    simp [hn]
  · simp [hs, he]

end

theorem Tidy.finite (h : Tidy pool live) : {i | pool.hookAt i ≠ none}.Finite := by
  refine (Set.finite_Iio pool.refPool.length).subset fun i hi => ?_
  by_contra hlt
  refine hi (h.clear i fun hm => hlt (h.live_lt hm))

end PxpRpc.Pool.Native
