import PxpRpc.Pool.NativeInvariant

/-!
# The pointers that the C pool follows

The links from the head of the free list on stay inside the current block, also
where an entry is freed that was free already. The link of an entry in use is not
followed and may be older than the block.
-/
namespace PxpRpc.Pool.Native

variable {Obj Hook : Type}

/-- The pointer denotes an entry. -/
def RefPool.Valid (pool : RefPool Obj Hook) (p : Ptr) : Prop := p.block = pool.block ∧ p.index < pool.refPool.length

structure Linked (pool : RefPool Obj Hook) : Prop where
  size : pool.refPool.length = pool.refPoolSize.toNat
  links : ∃ linked : Set Ptr, (∀ p ∈ pool.freeRefEntry, p ∈ linked) ∧
    ∀ p ∈ linked, pool.Valid p ∧ ∀ q ∈ pool.next p, q ∈ linked

variable {pool pool' : RefPool Obj Hook} {p q : Ptr} {e : PxpRef Obj Hook Ptr}

namespace RefPool.Valid

theorem deref (h : pool.Valid p) : ∃ e, pool.deref p = some e := by
  obtain ⟨b, i⟩ := p
  obtain ⟨rfl, hi⟩ := h
  exact ⟨_, deref_lt hi⟩

theorem store (h : pool.Valid p) (e : PxpRef Obj Hook Ptr) : ∃ pool', pool.store p e = some pool' := by
  obtain ⟨e', he⟩ := h.deref
  exact ⟨_, Option.map_eq_some_iff.mpr ⟨e', he, rfl⟩⟩

theorem setRef (h : pool.Valid p) (object : Option Obj) (onFree : Option Hook) :
    ∃ pool', Native.setRef pool p object onFree = some pool' := by
  obtain ⟨e, he⟩ := h.deref
  obtain ⟨pool', hs⟩ := h.store { e with object, onFree }
  exact ⟨pool', Option.bind_eq_some_iff.mpr ⟨e, he, hs⟩⟩

theorem pushRef (h : pool.Valid p) : ∃ pool', Native.pushRef p pool = some pool' := by
  obtain ⟨pool', hs⟩ := h.store ⟨none, none, pool.freeRefEntry⟩
  exact ⟨_, Option.map_eq_some_iff.mpr ⟨pool', hs, rfl⟩⟩

end RefPool.Valid

theorem valid_of_deref (h : pool.deref p = some e) : pool.Valid p ∧ pool.next p = e.nextFree := by
  have hn : pool.next p = e.nextFree := by rw [RefPool.next, h, Option.bind_some]
  rw [RefPool.deref] at h
  split at h
  · exact ⟨⟨‹_›, (List.getElem?_eq_some_iff.mp h).1⟩, hn⟩
  · cases h

/-- A write leaves every entry where it is. -/
theorem valid_set {i : Nat} {head : Option Ptr} (hp : pool.Valid p) :
    RefPool.Valid { pool with refPool := pool.refPool.set i e, freeRefEntry := head } p :=
  ⟨hp.1, by simpa using hp.2⟩

namespace Linked

theorem empty (block : Nat) : Linked (⟨block, [], 0, none⟩ : RefPool Obj Hook) where
  size := rfl
  links := ⟨∅, fun _ hp => absurd hp (Option.not_mem_none _), fun _ hp => absurd hp (Set.notMem_empty _)⟩

theorem serverGetRef (h : Linked pool) {i : Nat} (hi : i < pool.refPoolSize.toNat) : pool.Valid (serverGetRef pool i) :=
  ⟨rfl, h.size ▸ hi⟩

/-- What an owner writes into its entry is no link. -/
theorem setRef (h : Linked pool) {object : Option Obj} {onFree : Option Hook}
    (hs : Native.setRef pool p object onFree = some pool') : Linked pool' ∧ ∀ q, pool.Valid q → pool'.Valid q := by
  obtain ⟨e, hd, hs⟩ := Option.bind_eq_some_iff.mp hs
  obtain ⟨-, -, rfl⟩ := Option.map_eq_some_iff.mp hs
  obtain ⟨⟨hb, hi⟩, hn⟩ := valid_of_deref hd
  obtain ⟨linked, hhead, hlinks⟩ := h.links
  refine ⟨⟨by simpa using h.size, linked, hhead, fun q hq => ⟨valid_set (hlinks q hq).1, fun q' hq' => ?_⟩⟩,
    fun q hq => valid_set hq⟩
  refine (hlinks q hq).2 q' ?_
  rw [Option.mem_def, next_set pool p.index { e with object, onFree } pool.freeRefEntry q] at hq'
  split at hq'
  · rename_i he
    have he : q = p := by
      rw [he.1, ← hb]
    rw [he, Option.mem_def, hn]
    exact hq'
  · exact hq'

/-- The entry that is freed links to the old head. -/
theorem pushRef (h : Linked pool) (hp : Native.pushRef p pool = some pool') :
    Linked pool' ∧ ∀ q, pool.Valid q → pool'.Valid q := by
  obtain ⟨pool₁, hs, rfl⟩ := Option.map_eq_some_iff.mp hp
  obtain ⟨e, hd, rfl⟩ := Option.map_eq_some_iff.mp hs
  obtain ⟨hv, -⟩ := valid_of_deref hd
  obtain ⟨linked, hhead, hlinks⟩ := h.links
  refine ⟨⟨by simpa using h.size, insert p linked, fun q hq => ?_, fun q hq => ⟨?_, fun q' hq' => ?_⟩⟩,
    fun q hq => valid_set hq⟩
  · obtain rfl := Option.some.inj hq
    exact Set.mem_insert _ _
  · rcases Set.mem_insert_iff.mp hq with rfl | hq
    · exact valid_set hv
    · exact valid_set (hlinks q hq).1
  · rw [Option.mem_def, next_set pool p.index ⟨none, none, pool.freeRefEntry⟩ (some p) q] at hq'
    refine Set.mem_insert_of_mem _ ?_
    split at hq'
    · exact hhead q' hq'
    · rename_i hne
      refine (hlinks q ((Set.mem_insert_iff.mp hq).resolve_left ?_)).2 q' hq'
      rintro rfl
      exact hne ⟨by rw [← hv.1], hv.2⟩

/-- The new entries link to each other. -/
theorem expandRefPool (h : Linked pool) (hf : pool.freeRefEntry = none) (hg : pool.refPoolSize.toNat + 64 < 2 ^ 16) :
    Linked (expandRefPool pool) := by
  have hlen := @length_expandRefPool _ _ pool
  have hsize : (Native.expandRefPool pool).refPoolSize.toNat = pool.refPoolSize.toNat + 64 := by
    show (BitVec.ofNat 16 (pool.refPoolSize.toNat + 64)).toNat = _
    rw [BitVec.toNat_ofNat, Nat.mod_eq_of_lt hg]
  have hlist := freeList_expandRefPool h.size.ge hf
  refine ⟨hlen.trans hsize.symm, {p | p.block = pool.block + 1 ∧ pool.refPoolSize.toNat ≤ p.index ∧
    p.index < pool.refPoolSize.toNat + 64}, fun q hq => ?_, fun q hq => ⟨⟨hq.1, hq.2.2.trans_eq hlen.symm⟩, fun q' hq' => ?_⟩⟩
  · obtain rfl := Option.some.inj hq
    exact ⟨rfl, le_rfl, Nat.lt_add_of_pos_right (by decide)⟩
  · obtain ⟨b, j⟩ := q
    obtain ⟨rfl, hj, hj'⟩ := hq
    have hd : (Native.expandRefPool pool).deref ⟨pool.block + 1, j⟩ = _ :=
      (if_pos rfl).trans (getElem?_expandRefPool h.size.ge hj')
    rw [if_neg (Nat.not_lt.mpr hj)] at hd
    rw [Option.mem_def, (valid_of_deref hd).2, hf] at hq'
    dsimp only at hq'
    split at hq'
    · cases hq'
    · obtain rfl := Option.some.inj hq'
      exact ⟨rfl, Nat.le_succ_of_le hj, by dsimp only at hj' ⊢; omega⟩

theorem serverAllocRef (h : Linked pool) (hg : pool.freeRefEntry = none → pool.refPoolSize.toNat + 64 < 2 ^ 16) :
    ∃ pool' ref i, Native.serverAllocRef pool = some (pool', ref, i) ∧ Linked pool' ∧ pool'.Valid ref ∧
      (pool.freeRefEntry ≠ none → ∀ q, pool.Valid q → pool'.Valid q) := by
  rw [Native.serverAllocRef.eq_def]
  cases hf : pool.freeRefEntry with
  | some ref =>
    obtain ⟨linked, hhead, hlinks⟩ := h.links
    have hm := hhead ref hf
    obtain ⟨hv, hnext⟩ := hlinks ref hm
    obtain ⟨e, hd⟩ := hv.deref
    have hn := (valid_of_deref hd).2
    refine ⟨{ pool with freeRefEntry := e.nextFree }, ref, ref.index, ?_, ⟨h.size, linked, fun q hq => ?_, hlinks⟩, hv,
      fun _ q hq => hq⟩
    · simp [hf, hd]
    · refine hnext q ?_
      rw [hn]
      exact hq
  | none =>
    have hexp := h.expandRefPool hf (hg hf)
    obtain ⟨linked, hhead, hlinks⟩ := hexp.links
    have hm := hhead _ rfl
    obtain ⟨hv, hnext⟩ := hlinks _ hm
    obtain ⟨e, hd⟩ := hv.deref
    have hn := (valid_of_deref hd).2
    refine ⟨{ Native.expandRefPool pool with freeRefEntry := e.nextFree }, ⟨pool.block + 1, pool.refPoolSize.toNat⟩,
      pool.refPoolSize.toNat, ?_,
      ⟨hexp.size, linked, fun q hq => ?_, hlinks⟩, hv, fun hne => absurd rfl hne⟩
    · show (Native.expandRefPool pool).freeRefEntry.bind _ = _
      rw [show (Native.expandRefPool pool).freeRefEntry = some ⟨pool.block + 1, pool.refPoolSize.toNat⟩ from rfl,
        Option.bind_some, hd]
      rfl
    · refine hnext q ?_
      rw [hn]
      exact hq

end Linked

end PxpRpc.Pool.Native
