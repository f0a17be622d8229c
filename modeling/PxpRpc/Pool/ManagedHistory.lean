import PxpRpc.Pool.Managed
import PxpRpc.Lib.Run

/-!
# Histories of the TypeScript and Java pools

Runs of `allocRef` and `freeRef`, with the ghost list of the references that are
allocated. A `freeRef` is in two parts with the `onFree` it calls in between,
which may itself allocate and free references, and may raise.
-/
namespace PxpRpc.Pool.Managed

open PxpRpc.Lib

variable {Obj Hook : Type}

/-- `freeing` are the references whose `onFree` is running, innermost first. -/
structure History (Obj Hook : Type) where
  pool : RefPool Obj Hook
  live : List Nat
  freeing : List Nat
deriving DecidableEq, Repr

inductive Call (Obj Hook : Type) where
  | allocRef
  | freeRef (i : Nat)
  | onFreeReturns (raised : Bool)
  | setRef (i : Nat) (object : Option Obj) (onFree : Option Hook)
deriving DecidableEq, Repr

def getRef (i : Nat) (pool : RefPool Obj Hook) : Option (IndexedRef Obj Hook) := pool.refPool[i]?

namespace History

/-- The entry goes back to the free list. -/
def release (s : History Obj Hook) (i : Nat) : Option (History Obj Hook) :=
  (freeRef i s.pool).map fun r => { s with pool := r.1, live := s.live.erase i }

/-- `raisingFrees`: an entry whose `onFree` raises is released all the same. -/
def step (expand : RefPool Obj Hook → RefPool Obj Hook) (raisingFrees : Bool) (s : History Obj Hook) :
    Call Obj Hook → Option (History Obj Hook)
  | .allocRef => (allocRef expand s.pool).map fun r => { s with pool := r.1, live := r.2 :: s.live }
  | .freeRef i => (getRef i s.pool).bind fun ref2 =>
      match ref2.onFree with
      | none => s.release i
      | some _ => some { s with freeing := i :: s.freeing }
  | .onFreeReturns raised => match s.freeing with
      | [] => none
      | i :: outer =>
        let s := { s with freeing := outer }
        if raised && !raisingFrees then some s else s.release i
  | .setRef i object onFree => (setRef i object onFree s.pool).map fun pool => { s with pool }

/-- Only allocated references are freed and written to, and none while it is
being freed. -/
def AllocatedOnly (s : History Obj Hook) : Call Obj Hook → Prop
  | .allocRef => True
  | .freeRef i => i ∈ s.live ∧ i ∉ s.freeing
  | .onFreeReturns _ => s.freeing ≠ []
  | .setRef i _ _ => i ∈ s.live

instance (s : History Obj Hook) : ∀ call : Call Obj Hook, Decidable (AllocatedOnly s call)
  | .allocRef => isTrue trivial
  | .freeRef i => inferInstanceAs (Decidable (i ∈ s.live ∧ i ∉ s.freeing))
  | .onFreeReturns _ => inferInstanceAs (Decidable (s.freeing ≠ []))
  | .setRef i _ _ => inferInstanceAs (Decidable (i ∈ s.live))

end History

namespace TypeScript

/-- `new Server(io1)` -/
def init : History Obj Hook := ⟨RefPool.empty, [], []⟩

/-- An `onFree` that raises leaves `freeRef` before the entry is touched. -/
def step : History Obj Hook → Call Obj Hook → Option (History Obj Hook) :=
  History.step expandRefPools false

end TypeScript

namespace Java

/-- `new ServerContext()` and its `init`. -/
def init : History Obj Hook := ⟨expandRefPools RefPool.empty, [], []⟩

/-- `PxpRef.free` catches what `onFree.close()` raises. -/
def step : History Obj Hook → Call Obj Hook → Option (History Obj Hook) :=
  History.step expandRefPools true

end Java

namespace History

/-- Every entry has its own index, and is allocated or on the free list, exactly
once; the next allocation returns an entry that is not allocated; expansion
leaves every entry's object and callback alone. -/
structure Orderly (expand : RefPool Obj Hook → RefPool Obj Hook) (s : History Obj Hook) : Prop where
  indexed : ∀ i < s.pool.refPool.length, ∃ ref, getRef i s.pool = some ref ∧ ref.index = i
  divided : ∃ free, s.pool.FreeList free ∧ (free ++ s.live).Perm (List.range s.pool.refPool.length)
  fresh : ∃ pool i, allocRef expand s.pool = some (pool, i) ∧ i < pool.refPool.length ∧ i ∉ s.live
  expanded : ∀ i < s.pool.refPool.length, (expand s.pool).contents i = s.pool.contents i

/-- The entries are divided and those being freed are allocated still, each
once. -/
structure Inv (last : Nat) (s : History Obj Hook) : Prop where
  sound : Sound last last s.pool s.live
  freeing : s.freeing.Nodup ∧ ∀ i ∈ s.freeing, i ∈ s.live

variable {last : Nat} {raisingFrees : Bool} {s s' : History Obj Hook}

/-- No entry is lost when a block is linked up to its last entry. -/
theorem orderly_of_sound (h : Sound last last s.pool s.live) :
    Orderly (expandRefPools last last) s where
  indexed i hi := ⟨_, List.getElem?_eq_getElem hi, h.indexed i _ (List.getElem?_eq_getElem hi)⟩
  divided := by
    obtain ⟨free, lost, hf, hp, hlost⟩ := h.partition
    have hzero : lost.length = 0 := by
      rw [Nat.sub_self, Nat.zero_mul] at hlost
      exact (Nat.mul_eq_zero.mp hlost).resolve_right (by omega)
    rw [List.eq_nil_of_length_eq_zero hzero, List.append_nil] at hp
    exact ⟨free, hf, hp⟩
  fresh := by
    obtain ⟨pool, i, ha, hi, hs, -⟩ := allocRef_sound h le_rfl
    exact ⟨pool, i, ha, hs.live_lt List.mem_cons_self, hi⟩
  expanded i hi := by
    unfold RefPool.contents
    rw [getElem?_expandRefPools le_rfl (by omega), if_pos hi]

theorem inv_release (h : Inv last s) {i : Nat} (hi : i ∈ s.live) (hf : i ∉ s.freeing) :
    ∃ s', s.release i = some s' ∧ Inv last s' := by
  obtain ⟨pool, hook, hr, -, hs⟩ := freeRef_sound h.sound hi
  refine ⟨{ s with pool := pool, live := s.live.erase i }, by simp [release, hr], hs, h.freeing.1, ?_⟩
  intro j hj
  have hji : j ≠ i := fun he => hf (he ▸ hj)
  exact (List.mem_erase_of_ne hji).mpr (h.freeing.2 j hj)

/-- A call on allocated references succeeds and keeps the invariant. -/
theorem inv_step (h : Inv last s) {call : Call Obj Hook} (hc : AllocatedOnly s call) :
    ∃ s', step (expandRefPools last last) raisingFrees s call = some s' ∧ Inv last s' := by
  cases call with
  | allocRef =>
    obtain ⟨pool, i, ha, -, hs, -⟩ := allocRef_sound h.sound le_rfl
    refine ⟨{ s with pool := pool, live := i :: s.live }, by simp [step, ha], hs, h.freeing.1, ?_⟩
    exact fun j hj => List.mem_cons_of_mem _ (h.freeing.2 j hj)
  | freeRef i =>
    have hget : getRef i s.pool = some _ := List.getElem?_eq_getElem (h.sound.live_lt hc.1)
    simp only [step, hget, Option.bind_some]
    split
    · exact inv_release h hc.1 hc.2
    · refine ⟨_, rfl, h.sound, List.nodup_cons.mpr ⟨hc.2, h.freeing.1⟩, ?_⟩
      exact List.forall_mem_cons.mpr ⟨hc.1, h.freeing.2⟩
  | onFreeReturns raised =>
    obtain ⟨i, outer, hfr⟩ := List.exists_cons_of_ne_nil hc
    obtain ⟨hnd, hlive⟩ := h.freeing
    rw [hfr] at hnd hlive
    obtain ⟨hi, hnd⟩ := List.nodup_cons.mp hnd
    have hpop : Inv last { s with freeing := outer } :=
      ⟨h.sound, hnd, fun j hj => hlive j (List.mem_cons_of_mem i hj)⟩
    simp only [step, hfr]
    split
    · exact ⟨_, rfl, hpop⟩
    · exact inv_release hpop (hlive i List.mem_cons_self) hi
  | setRef i object onFree =>
    have hget := List.getElem?_eq_getElem (h.sound.live_lt hc)
    obtain ⟨pool, hset⟩ : ∃ pool, setRef i object onFree s.pool = some pool := by
      unfold setRef
      rw [hget]
      exact ⟨_, rfl⟩
    refine ⟨{ s with pool := pool }, by rw [step, hset, Option.map_some], ?_, h.freeing⟩
    exact setRef_sound h.sound hset

theorem inv_run (calls : List (Call Obj Hook)) : ∀ {s : History Obj Hook}, Inv last s →
    Along (step (expandRefPools last last) raisingFrees) AllocatedOnly s calls →
      ∃ s', run (step (expandRefPools last last) raisingFrees) s calls = some s' ∧ Inv last s' := by
  induction calls with
  | nil => exact fun {s} h _ => ⟨s, rfl, h⟩
  | cons call calls ih =>
    intro s h ha
    obtain ⟨s', hs', h'⟩ : ∃ s', step (expandRefPools last last) raisingFrees s call = some s' ∧
        Inv last s' := inv_step h ha.1
    obtain ⟨t, ht, hInv⟩ := ih h' (ha.2 s' hs')
    exact ⟨t, run_cons_eq_some.mpr ⟨s', hs', ht⟩, hInv⟩

end History

theorem TypeScript.inv_init : History.Inv 255 (TypeScript.init : History Obj Hook) :=
  ⟨sound_empty, List.nodup_nil, by simp [TypeScript.init]⟩

theorem Java.inv_init : History.Inv 255 (Java.init : History Obj Hook) :=
  ⟨(sound_expandRefPools sound_empty le_rfl (Threads.nil_iff.mpr rfl)).1, List.nodup_nil,
    by simp [Java.init]⟩

/-- Over any run of calls on allocated references no call fails, and the pool
stays orderly. -/
theorem refPool_orderly (calls : List (Call Obj Hook)) :
    (Along TypeScript.step History.AllocatedOnly TypeScript.init calls →
      ∃ s, run TypeScript.step TypeScript.init calls = some s ∧
        s.Orderly TypeScript.expandRefPools) ∧
    (Along Java.step History.AllocatedOnly Java.init calls →
      ∃ s, run Java.step Java.init calls = some s ∧ s.Orderly Java.expandRefPools) := by
  constructor
  · intro ha
    obtain ⟨s, hs, h⟩ := History.inv_run calls TypeScript.inv_init ha
    exact ⟨s, hs, History.orderly_of_sound h.sound⟩
  · intro ha
    obtain ⟨s, hs, h⟩ := History.inv_run calls Java.inv_init ha
    exact ⟨s, hs, History.orderly_of_sound h.sound⟩

/-- A callback that frees another reference before its own `freeRef` goes on. -/
def nestedFree : List (Call Unit Unit) :=
  [.allocRef, .allocRef, .setRef 0 (some ()) (some ()), .freeRef 0, .freeRef 1, .onFreeReturns false,
    .allocRef]

theorem nestedFree_orderly :
    (∃ s, run TypeScript.step TypeScript.init nestedFree = some s ∧
      s.Orderly TypeScript.expandRefPools) ∧
    (∃ s, run Java.step Java.init nestedFree = some s ∧ s.Orderly Java.expandRefPools) :=
  ⟨(refPool_orderly nestedFree).1 (by decide +kernel), (refPool_orderly nestedFree).2 (by decide +kernel)⟩

end PxpRpc.Pool.Managed
