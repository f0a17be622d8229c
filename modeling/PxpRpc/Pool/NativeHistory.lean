import PxpRpc.Pool.NativeInvariant

/-!
# Histories of the C pool

Runs of `pxprpc_server_alloc_ref`, `pxprpc_server_free_ref` and the owners'
writes to their entries, with the ghost list of the references that are live.
-/
namespace PxpRpc.Pool.Native

open PxpRpc.Lib

variable {Obj Hook : Type}

/-- An owner's write to the entry at `index`. -/
structure SetRef (Obj Hook : Type) where
  index : Nat
  object : Option Obj
  onFree : Option Hook
deriving DecidableEq, Repr

/-- The C pool as an index allocator. -/
def allocator (Obj Hook : Type) : Allocator (RefPool Obj Hook) (SetRef Obj Hook) where
  alloc pool := (serverAllocRef pool).map fun r => (r.1, r.2.2)
  free i pool := (serverFreeRef (serverGetRef pool i) pool).map Prod.fst
  write w pool := setRef pool (serverGetRef pool w.index) w.object w.onFree
  size pool := pool.refPool.length
  FreeList := RefPool.FreeList

abbrev State (Obj Hook : Type) := Allocator.State (RefPool Obj Hook)

abbrev Op (Obj Hook : Type) := Allocator.Op (SetRef Obj Hook)

def init : State Obj Hook := ⟨RefPool.empty, []⟩

/-- One operation of a history. -/
def step : State Obj Hook → Op Obj Hook → Option (State Obj Hook) := (allocator Obj Hook).step

theorem lawful : (allocator Obj Hook).Lawful (· < refPoolLimit) Sound where
  nodup h := h.nodup
  live_lt h := h.live_lt
  alloc h hl := by
    obtain ⟨pool', i, ha, hi, -, hs, -⟩ := serverAllocRef_sound h hl
    exact ⟨pool', i, by simp [allocator, ha], hi, hs⟩
  alloc_full h hl := by
    obtain ⟨pool', ha, h0⟩ := serverAllocRef_full h hl
    exact ⟨pool', 0, by simp [allocator, ha], h0⟩
  free h hi := by
    obtain ⟨pool', hook, hf, hlen, hs⟩ := serverFreeRef_sound h hi
    exact ⟨pool', by simp [allocator, hf], hlen, hs⟩
  free_dead h hlt _ := by
    obtain ⟨pool', hook, l, hf, hl, hl'⟩ := serverFreeRef_dead h hlt
    exact ⟨pool', l, by simp [allocator, hf], hl, hl'⟩
  write h hw := setRef_sound h hw

/-- References are released by their owners, once each, and owners write to
their own entries only. -/
def OwnersOnly (s : State Obj Hook) : Op Obj Hook → Prop
  | .alloc => True
  | .free is => is.Nodup ∧ ∀ i ∈ is, i ∈ s.live
  | .write w => w.index ∈ s.live

instance (s : State Obj Hook) : ∀ op : Op Obj Hook, Decidable (OwnersOnly s op)
  | .alloc => isTrue trivial
  | .free is => inferInstanceAs (Decidable (is.Nodup ∧ ∀ i ∈ is, i ∈ s.live))
  | .write w => inferInstanceAs (Decidable (w.index ∈ s.live))

/-- Every index below `ref_pool_size` is live or on the free list, exactly once. -/
def Divided (s : State Obj Hook) : Prop :=
  ∃ free, s.pool.FreeList free ∧
    ∀ i < s.pool.refPoolSize.toNat, free.count i + s.live.count i = 1

/-- Allocation returns the entry of an index that is not live, and leaves what
the live entries refer to unchanged. -/
def AllocatesFresh (s : State Obj Hook) : Prop :=
  ∃ pool' i, serverAllocRef s.pool = some (pool', serverGetRef pool' i, i) ∧ i ∉ s.live ∧
    i < pool'.refPool.length ∧ ∀ j ∈ s.live, pool'.contents j = s.pool.contents j

/-- What the pool promises of one operation. -/
def Keeps (s : State Obj Hook) (op : Op Obj Hook) : Prop :=
  (op = .alloc → AllocatesFresh s) ∧ ∃ s', step s op = some s' ∧ Divided s'

/-- Allocations find fewer than 65536 live references. -/
def NotFull (s : State Obj Hook) (op : Op Obj Hook) : Prop :=
  op = .alloc → s.live.length < refPoolLimit

theorem Sound.divided {s : State Obj Hook} (h : Sound s.pool s.live) : Divided s := by
  obtain ⟨free, hf, -⟩ := h.partition
  refine ⟨free, hf, fun i hi => h.count_eq hf ?_⟩
  have := h.toNat_size
  have := Nat.mod_le s.pool.refPool.length refPoolLimit
  omega

theorem step_write {s : State Obj Hook} (h : Sound s.pool s.live) {w : SetRef Obj Hook}
    (hw : w.index ∈ s.live) : ∃ s', step s (.write w) = some s' := by
  have hlt := h.live_lt hw
  simp [step, Allocator.step, allocator, setRef, serverGetRef, RefPool.store, deref_lt hlt]

theorem notFull_disciplined {s : State Obj Hook} {op : Op Obj Hook} (ho : OwnersOnly s op)
    (hn : NotFull s op) : Allocator.Disciplined (· < refPoolLimit) s op := by
  cases op with
  | alloc => exact hn rfl
  | free is => exact ho
  | write w => exact trivial

/-- While the pool is sound, an owners' operation keeps its promises exactly
when it does not allocate from a full pool. -/
theorem keeps_iff {s : State Obj Hook} {op : Op Obj Hook} (h : Sound s.pool s.live)
    (ho : OwnersOnly s op) : Keeps s op ↔ NotFull s op := by
  cases op with
  | alloc =>
    constructor
    · rintro ⟨ha, -⟩ -
      by_contra hfull
      obtain ⟨pool', ha', h0⟩ := serverAllocRef_full h hfull
      obtain ⟨p, i, hp, hi, -⟩ := ha rfl
      have he := Option.some.inj (hp.symm.trans ha')
      obtain rfl : i = 0 := congrArg (fun r => r.2.2) he
      exact hi h0
    · intro hroom
      obtain ⟨pool', i, ha, hi, hlt, hs, hc⟩ := serverAllocRef_sound h (hroom rfl)
      refine ⟨fun _ => ⟨pool', i, ha, hi, hlt, hc⟩, ⟨pool', i :: s.live⟩, ?_, hs.divided⟩
      simp [step, Allocator.step, allocator, ha]
  | free is =>
    refine iff_of_true ⟨by simp, ?_⟩ (by simp [NotFull])
    obtain ⟨s', hrun, hs, -⟩ := lawful.free_all h ho.1 ho.2
    exact ⟨s', hrun, Sound.divided hs⟩
  | write w =>
    refine iff_of_true ⟨by simp, ?_⟩ (by simp [NotFull])
    obtain ⟨s', hs'⟩ := step_write h ho
    exact ⟨s', hs', Sound.divided (lawful.step_sound h (notFull_disciplined ho (by simp [NotFull])) hs')⟩

/-- Over any history of the owners' operations the pool keeps its promises at
every step if and only if no step allocates while 65536 references are live. -/
theorem refPool_keeps_iff (ops : List (Op Obj Hook)) (ho : Along step OwnersOnly init ops) :
    Along step Keeps init ops ↔ Along step NotFull init ops :=
  along_iff (J := fun s => Sound s.pool s.live)
    (fun _ _ _ hJ hL hn h => lawful.step_sound hJ (notFull_disciplined hL hn) h)
    (fun _ _ hJ hL => keeps_iff hJ hL) sound_empty ho

theorem ownersOnly_allocs (n : Nat) :
    ∀ s : State Obj Hook, Along step OwnersOnly s (List.replicate n .alloc) := by
  induction n with
  | zero => exact fun _ => trivial
  | succ n ih =>
    intro s
    rw [List.replicate_succ]
    exact ⟨trivial, fun s' _ => ih s'⟩

theorem run_allocs {n : Nat} (hn : n ≤ refPoolLimit) :
    ∃ s : State Obj Hook, run step init (List.replicate n .alloc) = some s ∧
      Sound s.pool s.live ∧ s.live.length = n := by
  induction n with
  | zero => exact ⟨init, rfl, sound_empty, rfl⟩
  | succ n ih =>
    obtain ⟨s, hr, hs, hl⟩ := ih (by omega)
    obtain ⟨pool', i, ha, -, -, hs', -⟩ := serverAllocRef_sound hs (by omega)
    refine ⟨⟨pool', i :: s.live⟩, ?_, hs', by simp [hl]⟩
    rw [List.replicate_succ', run_append, hr]
    simp [run, step, Allocator.step, allocator, ha]

/-- Filling the pool and allocating once more hands out a live index. -/
theorem not_keeps_allocs {n : Nat} (hn : n = refPoolLimit + 1) :
    ¬ Along step Keeps (init : State Obj Hook) (List.replicate n .alloc) := by
  intro hk
  obtain ⟨s, hr, hs, hl⟩ := @run_allocs Obj Hook refPoolLimit le_rfl
  rw [hn, List.replicate_succ'] at hk
  obtain ⟨⟨ha, -⟩, -⟩ := (hk.append hr).2
  obtain ⟨pool', i, hp, hi, -⟩ := ha rfl
  obtain ⟨pool'', ha', h0⟩ := serverAllocRef_full hs (by omega)
  have he := Option.some.inj (hp.symm.trans ha')
  obtain rfl : i = 0 := congrArg (fun r => r.2.2) he
  exact hi h0

/-- The 65537th allocation in a row is handed an index that is live. -/
theorem refPool_overflows :
    Along step OwnersOnly (init : State Unit Unit) (List.replicate 65537 .alloc) ∧
    ¬ Along step Keeps (init : State Unit Unit) (List.replicate 65537 .alloc) :=
  ⟨ownersOnly_allocs _ _, not_keeps_allocs (by norm_num [refPoolLimit])⟩

/-- One allocation and its release. -/
theorem refPool_keeps_pair :
    Along step Keeps (init : State Unit Unit) [.alloc, .free [0]] ↔
      Along step NotFull (init : State Unit Unit) [.alloc, .free [0]] :=
  refPool_keeps_iff _ (by decide +kernel)

end PxpRpc.Pool.Native
