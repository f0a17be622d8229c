import PxpRpc.Pool.Hooks
import PxpRpc.Server.Confined

/-!
# The callbacks of referenced objects

Users of the pool register an `on_free` with an entry. It is called when the
entry is freed or when the context is closed, and then it is taken out of the
entry; in between the environment is in control.
-/
namespace PxpRpc.Server

open PxpRpc.Lib PxpRpc.Lib.Callback PxpRpc.Pool PxpRpc.Pool.Native

/-- A context and the callbacks that have been registered in its pool. -/
structure Registry where
  ctx : ServCo
  registered : List Nat

/-- The callback that a call registers. -/
def Entry.onFree : Entry → Option Nat
  | .allocRef _ onFree => onFree
  | _ => none

namespace Registry

def exec (k : Code) (s : Registry) : Option (Registry × Stack) :=
  (Server.exec k s.ctx).map fun (ctx, items) => ({ s with ctx }, items)

def enter (e : Entry) (s : Registry) : Option (Registry × Stack) :=
  (Server.enter e s.ctx).map fun (ctx, items) => (⟨ctx, s.registered ++ e.onFree.toList⟩, items)

def program : Program Registry Code Ext Entry := ⟨exec, enter⟩

abbrev Config := Callback.Config Registry Code Ext

def new (funcmap : Option (List UInt8 → Option Nat)) (onClosed : Bool) : Config :=
  ⟨⟨(Server.new funcmap onClosed).state, []⟩, []⟩

end Registry

/-- Code that works on an entry it has found in use. -/
def Code.frees : Code → Bool
  | .freePush _ | .closeRefs _ | .closeUnset _ => true
  | _ => false

/-- No callback is called more often than it was registered. When the loop of
`pxprpc_server_close` is over all have been called, and what is done to an entry that is being
freed is defined. -/
structure FreedOnce (s : Registry.Config) : Prop where
  atMost : ∀ hook, s.state.ctx.log.count (.freed hook) ≤ s.state.registered.count hook
  swept : s.state.ctx.closed → (∀ i, .code (.closeRefs i) ∉ s.stack) →
    ∀ hook, s.state.ctx.log.count (.freed hook) = s.state.registered.count hook
  noFault : ∀ k rest, s.stack = .code k :: rest → k.frees → s.state.ctx.live → exec k s.state.ctx ≠ none

/-! ### Assumptions on the steps of a run -/

/-- The entries whose callback has been called or that have none, and that are still to be freed. -/
def freeing (stack : Stack) : List Ptr :=
  stack.filterMap fun
    | .code (.freePush ref) | .code (.closeUnset ref) => some ref
    | _ => none

def busy (stack : Stack) : List Nat := (freeing stack).map Ptr.index

/-- `ref_pool_size` does not overflow, and the pool is not moved while an entry is freed. -/
def Allocates (pool : RefPool Obj Nat) (stack : Stack) : Prop :=
  Grows pool ∧ (pool.freeRefEntry = none → freeing stack = [])

/-- Entries are freed that are in use and not being freed already, the context is not closed while
one with a callback is freed; callbacks are registered while the context is open, and nothing is
allocated before it is started. -/
def Registers (s : Registry.Config) : Move Entry → Prop
  | .run =>
      match s.stack with
      | .code (.freeRef ref) :: rest =>
          s.state.ctx.pool.InUse ref.index ∧ ref.index ∉ busy rest
      | .code (.closeRefs i) :: rest =>
          (s.state.ctx.pool.hookAt i).isSome → i ∉ busy rest
      | .code (.step .stepGetFunc1 _) :: rest => Allocates s.state.ctx.pool rest
      | _ => True
  | .enter (.allocRef _ onFree) =>
      Allocates s.state.ctx.pool s.stack ∧ (onFree.isSome → s.state.ctx.closed = false)
  | .enter .start => s.state.ctx.pool.refPool = [] ∧ s.state.ctx.pool.freeRefEntry = none
  | _ => True

instance (pool : RefPool Obj Nat) (stack : Stack) : Decidable (Allocates pool stack) := by
  unfold Allocates
  infer_instance

def Code.freed : Code → Option Ptr
  | .freeRef ref => some ref
  | _ => none

def Code.swept : Code → Option Nat
  | .closeRefs i => some i
  | _ => none

theorem registers_code {s : Registry} {k : Code} {rest : Stack} : Registers ⟨s, .code k :: rest⟩ .run ↔
    (∀ ref ∈ k.freed, s.ctx.pool.InUse ref.index ∧ ref.index ∉ busy rest) ∧
    (∀ i ∈ k.swept, (s.ctx.pool.hookAt i).isSome → i ∉ busy rest) ∧
    ∀ r ∈ k.request, k = .step .stepGetFunc1 r → Allocates s.ctx.pool rest := by
  cases k with
  | step f r => cases f <;> simp [Registers, Code.request, Code.freed, Code.swept]
  | _ => simp [Registers, Code.request, Code.freed, Code.swept]

theorem registers_enter {s : Registry.Config} {e : Entry} : Registers s (.enter e) ↔
    (e.allocates → Allocates s.state.ctx.pool s.stack) ∧ (e.onFree.isSome → s.state.ctx.closed = false) ∧
    (e = .start → s.state.ctx.pool.refPool = [] ∧ s.state.ctx.pool.freeRefEntry = none) := by
  cases e <;> simp [Registers, Entry.allocates, Entry.onFree]

instance : ∀ (s : Registry.Config) (m : Move Entry), Decidable (Registers s m) :=
  decidableMove (fun _ _ _ => decidable_of_iff _ registers_code.symm) (fun _ _ => decidable_of_iff _ registers_enter.symm)
    (fun _ => trivial) (fun _ _ _ => trivial) (fun _ => trivial)

/-! ### The invariant -/

/-- Up to index `i` the loop of `pxprpc_server_close` has left no callback to be called. -/
def SweptTo (pool : RefPool Obj Nat) (stack : Stack) (i : Nat) : Prop :=
  ∀ j < i, pool.hookAt j = none ∨ j ∈ busy stack

structure Owes (s : Registry) (stack : Stack) : Prop where
  pool : ∃ live, Tidy s.ctx.pool live ∧ ∀ ref ∈ freeing stack, ref.block = s.ctx.pool.block ∧ ref.index ∈ live
  nodup : (busy stack).Nodup
  waits : ∀ k, .code k ∈ stack.tail → k.waits
  starting : .code .start ∈ stack → s.ctx.pool.refPool = [] ∧ s.ctx.pool.freeRefEntry = none
  current : ∀ ref, .code (.freeRef ref) ∈ stack → ref.block = s.ctx.pool.block
  owed : ∀ hook, s.registered.count hook = s.ctx.log.count (.freed hook) + owed s.ctx.pool.hookAt (busy stack) hook
  swept : s.ctx.closed → (∃ i, .code (.closeRefs i) ∈ stack ∧ SweptTo s.ctx.pool stack i) ∨
    ∀ i, SweptTo s.ctx.pool stack i

theorem owes_new (funcmap : Option (List UInt8 → Option Nat)) (onClosed : Bool) :
    Owes (Registry.new funcmap onClosed).state (Registry.new funcmap onClosed).stack where
  pool := ⟨[], Tidy.empty, fun _ hm => absurd hm List.not_mem_nil⟩
  nodup := List.nodup_nil
  waits _ hm := absurd hm List.not_mem_nil
  starting hm := absurd hm List.not_mem_nil
  current _ hm := absurd hm List.not_mem_nil
  owed hook := by
    have hz : owed (RefPool.empty : RefPool Obj Nat).hookAt (busy []) hook = 0 := owed_eq_zero fun _ => .inl rfl
    show 0 = 0 + owed (RefPool.empty : RefPool Obj Nat).hookAt (busy []) hook
    rw [hz]
  swept h := by cases h

/-! ### What the code does to the pool -/

section

variable {c c' : ServCo} {k : Code} {rest stack items : Stack} {ref : Ptr}

@[simp] theorem freeing_append (stack stack' : Stack) : freeing (stack ++ stack') = freeing stack ++ freeing stack' :=
  List.filterMap_append

theorem exec_freeRef (h : exec (.freeRef ref) c = some (c', items)) : ∃ e, c.pool.deref ref = some e ∧
    ((∃ hook, e.onFree = some hook ∧ c' = c.emit (.freed hook) ∧ items = [.ext (.onFree hook), .code (.freePush ref)]) ∨
      (e.onFree = none ∧ c' = c ∧ items = [.code (.freePush ref)])) := by
  rw [exec.eq_def] at h
  split at h
  · cases h
  · obtain ⟨e, hd, h⟩ := Option.map_eq_some_iff.mp h
    refine ⟨e, hd, ?_⟩
    cases hf : e.onFree with
    | some hook =>
      rw [hf] at h
      obtain ⟨rfl, rfl⟩ := Prod.mk.inj h
      exact .inl ⟨hook, rfl, rfl, rfl⟩
    | none =>
      rw [hf] at h
      obtain ⟨rfl, rfl⟩ := Prod.mk.inj h
      exact .inr ⟨rfl, rfl, rfl⟩

theorem exec_freePush (h : exec (.freePush ref) c = some (c', items)) :
    ∃ pool, pushRef ref c.pool = some pool ∧ c' = { c with pool } ∧ items = [] := by
  rw [exec.eq_def] at h
  split at h
  · cases h
  · obtain ⟨pool, hp, h⟩ := Option.map_eq_some_iff.mp h
    obtain ⟨rfl, rfl⟩ := Prod.mk.inj h
    exact ⟨pool, hp, rfl, rfl⟩

theorem exec_closeUnset (h : exec (.closeUnset ref) c = some (c', items)) :
    ∃ pool, setRef c.pool ref none none = some pool ∧ c' = { c with pool } ∧ items = [] := by
  rw [exec.eq_def] at h
  split at h
  · cases h
  · obtain ⟨e, hd, h⟩ := Option.bind_eq_some_iff.mp h
    obtain ⟨pool, hp, h⟩ := Option.map_eq_some_iff.mp h
    obtain ⟨rfl, rfl⟩ := Prod.mk.inj h
    exact ⟨pool, by rw [setRef, hd]; exact hp, rfl, rfl⟩

theorem exec_closeRefs {i : Nat} (h : exec (.closeRefs i) c = some (c', items)) :
    (i < c.pool.refPoolSize.toNat ∧ ∃ e, c.pool.deref (serverGetRef c.pool i) = some e ∧
      ((∃ hook, e.onFree = some hook ∧ c' = c.emit (.freed hook) ∧
          items = [.ext (.onFree hook), .code (.closeUnset (serverGetRef c.pool i)), .code (.closeRefs (i + 1))]) ∨
        (e.onFree = none ∧ ∃ pool, setRef c.pool (serverGetRef c.pool i) none none = some pool ∧ c' = { c with pool } ∧
          items = [.code (.closeRefs (i + 1))]))) ∨
    (¬ i < c.pool.refPoolSize.toNat ∧ c' = c ∧ items = [.code .closeIo]) := by
  rw [exec.eq_def] at h
  split at h
  · cases h
  · dsimp only [closeRefs] at h
    split at h
    · rename_i hlt
      obtain ⟨e, hd, h⟩ := Option.bind_eq_some_iff.mp h
      refine .inl ⟨hlt, e, hd, ?_⟩
      cases hf : e.onFree with
      | some hook =>
        rw [hf] at h
        obtain ⟨rfl, rfl⟩ := Prod.mk.inj (Option.some.inj h)
        exact .inl ⟨hook, rfl, rfl, rfl⟩
      | none =>
        have hobject := @store_object _ _ c.pool _ e none hd
        rw [hf] at h hobject
        obtain ⟨pool, hp, h⟩ := Option.map_eq_some_iff.mp h
        obtain ⟨rfl, rfl⟩ := Prod.mk.inj h
        rw [hobject] at hp
        exact .inr ⟨rfl, pool, hp, rfl, rfl⟩
    · rename_i hlt
      obtain ⟨rfl, rfl⟩ := Prod.mk.inj (Option.some.inj h)
      exact .inr ⟨hlt, rfl, rfl⟩

/-- A new function gets an entry; nothing happens to the callbacks. -/
theorem exec_getFunc {r : Nat} (h : exec (.step .stepGetFunc1 r) c = some (c', items)) :
    (c'.log = c.log ∧ c'.closed = c.closed ∧ items = [.code (.step .stepCall2 r)]) ∧
    (c'.pool = c.pool ∨ ∃ pool ref2 index e func, serverAllocRef c.pool = some (pool, ref2, index) ∧
      pool.deref ref2 = some e ∧ setRef pool ref2 (some (.callable func)) e.onFree = some c'.pool) := by
  rw [exec.eq_def] at h
  split at h
  · cases h
  · obtain ⟨⟨c₁, index⟩, hg, h⟩ := Option.map_eq_some_iff.mp h
    obtain ⟨rfl, rfl⟩ := Prod.mk.inj h
    rw [getFunc.eq_def] at hg
    split at hg
    · obtain ⟨rfl, -⟩ := Prod.mk.inj (Option.some.inj hg)
      exact ⟨⟨rfl, rfl, rfl⟩, .inl rfl⟩
    · obtain ⟨name, -, hg⟩ := Option.bind_eq_some_iff.mp hg
      split at hg
      · obtain ⟨rfl, -⟩ := Prod.mk.inj (Option.some.inj hg)
        exact ⟨⟨rfl, rfl, rfl⟩, .inl rfl⟩
      · rename_i func _
        obtain ⟨⟨pool, ref2, i⟩, ha, hg⟩ := Option.bind_eq_some_iff.mp hg
        obtain ⟨e, hd, hg⟩ := Option.bind_eq_some_iff.mp hg
        obtain ⟨pool', hs, hg⟩ := Option.map_eq_some_iff.mp hg
        obtain ⟨rfl, -⟩ := Prod.mk.inj hg
        rw [store_object hd] at hs
        exact ⟨⟨rfl, rfl, rfl⟩, .inr ⟨pool, ref2, i, e, func, ha, hd, hs⟩⟩

/-- The code sets no callback and takes none away. -/
def Code.keepsPool : Code → Bool
  | .start | .step .stepGetFunc1 _ | .close | .freeRef _ => false
  | k => !k.frees

theorem pool_runs (hr : Runs c k c' items) (hk : k.keepsPool) :
    c'.pool = c.pool ∧ c'.closed = c.closed ∧ (∀ hook, c'.log.count (.freed hook) = c.log.count (.freed hook)) ∧
      freeing items = [] := by
  cases hr <;> first
    | cases hk; done
    | exact ⟨rfl, rfl, fun hook => by simp [List.count_append, apply_ite (List.count _)], rfl⟩

variable {registered live : List Nat}

theorem freeing_cons (hk : ∀ ref, k ≠ .freePush ref ∧ k ≠ .closeUnset ref) : freeing (.code k :: rest) = freeing rest := by
  cases k with
  | freePush ref => exact absurd rfl (hk ref).1
  | closeUnset ref => exact absurd rfl (hk ref).2
  | _ => rfl

/-- Code that is not the loop of the close leaves the loop on its way. -/
theorem swept_tail {pool pool' : RefPool Obj Nat} {stack' : Stack}
    (h : (∃ i, .code (.closeRefs i) ∈ .code k :: rest ∧ SweptTo pool stack i) ∨ ∀ i, SweptTo pool stack i)
    (hk : ∀ i, k ≠ .closeRefs i) (hb : ∀ j, pool.hookAt j = none ∨ j ∈ busy stack → pool'.hookAt j = none ∨ j ∈ busy stack') :
    (∃ i, .code (.closeRefs i) ∈ items ++ rest ∧ SweptTo pool' stack' i) ∨ ∀ i, SweptTo pool' stack' i := by
  rcases h with ⟨i, hm, hs⟩ | hs
  · refine .inl ⟨i, List.mem_append_right _ ?_, fun j hj => hb j (hs j hj)⟩
    rcases List.mem_cons.mp hm with he | hm
    · exact absurd (Item.code.inj he).symm (hk i)
    · exact hm
  · exact .inr fun i j hj => hb j (hs i j hj)

theorem owes_keeps (h : Owes ⟨c, registered⟩ (.code k :: rest)) (hr : Runs c k c' items) (hk : k.keepsPool)
    (hcurrent : ∀ ref, .code (.freeRef ref) ∈ items ++ rest → ref.block = c'.pool.block)
    (hstart : .code .start ∉ items ++ rest) : Owes ⟨c', registered⟩ (items ++ rest) := by
  obtain ⟨hpool, hclosed, hfreed, hitems⟩ := pool_runs hr hk
  have hne : ∀ ref, k ≠ .freePush ref ∧ k ≠ .closeUnset ref := fun ref => by
    constructor <;> rintro rfl <;> cases hk
  have hf : freeing (items ++ rest) = freeing (.code k :: rest) := by
    rw [freeing_append, hitems, List.nil_append, freeing_cons hne]
  have hb : busy (items ++ rest) = busy (.code k :: rest) := by
    unfold busy
    rw [hf]
  refine ⟨?_, hb ▸ h.nodup, waits_runs h.waits hr, fun hm => absurd hm hstart, hcurrent, fun hook => ?_, fun hc => ?_⟩
  · rw [hpool, hf]
    exact h.pool
  · rw [hpool, hb, hfreed]
    exact h.owed hook
  · rw [hpool]
    refine swept_tail (h.swept (hclosed ▸ hc)) (fun i => ?_) fun j hj => hb ▸ hj
    rintro rfl
    cases hk

theorem owes_close (h : Owes ⟨c, registered⟩ (.code .close :: rest)) (hr : Runs c .close c' items) :
    Owes ⟨c', registered⟩ (items ++ rest) := by
  have hstart : .code .start ∉ rest := fun hm => absurd (h.waits _ hm) (by decide)
  have hfree : ∀ ref, .code (.freeRef ref) ∉ rest := fun ref hm => absurd (h.waits _ hm) (by simp [Code.waits])
  cases hr with
  | closeAgain hc =>
    exact ⟨h.pool, h.nodup, waits_runs h.waits (.closeAgain hc), fun hm => absurd hm hstart,
      fun ref hm => absurd hm (hfree ref), h.owed,
      fun hcl => swept_tail (h.swept hcl) (by simp) fun j hj => hj⟩
  | close hc =>
    refine ⟨h.pool, h.nodup, waits_runs h.waits (.close hc), fun hm => absurd hm (by simpa using hstart),
      fun ref hm => absurd hm (by simpa using hfree ref), h.owed, fun _ => .inl ⟨0, by simp, fun j hj => ?_⟩⟩
    exact absurd hj (Nat.not_lt_zero j)

/-- The pool that is lost at the start has no entries. -/
theorem owes_start (h : Owes ⟨c, registered⟩ (.code .start :: rest)) (hr : Runs c .start c' items) :
    Owes ⟨c', registered⟩ (items ++ rest) := by
  have hstart : .code .start ∉ rest := fun hm => absurd (h.waits _ hm) (by decide)
  have hfree : ∀ ref, .code (.freeRef ref) ∉ rest := fun ref hm => absurd (h.waits _ hm) (by simp [Code.waits])
  obtain ⟨hnil, hnone⟩ := h.starting List.mem_cons_self
  obtain ⟨live, (ht : Tidy c.pool live), hlive⟩ := h.pool
  have hbusy : freeing rest = [] := by
    refine List.eq_nil_iff_forall_not_mem.mpr fun ref hm => ?_
    have hlt := ht.live_lt (hlive ref hm).2
    rw [hnil] at hlt
    exact absurd hlt (Nat.not_lt_zero _)
  have hw := waits_runs h.waits hr
  cases hr with
  | start =>
    refine ⟨⟨[], ⟨⟨⟨[], ?_, List.Perm.refl _⟩, Nat.zero_le _, dvd_zero _, rfl⟩, Nat.zero_lt_succ _, fun _ _ => rfl⟩,
      fun ref hm => ?_⟩,
      ?_, hw, fun hm => absurd hm (by simpa using hstart), fun ref hm => absurd hm (by simpa using hfree ref), fun hook => ?_,
      fun hc => by cases hc⟩
    · exact Threads.nil_iff.mpr hnone
    · have hm : ref ∈ freeing rest := hm
      rw [hbusy] at hm
      cases hm
    · exact h.nodup
    · have := h.owed hook
      have hhook : c.pool.hookAt = fun _ => none := by
        funext i
        rw [RefPool.hookAt, hnil]
        rfl
      rw [hhook] at this
      exact this

theorem owes_getFunc {r : Nat} (h : Owes ⟨c, registered⟩ (.code (.step .stepGetFunc1 r) :: rest))
    (ha : Allocates c.pool rest) (he : exec (.step .stepGetFunc1 r) c = some (c', items)) :
    Owes ⟨c', registered⟩ (items ++ rest) := by
  have hstart : .code .start ∉ rest := fun hm => absurd (h.waits _ hm) (by decide)
  have hfree : ∀ ref, .code (.freeRef ref) ∉ rest := fun ref hm => absurd (h.waits _ hm) (by simp [Code.waits])
  have hw := waits_runs h.waits (exec_runs he)
  obtain ⟨⟨hlog, hclosed, rfl⟩, hpool⟩ := exec_getFunc he
  obtain ⟨live, (ht : Tidy c.pool live), hlive⟩ := h.pool
  obtain ⟨live', ht', hlive', hhook⟩ : ∃ live', Tidy c'.pool live' ∧
      (∀ ref ∈ freeing rest, ref.block = c'.pool.block ∧ ref.index ∈ live') ∧ ∀ j, c'.pool.hookAt j = c.pool.hookAt j := by
    rcases hpool with hsame | ⟨pool, ref2, index, e, func, halloc, hd, hset⟩
    · rw [hsame]
      exact ⟨live, ht, hlive, fun _ => rfl⟩
    · obtain ⟨rfl, hindex, ht₁, hhook₁, -, hblock₁⟩ := ht.serverAllocRef ha.1 halloc
      obtain ⟨ht₂, hhook₂, hblock₂, -⟩ := ht₁.setRef (.inl List.mem_cons_self) hset
      refine ⟨_, ht₂, fun ref hm => ?_, fun j => ?_⟩
      · have hne : c.pool.freeRefEntry ≠ none := by
          intro hn
          rw [ha.2 hn] at hm
          cases hm
        rw [hblock₂, hblock₁ hne]
        exact ⟨(hlive ref hm).1, List.mem_cons_of_mem _ (hlive ref hm).2⟩
      · rw [hhook₂ j, ← (hookAt_deref hd).1]
        split
        · rename_i hj
          rw [← hhook₁ j, hj]
        · exact hhook₁ j
  have hfun : c'.pool.hookAt = c.pool.hookAt := funext hhook
  refine ⟨⟨live', ht', hlive'⟩, h.nodup, hw, fun hm => absurd hm (by simpa using hstart),
    fun ref hm => absurd hm (by simpa using hfree ref), fun hook => ?_, fun hc => ?_⟩
  · rw [hfun, hlog]
    exact h.owed hook
  · refine swept_tail (h.swept (hclosed ▸ hc)) (by simp) fun j hj => ?_
    rw [hfun]
    exact hj

/-- The callback of an entry that is in use is called, and the entry is being freed from then on. -/
theorem owed_call (ht : Tidy c.pool live) {index hook' : Nat} (hf : c.pool.hookAt index = some hook')
    (hb : index ∉ busy rest) (hook : Nat) :
    owed c.pool.hookAt (busy rest) hook =
      owed c.pool.hookAt (index :: busy rest) hook + if hook' = hook then 1 else 0 :=
  owed_cons ht.finite hf hb

theorem count_freed (hook hook' : Nat) :
    (c.emit (.freed hook')).log.count (.freed hook) = c.log.count (.freed hook) + if hook' = hook then 1 else 0 := by
  show (c.log ++ [Event.freed hook']).count (Event.freed hook) = _
  rw [List.count_append, List.count_singleton]
  by_cases he : hook' = hook <;> simp [he]

theorem owes_freeRef (h : Owes ⟨c, registered⟩ (.code (.freeRef ref) :: rest))
    (hin : c.pool.InUse ref.index) (hb : ref.index ∉ busy rest) (he : exec (.freeRef ref) c = some (c', items)) :
    Owes ⟨c', registered⟩ (items ++ rest) := by
  have hstart : .code .start ∉ rest := fun hm => absurd (h.waits _ hm) (by decide)
  have hfree : ∀ ref, .code (.freeRef ref) ∉ rest := fun ref hm => absurd (h.waits _ hm) (by simp [Code.waits])
  have hw := waits_runs h.waits (exec_runs he)
  obtain ⟨live, (ht : Tidy c.pool live), hlive⟩ := h.pool
  have hmem := ht.inUse_iff.mp hin
  obtain ⟨e, hd, hcase⟩ := exec_freeRef he
  obtain ⟨hhook, -, hblock⟩ := hookAt_deref hd
  have hpool : c'.pool = c.pool := by
    rcases hcase with ⟨hook, -, rfl, -⟩ | ⟨-, rfl, -⟩ <;> rfl
  have hclosed : c'.closed = c.closed := by
    rcases hcase with ⟨hook, -, rfl, -⟩ | ⟨-, rfl, -⟩ <;> rfl
  have hfreeing : freeing (items ++ rest) = ref :: freeing rest := by
    rcases hcase with ⟨hook, -, -, rfl⟩ | ⟨-, -, rfl⟩ <;> rfl
  have hbusy : busy (items ++ rest) = ref.index :: busy rest := by
    unfold busy
    rw [hfreeing, List.map_cons]
  refine ⟨⟨live, hpool ▸ ht, fun p hm => ?_⟩, hbusy ▸ List.nodup_cons.mpr ⟨hb, h.nodup⟩, hw, fun hm => ?_, fun p hm => ?_,
    fun hook => ?_, fun hc => ?_⟩
  · rw [hfreeing] at hm
    rw [hpool]
    rcases List.mem_cons.mp hm with rfl | hm
    · exact ⟨hblock, hmem⟩
    · exact hlive p hm
  · rcases hcase with ⟨hook, -, -, rfl⟩ | ⟨-, -, rfl⟩ <;> simp [hstart] at hm
  · rcases hcase with ⟨hook, -, -, rfl⟩ | ⟨-, -, rfl⟩ <;> simp [hfree] at hm
  · have howed : registered.count hook = c.log.count (.freed hook) + owed c.pool.hookAt (busy rest) hook := h.owed hook
    rw [hpool, hbusy]
    rcases hcase with ⟨hook', hf, rfl, -⟩ | ⟨hf, rfl, -⟩
    · have hcall := owed_call ht (hhook.trans hf) hb hook
      show registered.count hook =
        (c.emit (.freed hook')).log.count (.freed hook) + owed c.pool.hookAt (ref.index :: busy rest) hook
      rw [count_freed]
      omega
    · refine howed.trans (congrArg _ (owed_congr fun j => ?_).symm)
      by_cases hj : j = ref.index
      · subst hj
        simp [hhook, hf]
      · simp [hj]
  · rw [hpool]
    refine swept_tail (h.swept (hclosed ▸ hc)) (by simp) fun j hj => ?_
    rw [hbusy]
    exact hj.imp_right (List.mem_cons_of_mem _)

/-- An entry that is being freed loses its callback, which has been called. -/
theorem owed_clear {pool : RefPool Obj Nat} {i : Nat} (hi : i ∉ busy rest)
    (hs : ∀ j, pool.hookAt j = if j = i then none else c.pool.hookAt j) (hook : Nat) :
    owed pool.hookAt (busy rest) hook = owed c.pool.hookAt (i :: busy rest) hook := by
  refine owed_congr fun j => ?_
  by_cases hj : j = i
  · subst hj
    simp [hs]
  · simp [hs, hj]

theorem swept_clear {pool : RefPool Obj Nat} {i : Nat} (hs : ∀ j, pool.hookAt j = if j = i then none else c.pool.hookAt j)
    (j : Nat) (hj : c.pool.hookAt j = none ∨ j ∈ i :: busy rest) : pool.hookAt j = none ∨ j ∈ busy rest := by
  rw [hs j]
  by_cases he : j = i
  · exact .inl (if_pos he)
  · rw [if_neg he]
    exact hj.imp_right fun hm => (List.mem_cons.mp hm).resolve_left he

theorem owes_freePush (h : Owes ⟨c, registered⟩ (.code (.freePush ref) :: rest))
    (he : exec (.freePush ref) c = some (c', items)) : Owes ⟨c', registered⟩ (items ++ rest) := by
  have hstart : .code .start ∉ rest := fun hm => absurd (h.waits _ hm) (by decide)
  have hfree : ∀ ref, .code (.freeRef ref) ∉ rest := fun ref hm => absurd (h.waits _ hm) (by simp [Code.waits])
  have hw := waits_runs h.waits (exec_runs he)
  obtain ⟨live, (ht : Tidy c.pool live), hlive⟩ := h.pool
  obtain ⟨hb, hmem⟩ := hlive ref List.mem_cons_self
  obtain ⟨pool, hp, rfl, rfl⟩ := exec_freePush he
  obtain ⟨ht', hhook, hblock⟩ := ht.pushRef hmem hp
  have hnodup : (ref.index :: busy rest).Nodup := h.nodup
  obtain ⟨hnot, hnodup⟩ := List.nodup_cons.mp hnodup
  refine ⟨⟨_, ht', fun p hm => ?_⟩, hnodup, hw, fun hm => absurd hm hstart, fun p hm => absurd hm (hfree p), fun hook => ?_,
    fun hc => swept_tail (h.swept hc) (by simp) (swept_clear hhook)⟩
  · have hne : p.index ≠ ref.index := fun he => hnot (List.mem_map.mpr ⟨p, hm, he⟩)
    obtain ⟨hpb, hpm⟩ := hlive p (List.mem_cons_of_mem _ hm)
    exact ⟨hpb.trans hblock.symm, (List.mem_erase_of_ne hne).mpr hpm⟩
  · exact (h.owed hook).trans (congrArg _ (owed_clear hnot hhook hook).symm)

theorem owes_closeUnset (h : Owes ⟨c, registered⟩ (.code (.closeUnset ref) :: rest))
    (he : exec (.closeUnset ref) c = some (c', items)) : Owes ⟨c', registered⟩ (items ++ rest) := by
  have hstart : .code .start ∉ rest := fun hm => absurd (h.waits _ hm) (by decide)
  have hfree : ∀ ref, .code (.freeRef ref) ∉ rest := fun ref hm => absurd (h.waits _ hm) (by simp [Code.waits])
  have hw := waits_runs h.waits (exec_runs he)
  obtain ⟨live, (ht : Tidy c.pool live), hlive⟩ := h.pool
  obtain ⟨pool, hp, rfl, rfl⟩ := exec_closeUnset he
  obtain ⟨ht', hhook, hblock, -⟩ := ht.setRef (.inr rfl) hp
  have hnodup : (ref.index :: busy rest).Nodup := h.nodup
  obtain ⟨hnot, hnodup⟩ := List.nodup_cons.mp hnodup
  refine ⟨⟨_, ht', fun p hm => ?_⟩, hnodup, hw, fun hm => absurd hm hstart, fun p hm => absurd hm (hfree p), fun hook => ?_,
    fun hc => swept_tail (h.swept hc) (by simp) (swept_clear hhook)⟩
  · obtain ⟨hpb, hpm⟩ := hlive p (List.mem_cons_of_mem _ hm)
    exact ⟨hpb.trans hblock.symm, hpm⟩
  · exact (h.owed hook).trans (congrArg _ (owed_clear hnot hhook hook).symm)

/-- The loop of `pxprpc_server_close` has dealt with one more entry, or with all. -/
theorem swept_next {pool : RefPool Obj Nat} {i i' : Nat} {stack' : Stack}
    (h : (∃ i', .code (.closeRefs i') ∈ .code (.closeRefs i) :: rest ∧ SweptTo c.pool stack i') ∨
      ∀ i', SweptTo c.pool stack i')
    (hm : .code (.closeRefs i') ∈ items) (hi : pool.hookAt i = none ∨ i ∈ busy stack')
    (hi' : i' = i + 1) (hb : ∀ j, c.pool.hookAt j = none ∨ j ∈ busy stack → pool.hookAt j = none ∨ j ∈ busy stack') :
    (∃ i', .code (.closeRefs i') ∈ items ++ rest ∧ SweptTo pool stack' i') ∨ ∀ i', SweptTo pool stack' i' := by
  subst hi'
  rcases h with ⟨i', hm', hs⟩ | hs
  · rcases List.mem_cons.mp hm' with he | hm'
    · obtain rfl : i' = i := by simpa using he
      refine .inl ⟨i' + 1, List.mem_append_left _ hm, fun j hj => ?_⟩
      by_cases he : j = i'
      · exact he ▸ hi
      · exact hb j (hs j (by omega))
    · exact .inl ⟨i', List.mem_append_right _ hm', fun j hj => hb j (hs j hj)⟩
  · exact .inr fun i j hj => hb j (hs i j hj)

/-- The loop of `pxprpc_server_close` calls the callback of one entry, passes an entry without
one, or ends. -/
theorem owes_closeRefs {i : Nat} (h : Owes ⟨c, registered⟩ (.code (.closeRefs i) :: rest))
    (hb : (c.pool.hookAt i).isSome → i ∉ busy rest) (he : exec (.closeRefs i) c = some (c', items)) :
    Owes ⟨c', registered⟩ (items ++ rest) := by
  have hstart : .code .start ∉ rest := fun hm => absurd (h.waits _ hm) (by decide)
  have hfree : ∀ ref, .code (.freeRef ref) ∉ rest := fun ref hm => absurd (h.waits _ hm) (by simp [Code.waits])
  have hw := waits_runs h.waits (exec_runs he)
  obtain ⟨live, (ht : Tidy c.pool live), hlive⟩ := h.pool
  have hlive : ∀ p ∈ freeing rest, p.block = c.pool.block ∧ p.index ∈ live := hlive
  have howed : ∀ hook, registered.count hook = c.log.count (.freed hook) + owed c.pool.hookAt (busy rest) hook := h.owed
  rcases exec_closeRefs he with ⟨hlt, e, hd, ⟨hook', hf, rfl, rfl⟩ | ⟨hf, pool, hp, rfl, rfl⟩⟩ | ⟨hlt, rfl, rfl⟩
  · have hhook : c.pool.hookAt i = some hook' := (hookAt_deref hd).1.trans hf
    have hnot := hb (by rw [hhook]; rfl)
    have hmem : i ∈ live := by
      by_contra hn
      rw [ht.clear i hn] at hhook
      cases hhook
    refine ⟨⟨live, ht, fun p hm => ?_⟩, List.nodup_cons.mpr ⟨hnot, h.nodup⟩, hw, fun hm => ?_, fun p hm => ?_,
      fun hook => ?_, fun hc => ?_⟩
    · have hm : p = serverGetRef c.pool i ∨ p ∈ freeing rest := List.mem_cons.mp hm
      rcases hm with rfl | hm
      · exact ⟨rfl, hmem⟩
      · exact hlive p hm
    · simp [hstart] at hm
    · simp [hfree] at hm
    · have hcall := owed_call ht hhook hnot hook
      show registered.count hook =
        (c.emit (.freed hook')).log.count (.freed hook) + owed c.pool.hookAt (i :: busy rest) hook
      rw [count_freed, howed]
      omega
    · exact swept_next (h.swept hc) (by simp) (.inr List.mem_cons_self) rfl fun j hj => hj.imp_right (List.mem_cons_of_mem _)
  · have hhook : c.pool.hookAt i = none := (hookAt_deref hd).1.trans hf
    obtain ⟨ht', hhook', hblock, -⟩ := ht.setRef (.inr rfl) hp
    have hsame : pool.hookAt = c.pool.hookAt := by
      funext j
      refine (hhook' j).trans ?_
      split
      · rename_i hj
        have hj : j = i := hj
        rw [hj, hhook]
      · rfl
    refine ⟨⟨live, ht', fun p hm => ⟨(hlive p hm).1.trans hblock.symm, (hlive p hm).2⟩⟩, h.nodup, hw, fun hm => ?_,
      fun p hm => ?_, fun hook => ?_, fun hc => ?_⟩
    · simp [hstart] at hm
    · simp [hfree] at hm
    · show registered.count hook = c.log.count (.freed hook) + owed pool.hookAt (busy rest) hook
      rw [hsame]
      exact howed hook
    · refine swept_next (h.swept hc) (by simp) (.inl (hsame ▸ hhook)) rfl fun j hj => ?_
      rw [hsame]
      exact hj
  · refine ⟨h.pool, h.nodup, hw, fun hm => ?_, fun p hm => ?_, h.owed, fun hc => ?_⟩
    · simp [hstart] at hm
    · simp [hfree] at hm
    · rcases h.swept hc with ⟨i', hm, hs⟩ | hs
      · rcases List.mem_cons.mp hm with he | hm
        · obtain rfl : i' = i := by simpa using he
          refine .inr fun n j hj => ?_
          by_cases hj : j < i'
          · exact hs j hj
          · refine .inl (ht.clear j fun hm => ?_)
            have := ht.live_lt hm
            have := ht.toNat_size
            omega
        · exact .inl ⟨i', List.mem_append_right _ hm, hs⟩
      · exact .inr hs

theorem owes_exec (h : Owes ⟨c, registered⟩ (.code k :: rest)) (hg : Registers ⟨⟨c, registered⟩, .code k :: rest⟩ .run)
    (he : exec k c = some (c', items)) : Owes ⟨c', registered⟩ (items ++ rest) := by
  have hr := exec_runs he
  by_cases hk : k.keepsPool
  · refine owes_keeps h hr hk (fun ref hm => ?_) fun hm => ?_
    · rw [(pool_runs hr hk).1]
      rcases List.mem_append.mp hm with hm | hm
      · cases hr with
        | freeRefs hi hw =>
          obtain rfl : ref = _ := by simpa using hm
          rfl
        | _ => simp at hm
      · exact absurd (h.waits _ hm) (by simp [Code.waits])
    · rcases List.mem_append.mp hm with hm | hm
      · cases hr <;> simp at hm
      · exact absurd (h.waits _ hm) (by decide)
  · cases k with
    | start => exact owes_start h hr
    | close => exact owes_close h hr
    | freeRef ref => exact owes_freeRef h hg.1 hg.2 he
    | freePush ref => exact owes_freePush h he
    | closeRefs i => exact owes_closeRefs h hg he
    | closeUnset ref => exact owes_closeUnset h he
    | step f r =>
      cases f with
      | stepGetFunc1 => exact owes_getFunc h hg he
      | _ => exact absurd rfl hk
    | _ => exact absurd rfl hk

theorem owes_ret {s : Registry} {e : Ext} (h : Owes s (.ext e :: rest)) : Owes s rest where
  pool := h.pool
  nodup := h.nodup
  waits k hm := h.waits k (List.mem_of_mem_tail hm)
  starting hm := h.starting (List.mem_cons_of_mem _ hm)
  current ref hm := h.current ref (List.mem_cons_of_mem _ hm)
  owed := h.owed
  swept hc := (h.swept hc).imp_left fun ⟨i, hm, hs⟩ => ⟨i, List.mem_of_ne_of_mem (by simp) hm, hs⟩

/-- A registration while the context is open. -/
theorem owes_allocRef {object : Obj} {onFree : Option Nat} (h : Owes ⟨c, registered⟩ stack) (henv : EnvControls stack)
    (ha : Allocates c.pool stack) (ho : onFree.isSome → c.closed = false)
    (he : enter (.allocRef object onFree) c = some (c', items)) :
    Owes ⟨c', registered ++ onFree.toList⟩ (items ++ stack) := by
  have hw := waits_of_envControls h.waits henv
  have hstart : .code .start ∉ stack := fun hm => absurd (hw _ hm) (by decide)
  have hfree : ∀ ref, .code (.freeRef ref) ∉ stack := fun ref hm => absurd (hw _ hm) (by simp [Code.waits])
  obtain ⟨live, (ht : Tidy c.pool live), hlive⟩ := h.pool
  obtain ⟨pool, ref, i, halloc, pool', hset, rfl, rfl⟩ : ∃ pool ref i, serverAllocRef c.pool = some (pool, ref, i) ∧
      ∃ pool', setRef pool ref (some object) onFree = some pool' ∧ c' = { c with pool := pool' } ∧ items = [] := by
    rw [enter.eq_def] at he
    dsimp only at he
    split at he
    · obtain ⟨⟨pool, ref, i⟩, halloc, he⟩ := Option.bind_eq_some_iff.mp he
      obtain ⟨pool', hset, he⟩ := Option.map_eq_some_iff.mp he
      obtain ⟨rfl, rfl⟩ := Prod.mk.inj he
      exact ⟨pool, ref, i, halloc, pool', hset, rfl, rfl⟩
    · cases he
  obtain ⟨rfl, hi, ht₁, hhook₁, -, hblock₁⟩ := ht.serverAllocRef ha.1 halloc
  obtain ⟨ht₂, hhook₂, hblock₂, -⟩ := ht₁.setRef (.inl List.mem_cons_self) hset
  have hnone : c.pool.hookAt i = none := ht.clear i hi
  have hbusy : i ∉ busy stack := fun hm => by
    obtain ⟨p, hp, rfl⟩ := List.mem_map.mp hm
    exact hi (hlive p hp).2
  have hhook : ∀ j, pool'.hookAt j = if j = i then onFree else c.pool.hookAt j := by
    intro j
    rw [hhook₂ j]
    split
    · rfl
    · exact hhook₁ j
  refine ⟨⟨_, ht₂, fun p hm => ?_⟩, h.nodup, fun k hm => h.waits k hm, fun hm => absurd hm hstart,
    fun p hm => absurd hm (hfree p), fun hook => ?_, fun hc => ?_⟩
  · have hne : c.pool.freeRefEntry ≠ none := by
      intro hn
      have hm : p ∈ freeing stack := hm
      rw [ha.2 hn] at hm
      cases hm
    obtain ⟨hpb, hpm⟩ := hlive p hm
    exact ⟨by rw [hblock₂, hblock₁ hne]; exact hpb, List.mem_cons_of_mem _ hpm⟩
  · have howed : registered.count hook = c.log.count (.freed hook) + owed c.pool.hookAt (busy stack) hook := h.owed hook
    show (registered ++ onFree.toList).count hook = c.log.count (.freed hook) + owed pool'.hookAt (busy stack) hook
    cases onFree with
    | none =>
      have hsame : pool'.hookAt = c.pool.hookAt := by
        funext j
        rw [hhook j]
        split
        · rename_i hj
          rw [hj, hnone]
        · rfl
      rw [hsame]
      simpa using howed
    | some hook' =>
      have hset : owed pool'.hookAt _ hook = _ := owed_set ht.finite hnone hbusy hhook
      rw [hset, List.count_append, howed]
      by_cases he : hook' = hook <;> simp [he, Nat.add_assoc]
  · have honly : onFree = none := by
      cases onFree with
      | none => rfl
      | some hook =>
        rw [ho rfl] at hc
        cases hc
    have hsweep : ∀ n, SweptTo c.pool stack n → SweptTo pool' stack n := by
      intro n hs j hj
      rw [hhook j, honly]
      split
      · exact .inl rfl
      · exact hs j hj
    rcases h.swept hc with ⟨i', hm, hs⟩ | hs
    · exact .inl ⟨i', hm, hsweep i' hs⟩
    · exact .inr fun n => hsweep n (hs n)

/-- Nothing but a registration comes from outside. -/
theorem owes_enter {e : Entry} (h : Owes ⟨c, registered⟩ stack) (henv : EnvControls stack)
    (hg : Registers ⟨⟨c, registered⟩, stack⟩ (.enter e)) (he : enter e c = some (c', items)) :
    Owes ⟨c', registered ++ e.onFree.toList⟩ (items ++ stack) := by
  by_cases hk : ∃ object onFree, e = .allocRef object onFree
  · obtain ⟨object, onFree, rfl⟩ := hk
    exact owes_allocRef h henv hg.1 hg.2 he
  · have hw := waits_of_envControls h.waits henv
    have hstart : .code .start ∉ stack := fun hm => absurd (hw _ hm) (by decide)
    have hfree : ∀ ref, .code (.freeRef ref) ∉ stack := fun ref hm => absurd (hw _ hm) (by simp [Code.waits])
    have hent := enter_enters he
    have hnone : e.onFree.toList = [] := by
      cases e with
      | allocRef object onFree => exact absurd ⟨object, onFree, rfl⟩ hk
      | _ => rfl
    have hpool : c'.pool = c.pool := by
      cases hent with
      | allocRef => exact absurd ⟨_, _, rfl⟩ hk
      | _ => rfl
    have hclosed : c'.closed = c.closed := by cases hent <;> rfl
    have hfreed : ∀ hook, c'.log.count (.freed hook) = c.log.count (.freed hook) := fun hook => by
      cases hent <;> simp [List.count_append]
    have hitems : freeing items = [] := by cases hent <;> rfl
    have hfreeing : freeing (items ++ stack) = freeing stack := by rw [freeing_append, hitems, List.nil_append]
    have hbusy : busy (items ++ stack) = busy stack := congrArg (List.map Ptr.index) hfreeing
    rw [hnone, List.append_nil]
    refine ⟨?_, hbusy ▸ h.nodup, waits_enter hw hent, fun hm => ?_, fun ref hm => ?_, fun hook => ?_, fun hc => ?_⟩
    · rw [hpool, hfreeing]
      exact h.pool
    · rw [hpool]
      cases hent with
      | start => exact hg
      | _ => exact absurd hm (by simpa using hstart)
    · rw [hpool]
      cases hent with
      | @freeRef index hl =>
        have hm : ref = serverGetRef c.pool index ∨ .code (.freeRef ref) ∈ stack := by simpa using hm
        rcases hm with rfl | hm
        · rfl
        · exact absurd hm (hfree ref)
      | _ => exact absurd hm (by simpa using hfree ref)
    · rw [hpool, hbusy, hfreed]
      exact h.owed hook
    · rw [hpool]
      have hswept : ∀ n, SweptTo c.pool (items ++ stack) n ↔ SweptTo c.pool stack n := by
        intro n
        unfold SweptTo
        rw [hbusy]
      rcases h.swept (hclosed ▸ hc) with ⟨i, hm, hs⟩ | hs
      · exact .inl ⟨i, List.mem_append_right _ hm, (hswept i).mpr hs⟩
      · exact .inr fun n => (hswept n).mpr (hs n)

end

/-! ### Whole runs -/

theorem owes_preserves : Registry.program.Preserves Registers fun s => Owes s.state s.stack where
  exec := by
    intro s k rest s' items h hg he
    obtain ⟨⟨c', items'⟩, he', hs⟩ := Option.map_eq_some_iff.mp he
    obtain ⟨rfl, rfl⟩ := Prod.mk.inj hs
    exact owes_exec h hg he'
  ret h _ := owes_ret h
  enter := by
    intro s stack e s' items henv h hg he
    obtain ⟨⟨c', items'⟩, he', hs⟩ := Option.map_eq_some_iff.mp he
    obtain ⟨rfl, rfl⟩ := Prod.mk.inj hs
    exact owes_enter h henv hg he'

theorem Owes.freedOnce {s : Registry.Config} (h : Owes s.state s.stack) : FreedOnce s where
  atMost hook := by
    have := h.owed hook
    omega
  swept hc hend hook := by
    have hs : ∀ i, SweptTo s.state.ctx.pool s.stack i :=
      (h.swept hc).resolve_left fun ⟨i, hm, _⟩ => hend i hm
    have howed := h.owed hook
    rw [owed_eq_zero fun i => hs (i + 1) i (Nat.lt_succ_self i)] at howed
    omega
  noFault k rest hst hk hl := by
    obtain ⟨⟨c, registered⟩, stack⟩ := s
    obtain rfl : stack = .code k :: rest := hst
    obtain ⟨live, (ht : Tidy c.pool live), hlive⟩ := h.pool
    have hl : c.live = true := hl
    have hsize := ht.toNat_size
    have hderef : ∀ ref ∈ freeing (.code k :: rest), ref = ⟨c.pool.block, ref.index⟩ ∧ ref.index < c.pool.refPool.length :=
      fun ref hm => by
        obtain ⟨hb, hm⟩ := hlive ref hm
        exact ⟨by rw [← show ref.block = c.pool.block from hb], ht.live_lt hm⟩
    show exec k c ≠ none
    have hrequest : k.request = none := by
      cases k <;> first
        | rfl
        | cases hk
    rw [exec.eq_def, if_neg (by simp [hl, hrequest])]
    cases k with
    | freePush ref =>
      obtain ⟨hr, hlt⟩ := hderef ref List.mem_cons_self
      rw [hr]
      simp [pushRef_eq hlt]
    | closeUnset ref =>
      obtain ⟨hr, hlt⟩ := hderef ref List.mem_cons_self
      rw [hr]
      simp [deref_lt hlt, RefPool.store]
    | closeRefs i =>
      dsimp only [closeRefs]
      split
      · rename_i hi
        have hd := deref_lt (show i < c.pool.refPool.length by omega)
        simp only [serverGetRef, hd, Option.bind_some]
        split
        · simp
        · simp [RefPool.store, hd]
      · simp
    | _ => cases hk

/-- Whoever registers, frees and closes and in whatever order: every callback that is registered
is called, once. -/
theorem registrations_freedOnce (funcmap : Option (List UInt8 → Option Nat)) (onClosed : Bool) (ms : List (Move Entry))
    (s : Registry.Config) (hg : Along Registry.program.step Registers (Registry.new funcmap onClosed) ms)
    (h : run Registry.program.step (Registry.new funcmap onClosed) ms = some s) : FreedOnce s :=
  (owes_preserves.run (owes_new funcmap onClosed) hg h).freedOnce

/-- Two objects are registered; one entry is freed, the other is left to the close. -/
def freedAndClosed : List (Move Entry) :=
  List.flatten
    [[.enter .start, .run, .run, .ret, .enter (.allocRef (.other 7) (some 3)), .enter (.allocRef (.other 8) (some 4)),
        .enter (.freeRef 0), .run, .ret, .run, .enter .close, .run, .run, .run, .ret],
      List.replicate 65 .run, [.ret, .run]]

theorem freedAndClosed_once : ∃ s, run Registry.program.step (Registry.new none false) freedAndClosed = some s ∧
    s.state.ctx.closed ∧ s.stack = [] ∧ s.state.registered = [3, 4] ∧ FreedOnce s := by
  have hr : ∃ s, run Registry.program.step (Registry.new none false) freedAndClosed = some s ∧
      s.state.ctx.closed ∧ s.stack = [] ∧ s.state.registered = [3, 4] := exists_run (by decide +kernel)
  obtain ⟨s, hs, hc, hst, hreg⟩ := hr
  exact ⟨s, hs, hc, hst, hreg, registrations_freedOnce none false _ s (by decide +kernel) hs⟩

/-- A callable is pending when the context is closed, and registers its object then. -/
def registersLate : List (Move Entry) :=
  List.flatten
    [[.enter .start, .run, .run, .ret, .enter (.allocRef (.callable 7) none),
        .enter (.recvDone [1, 0, 0, 0, 0, 0, 0, 0]), .run, .run, .run, .ret, .run, .ret, .enter .close],
      List.replicate 67 .run,
      [.ret, .run, .enter (.allocRef (.other 8) (some 3)),
        .enter (.resume 0 ⟨false, ⟨[1, 0, 0, 0], []⟩, none, none, false⟩), .run, .run, .run, .enter .delete, .run, .run,
        .run]]

/-- Everything is over, and the object has not been freed. -/
theorem registersLate_forgets : ∃ s, run Registry.program.step (Registry.new none false) registersLate = some s ∧
    s.stack = [] ∧ s.state.ctx.closed ∧ s.state.registered = [3] ∧ s.state.ctx.log.count (.freed 3) = 0 ∧
    ¬ FreedOnce s := by
  have hr : ∃ s, run Registry.program.step (Registry.new none false) registersLate = some s ∧
      s.stack = [] ∧ s.state.ctx.closed ∧ s.state.registered = [3] ∧ s.state.ctx.log.count (.freed 3) = 0 :=
    exists_run (by decide +kernel)
  obtain ⟨s, hs, hst, hc, hreg, hcount⟩ := hr
  refine ⟨s, hs, hst, hc, hreg, hcount, fun h => ?_⟩
  have := h.swept hc (by simp [hst]) 3
  rw [hcount, hreg] at this
  cases this

end PxpRpc.Server
