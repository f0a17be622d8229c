import PxpRpc.Pool.Hooks
import PxpRpc.Server.Tasks

/-!
# Objects that are closed with their references

`allocRefFor` registers the `close` of an object as the `onFree` of its reference. While
an `onFree` is running the application is in control: it may call the server again, and it
may raise.
-/
namespace PxpRpc.Server.AutoClose

open PxpRpc.Lib
open PxpRpc.Pool
open PxpRpc.Pool.Managed
open PxpRpc.Pool.Native (owed owed_congr owed_cons owed_set owed_eq_zero)
open PxpRpc.Server.Tasks (Lang)

/-- An `onFree` that is running, called by `freeRef` or by the loop of `close`. -/
inductive Frame where
  | freeing (i : Nat)
  | sweeping (i : Nat)
deriving DecidableEq, Repr

def Frame.index : Frame → Nat
  | freeing i | sweeping i => i

/-- A server; `live` are the references that are allocated, `registered` and `called` the
`onFree` callbacks. -/
structure Registry (Obj Hook : Type) where
  refPool : RefPool Obj Hook
  live : List Nat
  running : Bool
  stack : List Frame
  registered : List Hook
  called : List Hook
deriving DecidableEq, Repr

inductive Input (Obj Hook : Type) where
  | allocRefFor (obj : Obj) (close : Option Hook)
  | freeRef (i : Nat)
  | close
  /-- the innermost `onFree` that is running returns or raises -/
  | onFreeReturns (raised : Bool)
deriving DecidableEq, Repr

variable {Obj Hook : Type}

def hookAt (pool : RefPool Obj Hook) (i : Nat) : Option Hook := pool.refPool[i]?.bind fun ref => ref.onFree

def busy (stack : List Frame) : List Nat := stack.map Frame.index

namespace Registry

def new : Registry Obj Hook := ⟨RefPool.empty, [], true, [], [], []⟩

/-- `freeRef` behind `onFree`. -/
def release (s : Registry Obj Hook) (i : Nat) : Option (Registry Obj Hook) :=
  (freeRef i s.refPool).map fun r => { s with refPool := r.1, live := s.live.erase i }

end Registry

/-- The loop of `close` from an index on, up to the next `onFree` that it calls. -/
def sweep : Nat → Nat → RefPool Obj Hook → RefPool Obj Hook × Option (Nat × Hook)
  | 0, _, pool => (pool, none)
  | fuel + 1, i, pool =>
    match pool.refPool[i]? with
    | none => (pool, none)
    | some ref2 =>
      match ref2.onFree with
      | some onFree => (pool, some (i, onFree))
      | none => sweep fuel (i + 1) { pool with refPool := pool.refPool.set i { ref2 with object := none } }

/-- The loop sees the entries that are added while it runs. -/
def Registry.sweepFrom (s : Registry Obj Hook) (i : Nat) : Registry Obj Hook :=
  match sweep (s.refPool.refPool.length - i) i s.refPool with
  | (refPool, none) => { s with refPool }
  | (refPool, some (j, onFree)) =>
    { s with refPool, stack := .sweeping j :: s.stack, called := s.called ++ [onFree] }

def step (lang : Lang) (s : Registry Obj Hook) : Input Obj Hook → Option (Registry Obj Hook)
  | .allocRefFor obj close => (allocRef (Tasks.expandRefPools lang) s.refPool).bind fun (pool, i) =>
    pool.refPool[i]?.bind fun ref =>
      (setRef i (some obj) (close.or ref.onFree) pool).map fun refPool =>
        { s with refPool, live := i :: s.live, registered := s.registered ++ close.toList }
  | .freeRef i => s.refPool.refPool[i]?.bind fun ref2 =>
    match ref2.onFree with
    | none => s.release i
    | some onFree => some { s with stack := .freeing i :: s.stack, called := s.called ++ [onFree] }
  | .close => some (if s.running then { s with running := false }.sweepFrom 0 else s)
  | .onFreeReturns raised =>
    match s.stack with
    | [] => none
    | .freeing i :: stack => if raised then some { s with stack } else { s with stack }.release i
    | .sweeping i :: stack => if raised then some { s with stack } else
        (setRef i none none s.refPool).map fun refPool => { s with refPool, stack }.sweepFrom (i + 1)

/-- No callback is called more often than it has been registered; while none is running
those that have not been called are those of the references that are still allocated, and
once the server has been closed there are none. -/
structure ClosesOnce (s : Registry Obj Hook) [DecidableEq Hook] : Prop where
  atMost : ∀ onFree, s.called.count onFree ≤ s.registered.count onFree
  kept : s.stack = [] →
    (∀ onFree, s.registered.count onFree = s.called.count onFree + owed (hookAt s.refPool) [] onFree) ∧
    ∀ i, hookAt s.refPool i ≠ none → i ∈ s.live
  closed : s.stack = [] → s.running = false → ∀ onFree, s.called.count onFree = s.registered.count onFree

/-! ### Assumptions on the steps of a run -/

/-- The loop of `close` is under way and will still come to the entry. -/
def Registry.Awaits (s : Registry Obj Hook) (i : Nat) : Prop := ∃ f ∈ s.stack, f = .sweeping f.index ∧ f.index < i

instance (s : Registry Obj Hook) (i : Nat) : Decidable (s.Awaits i) := inferInstanceAs (Decidable (∃ f ∈ s.stack, _))

/-- `close` will still come to the entry. -/
def Registry.Ahead (s : Registry Obj Hook) (i : Nat) : Prop := s.running ∨ s.Awaits i

/-- What has a callback is registered where `close` will still come to it, a reference is
freed only while it is allocated and its callback is not running, the server is not closed
from inside of a callback, and no callback raises. -/
def Careful (lang : Lang) (s : Registry Obj Hook) : Input Obj Hook → Prop
  | .allocRefFor _ close =>
    close.isSome → s.running ∨ ∀ r ∈ allocRef (Tasks.expandRefPools lang) s.refPool, s.Awaits r.2
  | .freeRef i => i ∈ s.live ∧ i ∉ busy s.stack
  | .close => s.running → s.stack = []
  | .onFreeReturns raised => raised = false

instance (lang : Lang) (s : Registry Obj Hook) (i : Input Obj Hook) : Decidable (Careful lang s i) := by
  unfold Careful
  split
  · infer_instance
  · infer_instance
  · infer_instance
  · infer_instance

/-! ### The callbacks of a pool -/

/-- The last of the entries that the server adds at a time. -/
def lastOf : Lang → Nat
  | .typeScript => 255
  | .python => 256

theorem expandRefPools_eq {lang : Lang} :
    (Tasks.expandRefPools lang : RefPool Obj Hook → RefPool Obj Hook) = expandRefPools (lastOf lang) 255 := by
  cases lang <;> rfl

theorem le_lastOf {lang : Lang} : 255 ≤ lastOf lang := by
  cases lang <;> decide

section

variable {last linked : Nat} {pool pool' : RefPool Obj Hook} {i : Nat}

theorem hookAt_expandRefPools (hl : linked ≤ last) (j : Nat) :
    hookAt (expandRefPools last linked pool) j = hookAt pool j := by
  unfold hookAt
  by_cases hj : j < pool.refPool.length + (last + 1)
  · rw [getElem?_expandRefPools hl hj]
    split
    · rfl
    · rw [List.getElem?_eq_none (by omega)]
      rfl
  · rw [List.getElem?_eq_none (by rw [length_expandRefPools]; omega), List.getElem?_eq_none (by omega)]

theorem hookAt_allocRef (hl : linked ≤ last) (h : allocRef (expandRefPools last linked) pool = some (pool', i))
    (j : Nat) : hookAt pool' j = hookAt pool j := by
  obtain ⟨k, -, h⟩ := Option.bind_eq_some_iff.mp h
  obtain ⟨ref, -, h⟩ := Option.map_eq_some_iff.mp h
  obtain ⟨rfl, rfl⟩ := Prod.mk.inj h
  cases hf : pool.freeRefEntry with
  | none => exact hookAt_expandRefPools hl j
  | some f => rfl

theorem hookAt_set {ref : IndexedRef Obj Hook} {head : Option Nat} (hi : i < pool.refPool.length) (j : Nat) :
    hookAt ⟨pool.refPool.set i ref, head⟩ j = if j = i then ref.onFree else hookAt pool j := by
  unfold hookAt
  by_cases hj : j = i
  · subst hj
    simp [hi]
  · simp [hj, Ne.symm hj]

theorem hookAt_setRef {object : Option Obj} {onFree : Option Hook} (h : setRef i object onFree pool = some pool')
    (j : Nat) : hookAt pool' j = if j = i then onFree else hookAt pool j := by
  obtain ⟨ref, hr, rfl⟩ := Option.map_eq_some_iff.mp h
  obtain ⟨hlt, -⟩ := List.getElem?_eq_some_iff.mp hr
  exact hookAt_set hlt j

theorem hookAt_freeRef {onFree : Option Hook} (h : freeRef i pool = some (pool', onFree)) (j : Nat) :
    hookAt pool' j = if j = i then none else hookAt pool j := by
  obtain ⟨ref, hr, h⟩ := Option.map_eq_some_iff.mp h
  obtain ⟨rfl, -⟩ := Prod.mk.inj h
  obtain ⟨hlt, -⟩ := List.getElem?_eq_some_iff.mp hr
  exact hookAt_set hlt j

/-- The loop changes no callback and comes to the first one from its index on. -/
theorem sweep_spec {fuel : Nat} : ∀ {i : Nat} {pool pool' : RefPool Obj Hook} {found : Option (Nat × Hook)},
    pool.refPool.length ≤ fuel + i → sweep fuel i pool = (pool', found) →
    (∀ live, Managed.Sound last linked pool live → Managed.Sound last linked pool' live) ∧
      (∀ j, hookAt pool' j = hookAt pool j) ∧
      match found with
      | none => ∀ j, i ≤ j → hookAt pool j = none
      | some (k, onFree) => i ≤ k ∧ hookAt pool k = some onFree ∧ ∀ j, i ≤ j → j < k → hookAt pool j = none := by
  induction fuel with
  | zero =>
    intro i pool pool' found hlen h
    obtain ⟨rfl, rfl⟩ := Prod.mk.inj h
    refine ⟨fun _ hs => hs, fun _ => rfl, fun j hj => ?_⟩
    rw [hookAt, List.getElem?_eq_none (by omega)]
    rfl
  | succ fuel ih =>
    intro i pool pool' found hlen h
    rw [sweep] at h
    cases hr : pool.refPool[i]? with
    | none =>
      rw [hr] at h
      obtain ⟨rfl, rfl⟩ := Prod.mk.inj h
      refine ⟨fun _ hs => hs, fun _ => rfl, fun j hj => ?_⟩
      have hlt := List.getElem?_eq_none_iff.mp hr
      rw [hookAt, List.getElem?_eq_none (by omega)]
      rfl
    | some ref2 =>
      obtain ⟨hlt, -⟩ := List.getElem?_eq_some_iff.mp hr
      have hhook : hookAt pool i = ref2.onFree := by rw [hookAt, hr]; rfl
      simp only [hr] at h
      split at h
      · rename_i onFree hf
        obtain ⟨rfl, rfl⟩ := Prod.mk.inj h
        exact ⟨fun _ hs => hs, fun _ => rfl, le_rfl, hhook.trans hf, fun j hj hj' => absurd hj (by omega)⟩
      · rename_i hf
        set cleared : RefPool Obj Hook := { pool with refPool := pool.refPool.set i { ref2 with object := none } }
        have hset : setRef i none none pool = some cleared := by
          simp [setRef, hr, hf, cleared]
        have hsame : ∀ j, hookAt cleared j = hookAt pool j := by
          intro j
          rw [hookAt_setRef hset]
          by_cases hj : j = i
          · rw [if_pos hj, hj, hhook, hf]
          · rw [if_neg hj]
        obtain ⟨hsound, hhooks, hfound⟩ := ih (by simp [cleared]; omega) h
        refine ⟨fun live hs => hsound live (setRef_sound hs hset), fun j => (hhooks j).trans (hsame j), ?_⟩
        cases found with
        | none =>
          intro j hj
          rcases Nat.eq_or_lt_of_le hj with rfl | hj
          · rw [hhook, hf]
          · rw [← hsame]
            exact hfound j hj
        | some p =>
          obtain ⟨k, onFree⟩ := p
          obtain ⟨hk, hon, hbelow⟩ := hfound
          refine ⟨by omega, (hsame k).symm.trans hon, fun j hj hjk => ?_⟩
          rcases Nat.eq_or_lt_of_le hj with rfl | hj
          · rw [hhook, hf]
          · rw [← hsame]
            exact hbelow j hj hjk

end

/-! ### The invariant -/

theorem finite_hookAt {last : Nat} {s : Registry Obj Hook} (h : Managed.Sound last 255 s.refPool s.live)
    (hc : ∀ i, hookAt s.refPool i ≠ none → i ∈ s.live) :
    {i | hookAt s.refPool i ≠ none}.Finite :=
  (Set.finite_Iio s.refPool.refPool.length).subset fun i hi => h.live_lt (hc i hi)

variable [DecidableEq Hook]

structure Keeps (last : Nat) (s : Registry Obj Hook) : Prop where
  sound : Managed.Sound last 255 s.refPool s.live
  clear : ∀ i, hookAt s.refPool i ≠ none → i ∈ s.live
  busyLive : ∀ i ∈ busy s.stack, i ∈ s.live
  busyNodup : (busy s.stack).Nodup
  owed : ∀ onFree, s.registered.count onFree = s.called.count onFree + owed (hookAt s.refPool) (busy s.stack) onFree
  /-- the loop of `close` is below everything else -/
  bottom : s.stack.Pairwise fun f _ => f ≠ .sweeping f.index
  open_ : s.running → ∀ f ∈ s.stack, f ≠ .sweeping f.index
  ahead : ∀ i, hookAt s.refPool i ≠ none → i ∈ busy s.stack ∨ s.Ahead i

variable {lang : Lang} {last : Nat} {s s' : Registry Obj Hook} {i : Nat}

theorem keeps_new : Keeps last (Registry.new : Registry Obj Hook) where
  sound := sound_empty
  clear i hi := absurd rfl hi
  busyLive i hi := absurd hi List.not_mem_nil
  busyNodup := List.nodup_nil
  owed onFree := by
    have hz : owed (hookAt (RefPool.empty : RefPool Obj Hook)) [] onFree = 0 := owed_eq_zero fun _ => .inl rfl
    show 0 = 0 + owed (hookAt (RefPool.empty : RefPool Obj Hook)) [] onFree
    rw [hz]
  bottom := List.Pairwise.nil
  open_ _ f hf := absurd hf List.not_mem_nil
  ahead i hi := absurd rfl hi

theorem Keeps.closesOnce (h : Keeps last s) : ClosesOnce s where
  atMost onFree := by
    have := h.owed onFree
    omega
  kept hstack := by
    refine ⟨fun onFree => ?_, h.clear⟩
    have howed := h.owed onFree
    rw [hstack] at howed
    exact howed
  closed hstack hr onFree := by
    have howed := h.owed onFree
    have hnone : ∀ i, hookAt s.refPool i = none := by
      intro i
      by_contra hi
      rcases h.ahead i hi with hb | hr' | ⟨f, hf, -⟩
      · simp [hstack, busy] at hb
      · simp [hr] at hr'
      · simp [hstack] at hf
    rw [hstack, owed_eq_zero fun i => .inl (hnone i)] at howed
    exact howed.symm

/-! ### The steps -/

/-- A new reference is written by its owner only. -/
theorem keeps_alloc (h : Keeps last s) (hl : 255 ≤ last) {pool refPool : RefPool Obj Hook} {obj : Obj}
    {close : Option Hook} (ha : allocRef (expandRefPools last 255) s.refPool = some (pool, i))
    (hahead : close.isSome → s.Ahead i)
    (hs : setRef i (some obj) close pool = some refPool) :
    Keeps last { s with refPool, live := i :: s.live, registered := s.registered ++ close.toList } := by
  obtain ⟨pool₁, i₁, ha₁, hi, hsound, -⟩ := allocRef_sound h.sound hl
  obtain ⟨rfl, rfl⟩ := Prod.mk.inj (Option.some.inj (ha.symm.trans ha₁))
  have hnone : hookAt s.refPool i = none := by
    by_contra hn
    exact hi (h.clear i hn)
  have hb : i ∉ busy s.stack := fun hm => hi (h.busyLive i hm)
  have hhook : ∀ j, hookAt refPool j = if j = i then close else hookAt s.refPool j := fun j => by
    rw [hookAt_setRef hs, hookAt_allocRef hl ha]
  refine ⟨setRef_sound hsound hs, fun j hj => ?_, fun j hj => List.mem_cons_of_mem _ (h.busyLive j hj), h.busyNodup,
    fun onFree => ?_, h.bottom, h.open_, fun j hj => ?_⟩
  · by_cases he : j = i
    · exact he ▸ List.mem_cons_self
    · refine List.mem_cons_of_mem _ (h.clear j ?_)
      have hj : hookAt refPool j ≠ none := hj
      rwa [hhook, if_neg he] at hj
  · have howed := h.owed onFree
    cases close with
    | none =>
      have hsame : owed (hookAt refPool) (busy s.stack) onFree = owed (hookAt s.refPool) (busy s.stack) onFree := by
        refine owed_congr fun j => ?_
        by_cases he : j = i
        · simp [he, hhook, hnone]
        · simp [he, hhook]
      show (s.registered ++ []).count onFree = s.called.count onFree + owed (hookAt refPool) (busy s.stack) onFree
      rw [List.append_nil, hsame, howed]
    | some c =>
      have hset : owed (hookAt refPool) (busy s.stack) onFree = _ :=
        owed_set (finite_hookAt h.sound h.clear) hnone hb hhook
      show (s.registered ++ [c]).count onFree = s.called.count onFree + owed (hookAt refPool) (busy s.stack) onFree
      rw [hset, List.count_append, howed, List.count_singleton]
      simp only [beq_iff_eq]
      omega
  · have hj : hookAt refPool j ≠ none := hj
    by_cases he : j = i
    · rw [hhook, if_pos he] at hj
      exact .inr (he ▸ hahead (Option.isSome_iff_ne_none.mpr hj))
    · rw [hhook, if_neg he] at hj
      exact h.ahead j hj

/-- `freeRef` comes to its end: the entry, whose callback has been called if there is one,
goes to the free list. -/
theorem keeps_release (hsound : Managed.Sound last 255 s.refPool s.live)
    (hclear : ∀ i, hookAt s.refPool i ≠ none → i ∈ s.live) (hi : i ∈ s.live)
    (hlive : ∀ j ∈ busy s.stack, j ∈ s.live) (hb : i ∉ busy s.stack) (hnd : (busy s.stack).Nodup)
    (howed : ∀ onFree, s.registered.count onFree = s.called.count onFree +
      owed (hookAt s.refPool) (i :: busy s.stack) onFree)
    (hbottom : s.stack.Pairwise fun f _ => f ≠ .sweeping f.index)
    (hopen : s.running → ∀ f ∈ s.stack, f ≠ .sweeping f.index)
    (hahead : ∀ j, hookAt s.refPool j ≠ none → j = i ∨ j ∈ busy s.stack ∨ s.Ahead j) (hs : s.release i = some s') :
    Keeps last s' := by
  obtain ⟨⟨pool, onFree⟩, hf, rfl⟩ := Option.map_eq_some_iff.mp hs
  obtain ⟨pool₁, onFree₁, hf₁, -, hsound'⟩ := freeRef_sound hsound hi
  obtain ⟨rfl, rfl⟩ := Prod.mk.inj (Option.some.inj (hf₁.symm.trans hf))
  have hhook : ∀ j, hookAt pool₁ j = if j = i then none else hookAt s.refPool j := hookAt_freeRef hf
  have hne : ∀ j, hookAt pool₁ j ≠ none → j ≠ i ∧ hookAt s.refPool j ≠ none := by
    intro j hj
    by_cases he : j = i
    · simp [hhook, he] at hj
    · rw [hhook, if_neg he] at hj
      exact ⟨he, hj⟩
  refine ⟨hsound', fun j hj => ?_, fun j hj => ?_, hnd, fun onFree => ?_, hbottom, hopen, fun j hj => ?_⟩
  · obtain ⟨he, hj⟩ := hne j hj
    exact (List.mem_erase_of_ne he).mpr (hclear j hj)
  · have he : j ≠ i := fun he => hb (he ▸ hj)
    exact (List.mem_erase_of_ne he).mpr (hlive j hj)
  · refine (howed onFree).trans (congrArg _ (owed_congr fun j => ?_))
    by_cases he : j = i
    · simp [he, hhook]
    · simp [he, hhook]
  · obtain ⟨he, hj⟩ := hne j hj
    exact (hahead j hj).resolve_left he

/-- The loop of `close` goes on: nothing else is under way, and behind it there are no
callbacks left. -/
theorem keeps_sweepFrom (hsound : Managed.Sound last 255 s.refPool s.live)
    (hclear : ∀ i, hookAt s.refPool i ≠ none → i ∈ s.live)
    (hstack : s.stack = []) (hr : s.running = false) (hbelow : ∀ j < i, hookAt s.refPool j = none)
    (howed : ∀ onFree, s.registered.count onFree = s.called.count onFree + owed (hookAt s.refPool) [] onFree) :
    Keeps last (s.sweepFrom i) := by
  unfold Registry.sweepFrom
  obtain ⟨⟨pool, found⟩, hsweep⟩ : ∃ r, sweep (s.refPool.refPool.length - i) i s.refPool = r := ⟨_, rfl⟩
  obtain ⟨hsounds, hhooks, hfound⟩ := @sweep_spec _ _ last 255 _ _ _ _ _ (by omega) hsweep
  have hfun : hookAt pool = hookAt s.refPool := funext hhooks
  rw [hsweep]
  cases found with
  | none =>
    have hnone : ∀ j, hookAt s.refPool j = none := fun j =>
      if hj : j < i then hbelow j hj else hfound j (by omega)
    refine ⟨hsounds _ hsound, fun j hj => absurd ((hhooks j).trans (hnone j)) hj, ?_, ?_, fun onFree => ?_, ?_, ?_,
      fun j hj => absurd ((hhooks j).trans (hnone j)) hj⟩
    · simp [hstack, busy]
    · simp [hstack, busy]
    · simp only [hstack, busy, List.map_nil, hfun]
      exact howed onFree
    · simp [hstack]
    · simp [hstack]
  | some p =>
    obtain ⟨k, hook⟩ := p
    obtain ⟨hk, hon, hskip⟩ := hfound
    have hklive : k ∈ s.live := hclear k (by simp [hon])
    refine ⟨hsounds _ hsound, fun j hj => hclear j (by rwa [← hhooks]), ?_, ?_, fun onFree => ?_, ?_, ?_, fun j hj => ?_⟩
    · simpa [hstack, busy, Frame.index] using hklive
    · simp [hstack, busy]
    · have hcall : owed (hookAt s.refPool) [] onFree = _ :=
        owed_cons (finite_hookAt hsound hclear) hon List.not_mem_nil
      simp only [hstack, busy, List.map_cons, List.map_nil, Frame.index, hfun]
      rw [howed, hcall, List.count_append, List.count_singleton]
      simp only [beq_iff_eq]
      omega
    · simp [hstack]
    · simp [hr]
    · rw [hhooks] at hj
      by_cases hjk : j = k
      · exact .inl (by simp [hjk, busy, Frame.index])
      · have hlt : k < j := by
          by_contra hle
          rcases Nat.lt_or_ge j i with hji | hji
          · exact hj (hbelow j hji)
          · exact hj (hskip j hji (by omega))
        exact .inr (.inr ⟨.sweeping k, List.mem_cons_self, rfl, hlt⟩)

/-- `freeRef` has called the callback of an entry. -/
theorem keeps_call (h : Keeps last s) {hook : Hook} (hon : hookAt s.refPool i = some hook) (hb : i ∉ busy s.stack) :
    Keeps last { s with stack := .freeing i :: s.stack, called := s.called ++ [hook] } where
  sound := h.sound
  clear := h.clear
  busyLive j hj := by
    rcases List.mem_cons.mp hj with he | hj
    · have hlive : i ∈ s.live := h.clear i (by simp [hon])
      exact he ▸ hlive
    · exact h.busyLive j hj
  busyNodup := List.nodup_cons.mpr ⟨hb, h.busyNodup⟩
  owed onFree := by
    have hcall : owed (hookAt s.refPool) (busy s.stack) onFree = _ := owed_cons (finite_hookAt h.sound h.clear) hon hb
    show s.registered.count onFree = (s.called ++ [hook]).count onFree + owed (hookAt s.refPool) (i :: busy s.stack) onFree
    rw [h.owed, hcall, List.count_append, List.count_singleton]
    simp only [beq_iff_eq]
    omega
  bottom := List.pairwise_cons.mpr ⟨fun _ _ => by simp, h.bottom⟩
  open_ hr f hf := by
    rcases List.mem_cons.mp hf with rfl | hf
    · simp
    · exact h.open_ hr f hf
  ahead j hj := by
    rcases h.ahead j hj with hm | hr | ⟨f, hf, hlt⟩
    · exact .inl (List.mem_cons_of_mem _ hm)
    · exact .inr (.inl hr)
    · exact .inr (.inr ⟨f, List.mem_cons_of_mem _ hf, hlt⟩)

/-- An object is registered with a new reference. -/
theorem keeps_allocRefFor {obj : Obj} {close : Option Hook} (h : Keeps (lastOf lang) s)
    (hc : Careful lang s (.allocRefFor obj close)) (hs : step lang s (.allocRefFor obj close) = some s') :
    Keeps (lastOf lang) s' := by
  obtain ⟨⟨pool, i⟩, ha, hs⟩ := Option.bind_eq_some_iff.mp hs
  obtain ⟨ref, hr, hs⟩ := Option.bind_eq_some_iff.mp hs
  obtain ⟨refPool, hset, rfl⟩ := Option.map_eq_some_iff.mp hs
  have hahead : close.isSome → s.Ahead i := fun hclose => (hc hclose).imp_right fun h => h (pool, i) ha
  rw [expandRefPools_eq] at ha
  obtain ⟨pool₁, i₁, ha₁, hi, -⟩ := allocRef_sound h.sound le_lastOf
  obtain ⟨rfl, rfl⟩ := Prod.mk.inj (Option.some.inj (ha₁.symm.trans ha))
  have hnone : ref.onFree = none := by
    have hhook : hookAt pool₁ i₁ = ref.onFree := by rw [hookAt, hr]; rfl
    rw [← hhook, hookAt_allocRef le_lastOf ha]
    by_contra hn
    exact hi (h.clear _ hn)
  rw [hnone, Option.or_none] at hset
  exact keeps_alloc h le_lastOf ha hahead hset

/-- A reference in use is freed, at once or with its callback called first. -/
theorem keeps_freeRef (h : Keeps (lastOf lang) s) (hc : Careful lang s (.freeRef i))
    (hs : step lang s (.freeRef i) = some s') : Keeps (lastOf lang) s' := by
  obtain ⟨hlive, hb⟩ : i ∈ s.live ∧ i ∉ busy s.stack := hc
  obtain ⟨ref2, hr, hs⟩ := Option.bind_eq_some_iff.mp hs
  have hhook : hookAt s.refPool i = ref2.onFree := by rw [hookAt, hr]; rfl
  cases hf : ref2.onFree with
  | none =>
    simp only [hf] at hs
    refine keeps_release h.sound h.clear hlive h.busyLive hb h.busyNodup (fun onFree => ?_) h.bottom h.open_
      (fun j hj => .inr (h.ahead j hj)) hs
    refine (h.owed onFree).trans (congrArg _ (owed_congr fun j => ?_))
    by_cases he : j = i
    · simp [he, hhook, hf]
    · simp [he]
  | some hook =>
    simp only [hf] at hs
    obtain rfl := Option.some.inj hs
    exact keeps_call h (hhook.trans hf) hb

theorem keeps_close (h : Keeps (lastOf lang) s) (hc : Careful lang s .close) (hs : step lang s .close = some s') :
    Keeps (lastOf lang) s' := by
  obtain rfl := Option.some.inj hs
  split_ifs with hr
  · have hstack : s.stack = [] := hc hr
    have howed := h.owed
    rw [hstack] at howed
    exact keeps_sweepFrom (s := { s with running := false }) h.sound h.clear hstack rfl
      (fun j hj => absurd hj (Nat.not_lt_zero j)) howed
  · exact h

/-- The callback that `freeRef` has called returns. -/
theorem keeps_freed {stack : List Frame} (h : Keeps last s) (hstack : s.stack = .freeing i :: stack)
    (hs : Registry.release { s with stack } i = some s') : Keeps last s' := by
  have hbusy : busy s.stack = i :: busy stack := by rw [hstack]; rfl
  have hnd := h.busyNodup
  have hbottom := h.bottom
  have hlive := h.busyLive
  rw [hbusy] at hnd hlive
  rw [hstack] at hbottom
  refine keeps_release (s := { s with stack }) h.sound h.clear (hlive i List.mem_cons_self)
    (fun j hj => hlive j (List.mem_cons_of_mem _ hj)) (List.nodup_cons.mp hnd).1 (List.nodup_cons.mp hnd).2
    (fun onFree => ?_) (List.pairwise_cons.mp hbottom).2
    (fun hr f hf => h.open_ hr f (hstack ▸ List.mem_cons_of_mem _ hf)) (fun j hj => ?_) hs
  · rw [← hbusy]
    exact h.owed onFree
  · rcases h.ahead j hj with hm | hr | ⟨f, hf, hsweep, hlt⟩
    · rw [hbusy] at hm
      rcases List.mem_cons.mp hm with he | hm
      · exact .inl he
      · exact .inr (.inl hm)
    · exact .inr (.inr (.inl hr))
    · rw [hstack] at hf
      rcases List.mem_cons.mp hf with rfl | hf
      · cases hsweep
      · exact .inr (.inr (.inr ⟨f, hf, hsweep, hlt⟩))

/-- The callback that `close` has called returns, and the loop goes on. -/
theorem keeps_swept {stack : List Frame} {refPool : RefPool Obj Hook} (h : Keeps last s)
    (hstack : s.stack = .sweeping i :: stack) (hset : setRef i none none s.refPool = some refPool) :
    Keeps last (Registry.sweepFrom { s with refPool, stack } (i + 1)) := by
  have hbottom := h.bottom
  rw [hstack] at hbottom
  have hnil : stack = [] := by
    cases stack with
    | nil => rfl
    | cons f rest => exact absurd rfl ((List.pairwise_cons.mp hbottom).1 f List.mem_cons_self)
  subst hnil
  have hbusy : busy s.stack = [i] := by rw [hstack]; rfl
  have hr : s.running = false := by
    by_contra hr
    exact h.open_ (by simpa using hr) (.sweeping i) (by simp [hstack]) rfl
  have hhook : ∀ j, hookAt refPool j = if j = i then none else hookAt s.refPool j := hookAt_setRef hset
  have hne : ∀ j, hookAt refPool j ≠ none → j ≠ i ∧ hookAt s.refPool j ≠ none := by
    intro j hj
    by_cases he : j = i
    · simp [hhook, he] at hj
    · rw [hhook, if_neg he] at hj
      exact ⟨he, hj⟩
  refine keeps_sweepFrom (s := { s with refPool, stack := [] }) (setRef_sound h.sound hset)
    (fun j hj => h.clear j (hne j hj).2) rfl hr (fun j hj => ?_) (fun onFree => ?_)
  · by_contra hn
    obtain ⟨he, hn⟩ := hne j hn
    rcases h.ahead j hn with hm | hr' | ⟨f, hf, hsweep, hlt⟩
    · rw [hbusy, List.mem_singleton] at hm
      exact he hm
    · simp [hr] at hr'
    · rw [hstack, List.mem_singleton] at hf
      subst hf
      have hlt : i < j := hlt
      omega
  · have howed := h.owed onFree
    rw [hbusy] at howed
    refine howed.trans (congrArg _ (owed_congr fun j => ?_))
    by_cases he : j = i
    · simp [he, hhook]
    · simp [he, hhook]

theorem keeps_step {input : Input Obj Hook} (h : Keeps (lastOf lang) s) (hc : Careful lang s input)
    (hs : step lang s input = some s') : Keeps (lastOf lang) s' := by
  cases input with
  | allocRefFor obj close => exact keeps_allocRefFor h hc hs
  | freeRef i => exact keeps_freeRef h hc hs
  | close => exact keeps_close h hc hs
  | onFreeReturns raised =>
    obtain rfl : raised = false := hc
    simp only [step] at hs
    split at hs
    · cases hs
    · exact keeps_freed h ‹_› hs
    · obtain ⟨refPool, hset, rfl⟩ := Option.map_eq_some_iff.mp hs
      exact keeps_swept h ‹_› hset

/-- In every careful run, of any requests and callbacks, each object that is registered is
closed once: with its reference, or with the server. -/
theorem objects_closeOnce {ins : List (Input Obj Hook)} (hc : Along (step lang) (Careful lang) Registry.new ins)
    (hr : run (step lang) Registry.new ins = some s) : ClosesOnce s :=
  (run_invariant (J := Keeps (lastOf lang)) (fun _ _ _ hJ hc hs => keeps_step hJ hc hs) keeps_new hc hr).closesOnce

/-- Two objects are registered: one is freed, the other one is closed with the server. -/
def freedAndClosed : List (Input Unit Nat) :=
  [.allocRefFor () (some 1), .allocRefFor () (some 2), .freeRef 0, .onFreeReturns false, .close, .onFreeReturns false]

omit [DecidableEq Hook] in
/-- Where no callback is left the loop goes on to the end. -/
theorem sweepFrom_clear (h : ∀ ref ∈ s.refPool.refPool.drop i, ref.onFree = none) :
    ∃ refPool, s.sweepFrom i = { s with refPool } := by
  unfold Registry.sweepFrom
  obtain ⟨⟨pool, found⟩, hsweep⟩ : ∃ r, sweep (s.refPool.refPool.length - i) i s.refPool = r := ⟨_, rfl⟩
  obtain ⟨-, -, hfound⟩ := @sweep_spec _ _ 0 0 _ _ _ _ _ (by omega) hsweep
  rw [hsweep]
  cases found with
  | none => exact ⟨pool, rfl⟩
  | some p =>
    obtain ⟨k, hook⟩ := p
    obtain ⟨hk, hon, -⟩ := hfound
    obtain ⟨ref, href, hf⟩ := Option.bind_eq_some_iff.mp hon
    have hmem : ref ∈ s.refPool.refPool.drop i :=
      List.mem_iff_getElem?.mpr ⟨k - i, by rw [List.getElem?_drop, Nat.add_sub_cancel' hk, href]⟩
    rw [h ref hmem] at hf
    cases hf

theorem freedAndClosed_closeOnce : ∃ s, run (step .typeScript) Registry.new freedAndClosed = some s ∧ ClosesOnce s ∧
    s.stack = [] ∧ s.running = false := by
  -- the last callback is the one of entry 1, and behind it the loop finds none
  obtain ⟨s, hs, hstack, hrunning, hset, hclear⟩ :
      ∃ s, run (step .typeScript) Registry.new (freedAndClosed.take 5) = some s ∧ s.stack = [.sweeping 1] ∧
        s.running = false ∧ (setRef 1 none none s.refPool).isSome ∧
          ∀ ref ∈ s.refPool.refPool.drop 2, ref.onFree = none := exists_run (by decide +kernel)
  obtain ⟨pool, hset⟩ := Option.isSome_iff_exists.mp hset
  have hpool : ∀ ref ∈ pool.refPool.drop 2, ref.onFree = none := by
    obtain ⟨ref, -, rfl⟩ := Option.map_eq_some_iff.mp hset
    simpa [List.drop_set] using hclear
  obtain ⟨refPool, hsweep⟩ := sweepFrom_clear (s := { s with refPool := pool, stack := [] }) hpool
  have hlast : step .typeScript s (.onFreeReturns false) = some { s with refPool, stack := [] } := by
    simp [step, hstack, hset, hsweep]
  have hrun : run (step .typeScript) Registry.new freedAndClosed = some { s with refPool, stack := [] } := by
    rw [← List.take_append_drop 5 freedAndClosed, run_append, hs]
    simp [freedAndClosed, run, hlast]
  exact ⟨_, hrun, objects_closeOnce (by decide +kernel) hrun, rfl, hrunning⟩

/-- An object that is returned after the server has been closed is never closed, nor are
those that the loop of `close` has not come to when a callback raises. -/
theorem objects_remain :
    (∃ s : Registry Unit Nat, run (step .typeScript) Registry.new [.close, .allocRefFor () (some 1)] = some s ∧
      s.stack = [] ∧ s.running = false ∧ ¬ s.called.count 1 = s.registered.count 1) ∧
    ∃ s : Registry Unit Nat, run (step .typeScript) Registry.new
      [.allocRefFor () (some 1), .allocRefFor () (some 2), .close, .onFreeReturns true, .close] = some s ∧
      s.stack = [] ∧ s.running = false ∧ ¬ s.called.count 2 = s.registered.count 2 :=
  ⟨exists_run (by decide +kernel), exists_run (by decide +kernel)⟩

end PxpRpc.Server.AutoClose
