import PxpRpc.Lib.Run

/-!
# Functions posted to the thread of the event loop

Any thread puts a function on a list that a mutex protects and wakes the event loop.
The callback of the wake-up takes the whole list and runs it from its head, which is
what was put there last.
-/
namespace PxpRpc.Bridge.Executor

open PxpRpc.Lib

/-- `_rtbasyncreq`, with the thread that posted it and how many were posted before. -/
structure Req (Thread Fn : Type) where
  thread : Thread
  fn : Fn
  index : Nat
deriving DecidableEq, Repr

/-- The list `_rtbasyncqueue`; what the running `_rtbasyncb` has still to run, and
whether it is in one of its functions; the calls of `uv_async_send` that are still to be
made, and whether the wake-up is due; what has been posted and run so far. -/
structure State (Thread Fn : Type) where
  queue : List (Req Thread Fn)
  batch : Option (List (Req Thread Fn))
  inside : Bool
  sending : Nat
  wakeup : Bool
  posted : List (Req Thread Fn)
  ran : List (Req Thread Fn)
deriving DecidableEq, Repr

inductive Move (Thread Fn : Type) where
  /-- `pxprpc_rtbridge_async_exec` up to the end of its critical section -/
  | post (t : Thread) (fn : Fn)
  /-- its `uv_async_send` -/
  | send
  /-- the event loop calls `_rtbasyncb`, which takes the list -/
  | take
  /-- `r->fn(r->p)` -/
  | call
  /-- the function returns -/
  | ret
  /-- the loop of `_rtbasyncb` ends -/
  | done
deriving DecidableEq, Repr

variable {Thread Fn : Type}

def init : State Thread Fn := ⟨[], none, false, 0, false, [], []⟩

def step (s : State Thread Fn) : Move Thread Fn → Option (State Thread Fn)
  | .post t fn =>
      let r : Req Thread Fn := ⟨t, fn, s.posted.length⟩
      some { s with queue := r :: s.queue, sending := s.sending + 1, posted := s.posted ++ [r] }
  | .send =>
      if s.sending = 0 then none else some { s with sending := s.sending - 1, wakeup := true }
  | .take =>
      match s.batch, s.wakeup with
      | none, true => some { s with queue := [], batch := some s.queue, wakeup := false }
      | _, _ => none
  | .call =>
      match s.batch, s.inside with
      | some (r :: queue), false => some { s with batch := some queue, inside := true, ran := s.ran ++ [r] }
      | _, _ => none
  | .ret => if s.inside then some { s with inside := false } else none
  | .done =>
      match s.batch, s.inside with
      | some [], false => some { s with batch := none }
      | _, _ => none

namespace State

/-- What has been taken from the list, in the order in which it is run. -/
def taken (s : State Thread Fn) : List (Req Thread Fn) := s.ran ++ s.batch.getD []

/-- Every post has woken the event loop and every wake-up has been served. -/
def quiet (s : State Thread Fn) : Prop := s.sending = 0 ∧ s.wakeup = false ∧ s.batch = none

end State

/-- What one thread has posted is run in the order in which it posted it. -/
def InOrder (ran : List (Req Thread Fn)) : Prop := ran.Pairwise fun r r' => r.thread = r'.thread → r.index < r'.index

/-- What is posted is run once, and in the order of its thread. -/
structure Executes (s : State Thread Fn) : Prop where
  once : s.ran.Nodup
  posted : s.ran ⊆ s.posted
  all : s.quiet → s.ran.Perm s.posted
  order : InOrder s.ran

/-- The callback never takes two functions of one thread at a time. -/
def TakesOne (s : State Thread Fn) : Move Thread Fn → Prop
  | .take => s.queue.Pairwise fun r r' => r.thread ≠ r'.thread
  | _ => True

instance [DecidableEq Thread] (s : State Thread Fn) (m : Move Thread Fn) : Decidable (TakesOne s m) := by
  cases m <;> unfold TakesOne <;> infer_instance

/-! ### The list -/

/-- The list has, from its head, what was posted since it was last taken. -/
structure Sound (s : State Thread Fn) : Prop where
  posted : ∃ before, s.posted = before ++ s.queue.reverse ∧ s.taken.Perm before
  numbered : s.posted.map Req.index = List.range s.posted.length
  woken : s.queue = [] ∨ s.sending ≠ 0 ∨ s.wakeup = true

theorem sound_init : Sound (init : State Thread Fn) := ⟨⟨[], rfl, .refl _⟩, rfl, .inl rfl⟩

variable {s s' : State Thread Fn} {m : Move Thread Fn}

/-- Only taking the list changes what is to be run. -/
theorem taken_step (h : step s m = some s') : s'.taken = s.taken ∨ m = .take ∧ s'.taken = s.taken ++ s.queue := by
  cases m with
  | post t fn =>
    obtain rfl := Option.some.inj h
    exact .inl rfl
  | send =>
    simp only [step, Option.ite_none_left_eq_some, Option.some.injEq] at h
    obtain ⟨-, rfl⟩ := h
    exact .inl rfl
  | take =>
    simp only [step] at h
    split at h
    · rename_i hb hw
      cases h
      exact .inr ⟨rfl, by simp [State.taken, hb]⟩
    · cases h
  | call =>
    simp only [step] at h
    split at h
    · rename_i r queue hb hi
      cases h
      exact .inl (by simp [State.taken, hb])
    · cases h
  | ret =>
    simp only [step, Option.ite_none_right_eq_some, Option.some.injEq] at h
    obtain ⟨-, rfl⟩ := h
    exact .inl rfl
  | done =>
    simp only [step] at h
    split at h
    · rename_i hb hi
      cases h
      exact .inl (by simp [State.taken, hb])
    · cases h

theorem sound_step (hs : Sound s) (h : step s m = some s') : Sound s' := by
  obtain ⟨before, hp, hperm⟩ := hs.posted
  cases m with
  | post t fn =>
    obtain rfl := Option.some.inj h
    refine ⟨⟨before, by simp [hp], hperm⟩, ?_, .inr (.inl (Nat.succ_ne_zero _))⟩
    simp [List.map_append, hs.numbered, List.range_succ]
  | send =>
    simp only [step, Option.ite_none_left_eq_some, Option.some.injEq] at h
    obtain ⟨-, rfl⟩ := h
    exact ⟨⟨before, hp, hperm⟩, hs.numbered, .inr (.inr rfl)⟩
  | take =>
    simp only [step] at h
    split at h
    · rename_i hb hw
      cases h
      have htaken : s.ran ++ [] = s.taken := by simp [State.taken, hb]
      refine ⟨⟨before ++ s.queue.reverse, by simp [hp], ?_⟩, hs.numbered, .inl rfl⟩
      simp only [State.taken, hb, Option.getD_none, List.append_nil] at hperm ⊢
      exact hperm.append (List.reverse_perm _).symm
    · cases h
  | call =>
    simp only [step] at h
    split at h
    · rename_i r queue hb hi
      cases h
      refine ⟨⟨before, hp, ?_⟩, hs.numbered, hs.woken⟩
      simpa [State.taken, hb] using hperm
    · cases h
  | ret =>
    simp only [step, Option.ite_none_right_eq_some, Option.some.injEq] at h
    obtain ⟨-, rfl⟩ := h
    exact ⟨⟨before, hp, hperm⟩, hs.numbered, hs.woken⟩
  | done =>
    simp only [step] at h
    split at h
    · rename_i hb hi
      cases h
      refine ⟨⟨before, hp, ?_⟩, hs.numbered, hs.woken⟩
      simpa [State.taken, hb] using hperm
    · cases h

theorem Sound.increasing (hs : Sound s) : s.posted.Pairwise fun r r' => r.index < r'.index := by
  have hlt : (s.posted.map Req.index).Pairwise (· < ·) := by
    rw [hs.numbered]
    exact List.pairwise_lt_range
  exact List.pairwise_map.mp hlt

theorem Sound.posted_nodup (hs : Sound s) : s.posted.Nodup :=
  hs.increasing.imp fun hlt he => absurd (congrArg Req.index he) (Nat.ne_of_lt hlt)

/-! ### The order -/

/-- Where the list is not the reverse of the order of posting, no two on it are of one thread. -/
theorem inOrder_append (hs : Sound s) :
    InOrder (s.taken ++ s.queue) ↔ InOrder s.taken ∧ s.queue.Pairwise fun r r' => r.thread ≠ r'.thread := by
  obtain ⟨before, hp, hperm⟩ := hs.posted
  have hinc := hs.increasing
  rw [hp] at hinc
  obtain ⟨-, hqueue, hacross⟩ := List.pairwise_append.mp hinc
  rw [List.pairwise_reverse] at hqueue
  have hnewer : ∀ r ∈ s.taken, ∀ r' ∈ s.queue, r.thread = r'.thread → r.index < r'.index :=
    fun r hr r' hr' _ => hacross r (hperm.subset hr) r' (List.mem_reverse.mpr hr')
  have hlist : InOrder s.queue ↔ s.queue.Pairwise fun r r' => r.thread ≠ r'.thread := by
    constructor
    · exact fun h => h.imp₂ (fun r r' hlt hle he => absurd (hlt he) (Nat.lt_asymm hle)) hqueue
    · exact fun h => h.imp fun hne he => absurd he hne
  unfold InOrder at hlist ⊢
  rw [List.pairwise_append, ← hlist]
  exact ⟨fun ⟨h, hq, _⟩ => ⟨h, hq⟩, fun ⟨h, hq⟩ => ⟨h, hq, hnewer⟩⟩

theorem inOrder_step (hs : Sound s) (h : step s m = some s') :
    InOrder s'.taken ↔ InOrder s.taken ∧ TakesOne s m := by
  have happend := inOrder_append hs
  rcases taken_step h with ht | ⟨rfl, ht⟩
  · cases m with
    | take =>
      simp only [step] at h
      split at h
      · rename_i hb hw
        cases h
        have hnil : s.queue = [] := by simpa [State.taken, hb] using ht
        rw [ht]
        simp [TakesOne, hnil]
      · cases h
    | _ => rw [ht]; simp [TakesOne]
  · rw [ht]
    exact happend

theorem sound_run {ms : List (Move Thread Fn)} {s s' : State Thread Fn} (hs : Sound s)
    (h : run step s ms = some s') : Sound s' :=
  run_invariant (fun _ _ _ hs (_ : True) h => sound_step hs h) hs (Along.of_forall fun _ _ => trivial) h

theorem inOrder_run {ms : List (Move Thread Fn)} {s s' : State Thread Fn} (hs : Sound s)
    (h : run step s ms = some s') : InOrder s'.taken ↔ InOrder s.taken ∧ Along step TakesOne s ms :=
  run_iff (fun _ _ _ hs h => sound_step hs h) (fun _ _ _ hs h => inOrder_step hs h) hs h

/-- Apart from the order, everything holds always. -/
theorem executes_of_inOrder (hs : Sound s) (ho : InOrder s.ran) : Executes s := by
  obtain ⟨before, hp, hperm⟩ := hs.posted
  have hnodup := hs.posted_nodup
  rw [hp] at hnodup
  refine ⟨?_, fun r hr => ?_, fun ⟨hsending, hwakeup, hbatch⟩ => ?_, ho⟩
  · have htaken : s.taken.Nodup := hperm.nodup_iff.mpr (List.nodup_append.mp hnodup).1
    exact (List.nodup_append.mp htaken).1
  · rw [hp]
    exact List.mem_append_left _ (hperm.subset (List.mem_append_left _ hr))
  · have hqueue : s.queue = [] := by simpa [hsending, hwakeup] using hs.woken
    rw [hp, hqueue, List.reverse_nil, List.append_nil]
    simpa [State.taken, hbatch] using hperm

/-- What is posted is run once and in order, in any run that never takes two functions of
one thread; and in no other, once a callback that has taken two has run them. -/
theorem executes_iff (ms : List (Move Thread Fn)) (s : State Thread Fn) (h : run step init ms = some s) :
    (Along step TakesOne init ms → Executes s) ∧
      (s.batch = none → (Executes s ↔ Along step TakesOne init ms)) := by
  have hs : Sound s := sound_run sound_init h
  have hiff : InOrder s.taken ↔ Along step TakesOne init ms := by
    rw [inOrder_run sound_init h]
    exact and_iff_right List.Pairwise.nil
  have hran : Along step TakesOne init ms → Executes s := fun ha =>
    executes_of_inOrder hs (List.pairwise_append.mp (hiff.mpr ha)).1
  refine ⟨hran, fun hb => ⟨fun he => hiff.mp ?_, hran⟩⟩
  simpa [State.taken, hb] using he.order

/-- One thread posts two functions and another posts one between two wake-ups. -/
theorem executes_apart : ∃ s : State Nat Nat, run step init [.post 0 7, .post 1 8, .send, .take, .send, .call,
    .post 0 9, .send, .ret, .call, .ret, .done, .take, .call, .ret, .done] = some s ∧ s.quiet ∧ Executes s := by
  obtain ⟨s, hs⟩ := Option.isSome_iff_exists.mp (show (run step (init : State Nat Nat) [.post 0 7, .post 1 8, .send,
    .take, .send, .call, .post 0 9, .send, .ret, .call, .ret, .done, .take, .call, .ret, .done]).isSome by decide)
  refine ⟨s, hs, ?_, (executes_iff _ s hs).1 (by decide)⟩
  obtain rfl := Option.some.inj hs
  exact ⟨rfl, rfl, rfl⟩

/-- The second of two functions is run first. -/
theorem executes_reversed : ∃ s : State Nat Nat, run step init [.post 0 7, .send, .post 0 8, .send, .take, .call, .ret,
    .call, .ret, .done] = some s ∧ s.quiet ∧ ¬ Executes s := by
  obtain ⟨s, hs, hq, hran⟩ : ∃ s : State Nat Nat, run step init [.post 0 7, .send, .post 0 8, .send, .take, .call,
      .ret, .call, .ret, .done] = some s ∧ s.quiet ∧ s.ran = [⟨0, 8, 1⟩, ⟨0, 7, 0⟩] := ⟨_, rfl, ⟨rfl, rfl, rfl⟩, rfl⟩
  refine ⟨s, hs, hq, fun h => ?_⟩
  have horder := h.order
  rw [hran] at horder
  have := (List.pairwise_cons.mp horder).1 ⟨0, 7, 0⟩ List.mem_cons_self rfl
  simp at this

end PxpRpc.Bridge.Executor
