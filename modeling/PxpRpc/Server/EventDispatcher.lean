import PxpRpc.Server.Waiting

/-!
# The event dispatcher

An `EventDispatcher` is a callable that keeps the `AsyncReturn` it was given until
an event is fired, another call overlaps or its reference is freed. Then it calls
`next_step` of the request, and the server calls back when it has done with the
response.
-/
namespace PxpRpc.Server

open PxpRpc.Lib PxpRpc.Lib.Callback

/-- A context and an `EventDispatcher`. -/
structure Dispatching where
  ctx : ServCo
  /-- the request of `pendingReturn` -/
  pendingReturn : Option Nat
  deleted : Bool
  /-- the requests that other callables have been given -/
  others : List Nat

inductive DispatchCode where
  | server (k : Code)
  /-- the handler of the dispatcher -/
  | call (r : Nat)
  /-- the handler after `pendingReturn->reject` -/
  | overlap (r : Nat)
  /-- `pendingReturn=nullptr`, in the handler or in `onReqFinished` -/
  | clear (e : Ext)
  /-- `~EventDispatcher` -/
  | destroy
  /-- `~EventDispatcher` after `pendingReturn->reject` -/
  | destroyed
deriving DecidableEq, Repr

inductive DispatchEntry where
  | server (e : Entry)
  /-- an event source looks for `pendingReturn` and resolves it -/
  | fire (result : BufferPart)
deriving DecidableEq, Repr

abbrev DispatchStack := List (Item DispatchCode Ext)

/-! Callables and callbacks are numbers; these are the dispatcher's. -/

def dispatcher : Nat := 0

/-- `on_finish` of its requests, with the `onFinishPP` that its call sets: it clears `pendingReturn`. -/
def callHook : Nat := 0

/-- `on_finish` of its requests, with the `onFinishPP` that `reject` sets. -/
def rejectHook : Nat := 1

/-- `on_free` of references to it. -/
def deleteHook : Nat := 0

/-- `callable_data` of its requests, their `PxpRequestWrap`. -/
def wrapData : Nat := 0

/-- `AsyncReturn::resolve` -/
def resolve (req : Request) (result : BufferPart) : Outcome :=
  ⟨req.rejected, result, some (if req.rejected then rejectHook else callHook), some wrapData, false⟩

/-- `AsyncReturn::reject` -/
def reject (errorMessage : String) : Outcome :=
  ⟨true, ⟨errorMessage.toUTF8.toList, []⟩, some rejectHook, some wrapData, false⟩

/-- Calls of the dispatcher go to its code. -/
def link : Item Code Ext → Item DispatchCode Ext
  | .code k => .code (.server k)
  | .ext (.call r id) => if id = dispatcher then .code (.call r) else .ext (.call r id)
  | .ext (.onFinish r hook) => if hook = callHook then .code (.clear (.onFinish r hook)) else .ext (.onFinish r hook)
  | .ext (.onFree hook) => if hook = deleteHook then .code .destroy else .ext (.onFree hook)
  | .ext e => .ext e

/-- The requests that other callables are given. -/
def given (items : Stack) : List Nat :=
  items.filterMap fun
    | .ext (.call r id) => if id = dispatcher then none else some r
    | _ => none

namespace Dispatching

/-- `req->nextStep()` of an `AsyncReturn` -/
def complete (s : Dispatching) (r : Nat) (o : Outcome) : Option (Dispatching × DispatchStack) :=
  (Server.enter (.resume r o) s.ctx).map fun (ctx, items) => ({ s with ctx }, items.map link)

def exec : DispatchCode → Dispatching → Option (Dispatching × DispatchStack)
  | .server k, s =>
    (Server.exec k s.ctx).map fun (ctx, items) => ({ s with ctx, others := given items ++ s.others }, items.map link)
  | .call r, s =>
    if s.deleted then none
    else
      match s.pendingReturn with
      | some p =>
        (s.complete p (reject "EventDispatcher:Overlap call")).map fun (s, items) =>
          (s, items ++ [.code (.overlap r)])
      | none => some ({ s with pendingReturn := some r }, [])
  | .overlap r, s =>
    (s.complete r (reject "EventDispatcher:Overlap call")).map fun (s, items) =>
      (s, items ++ [.code (.clear (.call r dispatcher))])
  | .clear _, s => if s.deleted then none else some ({ s with pendingReturn := none }, [])
  | .destroy, s =>
    if s.deleted then none
    else
      match s.pendingReturn with
      | some p =>
        (s.complete p (reject "EventDispatcher closed")).map fun (s, items) =>
          (s, items ++ [.code .destroyed])
      | none => some (s, [.code .destroyed])
  | .destroyed, s => some ({ s with deleted := true }, [])

/-- The other callables call `next_step` once for each of their invocations. -/
def enter : DispatchEntry → Dispatching → Option (Dispatching × DispatchStack)
  | .server (.resume r o), s =>
    if r ∈ s.others then
      (s.complete r o).map fun (s, items) => ({ s with others := s.others.erase r }, items)
    else none
  | .server e, s => (Server.enter e s.ctx).map fun (ctx, items) => ({ s with ctx }, items.map link)
  | .fire result, s =>
    if s.deleted then none
    else
      match s.pendingReturn with
      | some p => s.complete p (resolve (s.ctx.request p) result)
      | none => some (s, [])

def program : Program Dispatching DispatchCode Ext DispatchEntry := ⟨exec, enter⟩

abbrev Config := Callback.Config Dispatching DispatchCode Ext

def new (funcmap : Option (List UInt8 → Option Nat)) (onClosed : Bool) : Config :=
  ⟨⟨(Server.new funcmap onClosed).state, none, false, []⟩, []⟩

end Dispatching

/-! ### Assumptions on the steps of a run -/

/-- What the server has on its stack. -/
def under : Item DispatchCode Ext → Item Code Ext
  | .code (.server k) => .code k
  | .code (.call r) | .code (.overlap r) => .ext (.call r dispatcher)
  | .code (.clear e) => .ext e
  | .code .destroy | .code .destroyed => .ext (.onFree deleteHook)
  | .ext e => .ext e

/-- The server still waits for the dispatcher to answer the request of `pendingReturn`. -/
def PendingAwaited (s : Dispatching.Config) : Prop :=
  ∀ p, s.state.pendingReturn = some p → Awaits s.state.ctx (s.stack.map under) p

/-- An event, an overlapping call and the deletion of the dispatcher come while the server waits. -/
def Timely (s : Dispatching.Config) : Move DispatchEntry → Prop
  | .run =>
      match s.stack with
      | .code (.call _) :: _ | .code .destroy :: _ => PendingAwaited s
      | _ => True
  | .enter (.fire _) => PendingAwaited s
  | _ => True

instance (c : ServCo) (stack : Stack) (r : Nat) : Decidable (Awaits c stack r) :=
  decidable_of_iff
    (r ∈ c.allocated ∧ ((c.request r).nextStep = some .stepCall2 ∨ (c.request r).nextStep = some .stepPoll2) ∧
      stack.all fun
        | .code k => decide (k.request ≠ some r)
        | .ext _ => true)
    ⟨fun h => ⟨h.1, h.2.1, fun k hm => by simpa using List.all_eq_true.mp h.2.2 _ hm⟩,
      fun h => ⟨h.1, h.2, List.all_eq_true.mpr fun i hm => by
        cases i with
        | code k => simpa using h.3 k hm
        | ext e => rfl⟩⟩

instance (s : Dispatching.Config) : Decidable (PendingAwaited s) := by
  unfold PendingAwaited
  cases s.state.pendingReturn with
  | none => exact isTrue fun _ h => nomatch h
  | some p => exact decidable_of_iff (Awaits s.state.ctx (s.stack.map under) p) (by simp)

instance (s : Dispatching.Config) (m : Move DispatchEntry) : Decidable (Timely s m) := by
  unfold Timely
  split
  · split <;> infer_instance
  all_goals infer_instance

/-! ### The invariant -/

/-- Code of the dispatcher that is to complete a request. -/
def completes (r : Nat) : Item DispatchCode Ext → Nat
  | .code (.call q) | .code (.overlap q) => if q = r then 1 else 0
  | _ => 0

/-- How often a request is to be completed other than through `pendingReturn`. -/
def Dispatching.claims (s : Dispatching) (stack : DispatchStack) (r : Nat) : Nat :=
  s.others.count r + total (completes r) stack

/-- The code goes on with a request after its callable. -/
def Code.answers : Code → Bool
  | .nextStep _ | .writeResult _ | .poll3 _ | .finish1 _ | .finish2 _ => true
  | .step f _ => f.late
  | _ => false

/-- The request is on its way to its `on_finish`, which clears `pendingReturn` unless it was rejected. -/
structure Answered (c : ServCo) (stack : Stack) (p : Nat) : Prop where
  code : ∀ k, .code k ∈ stack → k.request = some p → k.answers
  nextStep : (c.request p).nextStep.any NextStep.late
  onFinish : (c.request p).rejected ∨ (c.request p).onFinish = some callHook

/-- Only the dispatcher answers the request of `pendingReturn`. -/
structure Pending (s : Dispatching) (stack : DispatchStack) (p : Nat) : Prop where
  made : p < s.ctx.nextRequest
  unclaimed : p ∈ s.ctx.invoked → s.claims stack p = 0
  answered : p ∉ s.ctx.invoked → Answered s.ctx (stack.map under) p

structure Dispatches (s : Dispatching) (stack : DispatchStack) : Prop where
  waiting : Waiting s.ctx (stack.map under)
  claimed : ∀ r, s.claims stack r ≤ s.ctx.invoked.count r
  pending : ∀ p, s.pendingReturn = some p → (∀ e rest, stack ≠ .code (.clear e) :: rest) → Pending s stack p

theorem dispatches_new (funcmap : Option (List UInt8 → Option Nat)) (onClosed : Bool) :
    Dispatches (Dispatching.new funcmap onClosed).state (Dispatching.new funcmap onClosed).stack where
  waiting := waiting_new funcmap onClosed
  claimed _ := le_rfl
  pending _ h := by cases h

/-! ### Calls between the server and the dispatcher -/

@[simp] theorem under_link (i : Item Code Ext) : under (link i) = i := by
  unfold link
  split <;> first
    | rfl
    | (split <;> simp_all [under])

@[simp] theorem map_under_link (items : Stack) : (items.map link).map under = items := by
  rw [List.map_map]
  exact List.map_id'' under_link items

/-- Invocations for a request. -/
def calls (r : Nat) : Item Code Ext → Nat
  | .ext (.call q _) => if q = r then 1 else 0
  | _ => 0

/-- Every invocation is one of the dispatcher or of another callable. -/
theorem count_given (items : Stack) (r : Nat) :
    (given items).count r + total (completes r) (items.map link) = total (calls r) items := by
  induction items with
  | nil => rfl
  | cons i items ih =>
    have hi : (given [i]).count r + completes r (link i) = calls r i := by
      cases i with
      | code k => rfl
      | ext e =>
        cases e with
        | call q id => by_cases hd : id = dispatcher <;> simp [given, link, completes, calls, hd, List.count_singleton]
        | onFinish q hook => by_cases hh : hook = callHook <;> simp [given, link, completes, calls, hh]
        | onFree hook => by_cases hh : hook = deleteHook <;> simp [given, link, completes, calls, hh]
        | _ => rfl
    have hg : given (i :: items) = given [i] ++ given items := by
      simp only [given, ← List.filterMap_append, List.singleton_append]
    rw [hg, List.count_append, List.map_cons, total_cons, total_cons]
    omega

theorem calls_runs {c c' : ServCo} {k : Code} {items : Stack} (hr : Runs c k c' items) (r : Nat) :
    c'.invoked.count r = total (calls r) items + c.invoked.count r := by
  cases hr <;> simp [calls, List.count_cons, add_comm]

theorem calls_enter {c c' : ServCo} {e : Entry} {items : Stack} (he : Enters c e c' items) (r : Nat) :
    total (calls r) items = 0 := by
  cases he <;> rfl

theorem complete_eq {s s' : Dispatching} {r : Nat} {o : Outcome} {items : DispatchStack}
    (h : s.complete r o = some (s', items)) :
    ∃ c', Enters s.ctx (.resume r o) c' [.code (.nextStep r)] ∧ s' = { s with ctx := c' } ∧
      items = [.code (.server (.nextStep r))] := by
  obtain ⟨⟨c', items'⟩, he, h⟩ := Option.map_eq_some_iff.mp h
  obtain ⟨rfl, rfl⟩ := Prod.mk.inj h
  have he := enter_enters he
  obtain rfl : items' = [.code (.nextStep r)] := by
    cases he
    rfl
  exact ⟨c', he, rfl, rfl⟩

/-- What a call of `next_step` does to the context. -/
theorem resume_eq {c c' : ServCo} {r : Nat} {o : Outcome} {items : Stack} (he : Enters c (.resume r o) c' items) :
    c'.invoked = c.invoked.erase r ∧ c'.request = Function.update c.request r ((c.request r).complete o) ∧
      c'.nextRequest = c.nextRequest := by
  cases he
  exact ⟨rfl, rfl, rfl⟩

/-! ### The code of the server -/

section

variable {c c' : ServCo} {k : Code} {rest items : Stack} {p : Nat}

theorem flip_onFinish (req : Request) : req.flip.rejected = req.rejected ∧ req.flip.onFinish = req.onFinish := by
  rw [Request.flip]
  split <;> exact ⟨rfl, rfl⟩

/-- A request that has been answered gets to its `on_finish`. -/
theorem answered_runs (hc : Counted c (.code k :: rest)) (h : Answered c (.code k :: rest) p) (hk : k.request = some p)
    (hr : Runs c k c' items) :
    (∃ items', items = .ext (.onFinish p callHook) :: items') ∨
      p ∉ c'.invoked ∧ Answered c' (items ++ rest) p := by
  have hone := alone_top hc hk
  have hans := h.code k List.mem_cons_self hk
  have hnext := h.nextStep
  have hfin := h.onFinish
  -- the rest of the stack is of other requests
  have hstack : (∀ k', .code k' ∈ items → k'.request = some p → k'.answers) →
      ∀ k', .code k' ∈ items ++ rest → k'.request = some p → k'.answers :=
    fun hi k' hm hk' => (List.mem_append.mp hm).elim (hi k' · hk') fun hm => absurd hk' (hone.code k' hm)
  cases hr <;> first
    | exact absurd hans Bool.false_ne_true
    | obtain rfl := Option.some.inj hk
  case nextStep f hf =>
    rw [hf] at hnext
    exact .inr ⟨hone.invoked, hstack (by simpa [Code.answers, Code.request] using hnext), h.nextStep, hfin⟩
  case pollHook hook hrej hc hf =>
    rw [hrej, hf] at hfin
    obtain rfl := Option.some.inj (hfin.resolve_left Bool.false_ne_true)
    exact .inl ⟨_, rfl⟩
  case pollNext hrej hc hf =>
    rw [hrej, hf] at hfin
    rcases hfin with hfin | hfin <;> cases hfin
  all_goals
    refine .inr ⟨hone.invoked, hstack (by simp [Code.answers, Code.request, NextStep.late]), ?_, ?_⟩
    · first | exact hnext | (simp [NextStep.late]; done) | simpa [flip_nextStep] using hnext
    · simpa [flip_onFinish] using hfin

end

/-! ### One step -/

section

variable {s s' : Dispatching} {stack stack' : DispatchStack} {p : Nat}

/-- What leaves the request alone leaves it to the dispatcher. -/
theorem Pending.keep (h : Pending s stack p) (hmade : s.ctx.nextRequest ≤ s'.ctx.nextRequest)
    (hreq : s'.ctx.request p = s.ctx.request p) (hinv : p ∈ s'.ctx.invoked ↔ p ∈ s.ctx.invoked)
    (hclaims : s'.claims stack' p ≤ s.claims stack p)
    (hcode : ∀ k, .code k ∈ stack'.map under → k.request = some p → .code k ∈ stack.map under ∨ k.answers) :
    Pending s' stack' p where
  made := h.made.trans_le hmade
  unclaimed hm := Nat.le_zero.mp (hclaims.trans (h.unclaimed (hinv.mp hm)).le)
  answered hm := by
    have ha := h.answered (fun h => hm (hinv.mpr h))
    refine ⟨fun k hk hp => ?_, hreq ▸ ha.nextStep, hreq ▸ ha.onFinish⟩
    exact (hcode k hk hp).elim (ha.code k · hp) id

theorem claims_other (s : Dispatching) (i : Item DispatchCode Ext) (rest : DispatchStack) (r : Nat)
    (hi : completes r i = 0) : s.claims (i :: rest) r = s.claims rest r := by
  simp [Dispatching.claims, hi]

/-- A request is invoked no more than once at a time. -/
theorem invoked_le {c : ServCo} {stack : Stack} (hc : Counted c stack) (r : Nat) : c.invoked.count r ≤ 1 := by
  have hh := hc.held r
  have hf := hc.finished r
  unfold pending at hh
  split at hf <;> omega

/-- The dispatcher answers the request of `pendingReturn`. -/
theorem dispatches_answer {o : Outcome} {items : DispatchStack} (h : Dispatches s stack) (hp : s.pendingReturn = some p)
    (ha : Awaits s.ctx (stack.map under) p) (htop : ∀ e rest, stack ≠ .code (.clear e) :: rest)
    (hu : stack'.map under = stack.map under) (hc : ∀ r, total (completes r) stack' = total (completes r) stack)
    (ho : o.rejected ∨ o.onFinish = some callHook) (hcomplete : s.complete p o = some (s', items)) :
    Dispatches s' (items ++ stack') := by
  obtain ⟨c', he, rfl, rfl⟩ := complete_eq hcomplete
  have hinv := h.waiting.awaited p ha
  have hpend := h.pending p hp htop
  have hzero := hpend.unclaimed hinv
  have hclaims : ∀ r, Dispatching.claims { s with ctx := c' } (.code (.server (.nextStep p)) :: stack') r = s.claims stack r :=
    fun r => by simp [Dispatching.claims, completes, hc]
  have hwait := waiting_resume h.waiting hinv he
  rw [← hu] at hwait
  have hone := invoked_le h.waiting.counted p
  have hasked := h.waiting.asked p hinv
  obtain ⟨hinvoked, hrequest, hnext⟩ := resume_eq he
  refine ⟨hwait, fun r => ?_, fun q hq _ => ?_⟩
  · rw [List.singleton_append, hclaims, hinvoked]
    by_cases hr : r = p
    · rw [hr, hzero]
      exact Nat.zero_le _
    · rw [List.count_erase_of_ne hr]
      exact h.claimed r
  · obtain rfl : p = q := Option.some.inj (hp.symm.trans hq)
    refine ⟨hnext ▸ hpend.made, fun _ => (hclaims p).trans hzero, fun _ => ⟨fun k hm hk => ?_, ?_, ?_⟩⟩
    · rcases List.mem_cons.mp hm with he | hm
      · obtain rfl := Item.code.inj he
        rfl
      · replace hm : .code k ∈ stack'.map under := hm
        rw [hu] at hm
        exact absurd hk (ha.idle k hm)
    · rcases hasked with hn | hn <;> simp [hrequest, Request.complete, hn, NextStep.late]
    · simpa [hrequest, Request.complete] using ho

/-- A request is completed that is not the one of `pendingReturn`. -/
theorem dispatches_complete {r : Nat} {o : Outcome} {others : List Nat} {items : DispatchStack} (h : Dispatches s stack)
    (hr : 0 < s.claims stack r) (htop : ∀ e rest, stack ≠ .code (.clear e) :: rest)
    (hu : stack'.map under = stack.map under)
    (hclaims : ∀ q, Dispatching.claims { s with others } stack' q + (if q = r then 1 else 0) = s.claims stack q)
    (hcomplete : s.complete r o = some (s', items)) : Dispatches { s' with others } (items ++ stack') := by
  obtain ⟨c', he, rfl, rfl⟩ := complete_eq hcomplete
  have hinv : r ∈ s.ctx.invoked := List.count_pos_iff.mp (hr.trans_le (h.claimed r))
  have hwait := waiting_resume h.waiting hinv he
  rw [← hu] at hwait
  have hone := invoked_le h.waiting.counted r
  have hclaims' : ∀ q, Dispatching.claims { s with ctx := c', others } (.code (.server (.nextStep r)) :: stack') q +
      (if q = r then 1 else 0) = s.claims stack q := fun q => by
    rw [claims_other _ _ _ _ rfl]
    exact hclaims q
  obtain ⟨hinvoked, hrequest, hnext⟩ := resume_eq he
  refine ⟨hwait, fun q => ?_, fun p hp _ => ?_⟩
  · have hq := hclaims' q
    have hold := h.claimed q
    show Dispatching.claims { s with ctx := c', others } (.code (.server (.nextStep r)) :: stack') q ≤ c'.invoked.count q
    rw [hinvoked]
    by_cases he : q = r
    · subst he
      rw [if_pos rfl] at hq
      rw [List.count_erase_self]
      omega
    · rw [if_neg he] at hq
      rw [List.count_erase_of_ne he]
      omega
  · have hpend := h.pending p hp htop
    have hne : p ≠ r := fun he => by
      have := hpend.unclaimed (he ▸ hinv)
      rw [he] at this
      omega
    have hq := hclaims' p
    rw [if_neg hne] at hq
    refine hpend.keep hnext.ge ?_ ?_ hq.le fun k hm hk => ?_
    · rw [hrequest, Function.update_of_ne hne]
    · rw [hinvoked, List.mem_erase_of_ne hne]
    · rcases List.mem_cons.mp hm with he | hm
      · obtain rfl := Item.code.inj he
        exact .inr rfl
      · exact .inl (hu ▸ hm)

/-- The server runs. -/
theorem dispatches_server {k : Code} {rest : DispatchStack} {c' : ServCo} {items : Stack}
    (h : Dispatches s (.code (.server k) :: rest)) (ht : k.touches → s.ctx.live) (hr : Runs s.ctx k c' items) :
    Dispatches { s with ctx := c', others := given items ++ s.others } (items.map link ++ rest) := by
  have hstack : (items.map link ++ rest).map under = items ++ rest.map under := by
    rw [List.map_append, map_under_link]
  have hclaims : ∀ q, Dispatching.claims { s with ctx := c', others := given items ++ s.others } (items.map link ++ rest) q =
      total (calls q) items + s.claims (.code (.server k) :: rest) q := fun q => by
    have := count_given items q
    rw [claims_other _ _ _ _ rfl]
    simp only [Dispatching.claims, List.count_append, total_append]
    omega
  refine ⟨hstack ▸ waiting_runs h.waiting ht hr, fun q => ?_, fun p hp htop => ?_⟩
  · rw [hclaims, calls_runs hr q]
    exact Nat.add_le_add_left (h.claimed q) _
  · have hpend := h.pending p hp (fun e rest he => by cases he)
    by_cases hk : k.request = some p
    · have hnot : p ∉ s.ctx.invoked := (alone_top h.waiting.counted hk).invoked
      rcases answered_runs h.waiting.counted (hpend.answered hnot) hk hr with ⟨items', rfl⟩ | ⟨hinv, hans⟩
      · exact absurd rfl (htop _ _)
      · exact ⟨hpend.made.trans_le (nextRequest_runs hr), fun hm => absurd hm hinv, fun _ => hstack ▸ hans⟩
    · have hmade : k = .step2 → p ≠ s.ctx.nextRequest := fun _ => hpend.made.ne
      have hsame := sameFor_runs hk hmade hr
      have hzero : total (calls p) items = 0 := by
        have := calls_runs hr p
        have := hsame.invoked
        omega
      refine hpend.keep (nextRequest_runs hr) hsame.request ?_ ?_ fun k' hm hk' => .inl ?_
      · rw [← List.count_pos_iff, ← List.count_pos_iff, hsame.invoked]
      · rw [hclaims, hzero, Nat.zero_add]
      · rw [hstack] at hm
        refine List.mem_cons_of_mem _ ((List.mem_append.mp hm).resolve_left fun hm => ?_)
        exact request_runs hk hmade hr k' hm hk'

/-- A piece of code or an external call of no consequence ends. -/
theorem dispatches_pop {i : Item DispatchCode Ext} {rest : DispatchStack} {e : Ext} (h : Dispatches s (i :: rest))
    (hu : under i = .ext e) (hi : ∀ r, completes r i = 0)
    (hpending : ∀ p, s.pendingReturn = some p → ∀ e, i ≠ .code (.clear e)) : Dispatches s rest where
  waiting := waiting_ret (e := e) (hu ▸ h.waiting)
  claimed r := (claims_other s i rest r (hi r)).symm.le.trans (h.claimed r)
  pending p hp _ := by
    refine (h.pending p hp fun e' rest' he => ?_).keep le_rfl rfl .rfl ?_ fun k hm _ => .inl (List.mem_cons_of_mem _ hm)
    · exact hpending p hp e' (List.cons.inj he).1
    · exact (claims_other s i rest p (hi p)).symm.le

/-- The dispatcher's own code. -/
theorem dispatches_exec {k : DispatchCode} {rest items : DispatchStack} (h : Dispatches s (.code k :: rest))
    (ht : Timely ⟨s, .code k :: rest⟩ .run) (hexec : Dispatching.exec k s = some (s', items)) :
    Dispatches s' (items ++ rest) := by
  cases k with
  | server k =>
    obtain ⟨⟨c', items'⟩, he, heq⟩ := Option.map_eq_some_iff.mp hexec
    obtain ⟨rfl, rfl⟩ := Prod.mk.inj heq
    exact dispatches_server h (exec_guard he).1 (exec_runs he)
  | call r =>
    dsimp only [Dispatching.exec] at hexec
    split at hexec
    · cases hexec
    split at hexec
    · rename_i p hp
      obtain ⟨⟨s₁, items'⟩, he, heq⟩ := Option.map_eq_some_iff.mp hexec
      obtain ⟨rfl, rfl⟩ := Prod.mk.inj heq
      rw [List.append_assoc]
      exact dispatches_answer h hp (ht p hp) (fun e rest he => by cases he) rfl (fun q => rfl) (.inl rfl) he
    · rename_i hnone
      obtain ⟨rfl, rfl⟩ := Prod.mk.inj (Option.some.inj hexec)
      have hclaim := h.claimed r
      have hone := invoked_le h.waiting.counted r
      have hr : s.claims (.code (.call r) :: rest) r = 1 + s.claims rest r := by
        simp [Dispatching.claims, completes]
        omega
      refine ⟨waiting_ret (e := .call r dispatcher) h.waiting, fun q => ?_, fun p hp _ => ?_⟩
      · have hq := h.claimed q
        simp [Dispatching.claims] at hq ⊢
        omega
      · obtain rfl := Option.some.inj hp
        have hinv : r ∈ s.ctx.invoked := List.count_pos_iff.mp (by omega)
        refine ⟨h.waiting.named.invoked r hinv, fun _ => ?_, fun hm => absurd hinv hm⟩
        show s.claims rest r = 0
        omega
  | overlap r =>
    obtain ⟨⟨s₁, items'⟩, he, heq⟩ := Option.map_eq_some_iff.mp hexec
    obtain ⟨rfl, rfl⟩ := Prod.mk.inj heq
    obtain ⟨c', -, rfl, -⟩ := complete_eq he
    rw [List.append_assoc]
    have hu : List.map under (.code (.clear (.call r dispatcher)) :: rest) = List.map under (.code (.overlap r) :: rest) :=
      rfl
    refine dispatches_complete h ?_ (fun e rest he => by cases he) hu (fun q => ?_) he
    · simp [Dispatching.claims, completes]
    · by_cases hq : q = r
      · simp [Dispatching.claims, completes, hq]
        omega
      · simp [Dispatching.claims, completes, hq, Ne.symm hq]
  | clear e =>
    dsimp only [Dispatching.exec] at hexec
    split at hexec
    · cases hexec
    obtain ⟨rfl, rfl⟩ := Prod.mk.inj (Option.some.inj hexec)
    refine ⟨waiting_ret h.waiting, fun q => ?_, fun p hp => by cases hp⟩
    have hq := h.claimed q
    rwa [claims_other _ _ _ _ rfl] at hq
  | destroy =>
    dsimp only [Dispatching.exec] at hexec
    split at hexec
    · cases hexec
    split at hexec
    · rename_i p hp
      obtain ⟨⟨s₁, items'⟩, he, heq⟩ := Option.map_eq_some_iff.mp hexec
      obtain ⟨rfl, rfl⟩ := Prod.mk.inj heq
      rw [List.append_assoc]
      exact dispatches_answer h hp (ht p hp) (fun e rest he => by cases he) rfl (fun q => rfl) (.inl rfl) he
    · rename_i hnone
      obtain ⟨rfl, rfl⟩ := Prod.mk.inj (Option.some.inj hexec)
      exact ⟨h.waiting, h.claimed, fun p hp => by rw [hnone] at hp; cases hp⟩
  | destroyed =>
    obtain ⟨rfl, rfl⟩ := Prod.mk.inj (Option.some.inj hexec)
    have hpop := dispatches_pop h rfl (fun _ => rfl) fun p _ e he => by cases he
    refine ⟨hpop.waiting, hpop.claimed, fun p hp htop => ?_⟩
    exact (hpop.pending p hp htop).keep le_rfl rfl .rfl le_rfl fun k hm _ => .inl hm

/-- The environment enters the server, other than from a callable. -/
theorem dispatches_enterServer {e : Entry} {c' : ServCo} {items : Stack} (h : Dispatches s stack)
    (htop : ∀ e rest, stack ≠ .code (.clear e) :: rest) (hnot : ∀ r o, e ≠ .resume r o) (he : Enters s.ctx e c' items) :
    Dispatches { s with ctx := c' } (items.map link ++ stack) := by
  have hstack : (items.map link ++ stack).map under = items ++ stack.map under := by
    rw [List.map_append, map_under_link]
  have honce : CallsOnce ⟨s.ctx, stack.map under⟩ (.enter e) := by
    cases e with
    | resume r o => exact absurd rfl (hnot r o)
    | _ => trivial
  have hsame : c'.nextRequest = s.ctx.nextRequest ∧ c'.request = s.ctx.request ∧ c'.invoked = s.ctx.invoked := by
    cases he with
    | resume => exact absurd rfl (hnot _ _)
    | _ => exact ⟨rfl, rfl, rfl⟩
  have hclaims : ∀ q, Dispatching.claims { s with ctx := c' } (items.map link ++ stack) q = s.claims stack q := fun q => by
    have hg := count_given items q
    rw [calls_enter he q] at hg
    simp only [Dispatching.claims, total_append]
    omega
  refine ⟨hstack ▸ waiting_enter h.waiting honce he, fun q => ?_, fun p hp _ => ?_⟩
  · rw [hclaims, hsame.2.2]
    exact h.claimed q
  · refine (h.pending p hp htop).keep hsame.1.ge (by rw [hsame.2.1]) (by rw [hsame.2.2]) (hclaims p).le fun k hm hk => ?_
    rw [hstack] at hm
    refine (List.mem_append.mp hm).symm.imp_right fun hm => ?_
    cases he with
    | resume => exact absurd rfl (hnot _ _)
    | @sendDone r f hs =>
      obtain rfl : k = .step f r := by simpa using hm
      have hf := h.waiting.sending _ hs
      cases f <;> first
        | rfl
        | cases hf
    | _ => simp at hm <;> simp [hm, Code.request] at hk

theorem dispatches_enter {e : DispatchEntry} {items : DispatchStack} (h : Dispatches s stack)
    (henv : EnvControls stack) (ht : Timely ⟨s, stack⟩ (.enter e)) (henter : Dispatching.enter e s = some (s', items)) :
    Dispatches s' (items ++ stack) := by
  have htop : ∀ e rest, stack ≠ .code (.clear e) :: rest := by
    rintro e rest rfl
    exact henv
  cases e with
  | fire result =>
    dsimp only [Dispatching.enter] at henter
    split at henter
    · cases henter
    split at henter
    · rename_i p hp
      refine dispatches_answer h hp (ht p hp) htop rfl (fun _ => rfl) ?_ henter
      cases hr : (s.ctx.request p).rejected <;> simp [resolve, hr]
    · obtain ⟨rfl, rfl⟩ := Prod.mk.inj (Option.some.inj henter)
      exact h
  | server e =>
    by_cases hres : ∃ r o, e = .resume r o
    · obtain ⟨r, o, rfl⟩ := hres
      simp only [Dispatching.enter, Option.ite_none_right_eq_some] at henter
      obtain ⟨hm, henter⟩ := henter
      obtain ⟨⟨s₁, items'⟩, he, heq⟩ := Option.map_eq_some_iff.mp henter
      obtain ⟨rfl, rfl⟩ := Prod.mk.inj heq
      obtain ⟨c', -, rfl, -⟩ := complete_eq he
      have hpos := List.count_pos_iff.mpr hm
      refine dispatches_complete h ?_ htop rfl (fun q => ?_) he
      · exact Nat.add_pos_left hpos _
      · by_cases hq : q = r
        · simp [Dispatching.claims, hq]
          omega
        · simp [Dispatching.claims, hq, List.count_erase_of_ne hq]
    · have hnot : ∀ r o, e ≠ .resume r o := fun r o he => hres ⟨r, o, he⟩
      have hserver : (Server.enter e s.ctx).map (fun (ctx, items) => ({ s with ctx }, items.map link)) = some (s', items) := by
        cases e with
        | resume r o => exact absurd rfl (hnot r o)
        | _ => exact henter
      obtain ⟨⟨c', items'⟩, he, heq⟩ := Option.map_eq_some_iff.mp hserver
      obtain ⟨rfl, rfl⟩ := Prod.mk.inj heq
      exact dispatches_enterServer h htop hnot (enter_enters he)

theorem dispatches_preserves : Dispatching.program.Preserves Timely fun s => Dispatches s.state s.stack where
  exec h ht he := dispatches_exec h ht he
  ret h _ := dispatches_pop h rfl (fun _ => rfl) fun _ _ _ he => by cases he
  enter henv h ht he := dispatches_enter h henv ht he

end

/-- Whenever events are fired, the dispatcher is called and freed and sends are completed: as long as it is in time, every
request is completed once for each invocation. -/
theorem dispatcher_completesOnce (funcmap : Option (List UInt8 → Option Nat)) (onClosed : Bool)
    (ms : List (Move DispatchEntry)) (s : Dispatching.Config)
    (hg : Along Dispatching.program.step Timely (Dispatching.new funcmap onClosed) ms)
    (h : run Dispatching.program.step (Dispatching.new funcmap onClosed) ms = some s) : CompletesOnce s.state.ctx.log :=
  (dispatches_preserves.run (dispatches_new funcmap onClosed) hg h).waiting.completesOnce

/-- A poll of the dispatcher that is waiting for the first event. -/
def polling : List (Move DispatchEntry) :=
  List.flatten
    [[.enter (.server .start), .run, .run, .ret,
        .enter (.server (.allocRef (.callable dispatcher) (some deleteHook))),
        .enter (.server (.recvDone [1, 0, 0, 0, 0xfb, 0xff, 0xff, 0xff, 0, 0, 0, 0]))],
      List.replicate 6 .run, [.ret]]

/-- An event, the end of the send of its response, and the deletion of the dispatcher. -/
def firedAndFreed : List (Move DispatchEntry) :=
  List.flatten
    [polling, [.enter (.fire ⟨[7], []⟩), .run, .run, .run, .ret, .enter (.server (.sendDone 0 .stepPoll3))],
      List.replicate 5 .run,
      [.enter (.server (.freeRef 0)), .run, .run, .run, .run, .run, .ret, .run, .run,
        .enter (.server (.sendDone 0 .stepPoll3)), .run, .run, .run, .run, .ret, .run]]

theorem firedAndFreed_completesOnce :
    ∃ s, run Dispatching.program.step (Dispatching.new none false) firedAndFreed = some s ∧ s.stack = [] ∧
      s.state.deleted ∧ s.state.ctx.allocated = [] ∧ s.state.ctx.log.countP (Event.isResumed 0) = 2 ∧
      CompletesOnce s.state.ctx.log := by
  have hr : ∃ s, run Dispatching.program.step (Dispatching.new none false) firedAndFreed = some s ∧ s.stack = [] ∧
      s.state.deleted ∧ s.state.ctx.allocated = [] ∧ s.state.ctx.log.countP (Event.isResumed 0) = 2 :=
    exists_run (by decide +kernel)
  obtain ⟨s, hs, hst, hd, ha, hcount⟩ := hr
  exact ⟨s, hs, hst, hd, ha, hcount, dispatcher_completesOnce none false _ s (by decide +kernel) hs⟩

/-- The response to the first event is being sent when the second one is fired. -/
def firedTwice : List (Move DispatchEntry) :=
  List.flatten [polling, [.enter (.fire ⟨[7], []⟩), .run, .run, .run, .ret, .enter (.fire ⟨[8], []⟩)]]

theorem firedTwice_completes :
    ∃ s, run Dispatching.program.step (Dispatching.new none false) firedTwice = some s ∧
      (0, .stepPoll3) ∈ s.state.ctx.sending ∧ s.state.ctx.log.countP (Event.isInvoked 0) = 1 ∧
      s.state.ctx.log.countP (Event.isResumed 0) = 2 ∧ ¬ CompletesOnce s.state.ctx.log := by
  have hr : ∃ s, run Dispatching.program.step (Dispatching.new none false) firedTwice = some s ∧
      (0, .stepPoll3) ∈ s.state.ctx.sending ∧ s.state.ctx.log.countP (Event.isInvoked 0) = 1 ∧
      s.state.ctx.log.countP (Event.isResumed 0) = 2 := exists_run (by decide +kernel)
  obtain ⟨s, hs, hsend, hinvoked, hresumed⟩ := hr
  refine ⟨s, hs, hsend, hinvoked, hresumed, fun h => ?_⟩
  have := h.resumed_le 0
  omega

end PxpRpc.Server
