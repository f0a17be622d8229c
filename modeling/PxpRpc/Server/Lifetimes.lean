import PxpRpc.Server.Confined

/-!
# The lifetimes of the context and of its io

The io is part of a connection object that the backend releases some time after
`io->close`: libuv when its handle is closed, the pipe when both its ends are.
Requests that are still pending keep the context, but not the connection.
-/
namespace PxpRpc.Server

open PxpRpc.Lib PxpRpc.Lib.Callback

/-- A context and the connection object that its io is part of. -/
structure Conn where
  ctx : ServCo
  /-- the server has called `io->close` -/
  closeCalled : Bool
  /-- the connection object has not been released -/
  ioLive : Bool

inductive ConnEntry where
  | server (e : Entry)
  /-- the backend releases the connection object -/
  | release
deriving DecidableEq, Repr

namespace Conn

def exec (k : Code) (s : Conn) : Option (Conn × Stack) :=
  (Server.exec k s.ctx).map fun (ctx, items) => ({ s with ctx, closeCalled := s.closeCalled || k = .closeIo }, items)

/-- The connection object is not released before `io->close`. -/
def enter : ConnEntry → Conn → Option (Conn × Stack)
  | .server e, s => (Server.enter e s.ctx).map fun (ctx, items) => ({ s with ctx }, items)
  | .release, s => if s.closeCalled && s.ioLive then some ({ s with ioLive := false }, []) else none

def program : Program Conn Code Ext ConnEntry := ⟨exec, enter⟩

abbrev Config := Callback.Config Conn Code Ext

def new (funcmap : Option (List UInt8 → Option Nat)) (onClosed : Bool) : Config :=
  ⟨⟨(Server.new funcmap onClosed).state, false, true⟩, []⟩

end Conn

/-- The code reads `exp.io` or what is behind it. -/
def Code.usesIo (c : ServCo) : Code → Prop
  | .step1 | .step2 | .writeResult _ => c.closed = false
  | .step .finishRequest _ | .step .stepPoll3 _ | .closeIo => True
  | .finish2 r => (c.request r).parameter.base ≠ .null
  | _ => False

/-- The code on top finds alive what it uses. -/
structure InLife (s : Conn.Config) : Prop where
  context : ∀ k rest, s.stack = .code k :: rest → k.touches → s.state.ctx.live
  io : ∀ k rest, s.stack = .code k :: rest → k.usesIo s.state.ctx → s.state.ioLive

/-! ### Assumptions on the steps of a run -/

namespace Conn

/-- Every callable calls `next_step` once for each of its invocations. -/
def CallsOnce (s : Config) : Move ConnEntry → Prop
  | .enter (.server e) => Server.CallsOnce ⟨s.state.ctx, s.stack⟩ (.enter e)
  | _ => True

/-- No receive completes when `io->close` has returned, and no send when the connection object
has been released. -/
def IoContract (s : Config) : Move ConnEntry → Prop
  | .enter (.server (.recvDone _)) | .enter (.server (.recvError _)) =>
      s.state.closeCalled → .code .closeCb ∈ s.stack
  | .enter (.server (.sendDone _ _)) => s.state.ioLive
  | _ => True

end Conn

def signalSession : BitVec 32 := 0xffffffff#32

/-- On a closed context the code gets to its end without the io. -/
def Quiet (c : ServCo) : Code → Prop
  | .start | .closeRefs _ | .closeIo | .poll3 _ => False
  | .nextStep r =>
      (c.request r).nextStep = some .stepPoll2 ∨
        (c.request r).nextStep = some .stepCall2 ∧ (c.request r).session ≠ signalSession
  | .step .stepPoll2 _ => True
  | .step .stepCall2 r | .freeRefs r _ => (c.request r).session ≠ signalSession
  | .step _ _ => False
  | .finish1 r | .finish2 r => (c.request r).parameter.base = .null
  | _ => True

/-- A call that a callable has been given is not a signal. -/
def NoSignal (c : ServCo) : Prop :=
  ∀ r ∈ c.invoked, (c.request r).session = signalSession → (c.request r).nextStep ≠ some .stepCall2

/-- The last reference to the context goes when no code under way uses the context any more. The
connection object is released when the context is closed, no code under way needs the io and no
signal is pending; the context is not started after that. -/
def Conn.Releases (s : Conn.Config) : Move ConnEntry → Prop
  | .run =>
      match s.stack with
      | .code (.finish2 _) :: rest | .code .deleteCount :: rest =>
          s.state.ctx.refCount = 1 → ∀ k, .code k ∈ rest → k.touches = false
      | _ => True
  | .enter .release =>
      s.state.ctx.closed ∧ (∀ k, .code k ∈ s.stack → Quiet s.state.ctx k) ∧ NoSignal s.state.ctx
  | .enter (.server .start) => s.state.ioLive
  | _ => True

/-- The code under way. -/
def codes (stack : Stack) : List Code :=
  stack.filterMap fun
    | .code k => some k
    | .ext _ => none

theorem mem_codes {stack : Stack} {k : Code} : k ∈ codes stack ↔ .code k ∈ stack := by
  unfold codes
  rw [List.mem_filterMap]
  constructor
  · rintro ⟨i, hi, hk⟩
    cases i with
    | code k' => rwa [← Option.some.inj hk]
    | ext e => cases hk
  · exact fun hm => ⟨_, hm, rfl⟩

instance (stack : Stack) (P : Code → Prop) [DecidablePred P] : Decidable (∀ k, .code k ∈ stack → P k) :=
  decidable_of_iff (∀ k ∈ codes stack, P k) (forall_congr' fun _ => imp_congr_left mem_codes)

instance (c : ServCo) (k : Code) : Decidable (Quiet c k) := by
  unfold Quiet
  split <;> infer_instance

instance (c : ServCo) : Decidable (NoSignal c) := by
  unfold NoSignal
  infer_instance

namespace Conn

instance (s : Config) (m : Move ConnEntry) : Decidable (CallsOnce s m) := by
  unfold CallsOnce
  split <;> infer_instance

instance (s : Config) (m : Move ConnEntry) : Decidable (IoContract s m) := by
  unfold IoContract
  split <;> infer_instance

instance (s : Config) (m : Move ConnEntry) : Decidable (Releases s m) := by
  unfold Releases
  split
  · split <;> infer_instance
  all_goals infer_instance

end Conn

/-! ### The invariant -/

/-- The code closes the io in the end. -/
def Code.closes : Code → Bool
  | .closeRefs _ | .closeIo => true
  | _ => false

/-- The code closes the context, unless it is closed. -/
def Code.wantsClose : Code → Bool
  | .close | .delete => true
  | _ => false

structure Held (s : Conn) (stack : Stack) : Prop where
  counted : Counted s.ctx stack
  named : Named s.ctx stack
  asked : Asked s.ctx
  waits : ∀ k, .code k ∈ stack.tail → k.waits
  starting : .code .start ∈ stack → s.ctx.owner ∧ s.ioLive
  closing : s.ctx.closed → s.closeCalled ∨ ∃ k, .code k ∈ stack ∧ k.closes
  deleted : s.ctx.owner = false → s.ctx.closed ∨ ∃ k, .code k ∈ stack ∧ k.wantsClose
  dead : s.ctx.live = false → s.closeCalled ∧ ∀ k, .code k ∈ stack → k.touches = false
  released : s.ioLive = false → s.ctx.closed ∧ (∀ k, .code k ∈ stack → Quiet s.ctx k) ∧ NoSignal s.ctx

theorem held_new (funcmap : Option (List UInt8 → Option Nat)) (onClosed : Bool) :
    Held (Conn.new funcmap onClosed).state (Conn.new funcmap onClosed).stack where
  counted := counted_new funcmap onClosed
  named := named_new funcmap onClosed
  asked _ hm := absurd hm List.not_mem_nil
  waits _ hm := absurd hm List.not_mem_nil
  starting hm := absurd hm List.not_mem_nil
  closing h := by cases h
  deleted h := by cases h
  dead h := by cases h
  released h := by cases h

section

variable {c c' : ServCo} {closeCalled ioLive : Bool} {k : Code} {rest stack items : Stack}

/-- Only code of an allocated request leaves the context alone. -/
theorem request_of_not_touches (h : k.touches = false) : ∃ r, k.request = some r := by
  cases k with
  | nextStep r => exact ⟨r, rfl⟩
  | step f r => exact ⟨r, rfl⟩
  | _ => cases h

theorem Held.live_top (h : Held ⟨c, closeCalled, ioLive⟩ (.code k :: rest)) : c.live := by
  by_contra hl
  obtain ⟨-, hd⟩ := h.dead (by simpa using hl)
  obtain ⟨r, hr⟩ := request_of_not_touches (hd k List.mem_cons_self)
  exact hl (counted_top h.counted hr).2

theorem closing_exec (h : Held ⟨c, closeCalled, ioLive⟩ (.code k :: rest)) (hr : Runs c k c' items) (hc : c'.closed) :
    (closeCalled || decide (k = .closeIo)) ∨ ∃ k', .code k' ∈ items ++ rest ∧ k'.closes := by
  have hold : c.closed → k.closes = false → (closeCalled || decide (k = .closeIo)) ∨
      ∃ k', .code k' ∈ items ++ rest ∧ k'.closes := by
    intro hclosed hk
    rcases h.closing hclosed with hcalled | ⟨k', hm, hk'⟩
    · exact .inl (by simp [show closeCalled = true from hcalled])
    · rcases List.mem_cons.mp hm with he | hm
      · obtain rfl := Item.code.inj he
        rw [hk] at hk'
        cases hk'
      · exact .inr ⟨k', List.mem_append_right _ hm, hk'⟩
  cases hr with
  | start => cases hc
  | close => exact .inr ⟨.closeRefs 0, by simp, rfl⟩
  | @closeRefsHook i hook => exact .inr ⟨.closeRefs (i + 1), by simp, rfl⟩
  | @closeRefs i pool => exact .inr ⟨.closeRefs (i + 1), by simp, rfl⟩
  | closeRefsDone => exact .inr ⟨.closeIo, by simp, rfl⟩
  | closeIo => exact .inl (by simp)
  | _ => exact hold hc rfl

theorem deleted_exec (h : Held ⟨c, closeCalled, ioLive⟩ (.code k :: rest)) (hr : Runs c k c' items)
    (ho : c'.owner = false) : c'.closed ∨ ∃ k', .code k' ∈ items ++ rest ∧ k'.wantsClose := by
  have hold : c.owner = false → k.wantsClose = false → c.closed ∨ ∃ k', .code k' ∈ items ++ rest ∧ k'.wantsClose := by
    intro howner hk
    refine (h.deleted howner).imp_right ?_
    rintro ⟨k', hm, hk'⟩
    rcases List.mem_cons.mp hm with he | hm
    · obtain rfl := Item.code.inj he
      rw [hk] at hk'
      cases hk'
    · exact ⟨k', List.mem_append_right _ hm, hk'⟩
  cases hr with
  | start =>
    have := (h.starting List.mem_cons_self).1
    rw [show c.owner = false from ho] at this
    cases this
  | close hc => exact .inl rfl
  | closeAgain hc => exact .inl hc
  | delete => exact .inr ⟨.close, by simp, rfl⟩
  | _ => exact hold ho rfl

/-- When the last reference goes the io has been closed and nothing is left that uses the context. -/
theorem dead_exec (h : Held ⟨c, closeCalled, ioLive⟩ (.code k :: rest))
    (hg : Conn.Releases ⟨⟨c, closeCalled, ioLive⟩, .code k :: rest⟩ .run) (hr : Runs c k c' items)
    (hl : c'.live = false) :
    (closeCalled || decide (k = .closeIo)) ∧ ∀ k', .code k' ∈ items ++ rest → k'.touches = false := by
  have hlive := h.live_top
  have hcounted := counted_runs h.counted (fun _ => hlive) hr
  have hzero : c'.refCount = 0 := by
    have := hcounted.live
    rw [hl] at this
    simpa using this
  have hrefs := hcounted.refCount
  rw [hzero] at hrefs
  have howner : c'.owner = false := by
    by_contra ho
    rw [if_pos (by simpa using ho)] at hrefs
    omega
  have htouch : ∀ k', .code k' ∈ items ++ rest → k'.touches = false := by
    cases hr with
    | finishOwned | finishFree | deleteCount =>
      have hone : c.refCount = 1 := by
        have : c.refCount + -1 = 0 := hzero
        omega
      exact hg hone
    | step2 =>
      simp at hrefs
      omega
    | _ =>
      rw [show c.live = false from hl] at hlive
      cases hlive
  refine ⟨?_, htouch⟩
  rcases deleted_exec h hr howner with hclosed | ⟨k', hm, hk'⟩
  · rcases closing_exec h hr hclosed with hcalled | ⟨k', hm, hk'⟩
    · exact hcalled
    · have := htouch k' hm
      cases k' <;> cases hk' <;> cases this
  · have := htouch k' hm
    cases k' <;> cases hk' <;> cases this

/-- Code that waits, of another request, is as quiet as it was. -/
theorem quiet_same {k' : Code} (hq : Quiet c k') (hk : ∀ r, k'.request = some r → c'.request r = c.request r) : Quiet c' k' := by
  cases k' with
  | nextStep r | freeRefs r i | finish1 r | finish2 r =>
    simp only [Quiet, hk r rfl] at hq ⊢
    exact hq
  | step f r =>
    have hr := hk r rfl
    cases f with
    | stepCall2 =>
      simp only [Quiet, hr] at hq ⊢
      exact hq
    | stepPoll2 => trivial
    | _ => exact hq
  | _ => exact hq

/-- On a closed context quiet code leaves quiet code and asks for no signal. -/
theorem quiet_runs (hc : c.closed) (hq : Quiet c k) (hr : Runs c k c' items) : ∀ k', .code k' ∈ items → Quiet c' k' := by
  cases hr with
  | @nextStep r f hf =>
    intro k' hm
    obtain rfl : k' = .step f r := by simpa using hm
    simp only [Quiet, hf] at hq
    rcases hq with hf | ⟨hf, hs⟩
    · obtain rfl := Option.some.inj hf
      trivial
    · obtain rfl := Option.some.inj hf
      exact hs
  | stepCall2Signal hs => exact absurd hs hq
  | @freeRefs r i index hi hw =>
    intro k' hm
    have hm : k' = .freeRef (Pool.Native.serverGetRef c.pool index.toNat) ∨ k' = .freeRefs r (i + 4) := by simpa using hm
    rcases hm with rfl | rfl
    · trivial
    · exact hq
  | @freeRefsDone r i hi =>
    intro k' hm
    obtain rfl : k' = .step .stepCall2 r := by simpa using hm
    exact hq
  | @finishHook r hook hf =>
    intro k' hm
    obtain rfl : k' = .finish2 r := by simpa using hm
    exact hq
  | @finish r hf =>
    intro k' hm
    obtain rfl : k' = .finish2 r := by simpa using hm
    exact hq
  | step1 ho | step2Error ho | step2 ho | writeResult ho | close ho =>
    rw [hc] at ho
    cases ho
  | start | closeRefsHook | closeRefs | closeRefsDone | closeIo | pollEnd | pollHook | pollNext => exact hq.elim
  | finishRequest | finishRequestError | stepCall1 | stepFreeRef1 | stepGetFunc1 | stepClose1 | stepGetInfo1 | stepPoll3
  | stepPoll3Error | stepPoll1 => exact hq.elim
  | _ => simp [Quiet]

theorem noSignal_runs (h : Held ⟨c, closeCalled, ioLive⟩ (.code k :: rest)) (hn : NoSignal c) (hq : Quiet c k)
    (hr : Runs c k c' items) : NoSignal c' := by
  intro r hm
  by_cases hk : k.request = some r
  · have hone := (alone_top h.counted hk).invoked
    cases hr with
    | pollCall =>
      obtain rfl := Option.some.inj hk
      simp
    | stepCall1 => exact hq.elim
    | _ => exact absurd hm hone
  · have hmem : r ∈ c.invoked := by
      cases hr with
      | stepCall1 | pollCall =>
        have hne : r ≠ _ := fun he => hk (congrArg some he.symm)
        simpa [hne] using hm
      | _ => exact hm
    rw [(sameFor_runs hk (fun _ => (h.named.invoked r hmem).ne) hr).request]
    exact hn r hmem

theorem released_exec (h : Held ⟨c, closeCalled, ioLive⟩ (.code k :: rest)) (hr : Runs c k c' items) (hl : ioLive = false) :
    c'.closed ∧ (∀ k', .code k' ∈ items ++ rest → Quiet c' k') ∧ NoSignal c' := by
  obtain ⟨hclosed, hquiet, hsignal⟩ := h.released hl
  have hq := hquiet k List.mem_cons_self
  refine ⟨?_, fun k' hm => ?_, noSignal_runs h hsignal hq hr⟩
  · cases hr with
    | start => exact hq.elim
    | close => rfl
    | _ => exact hclosed
  · rcases List.mem_append.mp hm with hm | hm
    · exact quiet_runs hclosed hq hr k' hm
    · refine quiet_same (hquiet k' (List.mem_cons_of_mem _ hm)) fun r hr' => ?_
      have hk : k.request ≠ some r := fun hk => (alone_top h.counted hk).code _ hm hr'
      exact (sameFor_runs hk (fun _ => (h.named.code _ (List.mem_cons_of_mem _ hm) r hr').ne) hr).request

theorem held_exec (h : Held ⟨c, closeCalled, ioLive⟩ (.code k :: rest))
    (hg : Conn.Releases ⟨⟨c, closeCalled, ioLive⟩, .code k :: rest⟩ .run) (hr : Runs c k c' items) :
    Held ⟨c', closeCalled || decide (k = .closeIo), ioLive⟩ (items ++ rest) where
  counted := counted_runs h.counted (fun _ => h.live_top) hr
  named := named_runs h.named hr
  asked := asked_runs h.counted h.named h.asked hr
  waits := waits_runs h.waits hr
  starting hm := by
    rcases List.mem_append.mp hm with hm | hm
    · cases hr <;> simp at hm
    · exact absurd (h.waits _ hm) (by decide)
  closing := closing_exec h hr
  deleted := deleted_exec h hr
  dead := dead_exec h hg hr
  released := released_exec h hr

theorem held_ret {e : Ext} {s : Conn} (h : Held s (.ext e :: rest)) : Held s rest where
  counted := counted_ret h.counted
  named := named_ret h.named
  asked := h.asked
  waits k hm := h.waits k (List.mem_of_mem_tail hm)
  starting hm := h.starting (List.mem_cons_of_mem _ hm)
  closing hc := (h.closing hc).imp_right fun ⟨k, hm, hk⟩ => ⟨k, List.mem_of_ne_of_mem (by simp) hm, hk⟩
  deleted ho := (h.deleted ho).imp_right fun ⟨k, hm, hk⟩ => ⟨k, List.mem_of_ne_of_mem (by simp) hm, hk⟩
  dead hl := ⟨(h.dead hl).1, fun k hm => (h.dead hl).2 k (List.mem_cons_of_mem _ hm)⟩
  released hl :=
    have hr := h.released hl
    ⟨hr.1, fun k hm => hr.2.1 k (List.mem_cons_of_mem _ hm), hr.2.2⟩

/-- A context that has been released is not entered any more. -/
theorem dead_enter {e : Entry} (h : Held ⟨c, closeCalled, ioLive⟩ stack)
    (hc : CallsOnce ⟨c, stack⟩ (.enter e)) (hio : Conn.IoContract ⟨⟨c, closeCalled, ioLive⟩, stack⟩ (.enter (.server e)))
    (he : Enters c e c' items) (hl : c.live = false) : items = [] := by
  obtain ⟨hcalled, hd⟩ := h.dead hl
  have hcounted := counted_enter h.counted hc he
  have howner : c.owner = false := by
    have hrefs := h.counted.refCount
    have hlive := h.counted.live
    by_contra ho
    rw [hl] at hlive
    have hzero : c.refCount = 0 := by simpa using hlive
    simp only [hzero, if_pos (by simpa using ho : c.owner = true)] at hrefs
    omega
  have hclosing : Item.code .closeCb ∉ stack := fun hm => by
    have := hd _ hm
    cases this
  cases he with
  | start ho | delete ho =>
    rw [howner] at ho
    cases ho
  | recvDone | recvError => exact absurd (hio hcalled) hclosing
  | sendError | allocRef => rfl
  | sendDone hm =>
    have hlive : c.live := (counted_top hcounted rfl).2
    rw [hl] at hlive
    cases hlive
  | resume hlt =>
    have hlive : c.live := (counted_top hcounted rfl).2
    rw [hl] at hlive
    cases hlive
  | close hl' | freeRef hl' =>
    rw [hl] at hl'
    cases hl'

/-- The environment asks quiet code of a context whose io has been released. -/
theorem released_enter {e : Entry} (h : Held ⟨c, closeCalled, ioLive⟩ stack)
    (hc : CallsOnce ⟨c, stack⟩ (.enter e)) (hio : Conn.IoContract ⟨⟨c, closeCalled, ioLive⟩, stack⟩ (.enter (.server e)))
    (hg : Conn.Releases ⟨⟨c, closeCalled, ioLive⟩, stack⟩ (.enter (.server e))) (he : Enters c e c' items)
    (hl : ioLive = false) : c'.closed ∧ (∀ k, .code k ∈ items ++ stack → Quiet c' k) ∧ NoSignal c' := by
  obtain ⟨hclosed, hquiet, hsignal⟩ := h.released hl
  cases he with
  | start ho hs =>
    have : ioLive = true := hg
    rw [hl] at this
    cases this
  | sendDone hm =>
    have : ioLive = true := hio
    rw [hl] at this
    cases this
  | @resume q o hlt =>
    have hasked := h.asked q hc
    refine ⟨hclosed, fun k hm => ?_, fun r hm hs => ?_⟩
    · have hm' : k = .nextStep q ∨ .code k ∈ stack := by simpa using hm
      rcases hm' with rfl | hk
      · rcases hasked with hf | hf
        · have hs : (c.request q).session ≠ signalSession := fun hs => hsignal q hc hs hf
          exact .inr ⟨by simpa [Request.complete] using hf, by simpa [Request.complete] using hs⟩
        · exact .inl (by simpa [Request.complete] using hf)
      · refine quiet_same (hquiet k hk) fun r hr => ?_
        have hne : r ≠ q := fun hrq => invoked_code h.counted hk hr (hrq ▸ hc)
        simp [hne]
    · have hmem := List.mem_of_mem_erase hm
      by_cases hq : r = q
      · subst hq
        simp [Request.complete] at hs ⊢
        exact hsignal r hmem hs
      · simp [hq] at hs ⊢
        exact hsignal r hmem hs
  | _ =>
    refine ⟨hclosed, fun k hm => ?_, hsignal⟩
    rcases List.mem_append.mp hm with hm | hm
    · simp at hm
      try
        subst hm
        trivial
    · exact quiet_same (hquiet k hm) fun r hr => rfl

theorem held_enter {e : Entry} (h : Held ⟨c, closeCalled, ioLive⟩ stack) (henv : EnvControls stack)
    (hc : CallsOnce ⟨c, stack⟩ (.enter e)) (hio : Conn.IoContract ⟨⟨c, closeCalled, ioLive⟩, stack⟩ (.enter (.server e)))
    (hg : Conn.Releases ⟨⟨c, closeCalled, ioLive⟩, stack⟩ (.enter (.server e))) (he : Enters c e c' items) :
    Held ⟨c', closeCalled, ioLive⟩ (items ++ stack) := by
  have hw := waits_of_envControls h.waits henv
  have hstart : .code .start ∉ stack := fun hm => absurd (hw _ hm) (by decide)
  have hclosed : c'.closed = c.closed := by cases he <;> rfl
  have hlive : c'.live = c.live := by cases he <;> rfl
  refine ⟨counted_enter h.counted hc he, named_enter h.named he, asked_enter h.asked he, waits_enter hw he,
    fun hm => ?_, fun hcl => ?_, fun ho => ?_, fun hl => ?_, released_enter h hc hio hg he⟩
  · cases he with
    | start ho hs => exact ⟨ho, hg⟩
    | _ => exact absurd hm (by simpa using hstart)
  · obtain hcalled | ⟨k, hm, hk⟩ := h.closing (hclosed ▸ hcl)
    · exact .inl hcalled
    · exact .inr ⟨k, List.mem_append_right _ hm, hk⟩
  · cases he with
    | delete => exact .inr ⟨.delete, by simp, rfl⟩
    | _ =>
      obtain hcl | ⟨k, hm, hk⟩ := h.deleted ho
      · exact .inl hcl
      · exact .inr ⟨k, List.mem_append_right _ hm, hk⟩
  · have hl : c.live = false := hlive ▸ hl
    rw [dead_enter h hc hio he hl]
    exact h.dead hl

end

/-! ### Whole runs -/

theorem held_preserves :
    Conn.program.Preserves (fun s m => Conn.CallsOnce s m ∧ Conn.IoContract s m ∧ Conn.Releases s m)
      fun s => Held s.state s.stack where
  exec := by
    intro s k rest s' items h hg he
    obtain ⟨⟨c', items'⟩, he', hs⟩ := Option.map_eq_some_iff.mp he
    obtain ⟨rfl, rfl⟩ := Prod.mk.inj hs
    exact held_exec h hg.2.2 (exec_runs he')
  ret h _ := held_ret h
  enter := by
    intro s stack e s' items henv h hg he
    cases e with
    | server e =>
      obtain ⟨⟨c', items'⟩, he', hs⟩ := Option.map_eq_some_iff.mp he
      obtain ⟨rfl, rfl⟩ := Prod.mk.inj hs
      exact held_enter h henv hg.1 hg.2.1 hg.2.2 (enter_enters he')
    | release =>
      simp only [Conn.program, Conn.enter, Option.ite_none_right_eq_some] at he
      obtain ⟨rfl, rfl⟩ := Prod.mk.inj (Option.some.inj he.2)
      exact ⟨h.counted, h.named, h.asked, h.waits,
        fun hm => absurd (waits_of_envControls h.waits henv _ hm) (by decide), h.closing, h.deleted, h.dead,
        fun _ => hg.2.2⟩

/-- Quiet code of a closed context does not use the io. -/
theorem not_usesIo {c : ServCo} {k : Code} (hc : c.closed) (hq : Quiet c k) : ¬ k.usesIo c := by
  cases k with
  | step1 | step2 | writeResult r => simp [Code.usesIo, hc]
  | finish2 r => exact fun hne => hne hq
  | step f r =>
    cases f with
    | finishRequest | stepPoll3 => exact hq.elim
    | _ => exact id
  | closeIo => exact hq.elim
  | _ => exact id

theorem Held.inLife {s : Conn.Config} (h : Held s.state s.stack) : InLife s where
  context k rest hs _ := by
    obtain ⟨⟨c, closeCalled, ioLive⟩, stack⟩ := s
    obtain rfl : stack = .code k :: rest := hs
    exact h.live_top
  io k rest hs hu := by
    by_contra hl
    obtain ⟨hc, hq, -⟩ := h.released (by simpa using hl)
    exact not_usesIo hc (hq k (hs ▸ List.mem_cons_self)) hu

/-- In whatever order the context is closed and deleted, its requests are finished and its
connection is released. -/
theorem conn_inLife (funcmap : Option (List UInt8 → Option Nat)) (onClosed : Bool) (ms : List (Move ConnEntry))
    (s : Conn.Config) (hc : Along Conn.program.step Conn.CallsOnce (Conn.new funcmap onClosed) ms)
    (hio : Along Conn.program.step Conn.IoContract (Conn.new funcmap onClosed) ms)
    (hr : Along Conn.program.step Conn.Releases (Conn.new funcmap onClosed) ms)
    (h : run Conn.program.step (Conn.new funcmap onClosed) ms = some s) : InLife s :=
  (held_preserves.run (held_new funcmap onClosed) (hc.and (hio.and hr)) h).inLife

/-- A call of the callable 7 is pending when the connection is lost, the context is deleted and
the connection object is released; then the callable calls `next_step`. -/
def pendingAtClose (session : List UInt8) : List (Move ConnEntry) :=
  List.flatten
    [[.enter (.server .start), .run, .run, .ret, .enter (.server (.allocRef (.callable 7) none)),
        .enter (.server (.recvDone (session ++ [0, 0, 0, 0]))), .run, .run, .run, .ret, .run, .ret,
        .enter (.server (.recvError "Connection closed."))],
      List.replicate 68 .run,
      [.ret, .run, .enter (.server .delete), .run, .run, .run, .enter .release,
        .enter (.server (.resume 0 ⟨false, ⟨[1], []⟩, none, none, false⟩)), .run, .run]]

theorem pendingCall_inLife : ∃ s, run Conn.program.step (Conn.new none false) (pendingAtClose [1, 0, 0, 0]) = some s ∧
    s.state.ioLive = false ∧ s.stack = [.code (.writeResult 0)] ∧ InLife s := by
  have hr : ∃ s, run Conn.program.step (Conn.new none false) (pendingAtClose [1, 0, 0, 0]) = some s ∧
      s.state.ioLive = false ∧ s.stack = [.code (.writeResult 0)] := exists_run (by decide +kernel)
  obtain ⟨s, hs, hio, hst⟩ := hr
  exact ⟨s, hs, hio, hst, conn_inLife none false _ s (by decide +kernel) (by decide +kernel) (by decide +kernel) hs⟩

/-- The response to an info request fails inside `io->send`, and the handler of the close deletes
the context. -/
def sendFails : List (Move ConnEntry) :=
  [.enter (.server .start), .run, .run, .ret, .enter (.server (.recvDone [1, 0, 0, 0, 0xfc, 0xff, 0xff, 0xff])),
    .run, .run, .run, .run, .run, .enter (.server (.sendError (some "Connection closed."))),
    .enter (.server (.sendDone 0 .finishRequest)), .run, .run, .run, .run, .ret, .run,
    .enter (.server .delete), .run, .run, .run, .ret, .run, .run, .ret]

/-- The request of a signal looks for an error of the io that is gone; the receive loop goes on
with the context that is gone. -/
theorem lifetimes_end :
    (∃ s, run Conn.program.step (Conn.new none false) (pendingAtClose [0xff, 0xff, 0xff, 0xff]) = some s ∧
      Along Conn.program.step Conn.CallsOnce (Conn.new none false) (pendingAtClose [0xff, 0xff, 0xff, 0xff]) ∧
      Along Conn.program.step Conn.IoContract (Conn.new none false) (pendingAtClose [0xff, 0xff, 0xff, 0xff]) ∧
      s.state.ioLive = false ∧ s.stack = [.code (.step .finishRequest 0)] ∧ ¬ InLife s) ∧
    ∃ s, run Conn.program.step (Conn.new none true) sendFails = some s ∧
      Along Conn.program.step Conn.CallsOnce (Conn.new none true) sendFails ∧
      Along Conn.program.step Conn.IoContract (Conn.new none true) sendFails ∧
      s.state.ctx.live = false ∧ s.stack = [.code .step1] ∧ ¬ InLife s := by
  constructor
  · have hr : ∃ s, run Conn.program.step (Conn.new none false) (pendingAtClose [0xff, 0xff, 0xff, 0xff]) = some s ∧
        s.state.ioLive = false ∧ s.stack = [.code (.step .finishRequest 0)] := exists_run (by decide +kernel)
    obtain ⟨s, hs, hio, hst⟩ := hr
    refine ⟨s, hs, by decide +kernel, by decide +kernel, hio, hst, fun h => ?_⟩
    have := h.io _ _ hst trivial
    rw [hio] at this
    cases this
  · have hr : ∃ s, run Conn.program.step (Conn.new none true) sendFails = some s ∧
        s.state.ctx.live = false ∧ s.stack = [.code .step1] := exists_run (by decide +kernel)
    obtain ⟨s, hs, hl, hst⟩ := hr
    refine ⟨s, hs, by decide +kernel, by decide +kernel, hl, hst, fun h => ?_⟩
    have := h.context _ _ hst rfl
    rw [hl] at this
    cases this

end PxpRpc.Server
