import PxpRpc.Server.Interference

/-!
# The poll protocol

A poll request is one request object that goes through
`_pxprpc__stepPoll1`, the callable, `_pxprc_stepPoll2`, the io and
`_pxprpc__stepPoll3`, until the callable rejects it.
-/
namespace PxpRpc.Server

open PxpRpc.Lib PxpRpc.Lib.Callback

/-- A frame with the format of a poll request. -/
structure IsPoll (frame : List UInt8) : Prop where
  length : 12 ≤ frame.length
  callableIndex : word frame 4 = -5#32

/-- A poll request: the buffer its frame was received in, and the callable it polls. -/
structure Poll where
  frame : List UInt8
  block : Nat
  id : Nat

namespace Poll

variable (p : Poll)

/-- The parameter bytes that every invocation is given. -/
def parameter : PxprpcBytes := ⟨⟨some p.block, 12⟩, BitVec.ofNat 32 p.frame.length - 8 - 4⟩

/-- The request as every invocation finds it. -/
def request : Request :=
  ⟨word p.frame 0, word p.frame 8, p.parameter, none, ⟨[], []⟩, false, none, some .stepPoll2⟩

/-- The session of the response to an outcome. -/
def session (o : Outcome) : BitVec 32 :=
  if o.rejected then word p.frame 0 ^^^ 0x80000000#32 else word p.frame 0

/-- One invocation and its response. -/
def answer (r : Nat) (o : Outcome) : List Event :=
  [.invoked r p.id p.request, .resumed r o, .sent r (p.session o) o.result.sent]

/-- The history of the request while the callable comes to these outcomes: it is
invoked until the first that is rejected, and finished after that. -/
def log (r : Nat) : List Outcome → List Event
  | [] => [.invoked r p.id p.request]
  | o :: os =>
    p.answer r o ++
      if o.rejected then [.finishing r o.onFinish, .finished r]
      else (o.onFinish.map (Event.polled r)).toList ++ log r os

end Poll

/-- What the callable made of a request. -/
def Event.outcome (r : Nat) : Event → Option Outcome
  | .resumed q o => if q = r then some o else none
  | _ => none

def outcomes (r : Nat) (log : List Event) : List Outcome := log.filterMap (Event.outcome r)

/-! ### Assumptions on the steps of a run -/

/-- No io error and no close. -/
def Undisturbed (c : Config) : Move Entry → Prop
  | .run =>
      match c.stack with
      | .code (.step .stepClose1 _) :: _ => False
      | _ => True
  | .enter (.recvError _) | .enter (.sendError (some _)) | .enter .close | .enter .delete => False
  | _ => True

/-- Whenever the poll looks its callable up, the entry holds the callable `id`. -/
def StaysReferenced (r id : Nat) (c : Config) : Move Entry → Prop
  | .run =>
      match c.stack with
      | .code (.pollCall q) :: _ => q = r → c.state.callable (c.state.request r).callableIndex = some id
      | _ => True
  | _ => True

/-- No invocation of the poll takes the parameter buffer for its own. -/
def LeavesParameter (r : Nat) (_ : Config) : Move Entry → Prop
  | .enter (.resume q o) => q = r → o.ownsParameter = false
  | _ => True

/-- What is assumed of every step of a poll. -/
structure Assumed (r id : Nat) (c : Config) (m : Move Entry) : Prop where
  once : CallsOnce c m
  undisturbed : Undisturbed c m
  referenced : StaysReferenced r id c m
  parameter : LeavesParameter r c m

def Entry.disturbs : Entry → Bool
  | .recvError _ | .sendError (some _) | .close | .delete => true
  | _ => false

def Entry.resumed : Entry → Option (Nat × Outcome)
  | .resume r o => some (r, o)
  | _ => none

section

variable {s : ServCo} {c : Config} {k : Code} {e : Entry} {rest : Stack} {r id : Nat}

theorem undisturbed_code : Undisturbed ⟨s, .code k :: rest⟩ .run ↔ ∀ r ∈ k.request, k ≠ .step .stepClose1 r := by
  cases k with
  | step f r => cases f <;> simp [Undisturbed, Code.request]
  | _ => simp [Undisturbed]

theorem undisturbed_enter : Undisturbed c (.enter e) ↔ e.disturbs = false := by
  cases e with
  | sendError error => cases error <;> simp [Undisturbed, Entry.disturbs]
  | _ => simp [Undisturbed, Entry.disturbs]

theorem staysReferenced_code : StaysReferenced r id ⟨s, .code k :: rest⟩ .run ↔
    (k = .pollCall r → s.callable (s.request r).callableIndex = some id) := by
  cases k <;> simp [StaysReferenced]

theorem leavesParameter_enter :
    LeavesParameter r c (.enter e) ↔ ∀ p ∈ e.resumed, p.1 = r → p.2.ownsParameter = false := by
  cases e <;> simp [LeavesParameter, Entry.resumed]

end

instance (frame : List UInt8) : Decidable (IsPoll frame) :=
  decidable_of_iff (12 ≤ frame.length ∧ word frame 4 = -5#32) ⟨fun h => ⟨h.1, h.2⟩, fun h => ⟨h.1, h.2⟩⟩

instance : ∀ (c : Config) (m : Move Entry), Decidable (Undisturbed c m) :=
  decidableMove (fun _ _ _ => decidable_of_iff _ undisturbed_code.symm) (fun _ _ => decidable_of_iff _ undisturbed_enter.symm)
    (fun _ => trivial) (fun _ _ _ => trivial) (fun _ => trivial)

instance (r id : Nat) : ∀ (c : Config) (m : Move Entry), Decidable (StaysReferenced r id c m) :=
  decidableMove (fun _ _ _ => decidable_of_iff _ staysReferenced_code.symm) (fun _ _ => isTrue trivial)
    (fun _ => trivial) (fun _ _ _ => trivial) (fun _ => trivial)

instance (r : Nat) : ∀ (c : Config) (m : Move Entry), Decidable (LeavesParameter r c m) :=
  decidableMove (fun _ _ _ => isTrue trivial) (fun _ _ => decidable_of_iff _ leavesParameter_enter.symm)
    (fun _ => trivial) (fun _ _ _ => trivial) (fun _ => trivial)

instance (r id : Nat) (c : Config) (m : Move Entry) : Decidable (Assumed r id c m) :=
  decidable_of_iff (CallsOnce c m ∧ Undisturbed c m ∧ StaysReferenced r id c m ∧ LeavesParameter r c m)
    ⟨fun h => ⟨h.1, h.2.1, h.2.2.1, h.2.2.2⟩, fun h => ⟨h.1, h.2, h.3, h.4⟩⟩

/-! ### The invariant -/

/-- Where a poll request is in its loop; the outcome is the one last come to. -/
inductive Phase where
  | created
  | ready
  | called
  | answered (o : Outcome)
  | written (o : Outcome)
  | sent (o : Outcome)
  | ended (o : Outcome)
  | finishing (o : Outcome)
  | finished (o : Outcome)

namespace Phase

/-- The code that may go on with the request. -/
def runs (r : Nat) : Phase → Code → Prop
  | created, k => k = .nextStep r ∨ k = .step .stepPoll1 r
  | ready, k => k = .pollCall r
  | answered _, k => k = .nextStep r ∨ k = .step .stepPoll2 r
  | written _, k => k = .writeResult r
  | sent _, k => k = .step .stepPoll3 r ∨ k = .poll3 r
  | ended _, k => k = .step .finishRequest r ∨ k = .finish1 r
  | finishing _, k => k = .finish2 r
  | _, _ => False

/-- The memory of the request. -/
def holds (p : Poll) : Phase → Request → Prop
  | created, req =>
    req = prepareRequest { Request.zero with
      session := word p.frame 0
      callableIndex := word p.frame 4
      parameter := ⟨⟨some p.block, 8⟩, BitVec.ofNat 32 p.frame.length - 8⟩ }
  | ready, req => { prepareRequest req with nextStep := some .stepPoll2 } = p.request
  | called, req => req = p.request
  | answered o, req => o.ownsParameter = false ∧ req = p.request.complete o
  | written o, req => o.ownsParameter = false ∧ req = { p.request.complete o with nextStep := some .stepPoll3 }
  | sent o, req => o.ownsParameter = false ∧ req = { p.request.complete o with nextStep := some .stepPoll3 }.flip
  | ended o, req | finishing o, req =>
    o.rejected ∧ req.parameter.base = ⟨some p.block, 8⟩ ∧ req.onFinish = o.onFinish
  | finished o, _ => o.rejected

/-- What has happened since the last iteration. -/
def log (p : Poll) (r : Nat) : Phase → List Event
  | created | ready => []
  | called => [.invoked r p.id p.request]
  | answered o | written o => [.invoked r p.id p.request, .resumed r o]
  | sent o | ended o => p.answer r o
  | finishing o => p.answer r o ++ [.finishing r o.onFinish]
  | finished o => p.answer r o ++ [.finishing r o.onFinish, .finished r]

def isCalled : Phase → Bool
  | called => true
  | _ => false

def isSent : Phase → Bool
  | sent _ => true
  | _ => false

def isFinished : Phase → Bool
  | finished _ => true
  | _ => false

end Phase

/-- The iterations that are over. -/
def Poll.rounds (p : Poll) (r : Nat) (os : List Outcome) : List Event :=
  os.flatMap fun o => p.answer r o ++ (o.onFinish.map (Event.polled r)).toList

/-- The request is in this phase of its poll. -/
structure InPhase (p : Poll) (r : Nat) (os : List Outcome) (phase : Phase) (c : ServCo) (stack : Stack) : Prop where
  accepted : ∀ o ∈ os, o.rejected = false
  code : ∀ k, .code k ∈ stack → k.request = some r → phase.runs r k
  invoked : r ∈ c.invoked → phase.isCalled
  sending : ∀ f, (r, f) ∈ c.sending → f = .stepPoll3 ∧ phase.isSent
  request : phase.holds p (c.request r)
  log : eventsOf r c.log = .received r ⟨some p.block, 0⟩ p.frame :: (p.rounds r os ++ phase.log p r)
  frame : phase.isFinished = false → c.frames p.block = some p.frame

/-- Nothing else goes on with the request. -/
structure Alone (r : Nat) (c : ServCo) (stack : Stack) : Prop where
  code : ∀ k, .code k ∈ stack → k.request ≠ some r
  invoked : r ∉ c.invoked
  sending : ∀ f, (r, f) ∉ c.sending

theorem alone_top {c : ServCo} {k : Code} {rest : Stack} {r : Nat} (h : Counted c (.code k :: rest))
    (hk : k.request = some r) : Alone r c rest := by
  have hh := h.held r
  have hc := count_top h hk
  simp [pending, holds, hk] at hh
  refine ⟨fun k' hm hk' => ?_, fun hm => ?_, fun f hm => ?_⟩
  · have hz : total (holds r) rest = 0 := by omega
    have := total_eq_zero_iff.mp hz _ hm
    simp [holds, hk'] at this
  · have := List.count_pos_iff.mpr hm
    omega
  · have : 0 < c.sending.countP (fun p => decide (p.1 = r)) := List.countP_pos_iff.mpr ⟨_, hm, by simp⟩
    omega

section

variable {p : Poll} {r : Nat} {os : List Outcome} {phase : Phase} {c c' : ServCo} {k : Code} {rest items : Stack}

/-- The phase is left for another one, in which the new code goes on with the request. -/
theorem InPhase.next (h : InPhase p r os phase c (.code k :: rest)) (hone : Alone r c rest) {phase' : Phase}
    (hcode : ∀ k, .code k ∈ items → phase'.runs r k) (hinvoked : r ∈ c'.invoked → r ∈ c.invoked ∨ phase'.isCalled)
    (hsending : ∀ f, (r, f) ∈ c'.sending → (r, f) ∈ c.sending ∨ f = .stepPoll3 ∧ phase'.isSent)
    (hrequest : phase'.holds p (c'.request r))
    (hlog : eventsOf r c'.log = .received r ⟨some p.block, 0⟩ p.frame :: (p.rounds r os ++ phase'.log p r))
    (hframe : phase'.isFinished = false → c'.frames p.block = some p.frame) :
    InPhase p r os phase' c' (items ++ rest) where
  accepted := h.accepted
  code k hm hk := by
    rcases List.mem_append.mp hm with hm | hm
    · exact hcode k hm
    · exact absurd hk (hone.code k hm)
  invoked hm := (hinvoked hm).resolve_left hone.invoked
  sending f hm := (hsending f hm).resolve_left (hone.sending f)
  request := hrequest
  log := hlog
  frame := hframe

theorem handler_poll (f : Option NextStep) : handler (-5#32) f = some .stepPoll1 := rfl

theorem flip_nextStep (req : Request) : req.flip.nextStep = req.nextStep := by
  rw [Request.flip]
  split <;> rfl

theorem rounds_snoc (o : Outcome) :
    p.rounds r (os ++ [o]) = p.rounds r os ++ (p.answer r o ++ (o.onFinish.map (Event.polled r)).toList) := by
  simp [Poll.rounds]

theorem eventsOf_self (log : List Event) {ev : Event} (h : ev.isOf r) : eventsOf r (log ++ [ev]) = eventsOf r log ++ [ev] := by
  simp [eventsOf, h]

theorem Phase.created_runs (h : InPhase p r os .created c (.code k :: rest)) (hone : Alone r c rest) (hp : IsPoll p.frame)
    (hk : k.request = some r) (hr : Runs c k c' items) : ∃ phase, InPhase p r os phase c' (items ++ rest) := by
  have hreq := h.request
  have hframe := h.frame rfl
  rcases h.code k List.mem_cons_self hk with rfl | rfl
  · cases hr with
    | nextStep hf =>
      rw [Phase.holds] at hreq
      rw [hreq, prepareRequest, hp.callableIndex, handler_poll] at hf
      obtain rfl := Option.some.inj hf
      exact ⟨.created, h.next hone (by simp [Phase.runs]) .inl (fun f => .inl) hreq h.log fun _ => hframe⟩
  · cases hr with
    | stepPoll1 hi =>
      rw [Phase.holds] at hreq
      have hw : c.readWord (c.request r).parameter.base = some (word p.frame 8) := by
        rw [hreq]
        exact readWord_frame hframe hp.length
      obtain rfl := Option.some.inj (hi.symm.trans hw)
      refine ⟨.ready, h.next hone (by simp [Phase.runs]) .inl (fun f => .inl) ?_ h.log fun _ => hframe⟩
      simp [Phase.holds, hreq, prepareRequest, Poll.request, Poll.parameter, Addr.add]

theorem Phase.ready_runs (h : InPhase p r os .ready c (.code k :: rest)) (hone : Alone r c rest)
    (hi : c.callable (c.request r).callableIndex = some p.id)
    (hk : k.request = some r) (hr : Runs c k c' items) : ∃ phase, InPhase p r os phase c' (items ++ rest) := by
  have hreq := h.request
  obtain rfl := h.code k List.mem_cons_self hk
  cases hr with
  | pollCall hi' =>
    obtain rfl := Option.some.inj (hi'.symm.trans hi)
    rw [Phase.holds] at hreq
    refine ⟨.called, h.next hone (by simp) (fun _ => .inr rfl) (fun f => .inl) ?_ ?_ fun _ => h.frame rfl⟩
    · simp [Phase.holds, hreq]
    · have hlog := h.log
      simp [eventsOf, Event.isOf, Phase.log, hreq] at hlog ⊢
      simp [hlog]

theorem Phase.answered_runs {o : Outcome} (h : InPhase p r os (.answered o) c (.code k :: rest)) (hone : Alone r c rest)
    (hk : k.request = some r) (hr : Runs c k c' items) : ∃ phase, InPhase p r os phase c' (items ++ rest) := by
  obtain ⟨ho, hreq⟩ := h.request
  rcases h.code k List.mem_cons_self hk with rfl | rfl
  · cases hr with
    | nextStep hf =>
      rw [hreq] at hf
      obtain rfl := Option.some.inj hf
      exact ⟨.answered o, h.next hone (by simp [Phase.runs]) .inl (fun f => .inl) ⟨ho, hreq⟩ h.log fun _ => h.frame rfl⟩
  · cases hr with
    | stepPoll2 =>
      refine ⟨.written o, h.next hone (by simp [Phase.runs]) .inl (fun f => .inl) ⟨ho, ?_⟩ h.log fun _ => h.frame rfl⟩
      simp [hreq]

theorem Phase.written_runs {o : Outcome} (h : InPhase p r os (.written o) c (.code k :: rest)) (hone : Alone r c rest)
    (hopen : c.closed = false) (hk : k.request = some r) (hr : Runs c k c' items) :
    ∃ phase, InPhase p r os phase c' (items ++ rest) := by
  obtain ⟨ho, hreq⟩ := h.request
  obtain rfl := h.code k List.mem_cons_self hk
  cases hr with
  | writeResultClosed hc => simp [hc] at hopen
  | writeResult hc hf =>
    rw [hreq] at hf
    obtain rfl := Option.some.inj hf
    refine ⟨.sent o, h.next hone (by simp) .inl (fun f hm => ?_) ⟨ho, ?_⟩ ?_ fun _ => h.frame rfl⟩
    · have hm : f = .stepPoll3 ∨ (r, f) ∈ c.sending := by simpa using hm
      exact hm.symm.imp_right fun he => ⟨he, rfl⟩
    · simp [hreq]
    · have hlog := h.log
      have hs : (c.request r).flip.session = p.session o := by
        rw [hreq, Request.flip, Poll.session]
        cases hrej : o.rejected <;> simp [Request.complete, hrej, Poll.request]
      have hres : (c.request r).result = o.result := by rw [hreq]; rfl
      simp [eventsOf, Event.isOf, Phase.log, Poll.answer] at hlog ⊢
      simp [hlog, hs, hres]

theorem Phase.sent_runs {o : Outcome} (h : InPhase p r os (.sent o) c (.code k :: rest)) (hone : Alone r c rest)
    (hopen : c.closed = false) (herr : c.sendError = none) (hk : k.request = some r) (hr : Runs c k c' items) :
    ∃ os phase, InPhase p r os phase c' (items ++ rest) := by
  obtain ⟨ho, hreq⟩ := h.request
  have hrej : (c.request r).rejected = o.rejected := by
    rw [hreq, Request.flip]
    split <;> rfl
  have hfin : (c.request r).onFinish = o.onFinish := by
    rw [hreq, Request.flip]
    split <;> rfl
  have hpar : (c.request r).parameter = p.parameter := by
    rw [hreq, block_flip]
    simp [Request.complete, ho, Poll.request]
  -- an accepted outcome ends an iteration
  have hround : o.rejected = false → ∀ {c'' : ServCo} {items' : Stack},
      c''.request = c.request → c''.invoked = c.invoked → c''.sending = c.sending → c''.frames = c.frames →
      eventsOf r c''.log = eventsOf r c.log ++ (o.onFinish.map (Event.polled r)).toList →
      (∀ k, .code k ∈ items' → k = .pollCall r) → InPhase p r (os ++ [o]) .ready c'' (items' ++ rest) := by
    intro hacc c'' items' h₁ h₂ h₃ h₄ h₅ h₆
    refine ⟨?_, fun k hm hk => ?_, fun hm => ?_, fun f hm => ?_, ?_, ?_, fun _ => ?_⟩
    · intro o' hm
      rcases List.mem_append.mp hm with hm | hm
      · exact h.accepted o' hm
      · rw [List.mem_singleton.mp hm, hacc]
    · rcases List.mem_append.mp hm with hm | hm
      · exact h₆ k hm
      · exact absurd hk (hone.code k hm)
    · exact absurd (h₂ ▸ hm) hone.invoked
    · exact absurd (h₃ ▸ hm) (hone.sending f)
    · simp [Phase.holds, h₁, hreq, Request.flip, Request.complete, hacc, ho, prepareRequest, Poll.request]
    · rw [h₅, h.log, rounds_snoc]
      simp [Phase.log]
    · rw [h₄]
      exact h.frame rfl
  rcases h.code k List.mem_cons_self hk with rfl | rfl
  · cases hr with
    | stepPoll3 he =>
      exact ⟨os, .sent o, h.next hone (by simp [Phase.runs]) .inl (fun f => .inl) ⟨ho, hreq⟩ h.log fun _ => h.frame rfl⟩
    | stepPoll3Error he => simp [herr] at he
  · cases hr with
    | pollEnd hrc =>
      have hrej' : o.rejected = true := by simpa [hopen, hrej] using hrc
      refine ⟨os, .ended o, h.next hone (by simp [Phase.runs]) .inl (fun f => .inl) ⟨hrej', ?_, ?_⟩ h.log
        fun _ => h.frame rfl⟩
      · simp [hpar, Poll.parameter, Addr.add]
      · simpa using hfin
    | pollHook hacc hc hf =>
      refine ⟨os ++ [o], .ready, hround (hrej ▸ hacc) rfl rfl rfl rfl ?_ (by simp)⟩
      rw [← hfin, hf]
      exact eventsOf_self _ (by simp [Event.isOf])
    | pollNext hacc hc hf =>
      refine ⟨os ++ [o], .ready, hround (hrej ▸ hacc) rfl rfl rfl rfl ?_ (by simp)⟩
      rw [← hfin, hf]
      simp

theorem Phase.ended_runs {o : Outcome} (h : InPhase p r os (.ended o) c (.code k :: rest)) (hone : Alone r c rest)
    (herr : c.sendError = none) (hk : k.request = some r) (hr : Runs c k c' items) :
    ∃ phase, InPhase p r os phase c' (items ++ rest) := by
  obtain ⟨hrej, hbase, hfin⟩ := h.request
  have hlog : ∀ hook, (c.request r).onFinish = hook →
      eventsOf r (c.emit (.finishing r hook)).log =
        .received r ⟨some p.block, 0⟩ p.frame :: (p.rounds r os ++ (Phase.finishing o).log p r) := by
    intro hook hhook
    rw [ServCo.emit_log, eventsOf_self _ (by simp [Event.isOf]), h.log, ← hhook, hfin]
    simp [Phase.log]
  rcases h.code k List.mem_cons_self hk with rfl | rfl
  · cases hr with
    | finishRequest he =>
      exact ⟨.ended o, h.next hone (by simp [Phase.runs]) .inl (fun f => .inl) h.request h.log fun _ => h.frame rfl⟩
    | finishRequestError he => simp [herr] at he
  · cases hr with
    | finishHook hf =>
      exact ⟨.finishing o, h.next hone (by simp [Phase.runs]) .inl (fun f => .inl) ⟨hrej, hbase, hfin⟩ (hlog _ hf)
        fun _ => h.frame rfl⟩
    | finish hf =>
      exact ⟨.finishing o, h.next hone (by simp [Phase.runs]) .inl (fun f => .inl) ⟨hrej, hbase, hfin⟩ (hlog _ hf)
        fun _ => h.frame rfl⟩

theorem Phase.finishing_runs {o : Outcome} (h : InPhase p r os (.finishing o) c (.code k :: rest)) (hone : Alone r c rest)
    (hk : k.request = some r) (hr : Runs c k c' items) : ∃ phase, InPhase p r os phase c' (items ++ rest) := by
  obtain ⟨hrej, hbase, hfin⟩ := h.request
  obtain rfl := h.code k List.mem_cons_self hk
  cases hr with
  | finishOwned hb => simp [hbase] at hb
  | finishFree hb hf =>
    refine ⟨.finished o, h.next hone (by simp) .inl (fun f => .inl) hrej ?_ (by simp [Phase.isFinished])⟩
    have hlog := h.log
    simp [eventsOf, Event.isOf, Phase.log, apply_ite (List.filter _)] at hlog ⊢
    simp [hlog]

end

/-! ### The context -/

/-- Nothing has gone wrong and nobody is closing the context. -/
structure Calm (c : ServCo) (stack : Stack) : Prop where
  closed : c.closed = false
  sendError : c.sendError = none
  receiveError : c.receiveError = none
  code : .code .close ∉ stack ∧ .code .delete ∉ stack

theorem calm_new (funcmap : Option (List UInt8 → Option Nat)) (onClosed : Bool) :
    Calm (new funcmap onClosed).state (new funcmap onClosed).stack := by
  constructor <;> simp [new]

theorem calm_runs {c c' : ServCo} {k : Code} {rest items : Stack} (h : Calm c (.code k :: rest))
    (hu : Undisturbed ⟨c, .code k :: rest⟩ .run) (hr : Runs c k c' items) : Calm c' (items ++ rest) := by
  obtain ⟨hclosed, hsend, hreceive, hcode⟩ := h
  cases hr with
  | stepClose1 => exact absurd hu id
  | _ => constructor <;> simp_all

theorem calm_enter {c c' : ServCo} {e : Entry} {stack items : Stack} (h : Calm c stack)
    (hu : Undisturbed ⟨c, stack⟩ (.enter e)) (he : Enters c e c' items) : Calm c' (items ++ stack) := by
  obtain ⟨hclosed, hsend, hreceive, hcode⟩ := h
  cases he with
  | recvError | close | delete => exact absurd hu id
  | @sendError error =>
    cases error with
    | none => exact ⟨hclosed, rfl, hreceive, hcode⟩
    | some error => exact absurd hu id
  | _ => constructor <;> simp_all

/-- Then every response is written on an open context. -/
theorem Calm.answersOpen {c : ServCo} {stack : Stack} (h : Calm c stack) {m : Move Entry}
    (hu : Undisturbed ⟨c, stack⟩ m) : AnswersOpen ⟨c, stack⟩ m := by
  cases m with
  | run =>
    rw [AnswersOpen.eq_def]
    dsimp only
    split
    · exact hu
    · exact h.closed
    · trivial
  | _ => trivial

/-! ### Whole runs -/

theorem Phase.block {p : Poll} {phase : Phase} {req : Request} (h : phase.holds p req) (hf : phase.isFinished = false) :
    req.parameter.base.block = some p.block := by
  have hparameter : p.request.parameter.base.block = some p.block := rfl
  have hcomplete : ∀ o : Outcome, o.ownsParameter = false → (p.request.complete o).parameter = p.request.parameter :=
    fun o ho => by simp [Request.complete, ho]
  cases phase with
  | created => rw [h]; rfl
  | ready =>
    have : req.parameter = p.request.parameter := by rw [← h]; rfl
    rw [this, hparameter]
  | called => rw [h, hparameter]
  | answered o => rw [h.2, hcomplete o h.1, hparameter]
  | written o =>
    rw [h.2]
    change (p.request.complete o).parameter.base.block = _
    rw [hcomplete o h.1, hparameter]
  | sent o =>
    rw [h.2, block_flip]
    change (p.request.complete o).parameter.base.block = _
    rw [hcomplete o h.1, hparameter]
  | ended o | finishing o => rw [h.2.1]
  | finished o => cases hf

section

variable {p : Poll} {r : Nat} {os : List Outcome} {phase : Phase} {c c' : ServCo} {stack items : Stack}

/-- Code of other requests and the environment leave the phase as it is. -/
theorem InPhase.other (h : InPhase p r os phase c stack) {stack' : Stack} (hs : SameFor r c c')
    (hitems : ∀ k, .code k ∈ stack' → .code k ∈ stack ∨ k.request ≠ some r)
    (hframes : ∀ b, c.block r = some b → c'.frames b = c.frames b) : InPhase p r os phase c' stack' where
  accepted := h.accepted
  code k hm hk := h.code k ((hitems k hm).resolve_right (absurd hk ·)) hk
  invoked hm := by
    refine h.invoked (List.count_pos_iff.mp ?_)
    rw [← hs.invoked]
    exact List.count_pos_iff.mpr hm
  sending f hm := h.sending f ((hs.sending f).mp hm)
  request := by
    rw [hs.request]
    exact h.request
  log := by rw [hs.log, h.log]
  frame hf := by rw [hframes _ (Phase.block h.request hf), h.frame hf]

end

/-- The request with number `r` is in a phase of its poll, if that is what it is. -/
def Poll.Sound (r id : Nat) (c : ServCo) (stack : Stack) : Prop := ∀ base frame, .received r base frame ∈ c.log → IsPoll frame →
  ∃ b os phase, base = ⟨some b, 0⟩ ∧ InPhase ⟨frame, b, id⟩ r os phase c stack

structure Sound (r id : Nat) (c : ServCo) (stack : Stack) : Prop where
  accounted : Accounted c stack
  named : Named c stack
  buffers : Buffers c stack
  calm : Calm c stack
  poll : Poll.Sound r id c stack

theorem sound_new (r id : Nat) (funcmap : Option (List UInt8 → Option Nat)) (onClosed : Bool) :
    Sound r id (new funcmap onClosed).state (new funcmap onClosed).stack :=
  ⟨accounted_new funcmap onClosed, named_new funcmap onClosed, buffers_new funcmap onClosed, calm_new funcmap onClosed,
    fun base frame hf => by simp [new] at hf⟩

section

variable {r id : Nat} {c c' : ServCo} {k : Code} {rest items : Stack}

/-- The phases of a poll, one piece of its code after the other. -/
theorem inPhase_runs {p : Poll} {os : List Outcome} {phase : Phase} (hs : Sound r p.id c (.code k :: rest))
    (h : InPhase p r os phase c (.code k :: rest)) (hp : IsPoll p.frame)
    (ha : Assumed r p.id ⟨c, .code k :: rest⟩ .run) (hk : k.request = some r) (hr : Runs c k c' items) :
    ∃ os phase, InPhase p r os phase c' (items ++ rest) := by
  have hone := alone_top hs.accounted.toCounted hk
  cases phase with
  | created => exact ⟨os, Phase.created_runs h hone hp hk hr⟩
  | ready =>
    have hcode : k = .pollCall r := h.code k List.mem_cons_self hk
    have hi := ha.referenced
    rw [hcode] at hi
    exact ⟨os, Phase.ready_runs h hone (hi rfl) hk hr⟩
  | called => exact absurd (h.code k List.mem_cons_self hk) id
  | answered o => exact ⟨os, Phase.answered_runs h hone hk hr⟩
  | written o => exact ⟨os, Phase.written_runs h hone hs.calm.closed hk hr⟩
  | sent o => exact Phase.sent_runs h hone hs.calm.closed hs.calm.sendError hk hr
  | ended o => exact ⟨os, Phase.ended_runs h hone hs.calm.sendError hk hr⟩
  | finishing o => exact ⟨os, Phase.finishing_runs h hone hk hr⟩
  | finished o => exact absurd (h.code k List.mem_cons_self hk) id

/-- A new request that is a poll. -/
theorem inPhase_step2 (hs : Sound r id c (.code .step2 :: rest)) (hnew : r = c.nextRequest) {base : Addr}
    {frame : List UInt8} (hf : .received r base frame ∈ c'.log) (hr : Runs c .step2 c' items) :
    ∃ b, base = ⟨some b, 0⟩ ∧ InPhase ⟨frame, b, id⟩ r [] .created c' (items ++ rest) := by
  subst hnew
  obtain ⟨b, hb⟩ := received_step2 hs.named hs.buffers hf hr
  refine ⟨b, hb.stored, by simp, fun k hm hk => ?_, fun hm => ?_, fun f hm => ?_, hb.request, ?_, fun _ => hb.buffer⟩
  · rw [hb.items] at hm
    have hm : k = .nextStep c.nextRequest ∨ k = .step1 ∨ .code k ∈ rest := by simpa using hm
    rcases hm with rfl | rfl | hm
    · exact .inl rfl
    · cases hk
    · exact absurd (hs.named.code k (List.mem_cons_of_mem _ hm) _ hk) (Nat.lt_irrefl _)
  · exact absurd (hs.named.invoked _ (hb.invoked ▸ hm)) (Nat.lt_irrefl _)
  · exact absurd (hs.named.sending _ (hb.sending ▸ hm)) (Nat.lt_irrefl _)
  · simp [hb.log, hb.stored, Poll.rounds, Phase.log]

theorem sound_runs (hs : Sound r id c (.code k :: rest)) (ha : Assumed r id ⟨c, .code k :: rest⟩ .run)
    (ht : k.touches → c.live) (hr : Runs c k c' items) : Sound r id c' (items ++ rest) where
  accounted := accounted_runs hs.accounted (hs.calm.answersOpen ha.undisturbed) ht hr
  named := named_runs hs.named hr
  buffers := buffers_runs hs.buffers hr
  calm := calm_runs hs.calm ha.undisturbed hr
  poll := by
    intro base frame hf hp
    by_cases hk : k.request = some r
    · have hm : .received r base frame ∈ c.log := by
        cases hr <;> simp_all [Code.request]
      obtain ⟨b, os, phase, hbase, h⟩ := hs.poll base frame hm hp
      obtain ⟨os, phase, h⟩ := inPhase_runs hs h hp ha hk hr
      exact ⟨b, os, phase, hbase, h⟩
    · by_cases hnew : k = .step2 ∧ r = c.nextRequest
      · obtain ⟨rfl, hnew⟩ := hnew
        obtain ⟨b, hbase, h⟩ := inPhase_step2 hs hnew hf hr
        exact ⟨b, [], .created, hbase, h⟩
      · have hother : k = .step2 → r ≠ c.nextRequest := fun he hn => hnew ⟨he, hn⟩
        have hsame := sameFor_runs hk hother hr
        have hm : .received r base frame ∈ c.log := by
          rw [← @mem_eventsOf r _ (.received r base frame) (by simp [Event.isOf]), ← hsame.log]
          exact (mem_eventsOf (by simp [Event.isOf])).mpr hf
        obtain ⟨b, os, phase, hbase, h⟩ := hs.poll base frame hm hp
        refine ⟨b, os, phase, hbase, h.other hsame (fun k' hm' => ?_) fun b' hb => frames_runs hs.buffers hk hr hb⟩
        rcases List.mem_append.mp hm' with hm' | hm'
        · exact .inr (request_runs hk hother hr k' hm')
        · exact .inl (List.mem_cons_of_mem _ hm')

theorem sound_ret {e : Ext} (hs : Sound r id c (.ext e :: rest)) : Sound r id c rest where
  accounted := accounted_ret hs.accounted
  named := named_ret hs.named
  buffers := buffers_ret hs.buffers
  calm := ⟨hs.calm.closed, hs.calm.sendError, hs.calm.receiveError,
    fun hm => hs.calm.code.1 (List.mem_cons_of_mem _ hm), fun hm => hs.calm.code.2 (List.mem_cons_of_mem _ hm)⟩
  poll base frame hf hp := by
    obtain ⟨b, os, phase, hbase, h⟩ := hs.poll base frame hf hp
    exact ⟨b, os, phase, hbase, h.accepted, fun k hm => h.code k (List.mem_cons_of_mem _ hm), h.invoked, h.sending,
      h.request, h.log, h.frame⟩

/-- The callable or the io goes on with the request. -/
theorem InPhase.resume {p : Poll} {os : List Outcome} {phase phase' : Phase} (h : InPhase p r os phase c rest)
    (hone : Alone r c' rest) (hcode : phase'.runs r k) (hrequest : phase'.holds p (c'.request r))
    (hlog : eventsOf r c'.log = .received r ⟨some p.block, 0⟩ p.frame :: (p.rounds r os ++ phase'.log p r))
    (hframe : c'.frames p.block = some p.frame) : InPhase p r os phase' c' (.code k :: rest) where
  accepted := h.accepted
  code k' hm hk := by
    rcases List.mem_cons.mp hm with he | hm
    · rw [Item.code.inj he]
      exact hcode
    · exact absurd hk (hone.code k' hm)
  invoked hm := absurd hm hone.invoked
  sending f hm := absurd hm (hone.sending f)
  request := hrequest
  log := hlog
  frame _ := hframe

theorem inPhase_enter {p : Poll} {e : Entry} {os : List Outcome} {phase : Phase} (hs : Sound r p.id c rest)
    (h : InPhase p r os phase c rest) (ha : Assumed r p.id ⟨c, rest⟩ (.enter e)) (hacc : Accounted c' (items ++ rest))
    (he : Enters c e c' items) : ∃ phase, InPhase p r os phase c' (items ++ rest) := by
  have hitems : ∀ k', (∀ k, .code k ∈ items → k.request ≠ some r) → .code k' ∈ items ++ rest →
      .code k' ∈ rest ∨ k'.request ≠ some r := by
    intro k' hk hm
    rcases List.mem_append.mp hm with hm | hm
    · exact .inr (hk k' hm)
    · exact .inl hm
  cases he with
  | @resume q o hlt =>
    by_cases hq : q = r
    · subst hq
      have hcalled := h.invoked ha.once
      cases phase with
      | called =>
        have ho : o.ownsParameter = false := ha.parameter rfl
        have hreq : c.request q = p.request := h.request
        refine ⟨.answered o, h.resume (alone_top hacc.toCounted rfl) (.inl rfl) ⟨ho, ?_⟩ ?_ (h.frame rfl)⟩
        · simp [hreq]
        · rw [ServCo.emit_log, eventsOf_self _ (by simp [Event.isOf])]
          have hlog := h.log
          simp [Phase.log] at hlog ⊢
          simp [hlog]
      | _ => cases hcalled
    · refine ⟨phase, h.other ⟨?_, ?_, fun f => Iff.rfl, rfl, ?_⟩ (fun k' hm => hitems k' ?_ hm) fun b _ => rfl⟩
      · simp [Ne.symm hq]
      · simp [List.count_erase, hq]
      · simp [eventsOf, Event.isOf, hq]
      · intro k hk
        obtain rfl : k = .nextStep q := by simpa using hk
        simpa [Code.request] using hq
  | @sendDone q f hm =>
    by_cases hq : q = r
    · subst hq
      obtain ⟨rfl, hsent⟩ := h.sending f hm
      cases phase with
      | sent o => exact ⟨.sent o, h.resume (alone_top hacc.toCounted rfl) (.inl rfl) h.request h.log (h.frame rfl)⟩
      | _ => cases hsent
    · refine ⟨phase, h.other ⟨rfl, rfl, fun f' => ?_, rfl, rfl⟩ (fun k' hm => hitems k' ?_ hm) fun b _ => rfl⟩
      · exact List.mem_erase_of_ne (by simp [Ne.symm hq])
      · intro k hk
        obtain rfl : k = .step f q := by simpa using hk
        simpa [Code.request] using hq
  | @recvDone frame hr hlt =>
    refine ⟨phase, h.other ⟨rfl, rfl, fun f => Iff.rfl, rfl, rfl⟩ (fun k' hm => hitems k' ?_ hm) fun b hb => ?_⟩
    · intro k hk
      obtain rfl : k = .step2 := by simpa using hk
      simp [Code.request]
    · have := hs.buffers.bound r b hb
      exact Function.update_of_ne (by omega) _ _
  | allocRef | sendError =>
    exact ⟨phase, h.other ⟨rfl, rfl, fun f => Iff.rfl, rfl, rfl⟩ (fun k' hm => .inl hm) fun b _ => rfl⟩
  | _ =>
    refine ⟨phase, h.other ⟨rfl, rfl, fun f => Iff.rfl, rfl, rfl⟩ (fun k' hm => hitems k' ?_ hm) fun b _ => rfl⟩
    intro k hk
    simp_all [Code.request]

theorem sound_enter {e : Entry} (hs : Sound r id c rest) (henv : EnvControls rest)
    (ha : Assumed r id ⟨c, rest⟩ (.enter e)) (he : Enters c e c' items) : Sound r id c' (items ++ rest) where
  accounted := accounted_enter hs.accounted ha.once he
  named := named_enter hs.named he
  buffers := buffers_enter hs.buffers henv he
  calm := calm_enter hs.calm ha.undisturbed he
  poll := by
    intro base frame hf hp
    have hm : .received r base frame ∈ c.log := by
      cases he <;> simp_all
    obtain ⟨b, os, phase, hbase, h⟩ := hs.poll base frame hm hp
    obtain ⟨phase, h⟩ := inPhase_enter hs h ha (accounted_enter hs.accounted ha.once he) he
    exact ⟨b, os, phase, hbase, h⟩

end

theorem sound_preserves (r id : Nat) : program.Preserves (Assumed r id) fun c => Sound r id c.state c.stack where
  exec hs ha he := sound_runs hs ha (exec_guard he).1 (exec_runs he)
  ret hs _ := sound_ret hs
  enter henv hs ha he := sound_enter hs henv ha (enter_enters he)

/-! ### No fault -/

section

variable {p : Poll} {r : Nat} {os : List Outcome} {phase : Phase} {c : ServCo} {k : Code} {rest : Stack}

theorem exec_poll_isSome (hs : Sound r p.id c (.code k :: rest)) (hp : IsPoll p.frame)
    (h : InPhase p r os phase c (.code k :: rest)) (hk : k.request = some r)
    (ha : StaysReferenced r p.id ⟨c, .code k :: rest⟩ .run) : exec k c ≠ none := by
  obtain ⟨hmem, hlive⟩ := counted_top hs.accounted.toCounted hk
  have hreq := h.request
  have hcode := h.code k List.mem_cons_self hk
  rw [exec.eq_def, if_neg (by simp [hlive, hk, hmem])]
  cases phase with
  | created =>
    rcases hcode with rfl | rfl
    · have hf : (c.request r).nextStep = some .stepPoll1 := by
        rw [Phase.holds] at hreq
        rw [hreq, prepareRequest, hp.callableIndex, handler_poll]
      simp [hf]
    · have hw : c.readWord (c.request r).parameter.base = some (word p.frame 8) := by
        rw [Phase.holds] at hreq
        rw [hreq]
        exact readWord_frame (h.frame rfl) hp.length
      simp [step, hw]
  | ready =>
    obtain rfl : k = .pollCall r := hcode
    have hi : c.callable (prepareRequest (c.request r)).callableIndex = some p.id := ha rfl
    simp [pollCall, hi]
  | answered o =>
    rcases hcode with rfl | rfl
    · have hf : (c.request r).nextStep = some .stepPoll2 := by rw [hreq.2]; rfl
      simp [hf]
    · simp [step]
  | written o =>
    obtain rfl : k = .writeResult r := hcode
    have hf : (c.request r).flip.nextStep = some .stepPoll3 := by rw [flip_nextStep, hreq.2]
    simp [writeResult, hf, hs.calm.closed]
  | sent o =>
    rcases hcode with rfl | rfl
    · simp [step]
    · simp
  | ended o =>
    rcases hcode with rfl | rfl
    · simp [step]
    · simp
  | finishing o =>
    obtain rfl : k = .finish2 r := hcode
    have hbase : (c.request r).parameter.base = ⟨some p.block, 8⟩ := hreq.2.1
    have hcount := hs.accounted.refCount
    have hbound := hs.accounted.bound
    have hpos := List.length_pos_of_mem hmem
    have hrange : -2 ^ 31 ≤ c.refCount + -1 ∧ c.refCount + -1 < 2 ^ 31 := by
      split at hcount <;> omega
    simp only [finish2, hbase]
    rw [if_pos (by simp [Addr.null]), ServCo.bufFree]
    have hfree : (c.frames p.block).isSome := by rw [h.frame rfl]; rfl
    simp [Addr.add, hfree, ServCo.refCountAdd]
    omega
  | called => exact absurd hcode id
  | finished o => exact absurd hcode id

end

/-! ### What the poll protocol promises -/

/-- The history of a poll, up to any point of a run. Once nothing goes on with the request
all its outcomes but the last were accepted, and its history is complete. Until then its
buffer holds the frame that was received, and its code has defined behaviour. -/
structure Polls (p : Poll) (r : Nat) (c : Config) : Prop where
  log : eventsOf r c.state.log <+: .received r ⟨some p.block, 0⟩ p.frame :: p.log r (outcomes r c.state.log)
  all : pending c.state c.stack r = 0 → ∃ os o, (∀ o' ∈ os, o'.rejected = false) ∧ o.rejected ∧
    outcomes r c.state.log = os ++ [o] ∧ eventsOf r c.state.log = .received r ⟨some p.block, 0⟩ p.frame :: p.log r (os ++ [o])
  frame : r ∈ c.state.allocated → c.state.frames p.block = some p.frame
  noFault : ∀ k rest, c.stack = .code k :: rest → k.request = some r →
    StaysReferenced r p.id c .run → exec k c.state ≠ none

theorem outcomes_eventsOf (r : Nat) (log : List Event) : outcomes r (eventsOf r log) = outcomes r log := by
  induction log with
  | nil => rfl
  | cons ev log ih =>
    cases ev <;> simp_all [outcomes, eventsOf, List.filter_cons, List.filterMap_cons, Event.isOf, Event.outcome]
    all_goals split <;> simp_all [List.filterMap_cons, Event.outcome]

section

variable (p : Poll) (r : Nat)

theorem outcomes_append (log log' : List Event) : outcomes r (log ++ log') = outcomes r log ++ outcomes r log' := by
  simp [outcomes]

theorem outcomes_answer (o : Outcome) : outcomes r (p.answer r o) = [o] := by
  simp [outcomes, Poll.answer, List.filterMap_cons, Event.outcome]

theorem outcomes_rounds (os : List Outcome) : outcomes r (p.rounds r os) = os := by
  induction os with
  | nil => rfl
  | cons o os ih =>
    have hhook : outcomes r ((o.onFinish.map (Event.polled r)).toList) = [] := by
      cases o.onFinish <;> simp [outcomes, Event.outcome]
    rw [Poll.rounds, List.flatMap_cons, outcomes_append, outcomes_append, outcomes_answer, hhook]
    exact congrArg _ ih

/-- The iterations that were accepted, and what follows them. -/
theorem log_append {os : List Outcome} (hos : ∀ o ∈ os, o.rejected = false) (os' : List Outcome) :
    p.log r (os ++ os') = p.rounds r os ++ p.log r os' := by
  induction os with
  | nil => rfl
  | cons o os ih =>
    have ho := hos o List.mem_cons_self
    have ih := ih fun o' ho' => hos o' (List.mem_cons_of_mem _ ho')
    rw [List.cons_append, Poll.log, ho, ih]
    simp [Poll.rounds]

end

/-- What has happened in a phase is where the history goes on. -/
theorem Phase.log_prefix {p : Poll} {phase : Phase} {req : Request} (h : phase.holds p req) (r : Nat) :
    phase.log p r <+: p.log r (outcomes r (phase.log p r)) := by
  have hanswered : ∀ o, [.invoked r p.id p.request, .resumed r o] <+: p.log r [o] := fun o => ⟨_, rfl⟩
  have hsent : ∀ o, p.answer r o <+: p.log r [o] := fun o => ⟨_, rfl⟩
  have hone : ∀ o, outcomes r [.invoked r p.id p.request, .resumed r o] = [o] := fun o => by
    simp [outcomes, List.filterMap_cons, Event.outcome]
  have hend : ∀ o, outcomes r (p.answer r o ++ [.finishing r o.onFinish]) = [o] := fun o => by
    rw [outcomes_append, outcomes_answer]
    rfl
  have hlog : ∀ o : Outcome, o.rejected = true → p.log r [o] = p.answer r o ++ [.finishing r o.onFinish, .finished r] :=
    fun o ho => by simp [Poll.log, ho]
  cases phase with
  | created | ready => exact List.nil_prefix
  | called => exact List.prefix_rfl
  | answered o | written o =>
    simp only [Phase.log, hone]
    exact hanswered o
  | sent o | ended o =>
    simp only [Phase.log, outcomes_answer]
    exact hsent o
  | finishing o =>
    have hrej : o.rejected = true := h.1
    simp only [Phase.log, hend, hlog o hrej]
    exact ⟨[.finished r], by simp⟩
  | finished o =>
    have hall : outcomes r (p.answer r o ++ [.finishing r o.onFinish, .finished r]) = [o] := by
      rw [outcomes_append, outcomes_answer]
      rfl
    simp only [Phase.log, hall, hlog o h]
    exact List.prefix_rfl

theorem sound_polls {p : Poll} {r : Nat} {os : List Outcome} {phase : Phase} {c : Config}
    (hs : Sound r p.id c.state c.stack) (hp : IsPoll p.frame) (h : InPhase p r os phase c.state c.stack) : Polls p r c where
  log := by
    rw [← outcomes_eventsOf, h.log]
    have hout : outcomes r (.received r ⟨some p.block, 0⟩ p.frame :: (p.rounds r os ++ phase.log p r)) =
        os ++ outcomes r (phase.log p r) := by
      rw [← outcomes_rounds p r os, ← outcomes_append, outcomes_rounds]
      rfl
    rw [hout, log_append p r h.accepted, List.prefix_cons_inj, List.prefix_append_right_inj]
    exact Phase.log_prefix h.request r
  all hpending := by
    have hheld := hs.accounted.all r
    have hfin := hs.accounted.finished r
    have hlt : r < c.state.nextRequest := by
      by_contra hge
      have := hs.named.log r (by omega)
      rw [h.log] at this
      cases this
    have hmem : .finished r ∈ eventsOf r c.state.log := by
      rw [if_pos hlt] at hfin
      rw [mem_eventsOf (by simp [Event.isOf])]
      exact List.count_pos_iff.mp (by omega)
    have hrounds : .finished r ∉ p.rounds r os := by
      simp only [Poll.rounds, List.mem_flatMap, not_exists, not_and]
      intro o _
      cases o.onFinish <;> simp [Poll.answer]
    rw [h.log] at hmem
    have hmem : .finished r ∈ phase.log p r := by simpa [hrounds] using hmem
    cases phase with
    | finished o =>
      have ho : o.rejected = true := h.request
      have hev : eventsOf r c.state.log = .received r ⟨some p.block, 0⟩ p.frame :: p.log r (os ++ [o]) := by
        rw [h.log, log_append p r h.accepted, Poll.log, if_pos ho]
        rfl
      refine ⟨os, o, h.accepted, ho, ?_, hev⟩
      rw [← outcomes_eventsOf, h.log]
      have hall : outcomes r ((Phase.finished o).log p r) = [o] := by
        rw [Phase.log, outcomes_append, outcomes_answer]
        rfl
      rw [← outcomes_rounds p r os, ← hall, ← outcomes_append, outcomes_rounds]
      rfl
    | _ => simp [Phase.log, Poll.answer] at hmem
  frame hm := by
    refine h.frame ?_
    cases phase with
    | finished o =>
      have hfin := hs.accounted.finished r
      have : 0 < c.state.allocated.count r := List.count_pos_iff.mpr hm
      have hmem : .finished r ∈ eventsOf r c.state.log := by
        rw [h.log]
        simp [Phase.log]
      rw [mem_eventsOf (by simp [Event.isOf])] at hmem
      have := List.count_pos_iff.mpr hmem
      split at hfin <;> omega
    | _ => rfl
  noFault k rest hst hk ha := by
    obtain ⟨c, stack⟩ := c
    obtain rfl : stack = .code k :: rest := hst
    exact exec_poll_isSome hs hp h hk ha

theorem poll_protocol (funcmap : Option (List UInt8 → Option Nat)) (onClosed : Bool) (r id : Nat)
    (ms : List (Move Entry)) (c : Config) (ha : Along program.step (Assumed r id) (new funcmap onClosed) ms)
    (h : run program.step (new funcmap onClosed) ms = some c) (base : Addr)
    (frame : List UInt8) (hf : .received r base frame ∈ c.state.log) (hp : IsPoll frame) :
    ∃ b, base = ⟨some b, 0⟩ ∧ Polls ⟨frame, b, id⟩ r c := by
  have hs := (sound_preserves r id).run (sound_new r id funcmap onClosed) ha h
  obtain ⟨b, os, phase, hbase, hphase⟩ := hs.poll base frame hf hp
  exact ⟨b, hbase, sound_polls hs hp hphase⟩

/-- Session 1 polls the callable 7 at index 0 with one byte. -/
def pollFrame : List UInt8 := [1, 0, 0, 0, 0xfb, 0xff, 0xff, 0xff, 0, 0, 0, 0, 9]

/-- The callable accepts at once and then rejects; its second response is sent late. -/
def polled : List (Move Entry) :=
  [.enter .start, .run, .run, .ret, .enter (.allocRef (.callable 7) none), .enter (.recvDone pollFrame), .run, .run,
    .run, .run, .enter (.resume 0 ⟨false, ⟨[1], []⟩, some 3, none, false⟩), .run, .run, .run,
    .enter (.sendDone 0 .stepPoll3), .run, .run, .ret, .run, .ret, .ret, .ret, .run, .ret,
    .enter (.resume 0 ⟨true, ⟨[2], []⟩, none, none, false⟩), .run, .run, .run, .ret,
    .enter (.sendDone 0 .stepPoll3), .run, .run, .run, .run, .run]

theorem polled_polls : ∃ c, run program.step (new none false) polled = some c ∧
    pending c.state c.stack 0 = 0 ∧ Polls ⟨pollFrame, 0, 7⟩ 0 c := by
  have hr : ∃ c, run program.step (new none false) polled = some c ∧
      pending c.state c.stack 0 = 0 ∧ .received 0 ⟨some 0, 0⟩ pollFrame ∈ c.state.log := exists_run (by decide +kernel)
  obtain ⟨c, hc, hp, hf⟩ := hr
  obtain ⟨b, hb, h⟩ := poll_protocol none false 0 7 polled c (by decide +kernel) hc _ pollFrame hf (by decide)
  obtain rfl : 0 = b := by simpa using hb
  exact ⟨c, hc, hp, h⟩

/-- The callable takes the parameter for its own and rejects. -/
def takesParameter : List (Move Entry) :=
  [.enter .start, .run, .run, .ret, .enter (.allocRef (.callable 7) none), .enter (.recvDone pollFrame), .run, .run,
    .run, .run, .ret, .run, .ret, .enter (.resume 0 ⟨true, ⟨[2], []⟩, none, none, true⟩), .run, .run, .run, .ret,
    .enter (.sendDone 0 .stepPoll3), .run, .run, .run, .run]

/-- The request is never finished: an address that is no buffer is about to be freed. -/
theorem takesParameter_faults : ∃ c, run program.step (new none false) takesParameter = some c ∧
    Along program.step (fun c m => CallsOnce c m ∧ Undisturbed c m ∧ StaysReferenced 0 7 c m)
      (new none false) takesParameter ∧
    .received 0 ⟨some 0, 0⟩ pollFrame ∈ c.state.log ∧ IsPoll pollFrame ∧ program.Faults c ∧
    ¬ Polls ⟨pollFrame, 0, 7⟩ 0 c := by
  have hr : ∃ c, run program.step (new none false) takesParameter = some c ∧
      .received 0 ⟨some 0, 0⟩ pollFrame ∈ c.state.log ∧ c.stack = [.code (.finish2 0)] ∧
      (exec (.finish2 0) c.state).isNone := exists_run (by decide +kernel)
  obtain ⟨c, hc, hf, hst, hn⟩ := hr
  have hn : exec (.finish2 0) c.state = none := Option.isNone_iff_eq_none.mp hn
  refine ⟨c, hc, by decide +kernel, hf, by decide, ⟨_, _, hst, hn⟩, fun h => ?_⟩
  refine h.noFault _ _ hst rfl ?_ hn
  rw [StaysReferenced, hst]
  trivial

end PxpRpc.Server
