import PxpRpc.Lib.Run

/-!
# Receiving from the message transports of TypeScript

`WebSocketIo` and `WebMessage.Connection` queue the messages that come in and wake the
caller of `receive` that waits. What `receive` does after it has been woken is a step of
its own: other messages, or the end of the connection, may come before it.
-/
namespace PxpRpc.Transport

open PxpRpc.Lib

inductive Kind where
  | webSocket
  | webMessage
deriving DecidableEq, Repr

/-- Where the caller of `receive` is: it has not called, its promise is pending in `onmsg`,
or it has been resolved or rejected and the call goes on with that. -/
inductive Caller where
  | idle
  | waiting
  | resolved
  | rejected
deriving DecidableEq, Repr

/-- How a call of `receive` ends: `none` is `undefined`, shifted from an empty queue. -/
inductive Result (Msg : Type) where
  | packet (msg : Option Msg)
  | failed
deriving DecidableEq, Repr

/-- The receiving side of a transport. `connected` is whether the `readyState` of a web
socket is `OPEN`; then what has arrived and the results of `receive`. -/
structure Io (Msg : Type) where
  queuedData : List Msg
  caller : Caller
  connected : Bool
  arrived : List Msg
  results : List (Result Msg)
deriving DecidableEq, Repr

inductive Move (Msg : Type) where
  | data (msg : Msg)
  /-- A web socket starts to close. -/
  | closing
  | closed
  | error
  | receive
  /-- `receive` goes on after its promise is settled. -/
  | resume
deriving DecidableEq, Repr

variable {Msg : Type}

namespace Io

def onmsg (s : Io Msg) (caller : Caller) : Io Msg :=
  match s.caller with
  | .waiting => { s with caller }
  | _ => s

/-- The listener for `message` and for `type==='data'`. -/
def data (s : Io Msg) (msg : Msg) : Io Msg :=
  { s with queuedData := s.queuedData ++ [msg], arrived := s.arrived ++ [msg] }.onmsg .resolved

/-- The listeners for `close` and `error`, and for `type==='closed'`. -/
def closed (s : Io Msg) : Io Msg := { s with connected := false }.onmsg .rejected

/-- `queuedData.shift()` -/
def shift (s : Io Msg) : Io Msg :=
  { s with queuedData := s.queuedData.tail, caller := .idle, results := s.results ++ [.packet s.queuedData.head?] }

def fail (s : Io Msg) : Io Msg := { s with caller := .idle, results := s.results ++ [.failed] }

def receive (s : Io Msg) : Io Msg :=
  if !s.connected then s.fail
  else if 0 < s.queuedData.length then s.shift
  else { s with caller := .waiting }

end Io

/-- The browser calls a web socket with no message once it is not open; a message for a
`WebMessage` connection that is not there is answered `closed`. -/
def step (kind : Kind) (s : Io Msg) : Move Msg → Option (Io Msg)
  | .data msg =>
      if s.connected then some (s.data msg)
      else
        match kind with
        | .webSocket => none
        | .webMessage => some s
  | .closing =>
      match kind with
      | .webSocket => some { s with connected := false }
      | .webMessage => none
  | .closed => some s.closed
  | .error =>
      match kind with
      | .webSocket => some s.closed
      | .webMessage => none
  | .receive =>
      match s.caller with
      | .idle => some s.receive
      | _ => none
  | .resume =>
      match s.caller with
      | .resolved => some s.shift
      | .rejected => some s.fail
      | _ => none

def opened : Io Msg := ⟨[], .idle, true, [], []⟩

/-! ### What is to be received -/

def Result.packet? : Result Msg → Option (Option Msg)
  | .packet msg => some msg
  | .failed => none

/-- What calls of `receive` have returned. -/
def packets (results : List (Result Msg)) : List (Option Msg) := results.filterMap Result.packet?

/-- Each failure comes after all that has arrived. -/
def FailsLast (s : Io Msg) : Prop :=
  ∀ before after, s.results = before ++ .failed :: after → packets before = s.arrived.map some

/-- The packets returned are the messages in the order of their arrival; what has not been
returned is queued, and nobody waits for it; failures come last. -/
structure Receives (s : Io Msg) : Prop where
  order : packets s.results ++ s.queuedData.map some = s.arrived.map some
  waits : s.caller = .waiting → s.queuedData = []
  fails : FailsLast s

/-- `receive` is not called on a closed connection that has messages queued. -/
def Drained (s : Io Msg) : Move Msg → Prop
  | .receive => s.connected = true ∨ s.queuedData = []
  | _ => True

instance [DecidableEq Msg] (s : Io Msg) (m : Move Msg) : Decidable (Drained s m) := by
  cases m <;> unfold Drained <;> infer_instance

/-! ### The invariant -/

/-- Nothing is lost; the caller that has been resolved finds a message, and the one that has
been rejected finds none. -/
structure Sound (s : Io Msg) : Prop where
  order : packets s.results ++ s.queuedData.map some = s.arrived.map some
  waits : s.caller = .waiting ∨ s.caller = .rejected → s.queuedData = []
  finds : s.caller = .resolved → s.queuedData ≠ []
  open_ : s.connected → .failed ∉ s.results ∧ s.caller ≠ .rejected

theorem sound_opened : Sound (opened : Io Msg) := by
  constructor <;> simp [opened, packets]

variable {kind : Kind} {s s' : Io Msg} {m : Move Msg}

@[simp] theorem packets_packet (results : List (Result Msg)) (msg : Option Msg) :
    packets (results ++ [.packet msg]) = packets results ++ [msg] := by
  simp [packets, List.filterMap_append, Result.packet?]

@[simp] theorem packets_failed (results : List (Result Msg)) :
    packets (results ++ [.failed]) = packets results := by
  simp [packets, List.filterMap_append, Result.packet?]

theorem failsLast_shift : FailsLast s.shift ↔ FailsLast s := by
  constructor
  · intro hf before after he
    exact hf before (after ++ [.packet s.queuedData.head?]) (by
      rw [Io.shift, he, List.append_assoc, List.cons_append])
  · intro hf before after he
    rcases List.eq_nil_or_concat after with rfl | ⟨after, e, rfl⟩
    · obtain ⟨-, he⟩ := List.append_inj' he rfl
      cases he
    · rw [List.concat_eq_append, ← List.cons_append, ← List.append_assoc] at he
      exact hf before after (List.append_inj' he rfl).1

/-- A failure that is added comes last when all that has arrived has been returned. -/
theorem failsLast_fail : FailsLast s.fail ↔ FailsLast s ∧ packets s.results = s.arrived.map some := by
  constructor
  · intro hf
    refine ⟨fun before after he => ?_, hf s.results [] rfl⟩
    exact hf before (after ++ [.failed]) (by rw [Io.fail, he, List.append_assoc, List.cons_append])
  · rintro ⟨hf, hlast⟩ before after he
    rcases List.eq_nil_or_concat after with rfl | ⟨after, e, rfl⟩
    · obtain ⟨rfl, -⟩ := List.append_inj' he rfl
      exact hlast
    · rw [List.concat_eq_append, ← List.cons_append, ← List.append_assoc] at he
      exact hf before after (List.append_inj' he rfl).1

/-- Where nothing has failed there is nothing to come last. -/
theorem failsLast_of_not_mem (h : .failed ∉ s.results) : FailsLast s :=
  fun before after he => absurd (by rw [he]; exact List.mem_append_right _ List.mem_cons_self) h

/-! ### One step -/

theorem sound_data {msg : Msg} (hs : Sound s) (hc : s.connected) : Sound (s.data msg) := by
  obtain ⟨horder, hwaits, hfinds, hopen⟩ := hs
  obtain ⟨hfail, hrej⟩ := hopen hc
  unfold Io.data Io.onmsg
  cases hcaller : s.caller with
  | idle => constructor <;> simp [hfail, ← horder]
  | waiting => constructor <;> simp [hfail, ← horder]
  | resolved => constructor <;> simp [hfail, ← horder]
  | rejected => exact absurd hcaller hrej

theorem sound_closed (hs : Sound s) : Sound s.closed := by
  obtain ⟨horder, hwaits, hfinds, hopen⟩ := hs
  unfold Io.closed Io.onmsg
  cases hcaller : s.caller with
  | waiting =>
    have hq := hwaits (.inl hcaller)
    constructor <;> simp [hq, ← horder]
  | _ => constructor <;> simp_all

theorem sound_shift (hs : Sound s) (hq : s.queuedData ≠ []) : Sound s.shift := by
  obtain ⟨horder, hwaits, hfinds, hopen⟩ := hs
  obtain ⟨msg, queued, hq⟩ := List.exists_cons_of_ne_nil hq
  rw [hq] at horder
  refine ⟨?_, by simp [Io.shift], by simp [Io.shift], fun hc => ⟨?_, by simp [Io.shift]⟩⟩
  · simp [Io.shift, hq, ← horder]
  · simpa [Io.shift] using (hopen hc).1

theorem sound_fail (hs : Sound s) (hc : s.connected = false) : Sound s.fail := by
  refine ⟨?_, by simp [Io.fail], by simp [Io.fail], fun hc' => ?_⟩
  · simpa [Io.fail] using hs.order
  · exact absurd hc' (by simp [Io.fail, hc])

theorem sound_receive (hs : Sound s) : Sound s.receive := by
  unfold Io.receive
  split
  · rename_i hc
    exact sound_fail hs (by simpa using hc)
  · split
    · rename_i hq
      exact sound_shift hs (List.ne_nil_of_length_pos hq)
    · rename_i hc hq
      have hnil : s.queuedData = [] := List.eq_nil_of_length_eq_zero (by omega)
      exact ⟨hs.order, fun _ => hnil, by simp, fun hc => ⟨(hs.open_ hc).1, by simp⟩⟩

theorem sound_step (hs : Sound s) (h : step kind s m = some s') : Sound s' := by
  cases m with
  | data msg =>
    simp only [step] at h
    split at h
    · rename_i hc
      obtain rfl := Option.some.inj h
      exact sound_data hs hc
    · cases kind with
      | webSocket => cases h
      | webMessage =>
        obtain rfl := Option.some.inj h
        exact hs
  | closing =>
    cases kind with
    | webMessage => cases h
    | webSocket =>
      obtain rfl := Option.some.inj h
      exact ⟨hs.order, hs.waits, hs.finds, fun hc => by cases hc⟩
  | closed =>
    obtain rfl := Option.some.inj h
    exact sound_closed hs
  | error =>
    cases kind with
    | webMessage => cases h
    | webSocket =>
      obtain rfl := Option.some.inj h
      exact sound_closed hs
  | receive =>
    simp only [step] at h
    split at h
    · obtain rfl := Option.some.inj h
      exact sound_receive hs
    · cases h
  | resume =>
    simp only [step] at h
    split at h
    · rename_i hcaller
      obtain rfl := Option.some.inj h
      exact sound_shift hs (hs.finds hcaller)
    · rename_i hcaller
      obtain rfl := Option.some.inj h
      refine sound_fail hs ?_
      by_contra hc
      exact (hs.open_ (by simpa using hc)).2 hcaller
    · cases h

theorem results_onmsg (caller : Caller) : (s.onmsg caller).results = s.results ∧ (s.onmsg caller).arrived = s.arrived := by
  unfold Io.onmsg
  cases s.caller <;> exact ⟨rfl, rfl⟩

/-- The end of the connection is no result yet. -/
theorem failsLast_closed : FailsLast s.closed ↔ FailsLast s := by
  obtain ⟨hr, ha⟩ := @results_onmsg _ { s with connected := false } .rejected
  unfold FailsLast Io.closed
  rw [hr, ha]

theorem failsLast_step (hs : Sound s) (h : step kind s m = some s') :
    FailsLast s' ↔ FailsLast s ∧ Drained s m := by
  have hempty : packets s.results = s.arrived.map some ↔ s.queuedData = [] := by
    rw [← hs.order]
    simp
  cases m with
  | data msg =>
    refine Iff.trans ?_ (and_iff_left trivial).symm
    simp only [step] at h
    split at h
    · rename_i hc
      obtain rfl := Option.some.inj h
      have hfail := (hs.open_ hc).1
      have hfail' : .failed ∉ (s.data msg).results := by
        rw [Io.data, (results_onmsg _).1]
        exact hfail
      exact iff_of_true (failsLast_of_not_mem hfail') (failsLast_of_not_mem hfail)
    · cases kind with
      | webSocket => cases h
      | webMessage =>
        obtain rfl := Option.some.inj h
        rfl
  | closing =>
    refine Iff.trans ?_ (and_iff_left trivial).symm
    cases kind with
    | webMessage => cases h
    | webSocket =>
      obtain rfl := Option.some.inj h
      rfl
  | closed =>
    refine Iff.trans ?_ (and_iff_left trivial).symm
    obtain rfl := Option.some.inj h
    exact failsLast_closed
  | error =>
    refine Iff.trans ?_ (and_iff_left trivial).symm
    cases kind with
    | webMessage => cases h
    | webSocket =>
      obtain rfl := Option.some.inj h
      exact failsLast_closed
  | receive =>
    simp only [step] at h
    split at h
    · obtain rfl := Option.some.inj h
      unfold Io.receive Drained
      split
      · rename_i hc
        have hno : ¬ s.connected = true := by simpa using hc
        rw [failsLast_fail, hempty, or_iff_right hno]
      · rename_i hc
        have hyes : s.connected = true := by simpa using hc
        refine Iff.trans ?_ (and_iff_left (.inl hyes)).symm
        split
        · exact failsLast_shift
        · rfl
    · cases h
  | resume =>
    refine Iff.trans ?_ (and_iff_left trivial).symm
    simp only [step] at h
    split at h
    · obtain rfl := Option.some.inj h
      exact failsLast_shift
    · rename_i hcaller
      obtain rfl := Option.some.inj h
      rw [failsLast_fail, hempty]
      exact and_iff_left (hs.waits (.inr hcaller))
    · cases h

/-! ### Runs -/

/-- The messages are received in order and once, and failures come last, if and only if
`receive` is never called with messages queued on a closed connection. -/
theorem receives_iff (kind : Kind) (ms : List (Move Msg)) (s : Io Msg) (h : run (step kind) opened ms = some s) :
    Receives s ↔ Along (step kind) Drained opened ms := by
  have hs : Sound s := run_invariant (fun _ _ _ hs (_ : True) h => sound_step hs h) sound_opened
    (Along.of_forall fun _ _ => trivial) h
  have hnone : FailsLast (opened : Io Msg) := failsLast_of_not_mem (by simp [opened])
  have hrun := run_iff (fun _ _ _ hs h => sound_step hs h) (fun _ _ _ hs h => failsLast_step hs h) sound_opened h
  rw [and_iff_right hnone] at hrun
  exact ⟨fun hr => hrun.mp hr.fails, fun ha => ⟨hs.order, fun hw => hs.waits (.inl hw), hrun.mpr ha⟩⟩

/-- Two messages come, the second while the caller is woken by the first; both are received
before the connection ends. -/
theorem receives_two : ∃ s : Io Nat, run (step .webMessage) opened [.receive, .data 7, .data 8, .resume, .receive,
    .receive, .closed, .resume] = some s ∧ s.results = [.packet (some 7), .packet (some 8), .failed] ∧ Receives s := by
  obtain ⟨s, hs, hr⟩ : ∃ s : Io Nat, run (step .webMessage) opened [.receive, .data 7, .data 8, .resume, .receive,
      .receive, .closed, .resume] = some s ∧ s.results = [.packet (some 7), .packet (some 8), .failed] :=
    exists_run (by decide)
  exact ⟨s, hs, hr, (receives_iff _ _ s hs).mpr (by decide)⟩

/-- The connection ends before its last message is received. -/
theorem receives_lost : ∃ s : Io Nat, run (step .webMessage) opened [.data 7, .closed, .receive] = some s ∧
    ¬ Receives s := by
  obtain ⟨s, hs, hr, ha⟩ : ∃ s : Io Nat, run (step .webMessage) opened [.data 7, .closed, .receive] = some s ∧
      s.results = [.failed] ∧ s.arrived = [7] := ⟨_, rfl, rfl, rfl⟩
  refine ⟨s, hs, fun h => ?_⟩
  have := h.fails [] [] hr
  rw [ha] at this
  cases this

end PxpRpc.Transport
