import PxpRpc.Server.Interference

/-!
# Signals

A request with session 0xffffffff is not answered: `_pxprpc__stepCall2` looks at
the session before it writes the result. The handlers of a poll do not look.
-/
namespace PxpRpc.Server

open PxpRpc.Lib PxpRpc.Lib.Callback

/-- The function is part of a poll. -/
def NextStep.polls : NextStep → Bool
  | .stepPoll1 | .stepPoll2 | .stepPoll3 => true
  | _ => false

/-- The code does not go on to write a result without a look at the session. -/
def Code.silent : Code → Bool
  | .step f _ => !f.polls
  | .writeResult _ | .pollCall _ | .poll3 _ => false
  | _ => true

structure Silent (r : Nat) (c : ServCo) (stack : Stack) : Prop where
  session : (c.request r).session = 0xffffffff#32
  next : ∀ f, (c.request r).nextStep = some f → f.polls = false
  code : ∀ k, .code k ∈ stack → k.request = some r → k.silent
  sending : ∀ f, (r, f) ∉ c.sending
  log : ∀ session result, .sent r session result ∉ c.log

/-- The frame of a signal that is not a poll. -/
structure IsSignal (frame : List UInt8) : Prop where
  session : word frame 0 = 0xffffffff#32
  callableIndex : word frame 4 ≠ -5#32

theorem handler_polls {callableIndex : BitVec 32} (h : callableIndex ≠ -5#32) {f : NextStep}
    (hf : handler callableIndex none = some f) : f.polls = false := by
  rw [handler] at hf
  split at hf
  · obtain rfl := Option.some.inj hf
    rfl
  · split at hf
    case h_5 hi =>
      refine absurd (BitVec.eq_of_toInt_eq ?_) h
      have : callableIndex.toInt = -5 := by omega
      rw [this]
      decide
    case h_6 => cases hf
    all_goals
      obtain rfl := Option.some.inj hf
      rfl

section

variable {r : Nat} {c c' : ServCo} {k : Code} {stack rest items : Stack}

theorem silent_runs (h : Silent r c (.code k :: rest)) (hk : k.request = some r) (hr : Runs c k c' items) :
    Silent r c' (items ++ rest) := by
  obtain ⟨hsession, hnext, hcode, hsending, hlog⟩ := h
  have hrest : ∀ k, .code k ∈ rest → k.request = some r → k.silent := fun k hm => hcode k (List.mem_cons_of_mem _ hm)
  have htop := hcode k List.mem_cons_self hk
  cases hr with
  | stepCall2 hs =>
    obtain rfl := Option.some.inj hk
    exact absurd hsession hs
  | stepPoll1 | stepPoll2 | stepPoll3 | stepPoll3Error | writeResultClosed | writeResult | pollCall | pollEnd
  | pollHook | pollNext => cases htop
  | @nextStep q f hf =>
    obtain rfl := Option.some.inj hk
    refine ⟨hsession, hnext, fun k hm => ?_, hsending, hlog⟩
    have hm : k = .step f q ∨ .code k ∈ rest := by simpa using hm
    rcases hm with rfl | hm
    · intro _
      simpa [Code.silent] using hnext f hf
    · exact hrest k hm
  | _ =>
    first
    | cases hk; done
    | obtain rfl := Option.some.inj hk
      refine ⟨?_, ?_, fun k hm => ?_, hsending, ?_⟩
      · simp [hsession]
      · first | exact hnext | (simp [NextStep.polls]; done) | simpa using hnext
      · have hrest := hrest k
        simp at hm
        grind [Code.silent, NextStep.polls, Code.request]
      · intro session result hm
        have hlog := hlog session result
        first
        | exact hlog hm
        | simp at hm
          grind

/-- What is done for other requests does not answer this one. -/
theorem silent_other (h : Silent r c stack) {stack' : Stack} (hs : SameFor r c c')
    (hcode : ∀ k, .code k ∈ stack' → .code k ∈ stack ∨ k.request ≠ some r) : Silent r c' stack' where
  session := hs.request ▸ h.session
  next f hf := h.next f (hs.request ▸ hf)
  code k hm hk := h.code k ((hcode k hm).resolve_right (absurd hk ·)) hk
  sending f hm := h.sending f ((hs.sending f).mp hm)
  log session result hm := by
    refine h.log session result ?_
    rw [← mem_eventsOf (r := r) (by simp [Event.isOf]), ← hs.log]
    exact (mem_eventsOf (by simp [Event.isOf])).mpr hm

theorem silent_step2 (hn : Named c (.code .step2 :: rest)) (hb : Buffers c (.code .step2 :: rest)) {base : Addr}
    {frame : List UInt8} (hf : .received c.nextRequest base frame ∈ c'.log) (hs : IsSignal frame)
    (hr : Runs c .step2 c' items) : Silent c.nextRequest c' (items ++ rest) := by
  obtain ⟨b, h⟩ := received_step2 hn hb hf hr
  refine ⟨?_, fun f hf => ?_, fun k hm hk => ?_, fun f hm => ?_, fun session result hm => ?_⟩
  · rw [h.request]
    exact hs.session
  · rw [h.request] at hf
    exact handler_polls hs.callableIndex hf
  · rw [h.items] at hm
    have hm : k = .nextStep c.nextRequest ∨ k = .step1 ∨ .code k ∈ rest := by simpa using hm
    rcases hm with rfl | rfl | hm
    · rfl
    · rfl
    · exact absurd (hn.code k (List.mem_cons_of_mem _ hm) _ hk) (Nat.lt_irrefl _)
  · exact absurd (hn.sending _ (h.sending ▸ hm)) (Nat.lt_irrefl _)
  · rw [← mem_eventsOf (r := c.nextRequest) (by simp [Event.isOf]), h.log] at hm
    simp at hm

theorem silent_enter (h : Silent r c stack) {e : Entry} (he : Enters c e c' items) : Silent r c' (items ++ stack) := by
  cases he with
  | @resume q o hlt =>
    refine ⟨?_, fun f => ?_, fun k hm hk => ?_, h.sending, fun session result => ?_⟩
    · by_cases hq : r = q
      · subst hq
        simpa [Request.complete] using h.session
      · simpa [hq] using h.session
    · have := h.next f
      by_cases hq : r = q
      · subst hq
        simpa [Request.complete] using this
      · simpa [hq] using this
    · have hm : k = .nextStep q ∨ .code k ∈ stack := by simpa using hm
      rcases hm with rfl | hm
      · rfl
      · exact h.code k hm hk
    · simpa using h.log session result
  | @sendDone q f hs =>
    refine ⟨h.session, h.next, fun k hm hk => ?_, fun f' hm => h.sending f' (List.mem_of_mem_erase hm), h.log⟩
    have hm : k = .step f q ∨ .code k ∈ stack := by simpa using hm
    rcases hm with rfl | hm
    · obtain rfl := Option.some.inj hk
      exact absurd hs (h.sending f)
    · exact h.code k hm hk
  | _ =>
    refine ⟨h.session, h.next, fun k hm hk => ?_, h.sending, h.log⟩
    have := h.code k
    simp at hm
    grind [Code.silent]

end

/-! ### Whole runs -/

structure SignalSound (r : Nat) (c : ServCo) (stack : Stack) : Prop where
  named : Named c stack
  buffers : Buffers c stack
  silent : ∀ base frame, .received r base frame ∈ c.log → IsSignal frame → Silent r c stack

theorem signalSound_preserves (r : Nat) :
    program.Preserves (fun _ _ => True) fun c => SignalSound r c.state c.stack where
  exec := by
    intro c k rest c' items h _ he
    have hr := exec_runs he
    refine ⟨named_runs h.named hr, buffers_runs h.buffers hr, fun base frame hf hs => ?_⟩
    by_cases hk : k.request = some r
    · have hm : .received r base frame ∈ c.log := by
        cases hr <;> simp_all [Code.request]
      exact silent_runs (h.silent base frame hm hs) hk hr
    · by_cases hnew : k = .step2 ∧ r = c.nextRequest
      · obtain ⟨rfl, rfl⟩ := hnew
        exact silent_step2 h.named h.buffers hf hs hr
      · have hother : k = .step2 → r ≠ c.nextRequest := fun he hn => hnew ⟨he, hn⟩
        have hsame := sameFor_runs hk hother hr
        have hm : .received r base frame ∈ c.log := by
          rw [← mem_eventsOf (r := r) (by simp [Event.isOf]), ← hsame.log]
          exact (mem_eventsOf (by simp [Event.isOf])).mpr hf
        refine silent_other (h.silent base frame hm hs) hsame fun k' hm' => ?_
        rcases List.mem_append.mp hm' with hm' | hm'
        · exact .inr (request_runs hk hother hr k' hm')
        · exact .inl (List.mem_cons_of_mem _ hm')
  ret h _ :=
    ⟨named_ret h.named, buffers_ret h.buffers, fun base frame hf hs =>
      have hsilent := h.silent base frame hf hs
      ⟨hsilent.session, hsilent.next, fun k hm => hsilent.code k (List.mem_cons_of_mem _ hm), hsilent.sending,
        hsilent.log⟩⟩
  enter henv h _ he := by
    have he := enter_enters he
    refine ⟨named_enter h.named he, buffers_enter h.buffers henv he, fun base frame hf hs => ?_⟩
    refine silent_enter (h.silent base frame ?_ hs) he
    cases he <;> simp_all

/-- A signal that is not a poll is never answered, whatever happens. -/
theorem signal_silent (funcmap : Option (List UInt8 → Option Nat)) (onClosed : Bool) (ms : List (Move Entry))
    (c : Config) (h : run program.step (new funcmap onClosed) ms = some c) (r : Nat) (base : Addr)
    (frame : List UInt8) (hf : .received r base frame ∈ c.state.log) (hs : IsSignal frame) :
    ∀ session result, .sent r session result ∉ c.state.log := by
  have hnew : SignalSound r (new funcmap onClosed).state (new funcmap onClosed).stack :=
    ⟨named_new funcmap onClosed, buffers_new funcmap onClosed, fun base frame hf => by simp [new] at hf⟩
  have hsound := (signalSound_preserves r).run hnew (Along.of_forall fun _ _ => trivial) h
  exact (hsound.silent base frame hf hs).log

instance (frame : List UInt8) : Decidable (IsSignal frame) :=
  decidable_of_iff (word frame 0 = 0xffffffff#32 ∧ word frame 4 ≠ -5#32) ⟨fun h => ⟨h.1, h.2⟩, fun h => ⟨h.1, h.2⟩⟩

/-- A call as a signal, with a callable that rejects. -/
def signalFrame : List UInt8 := [0xff, 0xff, 0xff, 0xff, 0, 0, 0, 0, 9]

def signalled : List (Move Entry) :=
  [.enter .start, .run, .run, .ret, .enter (.allocRef (.callable 7) none), .enter (.recvDone signalFrame), .run, .run,
    .run, .enter (.resume 0 ⟨true, ⟨[2], []⟩, none, none, false⟩), .run, .run, .run, .run, .run, .ret, .run]

theorem signalled_silent : ∃ c, run program.step (new none false) signalled = some c ∧
    .finished 0 ∈ c.state.log ∧ ∀ session result, .sent 0 session result ∉ c.state.log := by
  have hr : ∃ c, run program.step (new none false) signalled = some c ∧
      .received 0 ⟨some 0, 0⟩ signalFrame ∈ c.state.log ∧ .finished 0 ∈ c.state.log := exists_run (by decide +kernel)
  obtain ⟨c, hc, hf, hfin⟩ := hr
  exact ⟨c, hc, hfin, signal_silent none false signalled c hc 0 _ signalFrame hf (by decide)⟩

/-- A poll as a signal. -/
def pollSignalFrame : List UInt8 := [0xff, 0xff, 0xff, 0xff, 0xfb, 0xff, 0xff, 0xff, 0, 0, 0, 0, 9]

def pollSignalled : List (Move Entry) :=
  [.enter .start, .run, .run, .ret, .enter (.allocRef (.callable 7) none), .enter (.recvDone pollSignalFrame), .run,
    .run, .run, .run, .enter (.resume 0 ⟨true, ⟨[2], []⟩, none, none, false⟩), .run, .run, .run]

/-- The client is sent a packet with session 0x7fffffff, which it never gave out. -/
theorem pollSignalled_sends : ∃ c, run program.step (new none false) pollSignalled = some c ∧
    .received 0 ⟨some 0, 0⟩ pollSignalFrame ∈ c.state.log ∧ word pollSignalFrame 0 = 0xffffffff#32 ∧
    .sent 0 0x7fffffff#32 ⟨[2], []⟩ ∈ c.state.log := by
  have hr : ∃ c, run program.step (new none false) pollSignalled = some c ∧
      .received 0 ⟨some 0, 0⟩ pollSignalFrame ∈ c.state.log ∧
      .sent 0 0x7fffffff#32 ⟨[2], []⟩ ∈ c.state.log := exists_run (by decide +kernel)
  obtain ⟨c, hc, hf, hs⟩ := hr
  exact ⟨c, hc, hf, by decide, hs⟩

end PxpRpc.Server
