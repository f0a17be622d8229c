import PxpRpc.Lib.Run

/-!
# Connecting over several message ports

`WebMessage.Connection.connect` asks the peers at all bound ports for a server. Messages
of different ports come in any order. The promise job that ends `connect` runs before the
next event, so it is part of the step that settles its promise.
-/
namespace PxpRpc.Transport.Connect

open PxpRpc.Lib

inductive Msg where
  | connect
  | connected
  | notfound
  | closed
deriving DecidableEq, Repr

/-- A bound port: the messages on their way to the peer and to the client, in order, and
whether the peer has a live connection. -/
structure Port where
  toPeer : List Msg
  toClient : List Msg
  live : Bool
deriving DecidableEq, Repr

/-- The `Connection` of the client; whether it is in `connections`, waits in `onmsg` and has
a timer, and how `connect` ended: `some false` when it threw. -/
structure Connection (n : Nat) where
  registered : Bool
  connected : Bool
  port : Option (Fin n)
  onmsg : Bool
  timer : Bool
  notfoundCount : Nat
  result : Option Bool
deriving DecidableEq, Repr

/-- What the client has processed. -/
inductive Event (n : Nat) where
  | connected (p : Fin n)
  | notfound (p : Fin n)
  | timeout
deriving DecidableEq, Repr

structure State (n : Nat) where
  conn : Connection n
  ports : Fin n → Port
  log : List (Event n)
deriving DecidableEq

inductive Move (n : Nat) where
  /-- The peer at a port processes its next message. -/
  | peer (p : Fin n)
  /-- The client processes the next message of a port. -/
  | client (p : Fin n)
  | timeout
deriving DecidableEq, Repr

variable {n : Nat}

namespace Connection

/-- The promise of `__waitMessage` is settled and `connect` goes on. -/
def resume (c : Connection n) (err : Bool) : Connection n :=
  let c := { c with onmsg := false, timer := false }
  if err || !c.connected then { c with registered := false, result := some false } else { c with result := some true }

/-- `conn.onmsg?.(err)` -/
def message (c : Connection n) (err : Bool) : Connection n := if c.onmsg then c.resume err else c

/-- `__notfoundResponse` -/
def notfoundResponse (c : Connection n) : Connection n :=
  let c := { c with notfoundCount := c.notfoundCount + 1 }
  if !c.connected && n ≤ c.notfoundCount then c.message true else c

end Connection

/-- The listener of the peer at a port; other types of messages are not sent to it. -/
def peerListener (serves : Bool) (port : Port) : Msg → Port
  | .connect =>
      if serves then { port with toClient := port.toClient ++ [.connected], live := true }
      else { port with toClient := port.toClient ++ [.notfound] }
  | .closed => { port with live := false }
  | _ => port

/-- The listener of the client for a message from `p`, with what is posted in reply. -/
def listener (c : Connection n) (p : Fin n) : Msg → Connection n × List Msg
  | .connected =>
      if !c.registered then (c, [.closed])
      else if !c.connected then ({ c with connected := true, port := some p }.message false, [])
      else (c, [])
  | .notfound => if c.registered then (c.notfoundResponse, []) else (c, [])
  | _ => (c, [])

def Msg.event (p : Fin n) : Msg → List (Event n)
  | .connected => [.connected p]
  | .notfound => [.notfound p]
  | _ => []

def step (serves : Fin n → Bool) (s : State n) : Move n → Option (State n)
  | .peer p =>
      match (s.ports p).toPeer with
      | [] => none
      | msg :: toPeer =>
        some { s with ports := Function.update s.ports p (peerListener (serves p) { s.ports p with toPeer } msg) }
  | .client p =>
      match (s.ports p).toClient with
      | [] => none
      | msg :: toClient =>
        let r := listener s.conn p msg
        some {
          conn := r.1
          ports := Function.update s.ports p { s.ports p with toPeer := (s.ports p).toPeer ++ r.2, toClient }
          log := s.log ++ msg.event p }
  | .timeout =>
      if s.conn.timer then some { s with conn := s.conn.resume false, log := s.log ++ [.timeout] } else none

/-- `connect` as far as its first `await`; it throws when no port is bound. -/
def connect (n : Nat) (timeout : Bool) : State n where
  conn :=
    if n = 0 then ⟨false, false, none, false, false, 0, some false⟩ else ⟨true, false, none, true, timeout, 0, none⟩
  ports := fun _ => ⟨[.connect], [], false⟩
  log := []

/-! ### What is to be reached -/

def Event.isNotfound : Event n → Bool
  | .notfound _ => true
  | _ => false

/-- The failure condition: the timer has fired, or all peers have replied `notfound`. -/
def Fails (log : List (Event n)) : Prop := .timeout ∈ log ∨ n ≤ log.countP Event.isNotfound

/-- A `connected` has been processed before the failure condition. -/
def Found (log : List (Event n)) : Prop :=
  ∃ before p after, log = before ++ .connected p :: after ∧ ¬ Fails before

/-- No message is on its way. -/
def Delivered (s : State n) : Prop := ∀ p, (s.ports p).toPeer = [] ∧ (s.ports p).toClient = []

/-- `connect` returns if and only if a peer is found in time; when all is delivered it has
ended, and one serving peer has a live connection if it returned and none if it threw. -/
structure Connects (serves : Fin n → Bool) (s : State n) : Prop where
  succeeds : s.conn.result = some true ↔ Found s.log
  ends : Delivered s → s.conn.result ≠ none
  kept : Delivered s → if s.conn.result = some true then ∃ p, serves p = true ∧ ∀ q, (s.ports q).live = true ↔ q = p
    else ∀ q, (s.ports q).live = false

/-- A `connected` is processed for a connection that is not connected yet, or gone. -/
def Single (s : State n) : Move n → Prop
  | .client p => (s.ports p).toClient.head? = some .connected → s.conn.registered = true → s.conn.connected = false
  | _ => True

instance (s : State n) (m : Move n) : Decidable (Single s m) := by
  cases m <;> unfold Single <;> infer_instance

/-! ### Histories -/

/-- The failure condition came before any `connected`. -/
def Failed (log : List (Event n)) : Prop :=
  ∃ before after, log = before ++ after ∧ Fails before ∧ ∀ p, .connected p ∉ before

theorem Fails.append {log : List (Event n)} (h : Fails log) (more : List (Event n)) : Fails (log ++ more) := by
  rcases h with h | h
  · exact .inl (List.mem_append_left _ h)
  · refine .inr ?_
    rw [List.countP_append]
    exact Nat.le_add_right_of_le h

theorem Found.append {log : List (Event n)} (h : Found log) (more : List (Event n)) : Found (log ++ more) := by
  obtain ⟨before, p, after, rfl, hf⟩ := h
  exact ⟨before, p, after ++ more, by simp, hf⟩

theorem Failed.append {log : List (Event n)} (h : Failed log) (more : List (Event n)) : Failed (log ++ more) := by
  obtain ⟨before, after, rfl, hf⟩ := h
  exact ⟨before, after ++ more, by simp, hf⟩

theorem Failed.not_found {log : List (Event n)} (h : Failed log) : ¬ Found log := by
  obtain ⟨failed, rest, rfl, hf, hnone⟩ := h
  rintro ⟨before, p, after, he, hn⟩
  rcases List.append_eq_append_iff.mp he with ⟨more, rfl, -⟩ | ⟨more, rfl, hc⟩
  · exact hn (hf.append more)
  · cases more with
    | nil => exact hn (by simpa using hf)
    | cons e more =>
      obtain ⟨rfl, -⟩ := List.cons.inj hc
      exact hnone p (by simp)

/-! ### The invariant -/

namespace Port

def asked : Port := ⟨[.connect], [], false⟩
def found : Port := ⟨[], [.connected], true⟩
def missing : Port := ⟨[], [.notfound], false⟩
def kept : Port := ⟨[], [], true⟩
def refused : Port := ⟨[.closed], [], true⟩
def gone : Port := ⟨[], [], false⟩

/-- Everything a port can be. -/
def Staged (port : Port) : Prop :=
  port = asked ∨ port = found ∨ port = missing ∨ port = kept ∨ port = refused ∨ port = gone

end Port

/-- The ports whose peers have replied `connected` and not been told to close are those
found by a connection that has not failed. -/
structure Sound (s : State n) : Prop where
  staged : ∀ p, (s.ports p).Staged
  pending : s.conn.result = none → s.conn.registered = true ∧ s.conn.connected = false ∧ s.conn.onmsg = true ∧
    s.conn.notfoundCount = s.log.countP Event.isNotfound ∧ ¬ Fails s.log ∧ (∀ p, .connected p ∉ s.log) ∧
    ∀ p, s.ports p ≠ .kept ∧ s.ports p ≠ .refused ∧ (s.ports p = .gone → .notfound p ∈ s.log)
  returned : s.conn.result = some true → s.conn.registered = true ∧ s.conn.connected = true ∧ s.conn.onmsg = false ∧
    s.conn.timer = false ∧ Found s.log ∧ ∃ p, s.conn.port = some p ∧ s.ports p = .kept
  thrown : s.conn.result = some false → s.conn.registered = false ∧ s.conn.onmsg = false ∧ s.conn.timer = false ∧
    Failed s.log ∧ ∀ p, s.ports p ≠ .kept

theorem sound_connect (n : Nat) (timeout : Bool) : Sound (connect n timeout) := by
  by_cases hn : n = 0
  · subst hn
    have hfailed : Failed (connect 0 timeout).log := ⟨[], [], rfl, .inr (Nat.le_refl _), by simp⟩
    refine ⟨fun p => p.elim0, ?_, ?_, fun _ => ⟨rfl, rfl, rfl, hfailed, fun p => p.elim0⟩⟩ <;> simp [connect]
  · refine ⟨fun p => .inl rfl, fun _ => ?_, ?_, ?_⟩
    · have hc : (connect n timeout).conn = ⟨true, false, none, true, timeout, 0, none⟩ := by simp [connect, hn]
      rw [hc]
      refine ⟨rfl, rfl, rfl, rfl, ?_, by simp [connect], ?_⟩
      · rintro (h | h)
        · cases h
        · exact hn (Nat.le_zero.mp h)
      · intro p
        refine ⟨?_, ?_, ?_⟩ <;> simp [connect, Port.kept, Port.refused, Port.gone]
    · simp [connect, hn]
    · simp [connect, hn]

variable {serves : Fin n → Bool} {s s' : State n} {m : Move n} {p : Fin n}

/-- A peer answers the request, or closes what was refused. -/
theorem peer_cases (serves : Fin n → Bool) {toPeer : List Msg} {msg : Msg} (hs : (s.ports p).Staged)
    (h : (s.ports p).toPeer = msg :: toPeer) :
    (s.ports p = .asked ∧
      peerListener (serves p) { s.ports p with toPeer } msg = if serves p then .found else .missing) ∨
    (s.ports p = .refused ∧ peerListener (serves p) { s.ports p with toPeer } msg = .gone) := by
  rcases hs with hp | hp | hp | hp | hp | hp <;> rw [hp] at h ⊢
  · obtain ⟨rfl, rfl⟩ : .connect = msg ∧ [] = toPeer := by simpa [Port.asked] using h
    refine .inl ⟨rfl, ?_⟩
    cases serves p <;> rfl
  · cases h
  · cases h
  · cases h
  · obtain ⟨rfl, rfl⟩ : .closed = msg ∧ [] = toPeer := by simpa [Port.refused] using h
    exact .inr ⟨rfl, rfl⟩
  · cases h

/-- A peer that has something to process is not one that is kept, nor becomes one. -/
theorem peer_kept (serves : Fin n → Bool) {toPeer : List Msg} {msg : Msg} (hs : (s.ports p).Staged)
    (h : (s.ports p).toPeer = msg :: toPeer) :
    (peerListener (serves p) { s.ports p with toPeer } msg).Staged ∧
      peerListener (serves p) { s.ports p with toPeer } msg ≠ .kept ∧ s.ports p ≠ .kept := by
  rcases peer_cases serves hs h with ⟨hp, hl⟩ | ⟨hp, hl⟩ <;> rw [hp] at hl ⊢ <;> rw [hl]
  · cases serves p <;> simp [Port.Staged, Port.found, Port.missing, Port.kept, Port.asked]
  · simp [Port.Staged, Port.gone, Port.kept, Port.refused]

theorem sound_peer {toPeer : List Msg} {msg : Msg} (hs : Sound s) (h : (s.ports p).toPeer = msg :: toPeer) :
    Sound { s with ports := Function.update s.ports p (peerListener (serves p) { s.ports p with toPeer } msg) } := by
  have hcases := peer_cases serves (hs.staged p) h
  have hnew := peer_kept serves (hs.staged p) h
  refine ⟨fun q => ?_, fun hr => ?_, fun hr => ?_, fun hr => ?_⟩
  · by_cases hq : q = p
    · subst hq
      simpa using hnew.1
    · simpa [hq] using hs.staged q
  · obtain ⟨hreg, hconn, hmsg, hcount, hfail, hnone, hports⟩ := hs.pending hr
    refine ⟨hreg, hconn, hmsg, hcount, hfail, hnone, fun q => ?_⟩
    by_cases hq : q = p
    · subst hq
      rcases hcases with ⟨hp, hl⟩ | ⟨hp, -⟩
      · simp only [Function.update_self, hl]
        cases serves q <;> simp [Port.found, Port.missing, Port.kept, Port.refused, Port.gone]
      · exact absurd hp (hports q).2.1
    · simpa [hq] using hports q
  · obtain ⟨hreg, hconn, hmsg, htimer, hfound, q, hq, hkept⟩ := hs.returned hr
    refine ⟨hreg, hconn, hmsg, htimer, hfound, q, hq, ?_⟩
    have hne : q ≠ p := by
      rintro rfl
      exact hnew.2.2 hkept
    simpa [hne] using hkept
  · obtain ⟨hreg, hmsg, htimer, hfail, hports⟩ := hs.thrown hr
    refine ⟨hreg, hmsg, htimer, hfail, fun q => ?_⟩
    by_cases hq : q = p
    · subst hq
      simpa using hnew.2.1
    · simpa [hq] using hports q

/-- A peer has replied. -/
theorem client_cases {toClient : List Msg} {msg : Msg} (hs : (s.ports p).Staged)
    (h : (s.ports p).toClient = msg :: toClient) :
    toClient = [] ∧ ((msg = .connected ∧ s.ports p = .found) ∨ (msg = .notfound ∧ s.ports p = .missing)) := by
  rcases hs with hp | hp | hp | hp | hp | hp <;> rw [hp] at h ⊢
  · cases h
  · obtain ⟨rfl, rfl⟩ : .connected = msg ∧ [] = toClient := by simpa [Port.found] using h
    exact ⟨rfl, .inl ⟨rfl, rfl⟩⟩
  · obtain ⟨rfl, rfl⟩ : .notfound = msg ∧ [] = toClient := by simpa [Port.missing] using h
    exact ⟨rfl, .inr ⟨rfl, rfl⟩⟩
  · cases h
  · cases h
  · cases h

/-- The state after a `connected` from `p`. -/
def foundBy (s : State n) (p : Fin n) : State n where
  conn := (listener s.conn p .connected).1
  ports := Function.update s.ports p (if s.conn.registered then .kept else .refused)
  log := s.log ++ [.connected p]

/-- The state after a `notfound` from `p`. -/
def missingAt (s : State n) (p : Fin n) : State n where
  conn := (listener s.conn p .notfound).1
  ports := Function.update s.ports p .gone
  log := s.log ++ [.notfound p]

/-- Everything a step can be. -/
theorem step_cases (hs : Sound s) (h : step serves s m = some s') :
    (∃ p msg toPeer, m = .peer p ∧ (s.ports p).toPeer = msg :: toPeer ∧
      s' = { s with ports := Function.update s.ports p (peerListener (serves p) { s.ports p with toPeer } msg) }) ∨
    (∃ p, m = .client p ∧ s.ports p = .found ∧ s' = foundBy s p) ∨
    (∃ p, m = .client p ∧ s.ports p = .missing ∧ s' = missingAt s p) ∨
    (m = .timeout ∧ s.conn.timer = true ∧ s' = { s with conn := s.conn.resume false, log := s.log ++ [.timeout] }) := by
  cases m with
  | peer p =>
    simp only [step] at h
    split at h
    · cases h
    · rename_i msg toPeer hmsg
      exact .inl ⟨p, msg, toPeer, rfl, hmsg, (Option.some.inj h).symm⟩
  | client p =>
    simp only [step] at h
    split at h
    · cases h
    · rename_i msg toClient hmsg
      obtain ⟨rfl, ⟨rfl, hp⟩ | ⟨rfl, hp⟩⟩ := client_cases (hs.staged p) hmsg
      · refine .inr (.inl ⟨p, rfl, hp, (Option.some.inj h).symm.trans ?_⟩)
        cases hreg : s.conn.registered <;> cases hconn : s.conn.connected <;>
          simp [foundBy, listener, hp, hreg, hconn, Port.found, Port.kept, Port.refused, Msg.event]
      · refine .inr (.inr (.inl ⟨p, rfl, hp, (Option.some.inj h).symm.trans ?_⟩))
        cases hreg : s.conn.registered <;> simp [missingAt, listener, hp, hreg, Port.missing, Port.gone, Msg.event]
  | timeout =>
    simp only [step, Option.ite_none_right_eq_some, Option.some.injEq] at h
    exact .inr (.inr (.inr ⟨rfl, h.1, h.2.symm⟩))

theorem sound_foundBy (hs : Sound s) (hp : s.ports p = .found) : Sound (foundBy s p) := by
  have hstaged : ∀ q, ((foundBy s p).ports q).Staged := by
    intro q
    by_cases hq : q = p
    · subst hq
      cases hreg : s.conn.registered <;> simp [foundBy, hreg, Port.Staged]
    · simpa [foundBy, hq] using hs.staged q
  cases hres : s.conn.result with
  | none =>
    obtain ⟨hreg, hconn, hmsg, hcount, hfail, hnone, hports⟩ := hs.pending hres
    have hc : (foundBy s p).conn = { s.conn with
        connected := true, port := some p, onmsg := false, timer := false, result := some true } := by
      simp [foundBy, listener, hreg, hconn, Connection.message, hmsg, Connection.resume]
    refine ⟨hstaged, fun hr => ?_, fun _ => ?_, fun hr => ?_⟩
    · rw [hc] at hr
      cases hr
    · rw [hc]
      exact ⟨hreg, rfl, rfl, rfl, ⟨s.log, p, [], rfl, hfail⟩, p, rfl, by simp [foundBy, hreg]⟩
    · rw [hc] at hr
      cases hr
  | some ok =>
    cases ok with
    | true =>
      obtain ⟨hreg, hconn, hmsg, htimer, hfound, q, hq, hkept⟩ := hs.returned hres
      have hc : (foundBy s p).conn = s.conn := by simp [foundBy, listener, hreg, hconn]
      refine ⟨hstaged, fun hr => ?_, fun _ => ?_, fun hr => ?_⟩
      · rw [hc, hres] at hr
        cases hr
      · rw [hc]
        have hne : q ≠ p := by
          rintro rfl
          rw [hp] at hkept
          cases hkept
        exact ⟨hreg, hconn, hmsg, htimer, hfound.append _, q, hq, by simpa [foundBy, hne] using hkept⟩
      · rw [hc, hres] at hr
        cases hr
    | false =>
      obtain ⟨hreg, hmsg, htimer, hfail, hports⟩ := hs.thrown hres
      have hc : (foundBy s p).conn = s.conn := by simp [foundBy, listener, hreg]
      refine ⟨hstaged, fun hr => ?_, fun hr => ?_, fun _ => ?_⟩
      · rw [hc, hres] at hr
        cases hr
      · rw [hc, hres] at hr
        cases hr
      · rw [hc]
        refine ⟨hreg, hmsg, htimer, hfail.append _, fun q => ?_⟩
        by_cases hq : q = p
        · subst hq
          simp [foundBy, hreg, Port.refused, Port.kept]
        · simpa [foundBy, hq] using hports q

theorem kept_missingAt (hp : s.ports p = .missing) (q : Fin n) : (missingAt s p).ports q = .kept ↔ s.ports q = .kept := by
  by_cases hq : q = p
  · subst hq
    rw [hp]
    simp [missingAt, Port.gone, Port.missing, Port.kept]
  · simp [missingAt, hq]

theorem sound_missingAt (hs : Sound s) (hp : s.ports p = .missing) : Sound (missingAt s p) := by
  have hstaged : ∀ q, ((missingAt s p).ports q).Staged := by
    intro q
    by_cases hq : q = p
    · subst hq
      simp [missingAt, Port.Staged]
    · simpa [missingAt, hq] using hs.staged q
  have hkept := kept_missingAt hp
  cases hres : s.conn.result with
  | none =>
    obtain ⟨hreg, hconn, hmsg, hcount, hfail, hnone, hports⟩ := hs.pending hres
    have hcount' : (missingAt s p).log.countP Event.isNotfound = s.conn.notfoundCount + 1 := by
      simp [missingAt, hcount, List.countP_append, Event.isNotfound]
    have hnone' : ∀ q, .connected q ∉ (missingAt s p).log := by
      intro q
      simpa [missingAt] using hnone q
    by_cases hall : n ≤ s.conn.notfoundCount + 1
    · have hc : (missingAt s p).conn = { s.conn with
          notfoundCount := s.conn.notfoundCount + 1, onmsg := false, timer := false, registered := false,
          result := some false } := by
        simp [missingAt, listener, hreg, hconn, Connection.notfoundResponse, hall, Connection.message, hmsg, Connection.resume]
      refine ⟨hstaged, fun hr => ?_, fun hr => ?_, fun _ => ?_⟩
      · rw [hc] at hr
        cases hr
      · rw [hc] at hr
        cases hr
      · rw [hc]
        refine ⟨rfl, rfl, rfl, ⟨(missingAt s p).log, [], by simp, .inr (by omega), hnone'⟩, fun q hq => ?_⟩
        exact (hports q).1 ((hkept q).mp hq)
    · have hc : (missingAt s p).conn = { s.conn with notfoundCount := s.conn.notfoundCount + 1 } := by
        simp [missingAt, listener, hreg, hconn, Connection.notfoundResponse, hall]
      refine ⟨hstaged, fun _ => ?_, fun hr => ?_, fun hr => ?_⟩
      · rw [hc]
        refine ⟨hreg, hconn, hmsg, hcount'.symm, ?_, hnone', fun q => ⟨fun hq => ?_, fun hq => ?_, fun hq => ?_⟩⟩
        · rintro (htime | hle)
          · exact hfail (.inl (by simpa [missingAt] using htime))
          · omega
        · exact (hports q).1 ((hkept q).mp hq)
        · by_cases hqp : q = p
          · subst hqp
            simp [missingAt, Port.gone, Port.refused] at hq
          · exact (hports q).2.1 (by simpa [missingAt, hqp] using hq)
        · by_cases hqp : q = p
          · subst hqp
            exact List.mem_append_right _ List.mem_cons_self
          · exact List.mem_append_left _ ((hports q).2.2 (by simpa [missingAt, hqp] using hq))
      · rw [hc] at hr
        exact absurd (hres.symm.trans hr) (by simp)
      · rw [hc] at hr
        exact absurd (hres.symm.trans hr) (by simp)
  | some ok =>
    cases ok with
    | true =>
      obtain ⟨hreg, hconn, hmsg, htimer, hfound, q, hq, hkeptq⟩ := hs.returned hres
      have hc : (missingAt s p).conn = { s.conn with notfoundCount := s.conn.notfoundCount + 1 } := by
        simp [missingAt, listener, hreg, hconn, Connection.notfoundResponse]
      refine ⟨hstaged, fun hr => ?_, fun _ => ?_, fun hr => ?_⟩
      · rw [hc] at hr
        exact absurd (hres.symm.trans hr) (by simp)
      · rw [hc]
        exact ⟨hreg, hconn, hmsg, htimer, hfound.append _, q, hq, (hkept q).mpr hkeptq⟩
      · rw [hc] at hr
        exact absurd (hres.symm.trans hr) (by simp)
    | false =>
      obtain ⟨hreg, hmsg, htimer, hfail, hports⟩ := hs.thrown hres
      have hc : (missingAt s p).conn = s.conn := by simp [missingAt, listener, hreg]
      refine ⟨hstaged, fun hr => ?_, fun hr => ?_, fun _ => ?_⟩
      · rw [hc, hres] at hr
        cases hr
      · rw [hc, hres] at hr
        cases hr
      · rw [hc]
        exact ⟨hreg, hmsg, htimer, hfail.append _, fun q hq => hports q ((hkept q).mp hq)⟩

/-- The timer runs only while `connect` waits. -/
theorem sound_timeout (hs : Sound s) (ht : s.conn.timer = true) :
    Sound { s with conn := s.conn.resume false, log := s.log ++ [.timeout] } := by
  cases hres : s.conn.result with
  | none =>
    obtain ⟨hreg, hconn, hmsg, hcount, hfail, hnone, hports⟩ := hs.pending hres
    have hc : s.conn.resume false = { s.conn with
        onmsg := false, timer := false, registered := false, result := some false } := by
      simp [Connection.resume, hconn]
    rw [hc]
    refine ⟨hs.staged, fun hr => (by cases hr), fun hr => (by cases hr), fun _ => ⟨rfl, rfl, rfl, ?_, fun q => (hports q).1⟩⟩
    exact ⟨s.log ++ [.timeout], [], by simp, .inl (by simp), fun q => by simpa using hnone q⟩
  | some ok =>
    cases ok with
    | true => exact absurd ht (by simp [(hs.returned hres).2.2.2.1])
    | false => exact absurd ht (by simp [(hs.thrown hres).2.2.1])

theorem sound_step (hs : Sound s) (h : step serves s m = some s') : Sound s' := by
  obtain ⟨p, msg, toPeer, rfl, hmsg, rfl⟩ | ⟨p, rfl, hp, rfl⟩ | ⟨p, rfl, hp, rfl⟩ | ⟨rfl, ht, rfl⟩ := step_cases hs h
  · exact sound_peer hs hmsg
  · exact sound_foundBy hs hp
  · exact sound_missingAt hs hp
  · exact sound_timeout hs ht

/-- Only peers that serve have live connections. -/
def Serving (serves : Fin n → Bool) (s : State n) : Prop := ∀ p, (s.ports p).live = true → serves p = true

theorem serving_step (hl : Serving serves s) (h : step serves s m = some s') : Serving serves s' := by
  intro q hq
  cases m with
  | peer p =>
    simp only [step] at h
    split at h
    · cases h
    · rename_i msg toPeer hmsg
      obtain rfl := Option.some.inj h
      by_cases hqp : q = p
      · subst hqp
        cases hserves : serves q with
        | true => rfl
        | false => cases msg <;> simp_all [peerListener, Serving]
      · exact hl q (by simpa [hqp] using hq)
  | client p =>
    simp only [step] at h
    split at h
    · cases h
    · obtain rfl := Option.some.inj h
      refine hl q ?_
      by_cases hqp : q = p
      · subst hqp
        simpa using hq
      · simpa [hqp] using hq
  | timeout =>
    simp only [step, Option.ite_none_right_eq_some, Option.some.injEq] at h
    obtain ⟨-, rfl⟩ := h
    exact hl q hq

/-! ### The peers that are kept -/

/-- Only the peer that has been found keeps a connection it has not been told to close. -/
def OnlyFound (s : State n) : Prop := ∀ p, s.ports p = .kept → s.conn.port = some p

@[simp] theorem port_resume (c : Connection n) (err : Bool) : (c.resume err).port = c.port := by
  unfold Connection.resume
  dsimp only
  split <;> rfl

@[simp] theorem port_message (c : Connection n) (err : Bool) : (c.message err).port = c.port := by
  unfold Connection.message
  split
  · exact port_resume c err
  · rfl

@[simp] theorem port_missingAt (s : State n) (p : Fin n) : (missingAt s p).conn.port = s.conn.port := by
  unfold missingAt listener Connection.notfoundResponse
  dsimp only
  split
  · dsimp only
    split
    · exact port_message ..
    · rfl
  · rfl

theorem onlyFound_foundBy (hs : Sound s) (hp : s.ports p = .found) :
    OnlyFound (foundBy s p) ↔ OnlyFound s ∧ (s.conn.registered = true → s.conn.connected = false) := by
  have hother : ∀ q, q ≠ p → (foundBy s p).ports q = s.ports q := fun q hq => by simp [foundBy, hq]
  have hself : (foundBy s p).ports p = if s.conn.registered then .kept else .refused := by simp [foundBy]
  cases hres : s.conn.result with
  | none =>
    obtain ⟨hreg, hconn, hmsg, -, -, -, hports⟩ := hs.pending hres
    have hc : (foundBy s p).conn.port = some p := by simp [foundBy, listener, hreg, hconn]
    refine iff_of_true (fun q hq => ?_) ⟨fun q hq => absurd hq (hports q).1, fun _ => hconn⟩
    by_cases hqp : q = p
    · rw [hc, hqp]
    · rw [hother q hqp] at hq
      exact absurd hq (hports q).1
  | some ok =>
    cases ok with
    | true =>
      obtain ⟨hreg, hconn, -, -, -, q, hq, hkept⟩ := hs.returned hres
      have hc : (foundBy s p).conn = s.conn := by simp [foundBy, listener, hreg, hconn]
      refine iff_of_false (fun honly => ?_) fun h => by simp [hconn] at h; exact absurd hreg (by simpa using h.2)
      have hpq := honly p (by rw [hself, hreg]; rfl)
      rw [hc, hq] at hpq
      obtain rfl := Option.some.inj hpq
      rw [hp] at hkept
      cases hkept
    | false =>
      obtain ⟨hreg, -, -, -, hports⟩ := hs.thrown hres
      have hnew : ∀ q, (foundBy s p).ports q ≠ .kept := by
        intro q
        by_cases hqp : q = p
        · rw [hqp, hself, hreg]
          simp [Port.refused, Port.kept]
        · rw [hother q hqp]
          exact hports q
      exact iff_of_true (fun q hq => absurd hq (hnew q))
        ⟨fun q hq => absurd hq (hports q), fun hr => absurd hr (by simp [hreg])⟩

theorem onlyFound_step (hs : Sound s) (h : step serves s m = some s') : OnlyFound s' ↔ OnlyFound s ∧ Single s m := by
  obtain ⟨p, msg, toPeer, rfl, hmsg, rfl⟩ | ⟨p, rfl, hp, rfl⟩ | ⟨p, rfl, hp, rfl⟩ | ⟨rfl, ht, rfl⟩ := step_cases hs h
  · refine Iff.trans ?_ (and_iff_left trivial).symm
    refine forall_congr' fun q => imp_congr_left ?_
    by_cases hq : q = p
    · subst hq
      obtain ⟨-, hnew, hold⟩ := peer_kept serves (hs.staged q) hmsg
      simpa using iff_of_false hnew hold
    · simp [hq]
  · rw [onlyFound_foundBy hs hp]
    simp [Single, hp, Port.found]
  · refine Iff.trans ?_ (and_iff_left fun hhead => ?_).symm
    · unfold OnlyFound
      rw [port_missingAt]
      exact forall_congr' fun q => imp_congr_left (kept_missingAt hp q)
    · rw [hp] at hhead
      cases hhead
  · refine Iff.trans ?_ (and_iff_left trivial).symm
    unfold OnlyFound
    rw [port_resume]

/-! ### Runs -/

/-- Where all is delivered the live connections are those kept. -/
theorem live_of_delivered (hs : Sound s) (hd : Delivered s) (q : Fin n) : (s.ports q).live = true ↔ s.ports q = .kept := by
  have hq := hd q
  rcases hs.staged q with h | h | h | h | h | h <;> rw [h] at hq ⊢ <;>
    simp [Port.asked, Port.found, Port.missing, Port.kept, Port.refused, Port.gone] at hq ⊢

/-- A connect that waits has not heard of all peers. -/
theorem ends_of_sound (hs : Sound s) (hd : Delivered s) : s.conn.result ≠ none := by
  intro hres
  obtain ⟨-, -, -, -, hfail, -, hports⟩ := hs.pending hres
  have hall : ∀ q : Fin n, .notfound q ∈ s.log := by
    intro q
    obtain ⟨hkept, hrefused, hgone⟩ := hports q
    have hq := hd q
    rcases hs.staged q with h | h | h | h | h | h
    · simp [h, Port.asked] at hq
    · simp [h, Port.found] at hq
    · simp [h, Port.missing] at hq
    · exact absurd h hkept
    · exact absurd h hrefused
    · exact hgone h
  refine hfail (.inr ?_)
  have hsub : (Finset.univ : Finset (Fin n)).image Event.notfound ⊆ (s.log.filter Event.isNotfound).toFinset := by
    intro e he
    obtain ⟨q, -, rfl⟩ := Finset.mem_image.mp he
    exact List.mem_toFinset.mpr (List.mem_filter.mpr ⟨hall q, rfl⟩)
  calc n = ((Finset.univ : Finset (Fin n)).image Event.notfound).card := by
        rw [Finset.card_image_of_injective _ fun _ _ h => Event.notfound.inj h, Finset.card_univ, Fintype.card_fin]
    _ ≤ (s.log.filter Event.isNotfound).toFinset.card := Finset.card_le_card hsub
    _ ≤ (s.log.filter Event.isNotfound).length := List.toFinset_card_le _
    _ = s.log.countP Event.isNotfound := List.countP_eq_length_filter.symm

theorem succeeds_of_sound (hs : Sound s) : s.conn.result = some true ↔ Found s.log := by
  cases hres : s.conn.result with
  | none =>
    obtain ⟨-, -, -, -, -, hnone, -⟩ := hs.pending hres
    refine iff_of_false (by simp) ?_
    rintro ⟨before, p, after, he, -⟩
    exact hnone p (by rw [he]; simp)
  | some ok =>
    cases ok with
    | true => exact iff_of_true rfl (hs.returned hres).2.2.2.2.1
    | false => exact iff_of_false (by simp) (hs.thrown hres).2.2.2.1.not_found

theorem kept_of_sound (hs : Sound s) (hl : Serving serves s) (hd : Delivered s) :
    (if s.conn.result = some true then ∃ p, serves p = true ∧ ∀ q, (s.ports q).live = true ↔ q = p
      else ∀ q, (s.ports q).live = false) ↔ OnlyFound s := by
  have hlive := live_of_delivered hs hd
  cases hres : s.conn.result with
  | none => exact absurd hres (ends_of_sound hs hd)
  | some ok =>
    cases ok with
    | true =>
      obtain ⟨-, -, -, -, -, p, hp, hkept⟩ := hs.returned hres
      rw [if_pos rfl]
      constructor
      · rintro ⟨p', -, hp'⟩ q hq
        obtain rfl := (hp' p).mp ((hlive p).mpr hkept)
        rw [hp, (hp' q).mp ((hlive q).mpr hq)]
      · refine fun honly => ⟨p, hl p ((hlive p).mpr hkept), fun q => ⟨fun hq => ?_, fun hq => hq ▸ (hlive p).mpr hkept⟩⟩
        have := honly q ((hlive q).mp hq)
        rw [hp] at this
        exact (Option.some.inj this).symm
    | false =>
      obtain ⟨-, -, -, -, hports⟩ := hs.thrown hres
      rw [if_neg (by simp)]
      refine iff_of_true (fun q => ?_) fun q hq => absurd hq (hports q)
      simpa using fun hq => hports q ((hlive q).mp hq)

/-- `connect` ends as it should, whatever the order of the replies; and one peer is kept when
it succeeds, if and only if no `connected` comes after the first one that is taken. -/
theorem connects_iff (n : Nat) (serves : Fin n → Bool) (timeout : Bool) (ms : List (Move n)) (s : State n)
    (h : run (step serves) (connect n timeout) ms = some s) :
    (Along (step serves) Single (connect n timeout) ms → Connects serves s) ∧
      (Delivered s → (Connects serves s ↔ Along (step serves) Single (connect n timeout) ms)) := by
  have hs : Sound s := run_invariant (fun _ _ _ hs (_ : True) h => sound_step hs h) (sound_connect n timeout)
    (Along.of_forall fun _ _ => trivial) h
  have hl : Serving serves s := run_invariant (fun _ _ _ hl (_ : True) h => serving_step hl h)
    (fun q hq => by simp [connect] at hq) (Along.of_forall fun _ _ => trivial) h
  have hstart : OnlyFound (connect n timeout) := fun q hq => by simp [connect, Port.kept] at hq
  have hrun := run_iff (fun _ _ _ hs h => sound_step hs h) (fun _ _ _ hs h => onlyFound_step hs h)
    (sound_connect n timeout) h
  rw [and_iff_right hstart] at hrun
  have hholds : Along (step serves) Single (connect n timeout) ms → Connects serves s := fun ha =>
    ⟨succeeds_of_sound hs, ends_of_sound hs, fun hd => (kept_of_sound hs hl hd).mpr (hrun.mpr ha)⟩
  exact ⟨hholds, fun hd => ⟨fun hc => hrun.mp ((kept_of_sound hs hl hd).mp (hc.kept hd)), hholds⟩⟩

instance (s : State n) : Decidable (Delivered s) := by
  unfold Delivered
  infer_instance

/-- One of two peers serves, and the other one replies first. -/
theorem connects_second : ∃ s, run (step fun p : Fin 2 => p = 1) (connect 2 true) [.peer 1, .peer 0, .client 0,
    .client 1] = some s ∧ Delivered s ∧ s.conn.result = some true ∧ Connects (fun p : Fin 2 => p = 1) s := by
  obtain ⟨s, hs, hd, hr⟩ : ∃ s, run (step fun p : Fin 2 => p = 1) (connect 2 true) [.peer 1, .peer 0, .client 0,
      .client 1] = some s ∧ Delivered s ∧ s.conn.result = some true := exists_run (by decide)
  exact ⟨s, hs, hd, hr, (connects_iff 2 _ true _ s hs).1 (by decide)⟩

/-- Two peers serve, and both keep their connections. -/
theorem connects_both : ∃ s, run (step fun _ : Fin 2 => true) (connect 2 false) [.peer 0, .peer 1, .client 0,
    .client 1] = some s ∧ ¬ Connects (fun _ => true) s := by
  obtain ⟨s, hs, hd, hr, h₀, h₁⟩ : ∃ s, run (step fun _ : Fin 2 => true) (connect 2 false) [.peer 0, .peer 1, .client 0,
      .client 1] = some s ∧ Delivered s ∧ s.conn.result = some true ∧ (s.ports 0).live = true ∧
      (s.ports 1).live = true := exists_run (by decide)
  refine ⟨s, hs, fun h => ?_⟩
  have hkept := h.kept hd
  rw [if_pos hr] at hkept
  obtain ⟨p, -, hp⟩ := hkept
  have h01 : (0 : Fin 2) = 1 := ((hp 0).mp h₀).trans ((hp 1).mp h₁).symm
  cases h01

end PxpRpc.Transport.Connect
