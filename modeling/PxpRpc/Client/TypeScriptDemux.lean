import PxpRpc.Client.TypeScriptClient

/-!
# Responses, failures and the requests of the TypeScript client

What a step should mean to a call or to a poll is said without the table; the
client does it as long as the table leads each response and each failure to the
requests that wait for it, and to no others.
-/
namespace PxpRpc.TypeScript

open PxpRpc.Lib PxpRpc.Client

/-- What a call ends with when its promise has been settled. -/
def Call.result : Except Failure (Sid × List UInt8) → Except Failure (List UInt8)
  | .ok (sid, result) => if sid.IsError then .error (.remote result) else .ok result
  | .error failure => .error failure

/-- The call `i` after a step. -/
def Call.after (op : Op) (i : Nat) (r : Call) : Call :=
  match op with
  | .receive buf =>
    if 4 ≤ buf.length ∧ (Sid.read buf).Answers r.sid then r.settle (.ok (Sid.read buf, buf.drop 4)) else r
  | .fail => r.settle (.error .io)
  | .callSent call ok =>
    if call = i then if ok then { r with sent := true } else { r with outcome := some (.error .io) } else r
  | .resume call => if call = i then { r with outcome := r.respFut.map Call.result } else r
  | _ => r

/-- A result for a poll that goes on. -/
def Poll.giveOpen (p : Poll) (result : Except Failure (List UInt8)) : Poll := if p.isOpen then p.give result else p

/-- The poll `i` after a step. -/
def Poll.after (op : Op) (i : Nat) (p : Poll) : Poll :=
  match op with
  | .receive buf =>
    if 4 ≤ buf.length ∧ (Sid.read buf).Answers p.sid then
      p.giveOpen (if (Sid.read buf).IsError then .error (.remote (buf.drop 4)) else .ok (buf.drop 4))
    else p
  | .fail => p.giveOpen (.error .io)
  | .pollFails poll => if poll = i then p.giveOpen (.error .io) else p
  | _ => p

namespace Client

/-- The step does to every call and poll what it should. -/
def Demultiplexes (c : Client) (op : Op) : Prop :=
  ∀ c', c.step op = some c' →
    (∀ (i : Nat) (r : Call), c.calls[i]? = some r → c'.calls[i]? = some (r.after op i)) ∧
    ∀ (i : Nat) (p : Poll), c.polls[i]? = some p → c'.polls[i]? = some (p.after op i)

/-- A request takes a sid that no request has that waits or goes on. -/
def FreshSid (c : Client) : Op → Prop
  | .call _ _ sid => sid ≠ .signal → (∀ r ∈ c.calls, r.outcome = none → r.sid ≠ sid) ∧
      ∀ p ∈ c.polls, p.isOpen → p.sid ≠ sid
  | .poll _ _ sid => (∀ r ∈ c.calls, r.outcome = none → r.sid ≠ sid) ∧ ∀ p ∈ c.polls, p.isOpen → p.sid ≠ sid
  | _ => True

/-- A callback that does something when it is called. -/
def Live (c : Client) : Entry → Prop
  | .call call => ∃ r, c.calls[call]? = some r ∧ r.isOpen
  | .poll _ => True

/-- The poll goes on. -/
def PollOpen (c : Client) (poll : Nat) : Prop := ∃ p, c.polls[poll]? = some p ∧ p.isOpen

/-- The sid of a request that waits for a response. -/
def Awaits (c : Client) (sid : Sid) : Prop :=
  (∃ r ∈ c.calls, r.isOpen ∧ r.sid = sid) ∨ ∃ p ∈ c.polls, p.isOpen ∧ p.sid = sid

/-- A packet finds its way by its id: the request that it answers has a sid that fits in the
mask, its entry is not that of a poll that has ended, and if there is no entry nothing is left to
be called. -/
def Leads (c : Client) (id : Sid) : Prop :=
  (∀ sid, c.Awaits sid → id.Answers sid → id ≠ .signal ∧ ¬ sid.IsError) ∧
  (id ≠ .signal → match c.waitingSessionCb.get (id &&& Sid.mask) with
    | none => ∀ e ∈ c.waitingSessionCb.values, ¬ c.Live e
    | some (.call _) => True
    | some (.poll poll) => c.PollOpen poll)

/-- Packets find their way, and failures are handed to no poll that has ended. -/
def Orderly (c : Client) : Op → Prop
  | .receive buf => c.receiving → if 4 ≤ buf.length then c.Leads (Sid.read buf)
      else ∀ e ∈ c.waitingSessionCb.values, ¬ c.Live e
  | .fail => c.receiving → ∀ poll, .poll poll ∈ c.waitingSessionCb.values → c.PollOpen poll
  | .pollFails poll => ∀ p, c.polls[poll]? = some p → p.isOpen
  | _ => True

/-! ### The table -/

def sidOf (c : Client) : Entry → Option Sid
  | .call call => c.calls[call]?.map Call.sid
  | .poll poll => c.polls[poll]?.map Poll.sid

/-- Entries are under the sids of their owners, and the requests that wait have theirs. -/
structure Regular (c : Client) : Prop where
  keys : c.waitingSessionCb.keys.Nodup
  owner : ∀ e ∈ c.waitingSessionCb, c.sidOf e.2 = some e.1
  call : ∀ i r, c.calls[i]? = some r → r.outcome = none → (r.sid, .call i) ∈ c.waitingSessionCb
  poll : ∀ i p, c.polls[i]? = some p → p.isOpen → (p.sid, .poll i) ∈ c.waitingSessionCb
  answer : ∀ r ∈ c.calls, r.outcome = none → ∀ sid result, r.respFut = some (.ok (sid, result)) →
    sid &&& Sid.mask = r.sid

end Client

theorem Call.after_receive {buf : List UInt8} {i : Nat} {r : Call} : r.after (.receive buf) i =
    if 4 ≤ buf.length ∧ (Sid.read buf).Answers r.sid then r.settle (.ok (Sid.read buf, buf.drop 4)) else r := rfl

theorem Poll.after_receive {buf : List UInt8} {i : Nat} {p : Poll} : p.after (.receive buf) i =
    if 4 ≤ buf.length ∧ (Sid.read buf).Answers p.sid then
      p.giveOpen (if (Sid.read buf).IsError then .error (.remote (buf.drop 4)) else .ok (buf.drop 4))
    else p := rfl

theorem Call.settle_of_not_open {r : Call} (h : r.isOpen = false) (answer : Except Failure (Sid × List UInt8)) :
    r.settle answer = r := by rw [settle, h]; rfl

theorem Call.settle_of_open {r : Call} (h : r.isOpen) (answer : Except Failure (Sid × List UInt8)) :
    r.settle answer = { r with respFut := some answer } := if_pos h

theorem Call.isOpen_iff {r : Call} : r.isOpen ↔ r.outcome = none ∧ r.respFut = none := by
  simp [isOpen]

theorem Call.settle_settle (r : Call) (answer : Except Failure (Sid × List UInt8)) :
    (r.settle answer).settle answer = r.settle answer := by
  by_cases h : r.isOpen
  · exact settle_of_not_open (by simp [settle_of_open h, isOpen]) answer
  · have hn : r.isOpen = false := by simpa using h
    rw [settle_of_not_open hn, settle_of_not_open hn]

@[simp] theorem Call.settle_sid (r : Call) (answer : Except Failure (Sid × List UInt8)) : (r.settle answer).sid = r.sid := by
  rw [settle]; split <;> rfl

@[simp] theorem Call.settle_outcome (r : Call) (answer : Except Failure (Sid × List UInt8)) :
    (r.settle answer).outcome = r.outcome := by rw [settle]; split <;> rfl

theorem Poll.give_ne (p : Poll) (result : Except Failure (List UInt8)) : p.give result ≠ p := by
  intro h
  have := congrArg (fun q => q.given.length) h
  simp [give] at this

theorem Poll.give_inj {p : Poll} {result result' : Except Failure (List UInt8)} (h : p.give result = p.give result') :
    result = result' := by simpa [give] using h

namespace Client

variable {c c' : Client}

/-! ### The exception handler -/

theorem callAll_frame (failure : Failure) (es : List Entry) : ∀ c : Client,
    (callAll failure es c).waitingSessionCb = c.waitingSessionCb ∧ (callAll failure es c).running = c.running := by
  induction es with
  | nil => exact fun c => ⟨rfl, rfl⟩
  | cons e es ih => cases e <;> exact fun c => ih _

theorem callAll_calls (failure : Failure) (es : List Entry) : ∀ (c : Client) (i : Nat),
    (callAll failure es c).calls[i]? =
      if .call i ∈ es then c.calls[i]?.map fun r => r.settle (.error failure) else c.calls[i]? := by
  induction es with
  | nil => intro c i; simp [callAll]
  | cons e es ih =>
    intro c i
    cases e with
    | poll poll =>
      rw [callAll, ih]
      simp [onResult]
    | call call =>
      rw [callAll, ih]
      by_cases hi : call = i
      · subst hi
        simp only [settle, List.getElem?_modify_eq, List.mem_cons, true_or, if_true]
        split
        · cases c.calls[call]? <;> simp [Call.settle_settle]
        · rfl
      · have hne : Entry.call i ≠ .call call := fun h => hi (Entry.call.inj h).symm
        simp only [settle, List.getElem?_modify_ne _ _ hi, List.mem_cons, hne, false_or]

theorem callAll_polls (failure : Failure) {es : List Entry} (hn : es.Nodup) : ∀ (c : Client) (i : Nat),
    (callAll failure es c).polls[i]? =
      if .poll i ∈ es then c.polls[i]?.map fun p => p.give (.error failure) else c.polls[i]? := by
  induction es with
  | nil => intro c i; simp [callAll]
  | cons e es ih =>
    intro c i
    obtain ⟨he, hes⟩ := List.nodup_cons.mp hn
    cases e with
    | call call =>
      rw [callAll, ih hes]
      simp [settle]
    | poll poll =>
      rw [callAll, ih hes]
      by_cases hi : poll = i
      · subst hi
        rw [if_neg he, if_pos List.mem_cons_self, onResult, List.getElem?_modify_eq]
        rfl
      · have hne : Entry.poll i ≠ .poll poll := fun h => hi (Entry.poll.inj h).symm
        simp only [onResult, List.getElem?_modify_ne _ _ hi, List.mem_cons, hne, false_or]

namespace Regular

/-- A sid has one entry. -/
theorem entry_eq (h : c.Regular) {sid : Sid} {e e' : Entry} (he : (sid, e) ∈ c.waitingSessionCb)
    (he' : (sid, e') ∈ c.waitingSessionCb) : e = e' :=
  (Prod.mk.inj (List.inj_on_of_nodup_map h.keys he he' rfl)).2

theorem get (h : c.Regular) {sid : Sid} {e : Entry} (he : (sid, e) ∈ c.waitingSessionCb) :
    c.waitingSessionCb.get sid = some e := Table.get_of_mem h.keys he

theorem values (h : c.Regular) : c.waitingSessionCb.values.Nodup := by
  refine List.Nodup.map_on (fun e he e' he' hv => ?_) (List.Nodup.of_map _ h.keys)
  have hk : some e.1 = some e'.1 := by rw [← h.owner e he, ← h.owner e' he', hv]
  exact Prod.ext (Option.some.inj hk) hv

theorem call_of_get (h : c.Regular) {sid : Sid} {i : Nat} (hg : c.waitingSessionCb.get sid = some (.call i)) :
    ∃ r, c.calls[i]? = some r ∧ r.sid = sid := Option.map_eq_some_iff.mp (h.owner _ (Table.mem_of_get hg))

theorem poll_of_get (h : c.Regular) {sid : Sid} {i : Nat} (hg : c.waitingSessionCb.get sid = some (.poll i)) :
    ∃ p, c.polls[i]? = some p ∧ p.sid = sid := Option.map_eq_some_iff.mp (h.owner _ (Table.mem_of_get hg))

theorem init : Regular .init :=
  ⟨List.nodup_nil, fun e he => by simp [Client.init] at he, fun i r hr => by simp [Client.init] at hr,
    fun i p hp => by simp [Client.init] at hp, fun r hr => by simp [Client.init] at hr⟩

end Regular

/-! ### What a packet does -/

theorem stop_calls (failure : Failure) (i : Nat) : (c.stop failure).calls[i]? =
    if .call i ∈ c.waitingSessionCb.values then c.calls[i]?.map fun r => r.settle (.error failure) else c.calls[i]? :=
  callAll_calls failure _ c i

theorem stop_polls (h : c.Regular) (failure : Failure) (i : Nat) : (c.stop failure).polls[i]? =
    if .poll i ∈ c.waitingSessionCb.values then c.polls[i]?.map fun p => p.give (.error failure) else c.polls[i]? :=
  callAll_polls failure h.values c i

/-- A packet that leads to no callback. -/
def Strays (c : Client) (buf : List UInt8) : Prop :=
  ¬ 4 ≤ buf.length ∨ Sid.read buf ≠ .signal ∧ c.waitingSessionCb.get (Sid.read buf &&& Sid.mask) = none

theorem receive_strays {buf : List UInt8} (h : c.Strays buf) : c.receive buf = c.stop .exception := by
  rw [receive]
  rcases h with h | ⟨hs, hg⟩
  · rw [if_neg h]
  · split
    · simp only [if_pos hs, hg]
    · rfl

theorem receive_signal {buf : List UInt8} (hl : 4 ≤ buf.length) (hs : Sid.read buf = .signal) :
    c.receive buf = c.loop := by
  rw [receive, if_pos hl]
  exact if_neg (not_not.mpr hs)

theorem receive_call {buf : List UInt8} {i : Nat} (hl : 4 ≤ buf.length) (hs : Sid.read buf ≠ .signal)
    (hg : c.waitingSessionCb.get (Sid.read buf &&& Sid.mask) = some (.call i)) :
    c.receive buf = (c.settle i (.ok (Sid.read buf, buf.drop 4))).loop := by
  rw [receive, if_pos hl]
  simp only [if_pos hs, hg]

theorem receive_poll {buf : List UInt8} {i : Nat} {p : Poll} (hl : 4 ≤ buf.length) (hs : Sid.read buf ≠ .signal)
    (hg : c.waitingSessionCb.get (Sid.read buf &&& Sid.mask) = some (.poll i)) (hp : c.polls[i]? = some p) :
    c.receive buf = (c.pollCb i p (Sid.read buf) (buf.drop 4)).loop := by
  rw [receive, if_pos hl]
  simp only [if_pos hs, hg, hp]

/-- The result that the callback of a poll hands on. -/
def pollResult (p : Poll) (sid : Sid) (result : List UInt8) : Except Failure (List UInt8) :=
  if p.sid ≠ sid then .error (.remote result) else .ok result

theorem pollCb_calls (i : Nat) (p : Poll) (sid : Sid) (result : List UInt8) :
    (c.pollCb i p sid result).calls = c.calls := by rw [pollCb]; split <;> rfl

theorem pollCb_polls (i : Nat) (p : Poll) (sid : Sid) (result : List UInt8) :
    (c.pollCb i p sid result).polls = c.polls.modify i fun p' => p'.give (pollResult p sid result) := by
  rw [pollCb, pollResult]
  split <;> rfl

/-- The kinds of packets. -/
theorem packet_cases (h : c.Regular) (buf : List UInt8) :
    c.Strays buf ∨ 4 ≤ buf.length ∧ (Sid.read buf = .signal ∨ Sid.read buf ≠ .signal ∧
      ((∃ i r, c.waitingSessionCb.get (Sid.read buf &&& Sid.mask) = some (.call i) ∧ c.calls[i]? = some r ∧
          r.sid = Sid.read buf &&& Sid.mask) ∨
        ∃ i p, c.waitingSessionCb.get (Sid.read buf &&& Sid.mask) = some (.poll i) ∧ c.polls[i]? = some p ∧
          p.sid = Sid.read buf &&& Sid.mask)) := by
  by_cases hl : 4 ≤ buf.length
  · by_cases hs : Sid.read buf = .signal
    · exact .inr ⟨hl, .inl hs⟩
    · cases hg : c.waitingSessionCb.get (Sid.read buf &&& Sid.mask) with
      | none => exact .inl (.inr ⟨hs, hg⟩)
      | some e =>
        refine .inr ⟨hl, .inr ⟨hs, ?_⟩⟩
        cases e with
        | call i =>
          obtain ⟨r, hr, hsid⟩ := h.call_of_get hg
          exact .inl ⟨i, r, rfl, hr, hsid⟩
        | poll i =>
          obtain ⟨p, hp, hsid⟩ := h.poll_of_get hg
          exact .inr ⟨i, p, rfl, hp, hsid⟩
  · exact .inl (.inl hl)

/-- A client does to its calls and polls what the step should. -/
def Handles (c c' : Client) (op : Op) : Prop :=
  (∀ (i : Nat) (r : Call), c.calls[i]? = some r → c'.calls[i]? = some (r.after op i)) ∧
  ∀ (i : Nat) (p : Poll), c.polls[i]? = some p → c'.polls[i]? = some (p.after op i)

variable {buf : List UInt8} {i : Nat}

theorem call_after_receive {r : Call} (hl : 4 ≤ buf.length) (ho : r.isOpen) (ha : (Sid.read buf).Answers r.sid) :
    r.after (.receive buf) i = { r with respFut := some (.ok (Sid.read buf, buf.drop 4)) } := by
  rw [Call.after_receive, if_pos ⟨hl, ha⟩, Call.settle_of_open ho]

theorem call_after_same {r : Call} (h : 4 ≤ buf.length → r.isOpen → ¬ (Sid.read buf).Answers r.sid) :
    r.after (.receive buf) i = r := by
  rw [Call.after_receive]
  split
  · rename_i ha
    by_cases ho : r.isOpen
    · exact absurd ha.2 (h ha.1 ho)
    · exact Call.settle_of_not_open (by simpa using ho) _
  · rfl

theorem call_after_ne {r : Call} (hl : 4 ≤ buf.length) (ho : r.isOpen) (ha : (Sid.read buf).Answers r.sid) :
    r ≠ r.after (.receive buf) i := by
  intro h
  have hn := (Call.isOpen_iff.mp ho).2
  rw [h, call_after_receive hl ho ha] at hn
  cases hn

theorem poll_after_same {p : Poll} (h : 4 ≤ buf.length → p.isOpen → ¬ (Sid.read buf).Answers p.sid) :
    p.after (.receive buf) i = p := by
  rw [Poll.after_receive]
  split
  · rename_i ha
    exact if_neg fun ho => h ha.1 ho ha.2
  · rfl

theorem poll_after_give {p : Poll} (hl : 4 ≤ buf.length) (ho : p.isOpen) (ha : (Sid.read buf).Answers p.sid) :
    p.after (.receive buf) i =
      p.give (if (Sid.read buf).IsError then .error (.remote (buf.drop 4)) else .ok (buf.drop 4)) := by
  rw [Poll.after_receive, if_pos ⟨hl, ha⟩, Poll.giveOpen, if_pos ho]

theorem poll_after_ne {p : Poll} (hl : 4 ≤ buf.length) (ho : p.isOpen) (ha : (Sid.read buf).Answers p.sid) :
    p ≠ p.after (.receive buf) i := by
  rw [poll_after_give hl ho ha]
  exact (Poll.give_ne p _).symm

/-- An exception of the loop is not what a poll is given for a packet. -/
theorem give_exception_ne (p : Poll) : p.give (.error .exception) ≠ p.after (.receive buf) i := by
  rw [Poll.after_receive]
  split
  · rw [Poll.giveOpen]
    split
    · intro h
      have := Poll.give_inj h
      split at this <;> cases this
    · exact Poll.give_ne p _
  · exact Poll.give_ne p _

theorem settle_exception_ne {r : Call} (ho : r.isOpen) :
    r.settle (.error .exception) ≠ r.after (.receive buf) i := by
  intro h
  rw [Call.settle_of_open ho, Call.after_receive] at h
  split at h
  · rw [Call.settle_of_open ho] at h
    have := congrArg Call.respFut h
    cases this
  · have := congrArg Call.respFut h
    rw [(Call.isOpen_iff.mp ho).2] at this
    cases this

/-- A packet that answers a request finds its entry. -/
theorem Leads.call_get (hl : c.Leads (Sid.read buf)) (h : c.Regular) {r : Call} (hr : c.calls[i]? = some r)
    (ho : r.isOpen) (ha : (Sid.read buf).Answers r.sid) :
    Sid.read buf ≠ .signal ∧ c.waitingSessionCb.get (Sid.read buf &&& Sid.mask) = some (.call i) := by
  obtain ⟨hs, hm⟩ := hl.1 r.sid (.inl ⟨r, List.mem_of_getElem? hr, ho, rfl⟩) ha
  rw [ha.mask hm]
  exact ⟨hs, h.get (h.call i r hr (Call.isOpen_iff.mp ho).1)⟩

theorem Leads.poll_get (hl : c.Leads (Sid.read buf)) (h : c.Regular) {p : Poll} (hp : c.polls[i]? = some p)
    (ho : p.isOpen) (ha : (Sid.read buf).Answers p.sid) :
    Sid.read buf ≠ .signal ∧ c.waitingSessionCb.get (Sid.read buf &&& Sid.mask) = some (.poll i) := by
  obtain ⟨hs, hm⟩ := hl.1 p.sid (.inr ⟨p, List.mem_of_getElem? hp, ho, rfl⟩) ha
  rw [ha.mask hm]
  exact ⟨hs, h.get (h.poll i p hp ho)⟩

/-- A packet that leads nowhere. -/
theorem handles_strays_iff (h : c.Regular) : Handles c (c.stop .exception) (.receive buf) ↔
    (4 ≤ buf.length → ∀ sid, c.Awaits sid → ¬ (Sid.read buf).Answers sid) ∧
    ∀ e ∈ c.waitingSessionCb.values, ¬ c.Live e := by
  constructor
  · rintro ⟨hcalls, hpolls⟩
    refine ⟨fun hl sid haw ha => ?_, fun e he hlive => ?_⟩
    · rcases haw with ⟨r, hr, ho, rfl⟩ | ⟨p, hp, ho, rfl⟩
      · obtain ⟨i, hi⟩ := List.getElem?_of_mem hr
        have hc := hcalls i r hi
        rw [stop_calls, hi] at hc
        split at hc
        · exact settle_exception_ne ho (Option.some.inj hc)
        · exact call_after_ne hl ho ha (Option.some.inj hc)
      · obtain ⟨i, hi⟩ := List.getElem?_of_mem hp
        have hc := hpolls i p hi
        rw [stop_polls h, hi] at hc
        split at hc
        · exact give_exception_ne p (Option.some.inj hc)
        · exact poll_after_ne hl ho ha (Option.some.inj hc)
    · cases e with
      | call i =>
        obtain ⟨r, hr, ho⟩ := hlive
        have hc := hcalls i r hr
        rw [stop_calls, if_pos he, hr] at hc
        exact settle_exception_ne ho (Option.some.inj hc)
      | poll i =>
        obtain ⟨⟨sid, e⟩, hm, rfl⟩ := List.mem_map.mp he
        obtain ⟨p, hp, -⟩ := Option.map_eq_some_iff.mp (h.owner _ hm)
        have hc := hpolls i p hp
        rw [stop_polls h, if_pos he, hp] at hc
        exact give_exception_ne p (Option.some.inj hc)
  · rintro ⟨hno, hquiet⟩
    refine ⟨fun i r hr => ?_, fun i p hp => ?_⟩
    · rw [stop_calls, hr, call_after_same fun hl ho => hno hl _ (.inl ⟨r, List.mem_of_getElem? hr, ho, rfl⟩)]
      split
      · rename_i hm
        have hn : r.isOpen = false := by
          by_contra ho
          exact hquiet _ hm ⟨r, hr, by simpa using ho⟩
        rw [Option.map_some, Call.settle_of_not_open hn]
      · rfl
    · rw [stop_polls h, hp, poll_after_same fun hl ho => hno hl _ (.inr ⟨p, List.mem_of_getElem? hp, ho, rfl⟩)]
      exact if_neg fun hm => hquiet (.poll i) hm trivial

/-- A request that nothing happens to is answered by no packet. -/
theorem not_answers_of_handles {c' : Client} (hh : Handles c c' (.receive buf)) (hl : 4 ≤ buf.length) {sid : Sid}
    (haw : c.Awaits sid)
    (hcalls : ∀ (i : Nat) (r : Call), c.calls[i]? = some r → r.isOpen → r.sid = sid → c'.calls[i]? = some r)
    (hpolls : ∀ (i : Nat) (p : Poll), c.polls[i]? = some p → p.isOpen → p.sid = sid → c'.polls[i]? = some p) :
    ¬ (Sid.read buf).Answers sid := by
  intro ha
  rcases haw with ⟨r, hr, ho, rfl⟩ | ⟨p, hp, ho, rfl⟩
  · obtain ⟨i, hi⟩ := List.getElem?_of_mem hr
    exact call_after_ne hl ho ha (Option.some.inj ((hcalls i r hi ho rfl).symm.trans (hh.1 i r hi)))
  · obtain ⟨i, hi⟩ := List.getElem?_of_mem hp
    exact poll_after_ne hl ho ha (Option.some.inj ((hpolls i p hi ho rfl).symm.trans (hh.2 i p hi)))

theorem handles_call_iff (h : c.Regular) (hl : 4 ≤ buf.length) (hs : Sid.read buf ≠ .signal) {i₀ : Nat} {r₀ : Call}
    (hg : c.waitingSessionCb.get (Sid.read buf &&& Sid.mask) = some (.call i₀)) (hr₀ : c.calls[i₀]? = some r₀)
    (hsid : r₀.sid = Sid.read buf &&& Sid.mask) :
    Handles c (c.settle i₀ (.ok (Sid.read buf, buf.drop 4))) (.receive buf) ↔ c.Leads (Sid.read buf) := by
  constructor
  · intro hh
    refine ⟨fun sid haw ha => ⟨hs, fun herr => ?_⟩, fun _ => by rw [hg]; trivial⟩
    refine not_answers_of_handles hh hl haw (fun i r hr _ hrs => ?_) (fun i p hp _ _ => hp) ha
    have hne : i₀ ≠ i := fun he => by
      subst he
      obtain rfl := Option.some.inj (hr₀.symm.trans hr)
      exact Sid.not_isError_mask (Sid.read buf) (hsid ▸ hrs ▸ herr)
    rw [settle, List.getElem?_modify_ne _ _ hne, hr]
  · intro hlead
    refine ⟨fun i r hr => ?_, fun i p hp => ?_⟩
    · by_cases hi : i₀ = i
      · subst hi
        obtain rfl := Option.some.inj (hr₀.symm.trans hr)
        rw [settle, List.getElem?_modify_eq, hr, Call.after, if_pos ⟨hl, hsid ▸ Sid.answers_mask _⟩]
        rfl
      · rw [settle, List.getElem?_modify_ne _ _ hi, hr, call_after_same fun _ ho ha => hi ?_]
        exact Entry.call.inj (Option.some.inj (hg.symm.trans (hlead.call_get h hr ho ha).2))
    · rw [poll_after_same fun _ ho ha => ?_]
      · exact hp
      · have := Option.some.inj (hg.symm.trans (hlead.poll_get h hp ho ha).2)
        cases this

theorem handles_poll_iff (h : c.Regular) (hl : 4 ≤ buf.length) (hs : Sid.read buf ≠ .signal) {i₀ : Nat} {p₀ : Poll}
    (hg : c.waitingSessionCb.get (Sid.read buf &&& Sid.mask) = some (.poll i₀)) (hp₀ : c.polls[i₀]? = some p₀)
    (hsid : p₀.sid = Sid.read buf &&& Sid.mask) :
    Handles c (c.pollCb i₀ p₀ (Sid.read buf) (buf.drop 4)) (.receive buf) ↔ c.Leads (Sid.read buf) := by
  have hmask : ¬ p₀.sid.IsError := hsid ▸ Sid.not_isError_mask _
  have hans : (Sid.read buf).Answers p₀.sid := hsid ▸ Sid.answers_mask _
  constructor
  · intro hh
    refine ⟨fun sid haw ha => ⟨hs, fun herr => ?_⟩, fun _ => ?_⟩
    · refine not_answers_of_handles hh hl haw (fun i r hr _ _ => ?_) (fun i p hp _ hps => ?_) ha
      · rw [pollCb_calls, hr]
      · have hne : i₀ ≠ i := fun he => by
          subst he
          obtain rfl := Option.some.inj (hp₀.symm.trans hp)
          exact hmask (hps ▸ herr)
        rw [pollCb_polls, List.getElem?_modify_ne _ _ hne, hp]
    · rw [hg]
      refine ⟨p₀, hp₀, ?_⟩
      by_contra ho
      have hc := hh.2 i₀ p₀ hp₀
      rw [pollCb_polls, List.getElem?_modify_eq, hp₀, poll_after_same fun _ ho' _ => ho ho'] at hc
      exact Poll.give_ne p₀ _ (Option.some.inj hc)
  · intro hlead
    refine ⟨fun i r hr => ?_, fun i p hp => ?_⟩
    · rw [pollCb_calls, call_after_same fun _ ho ha => ?_]
      · exact hr
      · have := Option.some.inj (hg.symm.trans (hlead.call_get h hr ho ha).2)
        cases this
    · by_cases hi : i₀ = i
      · subst hi
        obtain rfl := Option.some.inj (hp₀.symm.trans hp)
        have ho : p₀.isOpen := by
          have hopen := hlead.2 hs
          rw [hg] at hopen
          obtain ⟨p, hp', ho⟩ := hopen
          obtain rfl := Option.some.inj (hp'.symm.trans hp)
          exact ho
        rw [pollCb_polls, List.getElem?_modify_eq, hp, poll_after_give hl ho hans, pollResult]
        by_cases he : (Sid.read buf).IsError
        · rw [if_pos he, if_pos ((hans.isError_iff hmask).mp he)]
          rfl
        · rw [if_neg he, if_neg fun hne => he ((hans.isError_iff hmask).mpr hne)]
          rfl
      · rw [pollCb_polls, List.getElem?_modify_ne _ _ hi, hp, poll_after_same fun _ ho ha => hi ?_]
        exact Entry.poll.inj (Option.some.inj (hg.symm.trans (hlead.poll_get h hp ho ha).2))

/-- A packet is handled exactly when it finds its way. -/
theorem handles_receive_iff (h : c.Regular) (buf : List UInt8) : Handles c (c.receive buf) (.receive buf) ↔
    if 4 ≤ buf.length then c.Leads (Sid.read buf) else ∀ e ∈ c.waitingSessionCb.values, ¬ c.Live e := by
  rcases packet_cases h buf with hst | ⟨hl, hs | ⟨hs, ⟨i, r, hg, hr, hsid⟩ | ⟨i, p, hg, hp, hsid⟩⟩⟩
  · rw [receive_strays hst, handles_strays_iff h]
    split
    · rename_i hl
      obtain ⟨hs, hg⟩ := hst.resolve_left (not_not.mpr hl)
      rw [Leads, hg]
      constructor
      · rintro ⟨hno, hquiet⟩
        exact ⟨fun sid haw ha => absurd ha (hno hl sid haw), fun _ => hquiet⟩
      · rintro ⟨hfits, hquiet⟩
        refine ⟨fun _ sid haw ha => ?_, hquiet hs⟩
        have hm := ha.mask (hfits sid haw ha).2
        rw [hm] at hg
        rcases haw with ⟨r, hr, ho, rfl⟩ | ⟨p, hp, ho, rfl⟩
        · obtain ⟨i, hi⟩ := List.getElem?_of_mem hr
          rw [h.get (h.call i r hi (Call.isOpen_iff.mp ho).1)] at hg
          cases hg
        · obtain ⟨i, hi⟩ := List.getElem?_of_mem hp
          rw [h.get (h.poll i p hi ho)] at hg
          cases hg
    · rename_i hl
      exact ⟨fun h => h.2, fun h => ⟨fun hl' => absurd hl' hl, h⟩⟩
  · rw [receive_signal hl hs, if_pos hl]
    constructor
    · intro hh
      exact ⟨fun sid haw ha => absurd ha (not_answers_of_handles hh hl haw (fun _ _ hr _ _ => hr) fun _ _ hp _ _ => hp),
        fun hne => absurd hs hne⟩
    · intro hlead
      refine ⟨fun i r hr => ?_, fun i p hp => ?_⟩
      · rw [call_after_same fun _ ho ha => (hlead.call_get h hr ho ha).1 hs]
        exact hr
      · rw [poll_after_same fun _ ho ha => (hlead.poll_get h hp ho ha).1 hs]
        exact hp
  · rw [receive_call hl hs hg, if_pos hl]
    exact handles_call_iff h hl hs hg hr hsid
  · rw [receive_poll hl hs hg hp, if_pos hl]
    exact handles_poll_iff h hl hs hg hp hsid

/-! ### The other steps -/

theorem callSent_eq {call : Nat} {ok : Bool} (hs : c.callSent call ok = some c') : ∃ r, c.calls[call]? = some r ∧
    r.outcome = none ∧ c' = { c with calls := c.calls.set call (r.after (.callSent call ok) call) } := by
  obtain ⟨r, hr, hs⟩ := Option.bind_eq_some_iff.mp hs
  split at hs
  · rename_i hg
    obtain rfl := Option.some.inj hs
    refine ⟨r, hr, by simp at hg; exact hg.2, ?_⟩
    simp only [Call.after, if_true]
  · cases hs

theorem resume_eq (h : c.Regular) {call : Nat} (hs : c.resume call = some c') : ∃ r, c.calls[call]? = some r ∧
    r.outcome = none ∧ (r.after (.resume call) call).outcome ≠ none ∧
    c'.calls = c.calls.set call (r.after (.resume call) call) ∧ c'.polls = c.polls ∧
    (c'.waitingSessionCb = c.waitingSessionCb ∨ c'.waitingSessionCb = c.waitingSessionCb.remove r.sid) := by
  obtain ⟨r, hr, hs⟩ := Option.bind_eq_some_iff.mp hs
  split at hs
  · rename_i hg
    have ho : r.outcome = none := by simp at hg; exact hg.2
    split at hs
    · cases hs
    · rename_i failure hf
      obtain rfl := Option.some.inj hs
      exact ⟨r, hr, ho, by simp [Call.after, hf], by simp [Call.after, hf, Call.result], rfl, .inl rfl⟩
    · rename_i sid2 result hf
      obtain rfl := Option.some.inj hs
      have hmask := h.answer r (List.mem_of_getElem? hr) ho sid2 result hf
      have hne : ¬ r.sid.IsError := hmask ▸ Sid.not_isError_mask sid2
      have hans : sid2.Answers r.sid := hmask ▸ Sid.answers_mask sid2
      have hres : Call.result (.ok (sid2, result)) =
          if r.sid ≠ sid2 then .error (.remote result) else .ok result := by
        rw [Call.result]
        by_cases he : sid2.IsError
        · rw [if_pos he, if_pos ((hans.isError_iff hne).mp he)]
        · rw [if_neg he, if_neg fun hn => he ((hans.isError_iff hne).mpr hn)]
      refine ⟨r, hr, ho, by simp [Call.after, hf], ?_, rfl, .inr ?_⟩
      · simp only [Call.after, if_true, hf, Option.map_some, hres]
      · simp only [Sid.and_mask hne]
  · cases hs

theorem demultiplexes_of_set {op : Op} {call : Nat} {r : Call} (hr : c.calls[call]? = some r)
    (hc : c'.calls = c.calls.set call (r.after op call)) (hp : c'.polls = c.polls)
    (hcalls : ∀ i r, i ≠ call → Call.after op i r = r) (hpolls : ∀ i p, Poll.after op i p = p) : Handles c c' op := by
  refine ⟨fun i r' hr' => ?_, fun i p hp' => by rw [hp, hpolls, hp']⟩
  by_cases hi : i = call
  · subst hi
    obtain rfl := Option.some.inj (hr.symm.trans hr')
    rw [hc, List.getElem?_set_self (List.getElem?_eq_some_iff.mp hr).1]
  · rw [hc, List.getElem?_set_ne (Ne.symm hi), hcalls i r' hi, hr']

theorem getElem?_append_some {α : Type} {l l' : List α} {i : Nat} {a : α} (h : l[i]? = some a) :
    (l ++ l')[i]? = some a := by rw [List.getElem?_append_left (List.getElem?_eq_some_iff.mp h).1, h]

theorem eq_of_getElem?_singleton {α : Type} {a b : α} {i : Nat} (h : [a][i]? = some b) : i = 0 ∧ a = b := by
  rw [List.getElem?_singleton] at h
  split at h
  · rename_i hi
    exact ⟨hi, Option.some.inj h⟩
  · cases h

theorem handles_fail_iff (h : c.Regular) : Handles c (c.stop .io) .fail ↔
    ∀ poll, .poll poll ∈ c.waitingSessionCb.values → c.PollOpen poll := by
  constructor
  · rintro ⟨-, hpolls⟩ i hm
    obtain ⟨⟨sid, e⟩, he, rfl⟩ := List.mem_map.mp hm
    obtain ⟨p, hp, -⟩ := Option.map_eq_some_iff.mp (h.owner _ he)
    refine ⟨p, hp, ?_⟩
    by_contra ho
    have hc := hpolls i p hp
    rw [stop_polls h, if_pos hm, hp, Poll.after, Poll.giveOpen, if_neg ho] at hc
    exact Poll.give_ne p _ (Option.some.inj hc)
  · intro hopen
    refine ⟨fun i r hr => ?_, fun i p hp => ?_⟩
    · rw [stop_calls, hr, Call.after]
      split
      · rfl
      · rename_i hm
        have hn : r.isOpen = false := by
          by_contra ho
          have hopen := Call.isOpen_iff.mp (by simpa using ho)
          exact hm (List.mem_map_of_mem (h.call i r hr hopen.1))
        rw [Call.settle_of_not_open hn]
    · rw [stop_polls h, hp, Poll.after, Poll.giveOpen]
      split
      · rename_i hm
        obtain ⟨p', hp', ho⟩ := hopen i hm
        obtain rfl := Option.some.inj (hp.symm.trans hp')
        rw [if_pos ho]
        rfl
      · rename_i hm
        rw [if_neg fun ho => hm (List.mem_map_of_mem (h.poll i p hp ho))]

theorem demultiplexes_iff (h : c.Regular) (op : Op) : c.Demultiplexes op ↔ c.Orderly op := by
  have hsame : ∀ c' : Client, (∀ i r, c.calls[i]? = some r → c'.calls[i]? = some r) →
      (∀ i p, c.polls[i]? = some p → c'.polls[i]? = some p) → (∀ i r, Call.after op i r = r) →
      (∀ i p, Poll.after op i p = p) → c.step op = some c' → c.Demultiplexes op :=
    fun c' hc hp hca hpa hs c'' hs' => by
      obtain rfl := Option.some.inj (hs.symm.trans hs')
      exact ⟨fun i r hr => by rw [hca]; exact hc i r hr, fun i p hp' => by rw [hpa]; exact hp i p hp'⟩
  cases op with
  | run =>
    refine iff_of_true (hsame _ ?_ ?_ (fun _ _ => rfl) (fun _ _ => rfl) rfl) trivial
    · intro i r hr
      rw [run]
      split <;> exact hr
    · intro i p hp
      rw [run]
      split <;> exact hp
  | call callableIndex parameter sid =>
    refine iff_of_true (hsame _ ?_ ?_ (fun _ _ => rfl) (fun _ _ => rfl) rfl) trivial
    · intro i r hr
      rw [Client.call]
      by_cases hs : sid ≠ .signal
      · simp only [if_pos hs]
        exact getElem?_append_some hr
      · simp only [if_neg hs]
        exact hr
    · intro i p hp
      rw [Client.call]
      by_cases hs : sid ≠ .signal
      · simp only [if_pos hs]
        exact hp
      · simp only [if_neg hs]
        exact hp
  | poll callableIndex parameter sid =>
    exact iff_of_true (hsame (c.poll callableIndex parameter sid) (fun _ _ hr => hr)
      (fun _ _ hp => getElem?_append_some hp) (fun _ _ => rfl) (fun _ _ => rfl) rfl) trivial
  | close sid =>
    exact iff_of_true (hsame (c.close sid) (fun _ _ hr => hr) (fun _ _ hp => hp) (fun _ _ => rfl) (fun _ _ => rfl) rfl)
      trivial
  | callSent call ok =>
    refine iff_of_true (fun c' hs => ?_) trivial
    obtain ⟨r, hr, -, rfl⟩ := callSent_eq hs
    exact demultiplexes_of_set hr rfl rfl (fun i r hi => if_neg (Ne.symm hi)) fun _ _ => rfl
  | resume call =>
    refine iff_of_true (fun c' hs => ?_) trivial
    obtain ⟨r, hr, -, -, hc, hp, -⟩ := resume_eq h hs
    exact demultiplexes_of_set hr hc hp (fun i r hi => if_neg (Ne.symm hi)) fun _ _ => rfl
  | pollFails poll =>
    constructor
    · intro hd p hp
      by_contra ho
      have hc := (hd _ rfl).2 poll p hp
      rw [pollFails, onResult, List.getElem?_modify_eq, hp, Poll.after, if_pos rfl, Poll.giveOpen, if_neg ho] at hc
      exact Poll.give_ne p _ (Option.some.inj hc)
    · intro ho c' hs
      obtain rfl := Option.some.inj hs
      refine ⟨fun i r hr => hr, fun i p hp => ?_⟩
      rw [Poll.after, pollFails, onResult]
      by_cases hi : poll = i
      · subst hi
        rw [List.getElem?_modify_eq, hp, if_pos rfl, Poll.giveOpen, if_pos (ho p hp)]
        rfl
      · rw [List.getElem?_modify_ne _ _ hi, if_neg hi, hp]
  | receive buf =>
    by_cases hr : c.receiving
    · refine Iff.trans ?_ ((handles_receive_iff h buf).trans (by simp [Orderly, hr]))
      simp only [Demultiplexes, step, hr, if_true, Option.some.injEq, forall_eq']
      exact Iff.rfl
    · exact iff_of_true (fun c' hs => by simp [step, hr] at hs) fun hr' => absurd hr' hr
  | fail =>
    by_cases hr : c.receiving
    · refine Iff.trans ?_ ((handles_fail_iff h).trans (by simp [Orderly, hr]))
      simp only [Demultiplexes, step, hr, if_true, Option.some.injEq, forall_eq']
      exact Iff.rfl
    · exact iff_of_true (fun c' hs => by simp [step, hr] at hs) fun hr' => absurd hr' hr

/-! ### The table after a step -/

namespace Regular

/-- Calls and polls go on as they were or end, and the entries of those that go on remain. -/
theorem update (h : c.Regular) (fc : Nat → Call → Call) (fp : Nat → Poll → Poll)
    (hc : ∀ i, c'.calls[i]? = c.calls[i]?.map (fc i)) (hp : ∀ i, c'.polls[i]? = c.polls[i]?.map (fp i))
    (hsub : c'.waitingSessionCb.Sublist c.waitingSessionCb)
    (hcalls : ∀ i r, c.calls[i]? = some r → (fc i r).sid = r.sid ∧ ((fc i r).outcome = none →
      r.outcome = none ∧ (r.sid, .call i) ∈ c'.waitingSessionCb ∧ ∀ sid result,
        (fc i r).respFut = some (.ok (sid, result)) → r.respFut = some (.ok (sid, result)) ∨ sid &&& Sid.mask = r.sid))
    (hpolls : ∀ i p, c.polls[i]? = some p → (fp i p).sid = p.sid ∧
      ((fp i p).isOpen → p.isOpen ∧ (p.sid, .poll i) ∈ c'.waitingSessionCb)) : c'.Regular := by
  refine ⟨(hsub.map Prod.fst).nodup h.keys, fun e he => ?_, fun i r' hr' ho => ?_, fun i p' hp' ho => ?_,
    fun r' hr' ho sid result hresp => ?_⟩
  · have hown := h.owner e (hsub.subset he)
    cases hk : e.2 with
    | call i =>
      rw [hk] at hown
      obtain ⟨r, hr, hsid⟩ := Option.map_eq_some_iff.mp hown
      rw [sidOf, hc, hr, ← hsid, ← (hcalls i r hr).1]
      rfl
    | poll i =>
      rw [hk] at hown
      obtain ⟨p, hpi, hsid⟩ := Option.map_eq_some_iff.mp hown
      rw [sidOf, hp, hpi, ← hsid, ← (hpolls i p hpi).1]
      rfl
  · rw [hc] at hr'
    obtain ⟨r, hr, rfl⟩ := Option.map_eq_some_iff.mp hr'
    rw [(hcalls i r hr).1]
    exact ((hcalls i r hr).2 ho).2.1
  · rw [hp] at hp'
    obtain ⟨p, hpi, rfl⟩ := Option.map_eq_some_iff.mp hp'
    rw [(hpolls i p hpi).1]
    exact ((hpolls i p hpi).2 ho).2
  · obtain ⟨i, hi⟩ := List.getElem?_of_mem hr'
    rw [hc] at hi
    obtain ⟨r, hr, rfl⟩ := Option.map_eq_some_iff.mp hi
    obtain ⟨hro, -, hold⟩ := (hcalls i r hr).2 ho
    rw [(hcalls i r hr).1]
    rcases hold sid result hresp with hresp | hmask
    · exact h.answer r (List.mem_of_getElem? hr) hro sid result hresp
    · exact hmask

/-- The table is left alone. -/
theorem sameTable (h : c.Regular) (fc : Nat → Call → Call) (fp : Nat → Poll → Poll)
    (hc : ∀ i, c'.calls[i]? = c.calls[i]?.map (fc i)) (hp : ∀ i, c'.polls[i]? = c.polls[i]?.map (fp i))
    (ht : c'.waitingSessionCb = c.waitingSessionCb)
    (hcalls : ∀ i r, c.calls[i]? = some r → (fc i r).sid = r.sid ∧ ((fc i r).outcome = none → r.outcome = none ∧
      ∀ sid result, (fc i r).respFut = some (.ok (sid, result)) →
        r.respFut = some (.ok (sid, result)) ∨ sid &&& Sid.mask = r.sid))
    (hpolls : ∀ i p, c.polls[i]? = some p → (fp i p).sid = p.sid ∧ ((fp i p).isOpen → p.isOpen)) : c'.Regular := by
  refine h.update fc fp hc hp (by rw [ht]) (fun i r hr => ⟨(hcalls i r hr).1, fun ho => ?_⟩)
    (fun i p hpi => ⟨(hpolls i p hpi).1, fun ho => ?_⟩)
  · obtain ⟨hro, hresp⟩ := (hcalls i r hr).2 ho
    exact ⟨hro, ht ▸ h.call i r hr hro, hresp⟩
  · have hpo := (hpolls i p hpi).2 ho
    exact ⟨hpo, ht ▸ h.poll i p hpi hpo⟩

theorem settle_respFut (r : Call) (answer : Except Failure (Sid × List UInt8)) {sid : Sid} {result : List UInt8}
    (h : (r.settle answer).respFut = some (.ok (sid, result))) :
    r.respFut = some (.ok (sid, result)) ∨ answer = .ok (sid, result) := by
  rw [Call.settle] at h
  split at h
  · exact .inr (Option.some.inj h)
  · exact .inl h

theorem give_isOpen {p : Poll} {result : Except Failure (List UInt8)} (h : (p.give result).isOpen) :
    p.isOpen ∧ result.isOk := by
  simpa [Poll.give, Poll.isOpen] using h

theorem stop (h : c.Regular) (failure : Failure) : (c.stop failure).Regular := by
  refine h.sameTable
    (fun i r => if .call i ∈ c.waitingSessionCb.values then r.settle (.error failure) else r)
    (fun i p => if .poll i ∈ c.waitingSessionCb.values then p.give (.error failure) else p) (fun i => ?_) (fun i => ?_)
    (callAll_frame failure _ c).1 (fun i r _ => ?_) (fun i p _ => ?_)
  · rw [stop_calls]
    split <;> simp
  · rw [stop_polls h]
    split <;> simp
  · split
    · refine ⟨by simp, fun ho => ⟨by simpa using ho, fun sid result hresp => ?_⟩⟩
      rcases settle_respFut r _ hresp with hr | hr
      · exact .inl hr
      · cases hr
    · exact ⟨rfl, fun ho => ⟨ho, fun sid result hr => .inl hr⟩⟩
  · split
    · exact ⟨rfl, fun ho => (give_isOpen ho).1⟩
    · exact ⟨rfl, id⟩

theorem settle (h : c.Regular) {i : Nat} {r : Call} (hr : c.calls[i]? = some r) {sid : Sid} {result : List UInt8}
    (hsid : r.sid = sid &&& Sid.mask) : (c.settle i (.ok (sid, result))).Regular := by
  refine h.sameTable (fun j r => if i = j then r.settle (.ok (sid, result)) else r) (fun _ p => p) (fun j => ?_)
    (fun j => by simp [Client.settle]) rfl (fun j r' hr' => ?_) (fun _ _ _ => ⟨rfl, id⟩)
  · rw [Client.settle, List.getElem?_modify]
    split <;> simp
  · split
    · rename_i hi
      subst hi
      obtain rfl := Option.some.inj (hr.symm.trans hr')
      refine ⟨by simp, fun ho => ⟨by simpa using ho, fun sid' result' hresp => ?_⟩⟩
      rcases settle_respFut r _ hresp with hr | hr
      · exact .inl hr
      · obtain ⟨rfl, -⟩ := Prod.mk.inj (Except.ok.inj hr)
        exact .inr hsid.symm
    · exact ⟨rfl, fun ho => ⟨ho, fun _ _ hr => .inl hr⟩⟩

/-- The polls after one of them has been given a result. -/
theorem give_polls (i : Nat) (result : Except Failure (List UInt8)) (j : Nat) :
    (c.polls.modify i fun p => p.give result)[j]? =
      c.polls[j]?.map fun p => if i = j then p.give result else p := by
  rw [List.getElem?_modify]
  split <;> simp

theorem onResult (h : c.Regular) (i : Nat) (result : Except Failure (List UInt8)) : (c.onResult i result).Regular := by
  refine h.sameTable (fun _ r => r) (fun j p => if i = j then p.give result else p) (fun j => by simp [Client.onResult])
    (give_polls i result) rfl (fun _ _ _ => ⟨rfl, fun ho => ⟨ho, fun _ _ hr => .inl hr⟩⟩) (fun j p _ => ?_)
  split
  · exact ⟨rfl, fun ho => (give_isOpen ho).1⟩
  · exact ⟨rfl, id⟩

theorem mem_remove {sid : Sid} {e e' : Entry} {sid' : Sid} (h : c.Regular) (he : (sid, e) ∈ c.waitingSessionCb)
    (he' : (sid', e') ∈ c.waitingSessionCb) (hne : e' ≠ e) : (sid', e') ∈ c.waitingSessionCb.remove sid :=
  Table.mem_remove.mpr ⟨he', fun hs => hne (by subst hs; exact h.entry_eq he' he)⟩

theorem pollCb (h : c.Regular) {i : Nat} {p : Poll} {sid : Sid} {result : List UInt8}
    (hsid : p.sid = sid &&& Sid.mask) (hg : c.waitingSessionCb.get (sid &&& Sid.mask) = some (.poll i)) :
    (c.pollCb i p sid result).Regular := by
  rw [Client.pollCb]
  split
  · have hmask : p.sid &&& Sid.mask = p.sid := Sid.and_mask (hsid ▸ Sid.not_isError_mask _)
    have hmem : (p.sid, Entry.poll i) ∈ c.waitingSessionCb := hsid ▸ Table.mem_of_get hg
    rw [hmask]
    refine h.update (fun _ r => r) (fun j p => if i = j then p.give (.error (.remote result)) else p)
      (fun j => by simp [Client.onResult]) (give_polls i (.error (.remote result))) List.filter_sublist
      (fun j r hr => ⟨rfl, fun ho => ⟨ho, h.mem_remove hmem (h.call j r hr ho) (by simp), fun _ _ hr => .inl hr⟩⟩)
      (fun j p' hp' => ?_)
    split
    · exact ⟨rfl, fun ho => absurd (give_isOpen ho).2 Bool.false_ne_true⟩
    · rename_i hi
      exact ⟨rfl, fun ho => ⟨ho, h.mem_remove hmem (h.poll j p' hp' ho) fun he => hi (Entry.poll.inj he).symm⟩⟩
  · exact h.onResult i _

theorem loop (h : c.Regular) : c.loop.Regular := ⟨h.keys, h.owner, h.call, h.poll, h.answer⟩

theorem receive (h : c.Regular) (buf : List UInt8) : (c.receive buf).Regular := by
  rcases packet_cases h buf with hst | ⟨hl, hs | ⟨hs, ⟨i, r, hg, hr, hsid⟩ | ⟨i, p, hg, hp, hsid⟩⟩⟩
  · rw [receive_strays hst]
    exact h.stop _
  · rw [receive_signal hl hs]
    exact h.loop
  · rw [receive_call hl hs hg]
    exact (h.settle hr hsid).loop
  · rw [receive_poll hl hs hg hp]
    exact (h.pollCb hsid hg).loop

/-- A new request. -/
theorem add (h : c.Regular) {sid : Sid} {entry : Entry} (ht : c'.waitingSessionCb = c.waitingSessionCb.put sid entry)
    (hfresh : (∀ r ∈ c.calls, r.outcome = none → r.sid ≠ sid) ∧ ∀ p ∈ c.polls, p.isOpen → p.sid ≠ sid)
    (hown : ∀ e k, c.sidOf e = some k → c'.sidOf e = some k) (hnew : c'.sidOf entry = some sid)
    (hcall : ∀ i r, c'.calls[i]? = some r → r.outcome = none →
      c.calls[i]? = some r ∨ (r.sid, .call i) = (sid, entry) ∧ r.respFut = none)
    (hpoll : ∀ i p, c'.polls[i]? = some p → p.isOpen → c.polls[i]? = some p ∨ (p.sid, .poll i) = (sid, entry)) :
    c'.Regular := by
  have hkeep : ∀ {k : Sid} {e : Entry}, (k, e) ∈ c.waitingSessionCb → k ≠ sid → (k, e) ∈ c'.waitingSessionCb :=
    fun he hne => ht ▸ Table.mem_put_of_ne he hne
  refine ⟨ht ▸ Table.nodup_put h.keys, fun e he => ?_, fun i r hr ho => ?_, fun i p hp ho => ?_,
    fun r hr ho sid' result hresp => ?_⟩
  · rw [ht] at he
    rcases Table.mem_put he with rfl | he
    · exact hnew
    · exact hown _ _ (h.owner e he)
  · rcases hcall i r hr ho with hr | ⟨heq, -⟩
    · exact hkeep (h.call i r hr ho) (hfresh.1 r (List.mem_of_getElem? hr) ho)
    · rw [heq, ht]
      exact Table.mem_put_self
  · rcases hpoll i p hp ho with hp | heq
    · exact hkeep (h.poll i p hp ho) (hfresh.2 p (List.mem_of_getElem? hp) ho)
    · rw [heq, ht]
      exact Table.mem_put_self
  · obtain ⟨i, hi⟩ := List.getElem?_of_mem hr
    rcases hcall i r hi ho with hr | ⟨-, hnone⟩
    · exact h.answer r (List.mem_of_getElem? hr) ho sid' result hresp
    · rw [hnone] at hresp
      cases hresp

theorem call_step (h : c.Regular) (callableIndex : BitVec 32) (parameter : List UInt8) {sid : Sid}
    (hf : c.FreshSid (.call callableIndex parameter sid)) : (c.call callableIndex parameter sid).Regular := by
  rw [Client.call]
  by_cases hs : sid ≠ .signal
  · rw [if_pos hs]
    refine h.add rfl (hf hs) (fun e k he => ?_) (by simp [sidOf]) (fun i r hr _ => ?_) (fun i p hp _ => .inl hp)
    · cases e with
      | poll poll => exact he
      | call i =>
        obtain ⟨r, hr, rfl⟩ := Option.map_eq_some_iff.mp he
        rw [sidOf, getElem?_append_some hr]
        rfl
    · dsimp only at hr
      rw [List.getElem?_append] at hr
      split at hr
      · exact .inl hr
      · rename_i hlt
        obtain ⟨hi, rfl⟩ := eq_of_getElem?_singleton hr
        obtain rfl : i = c.calls.length := by omega
        exact .inr ⟨rfl, rfl⟩
  · rw [if_neg hs]
    exact ⟨h.keys, h.owner, h.call, h.poll, h.answer⟩

theorem poll_step (h : c.Regular) (callableIndex : BitVec 32) (parameter : List UInt8) {sid : Sid}
    (hf : c.FreshSid (.poll callableIndex parameter sid)) : (c.poll callableIndex parameter sid).Regular := by
  refine h.add rfl hf (fun e k he => ?_) (by simp [sidOf, Client.poll]) (fun i r hr _ => .inl hr) (fun i p hp _ => ?_)
  · cases e with
    | call call => exact he
    | poll i =>
      obtain ⟨p, hp, rfl⟩ := Option.map_eq_some_iff.mp he
      rw [sidOf, Client.poll, getElem?_append_some hp]
      rfl
  · rw [Client.poll, List.getElem?_append] at hp
    split at hp
    · exact .inl hp
    · rename_i hlt
      obtain ⟨hi, rfl⟩ := eq_of_getElem?_singleton hp
      obtain rfl : i = c.polls.length := by omega
      exact .inr rfl

/-- A call that goes on or ends. -/
theorem setCall (h : c.Regular) {call : Nat} {r r' : Call} (hr : c.calls[call]? = some r) (hsid : r'.sid = r.sid)
    (ho : r.outcome = none) (hresp : r'.respFut = r.respFut) (hc : c'.calls = c.calls.set call r')
    (hp : c'.polls = c.polls) (ht : c'.waitingSessionCb = c.waitingSessionCb ∨
      r'.outcome ≠ none ∧ c'.waitingSessionCb = c.waitingSessionCb.remove r.sid) : c'.Regular := by
  have hmem := h.call call r hr ho
  have hkeep : ∀ {k : Sid} {e : Entry}, (k, e) ∈ c.waitingSessionCb → (e = .call call → r'.outcome = none) →
      (k, e) ∈ c'.waitingSessionCb := fun he hne => by
    rcases ht with ht | ⟨hend, ht⟩
    · exact ht ▸ he
    · exact ht ▸ h.mem_remove hmem he fun heq => hend (hne heq)
  refine h.update (fun i x => if call = i then r' else x) (fun _ p => p) (fun i => ?_) (fun i => by simp [hp]) ?_
    (fun i x hx => ?_) (fun i p hpi => ⟨rfl, fun ho => ⟨ho, hkeep (h.poll i p hpi ho) (by simp)⟩⟩)
  · rw [hc, List.getElem?_set]
    by_cases hi : call = i
    · subst hi
      simp [(List.getElem?_eq_some_iff.mp hr).1]
    · simp [hi]
  · rcases ht with ht | ⟨-, ht⟩
    · rw [ht]
    · rw [ht]
      exact List.filter_sublist
  · split
    · rename_i hi
      subst hi
      obtain rfl := Option.some.inj (hr.symm.trans hx)
      exact ⟨hsid, fun ho' => ⟨ho, hkeep hmem fun _ => ho', fun _ _ hx => .inl (hresp ▸ hx)⟩⟩
    · rename_i hi
      exact ⟨rfl, fun ho' => ⟨ho', hkeep (h.call i x hx ho') fun he => absurd (Entry.call.inj he).symm hi,
        fun _ _ hx => .inl hx⟩⟩

theorem step (h : c.Regular) {op : Op} (hf : c.FreshSid op) (hs : c.step op = some c') : c'.Regular := by
  cases op with
  | run =>
    obtain rfl := Option.some.inj hs
    rw [run]
    split
    · exact h
    · exact ⟨h.keys, h.owner, h.call, h.poll, h.answer⟩
  | call callableIndex parameter sid =>
    obtain rfl := Option.some.inj hs
    exact h.call_step callableIndex parameter hf
  | poll callableIndex parameter sid =>
    obtain rfl := Option.some.inj hs
    exact h.poll_step callableIndex parameter hf
  | close sid =>
    obtain rfl := Option.some.inj hs
    exact ⟨h.keys, h.owner, h.call, h.poll, h.answer⟩
  | callSent call ok =>
    obtain ⟨r, hr, ho, rfl⟩ := callSent_eq hs
    refine h.setCall hr ?_ ho ?_ rfl rfl (.inl rfl) <;> cases ok <;> simp [Call.after]
  | resume call =>
    obtain ⟨r, hr, ho, hend, hc, hp, ht⟩ := resume_eq h hs
    exact h.setCall hr (by simp [Call.after]) ho (by simp [Call.after]) hc hp (ht.imp_right fun ht => ⟨hend, ht⟩)
  | pollFails poll =>
    obtain rfl := Option.some.inj hs
    exact h.onResult poll _
  | receive buf =>
    rw [Client.step] at hs
    split at hs
    · obtain rfl := Option.some.inj hs
      exact h.receive buf
    · cases hs
  | fail =>
    rw [Client.step] at hs
    split at hs
    · obtain rfl := Option.some.inj hs
      exact h.stop _
    · cases hs

end Regular

/-- In every run, every step does to the calls and polls what it should exactly when packets
find their way and no failure is handed to a poll that has ended. -/
theorem run_demultiplexes_iff (ops : List Op) (hf : Along step FreshSid .init ops) :
    Along step Demultiplexes .init ops ↔ Along step Orderly .init ops :=
  along_iff (fun _ _ _ h hf _ hs => Regular.step h hf hs) (fun _ op h _ => demultiplexes_iff h op) Regular.init hf

/-- The connection is lost while a call waits. -/
theorem lostCall_demultiplexes : Along step Demultiplexes .init [.run, .call 0 [] 1, .fail] :=
  (run_demultiplexes_iff _ (by simp [Along, FreshSid, step, run, init])).mpr (by
    simp [Along, Orderly, step, run, init, Client.call, Sid.signal, Table.put, Table.keys, Table.values])

/-- A poll is told of both failures when the connection is lost while its request is being sent. -/
theorem lostPoll_toldTwice : ¬ Along step Demultiplexes .init [.run, .poll 0 [] 1, .fail, .pollFails 0] := by
  intro h
  have hlast := ((((h.2 _ rfl).2 _ rfl).2 _ rfl).1 _ rfl).2 0 _ rfl
  exact absurd hlast (by decide)

end Client

end PxpRpc.TypeScript
