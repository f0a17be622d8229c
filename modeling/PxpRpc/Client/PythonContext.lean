import PxpRpc.Client.Session
import PxpRpc.Lib.Run
import PxpRpc.Lib.Table

/-!
# The Python client

One table holds the futures of calls and the callbacks of polls. An exception in
the receive loop is handed to the values of the table, in the order of the
table, by a method that only futures have.
-/
namespace PxpRpc.Client.Python

open PxpRpc.Lib

inductive Future where
  | pending
  | result (sid : Sid) (result : List UInt8)
  | exception
  | cancelled
deriving DecidableEq

/-- Where the coroutine of a call is: in `io1.send`, at its future, or at its end. -/
inductive Phase where
  | sending
  | waiting
  | over
deriving DecidableEq

structure Call where
  sid : Sid
  phase : Phase
  respFut : Future
deriving DecidableEq

/-- A poll, and what `onResult` has been given. -/
structure Poll where
  sid : Sid
  raised : Bool
  given : List (Except (List UInt8) (List UInt8))

/-- A value of the table: the future of a call or the callback of a poll. -/
inductive Entry where
  | respFut (call : Nat)
  | respCb (poll : Nat)
deriving DecidableEq

/-- A client whose loop has been started. `receiving` says that the loop waits for a frame. -/
structure ClientContext where
  running : Bool
  receiving : Bool
  waitingSession : Table Sid Entry
  calls : List Call
  polls : List Poll
  sent : List (List UInt8)

namespace ClientContext

def init : ClientContext := ⟨true, true, [], [], [], []⟩

def setFuture (c : ClientContext) (call : Nat) (respFut : Future) : ClientContext :=
  { c with calls := c.calls.modify call fun r => { r with respFut } }

def setPhase (c : ClientContext) (call : Nat) (phase : Phase) : ClientContext :=
  { c with calls := c.calls.modify call fun r => { r with phase } }

def onResult (c : ClientContext) (poll : Nat) (result : Except (List UInt8) (List UInt8)) : ClientContext :=
  { c with polls := c.polls.modify poll fun p => { p with given := p.given ++ [result] } }

/-- `fut.done()` is false. -/
def pending (c : ClientContext) : Entry → Bool
  | .respFut call => c.calls[call]?.any fun r => r.respFut = .pending
  | .respCb _ => false

/-- `waiting.set_exception(exc)`, which raises an exception of its own at a future that is
done and at a callback. -/
def setException (c : ClientContext) : Entry → Option ClientContext
  | .respFut call => if c.pending (.respFut call) then some (c.setFuture call .exception) else none
  | .respCb _ => none

/-- The loop of the exception handler, which an exception ends. -/
def setExceptions (c : ClientContext) : List Entry → ClientContext
  | [] => c
  | waiting :: rest =>
    match c.setException waiting with
    | some c' => c'.setExceptions rest
    | none => c

/-- The exception handler of `run`. -/
def except (c : ClientContext) : ClientContext :=
  { c.setExceptions c.waitingSession.values with running := false, receiving := false }

def validUtf8 (bytes : List UInt8) : Bool := (ByteArray.mk bytes.toArray).validateUTF8

/-- The callback of a poll, `none` when decoding the message fails. -/
def respCb (c : ClientContext) (poll : Nat) (p : Poll) (sid2 : Sid) (result : List UInt8) : Option ClientContext :=
  if p.sid = sid2 then
    some ({ c with waitingSession := c.waitingSession.put p.sid (.respCb poll) }.onResult poll (.ok result))
  else if validUtf8 result then some (c.onResult poll (.error result)) else none

/-- What the loop does with a frame, `none` when an exception is raised after the
first state. -/
def process (c : ClientContext) (pack : List UInt8) : ClientContext × Option ClientContext :=
  if 4 ≤ pack.length then
    let sid := Sid.read pack
    if sid ≠ .signal then
      match c.waitingSession.get (sid &&& Sid.mask) with
      | none => (c, none)
      | some entry =>
        let c := { c with waitingSession := c.waitingSession.remove (sid &&& Sid.mask) }
        match entry with
        | .respFut call =>
          (c, some (if c.pending (.respFut call) then c.setFuture call (.result sid (pack.drop 4)) else c))
        | .respCb poll =>
          match c.polls[poll]? with
          | some p => (c, c.respCb poll p sid (pack.drop 4))
          | none => (c, none)
    else (c, some c)
  else (c, none)

def receive (c : ClientContext) (pack : List UInt8) : ClientContext :=
  match c.process pack with
  | (_, some c) => { c with receiving := c.running }
  | (c, none) => c.except

def call (c : ClientContext) (callableIndex : BitVec 32) (parameter : List UInt8) (sid : Sid) : ClientContext :=
  let c := if sid ≠ .signal then
    { c with
      waitingSession := c.waitingSession.put sid (.respFut c.calls.length)
      calls := c.calls ++ [⟨sid, .sending, .pending⟩] }
    else c
  { c with sent := c.sent ++ [leBytes 4 sid.toNat ++ leBytes 4 callableIndex.toNat ++ parameter] }

def poll (c : ClientContext) (callableIndex : BitVec 32) (parameter : List UInt8) (sid : Sid) : ClientContext :=
  { c with
    waitingSession := c.waitingSession.put sid (.respCb c.polls.length)
    polls := c.polls ++ [⟨sid, false, []⟩]
    sent := c.sent ++
      [leBytes 4 sid.toNat ++ leBytes 4 (-5 : BitVec 32).toNat ++ leBytes 4 callableIndex.toNat ++ parameter] }

def close (c : ClientContext) (sid : Sid) : ClientContext :=
  { c with running := false, sent := c.sent ++ [leBytes 4 sid.toNat ++ leBytes 4 (-3 : BitVec 32).toNat] }

/-- `io1.send` returns to a call or raises. -/
def callSent (c : ClientContext) (call : Nat) (ok : Bool) : Option ClientContext :=
  if ∃ r ∈ c.calls[call]?, r.phase = .sending then some (c.setPhase call (if ok then .waiting else .over)) else none

/-- `io1.send` raises in a poll. -/
def pollRaises (c : ClientContext) (poll : Nat) : ClientContext :=
  { c with polls := c.polls.modify poll fun p => { p with raised := true } }

/-- The task of a call is cancelled, and with it the future if the call waits for it. -/
def cancel (c : ClientContext) (call : Nat) : ClientContext :=
  let c' := if (∃ r ∈ c.calls[call]?, r.phase = .waiting) ∧ c.pending (.respFut call) then c.setFuture call .cancelled
    else c
  c'.setPhase call .over

end ClientContext

/-! ### Runs -/

inductive Op where
  | call (callableIndex : BitVec 32) (parameter : List UInt8) (sid : Sid)
  | poll (callableIndex : BitVec 32) (parameter : List UInt8) (sid : Sid)
  | close (sid : Sid)
  | callSent (call : Nat) (ok : Bool)
  | pollRaises (poll : Nat)
  | cancel (call : Nat)
  | receive (pack : List UInt8)
  | fail

namespace ClientContext

def step (c : ClientContext) : Op → Option ClientContext
  | .call callableIndex parameter sid => some (c.call callableIndex parameter sid)
  | .poll callableIndex parameter sid => some (c.poll callableIndex parameter sid)
  | .close sid => some (c.close sid)
  | .callSent call ok => c.callSent call ok
  | .pollRaises poll => some (c.pollRaises poll)
  | .cancel call => some (c.cancel call)
  | .receive pack => if c.receiving then some (c.receive pack) else none
  | .fail => if c.receiving then some c.except else none

/-- The owner's sid. -/
def sidOf (c : ClientContext) : Entry → Option Sid
  | .respFut call => c.calls[call]?.map Call.sid
  | .respCb poll => c.polls[poll]?.map Poll.sid

/-- Every entry is under the sid of its call or poll. -/
structure Regular (c : ClientContext) : Prop where
  keys : c.waitingSession.keys.Nodup
  owner : ∀ e ∈ c.waitingSession, c.sidOf e.2 = some e.1

namespace Regular

variable {c c' : ClientContext}

theorem init : Regular .init := ⟨List.nodup_nil, fun e he => by simp [ClientContext.init] at he⟩

/-- Different sids have different values. -/
theorem values (h : Regular c) : c.waitingSession.values.Nodup := by
  refine List.Nodup.map_on (fun e he e' he' hv => ?_) (List.Nodup.of_map _ h.keys)
  have hk : some e.1 = some e'.1 := by rw [← h.owner e he, ← h.owner e' he', hv]
  exact Prod.ext (Option.some.inj hk) hv

/-- Nothing is added to the table and no sid changes. -/
theorem mono (h : Regular c) (hsub : c'.waitingSession.Sublist c.waitingSession)
    (hsid : ∀ e sid, c.sidOf e = some sid → c'.sidOf e = some sid) : Regular c' :=
  ⟨(hsub.map Prod.fst).nodup h.keys, fun e he => hsid _ _ (h.owner e (hsub.subset he))⟩

/-- An entry is put under its own sid. -/
theorem put (h : Regular c) {sid : Sid} {entry : Entry} (ht : c'.waitingSession = c.waitingSession.put sid entry)
    (hsid : ∀ e sid, c.sidOf e = some sid → c'.sidOf e = some sid) (hown : c'.sidOf entry = some sid) : Regular c' := by
  refine ⟨ht ▸ Table.nodup_put h.keys, fun e he => ?_⟩
  rw [ht] at he
  rcases Table.mem_put he with rfl | he
  · exact hown
  · exact hsid _ _ (h.owner e he)

theorem setFuture (h : Regular c) (call : Nat) (respFut : Future) : Regular (c.setFuture call respFut) := by
  refine h.mono (.refl _) fun e sid he => ?_
  cases e with
  | respCb poll => exact he
  | respFut i =>
    simp only [sidOf, ClientContext.setFuture, List.getElem?_modify, Option.map_eq_some_iff] at he ⊢
    obtain ⟨r, hr, rfl⟩ := he
    rw [hr]
    split <;> exact ⟨_, rfl, rfl⟩

theorem setPhase (h : Regular c) (call : Nat) (phase : Phase) : Regular (c.setPhase call phase) := by
  refine h.mono (.refl _) fun e sid he => ?_
  cases e with
  | respCb poll => exact he
  | respFut i =>
    simp only [sidOf, ClientContext.setPhase, List.getElem?_modify, Option.map_eq_some_iff] at he ⊢
    obtain ⟨r, hr, rfl⟩ := he
    rw [hr]
    split <;> exact ⟨_, rfl, rfl⟩

theorem modifyPoll (h : Regular c) (poll : Nat) {f : Poll → Poll} (hf : ∀ p, (f p).sid = p.sid) :
    Regular { c with polls := c.polls.modify poll f } := by
  refine h.mono (.refl _) fun e sid he => ?_
  cases e with
  | respFut call => exact he
  | respCb i =>
    simp only [sidOf, List.getElem?_modify, Option.map_eq_some_iff] at he ⊢
    obtain ⟨p, hp, rfl⟩ := he
    rw [hp]
    split
    · exact ⟨_, rfl, hf p⟩
    · exact ⟨_, rfl, rfl⟩

theorem setExceptions {ws : List Entry} : ∀ {c : ClientContext}, Regular c → Regular (c.setExceptions ws) := by
  induction ws with
  | nil => exact fun h => h
  | cons w ws ih =>
    intro c h
    rw [ClientContext.setExceptions]
    split
    · rename_i c' hc
      cases w with
      | respCb poll => cases hc
      | respFut call =>
        rw [setException] at hc
        split at hc
        · obtain rfl := Option.some.inj hc
          exact ih (h.setFuture call .exception)
        · cases hc
    · exact h

theorem except (h : Regular c) : Regular c.except :=
  have he := @Regular.setExceptions c.waitingSession.values _ h
  ⟨he.keys, he.owner⟩

theorem remove (h : Regular c) (sid : Sid) : Regular { c with waitingSession := c.waitingSession.remove sid } :=
  h.mono List.filter_sublist fun _ _ he => he

theorem respCb (h : Regular c) {poll : Nat} {p : Poll} (hp : c.polls[poll]? = some p) {sid2 : Sid} {result : List UInt8}
    (hc : c.respCb poll p sid2 result = some c') : Regular c' := by
  rw [ClientContext.respCb] at hc
  split at hc
  · obtain rfl := Option.some.inj hc
    have hput : Regular { c with waitingSession := c.waitingSession.put p.sid (.respCb poll) } :=
      h.put rfl (fun _ _ he => he) (by simp [sidOf, hp])
    exact hput.modifyPoll poll fun _ => rfl
  · split at hc
    · obtain rfl := Option.some.inj hc
      exact h.modifyPoll poll fun _ => rfl
    · cases hc

theorem process (h : Regular c) (pack : List UInt8) :
    Regular (c.process pack).1 ∧ ∀ c', (c.process pack).2 = some c' → Regular c' := by
  have hsame : Regular c ∧ ∀ c', some c = some c' → Regular c' := ⟨h, fun _ hc => Option.some.inj hc ▸ h⟩
  rw [ClientContext.process]
  split
  case isFalse => exact ⟨h, fun _ hc => by cases hc⟩
  case isTrue =>
    dsimp only
    split
    case isFalse => exact hsame
    case isTrue =>
      split
      · exact ⟨h, fun _ hc => by cases hc⟩
      · have hr := h.remove (Sid.read pack &&& Sid.mask)
        split
        · refine ⟨hr, fun c' hc => ?_⟩
          obtain rfl := Option.some.inj hc
          split
          · exact hr.setFuture _ _
          · exact hr
        · split
          · rename_i p hp
            exact ⟨hr, fun c' hc => hr.respCb hp hc⟩
          · exact ⟨hr, fun _ hc => by cases hc⟩

theorem receive (h : Regular c) (pack : List UInt8) : Regular (c.receive pack) := by
  obtain ⟨hleft, hright⟩ := h.process pack
  rw [ClientContext.receive]
  split
  · rename_i c' heq
    have hc := hright c' (by rw [heq])
    exact ⟨hc.keys, hc.owner⟩
  · rename_i c' heq
    exact Regular.except (by rw [heq] at hleft; exact hleft)

theorem call (h : Regular c) (callableIndex : BitVec 32) (parameter : List UInt8) (sid : Sid) :
    Regular (c.call callableIndex parameter sid) := by
  rw [ClientContext.call]
  by_cases hs : sid ≠ .signal
  · rw [if_pos hs]
    refine h.put rfl (fun e sid he => ?_) (by simp [sidOf])
    cases e with
    | respCb poll => exact he
    | respFut i =>
      obtain ⟨r, hr, rfl⟩ := Option.map_eq_some_iff.mp he
      simp only [sidOf, List.getElem?_append_left (List.getElem?_eq_some_iff.mp hr).1, hr, Option.map_some]
  · rw [if_neg hs]
    exact ⟨h.keys, h.owner⟩

theorem poll (h : Regular c) (callableIndex : BitVec 32) (parameter : List UInt8) (sid : Sid) :
    Regular (c.poll callableIndex parameter sid) := by
  refine h.put rfl (fun e sid he => ?_) (by simp [sidOf, ClientContext.poll])
  cases e with
  | respFut call => exact he
  | respCb i =>
    obtain ⟨p, hp, rfl⟩ := Option.map_eq_some_iff.mp he
    simp only [sidOf, ClientContext.poll, List.getElem?_append_left (List.getElem?_eq_some_iff.mp hp).1, hp,
      Option.map_some]

theorem step (h : Regular c) {op : Op} (hs : c.step op = some c') : Regular c' := by
  cases op with
  | call callableIndex parameter sid =>
    obtain rfl := Option.some.inj hs
    exact h.call callableIndex parameter sid
  | poll callableIndex parameter sid =>
    obtain rfl := Option.some.inj hs
    exact h.poll callableIndex parameter sid
  | close sid =>
    obtain rfl := Option.some.inj hs
    exact ⟨h.keys, h.owner⟩
  | callSent call ok =>
    rw [ClientContext.step, callSent] at hs
    split at hs
    · obtain rfl := Option.some.inj hs
      exact h.setPhase _ _
    · cases hs
  | pollRaises poll =>
    obtain rfl := Option.some.inj hs
    exact h.modifyPoll poll fun _ => rfl
  | cancel call =>
    obtain rfl := Option.some.inj hs
    refine setPhase ?_ call .over
    split
    · exact h.setFuture call .cancelled
    · exact h
  | receive pack =>
    rw [ClientContext.step] at hs
    split at hs
    · obtain rfl := Option.some.inj hs
      exact h.receive pack
    · cases hs
  | fail =>
    rw [ClientContext.step] at hs
    split at hs
    · obtain rfl := Option.some.inj hs
      exact h.except
    · cases hs

end Regular

/-! ### What the exception handler reaches -/

theorem setExceptions_polls (ws : List Entry) : ∀ c : ClientContext, (c.setExceptions ws).polls = c.polls := by
  induction ws with
  | nil => exact fun _ => rfl
  | cons w ws ih =>
    intro c
    rw [setExceptions]
    split
    · rename_i c' hc
      rw [ih c']
      cases w with
      | respCb poll => cases hc
      | respFut call =>
        rw [setException] at hc
        split at hc
        · obtain rfl := Option.some.inj hc
          rfl
        · cases hc
    · rfl

theorem pending_setFuture {c : ClientContext} {call : Nat} {respFut : Future} {e : Entry} (h : e ≠ .respFut call) :
    (c.setFuture call respFut).pending e = c.pending e := by
  cases e with
  | respCb poll => rfl
  | respFut i =>
    have hi : call ≠ i := fun heq => h (heq ▸ rfl)
    simp only [pending, setFuture, List.getElem?_modify_ne _ _ hi]

theorem takeWhile_setFuture {c : ClientContext} {call : Nat} {respFut : Future} {ws : List Entry}
    (h : .respFut call ∉ ws) : ws.takeWhile (c.setFuture call respFut).pending = ws.takeWhile c.pending := by
  induction ws with
  | nil => rfl
  | cons w ws ih =>
    rw [List.mem_cons, not_or] at h
    obtain ⟨hw, hws⟩ := h
    simp only [List.takeWhile_cons, pending_setFuture (Ne.symm hw), ih hws]

/-- The futures at the front of the table that are pending get the exception, and no others. -/
theorem setExceptions_calls {ws : List Entry} (hn : ws.Nodup) : ∀ (c : ClientContext) (i : Nat),
    (c.setExceptions ws).calls[i]? =
      if .respFut i ∈ ws.takeWhile c.pending then c.calls[i]?.map fun r => { r with respFut := .exception }
      else c.calls[i]? := by
  induction ws with
  | nil => intro c i; simp [setExceptions]
  | cons w ws ih =>
    intro c i
    obtain ⟨hw, hws⟩ := List.nodup_cons.mp hn
    cases w with
    | respCb poll => simp [setExceptions, setException, pending]
    | respFut call =>
      by_cases hp : c.pending (.respFut call)
      · rw [setExceptions, setException, if_pos hp, List.takeWhile_cons_of_pos hp]
        simp only [ih hws, takeWhile_setFuture hw, List.mem_cons]
        by_cases hi : i = call
        · subst hi
          have hnot : .respFut i ∉ ws.takeWhile c.pending := fun hm => hw ((List.takeWhile_prefix _).subset hm)
          rw [if_neg hnot, if_pos (.inl rfl), setFuture, List.getElem?_modify_eq]
          rfl
        · have hne : Entry.respFut i ≠ .respFut call := fun h => hi (Entry.respFut.inj h)
          simp only [hne, false_or, setFuture, List.getElem?_modify_ne _ _ (Ne.symm hi)]
      · rw [setExceptions, setException, if_neg hp, List.takeWhile_cons_of_neg hp]
        simp

end ClientContext

end PxpRpc.Client.Python
