import PxpRpc.Client.Session
import PxpRpc.Lib.Run
import PxpRpc.Lib.Table

/-!
# The TypeScript client

The receive loop, the calls and the polls share one table of callbacks. A call takes its
entry out when it goes on after the response, a poll when it is given a remote error. A
failure of the receive loop is handed to all entries and leaves them where they are.
-/
namespace PxpRpc.TypeScript

open PxpRpc.Lib PxpRpc.Client

inductive Failure where
  | remote (message : List UInt8)
  | io
  | exception
deriving DecidableEq

/-- A call; `respFut` is the promise that its callback settles, `outcome` what the call ends with. -/
structure Call where
  sid : Sid
  sent : Bool
  respFut : Option (Except Failure (Sid × List UInt8))
  outcome : Option (Except Failure (List UInt8))
deriving DecidableEq

/-- A poll, and what `onResult` has been given. -/
structure Poll where
  sid : Sid
  given : List (Except Failure (List UInt8))
deriving DecidableEq

/-- A value of the table: the callback of a call or of a poll. -/
inductive Entry where
  | call (call : Nat)
  | poll (poll : Nat)
deriving DecidableEq

/-- The call waits for its response. -/
def Call.isOpen (r : Call) : Bool := r.outcome.isNone && r.respFut.isNone

/-- A promise is settled once, and nobody looks at it when the call has ended. -/
def Call.settle (r : Call) (answer : Except Failure (Sid × List UInt8)) : Call :=
  if r.isOpen then { r with respFut := some answer } else r

/-- The poll has not been given an error. -/
def Poll.isOpen (p : Poll) : Bool := p.given.all Except.isOk

def Poll.give (p : Poll) (result : Except Failure (List UInt8)) : Poll := { p with given := p.given ++ [result] }

/-- `receiving` says that the loop waits for a packet. -/
structure Client where
  running : Bool
  receiving : Bool
  waitingSessionCb : Table Sid Entry
  calls : List Call
  polls : List Poll
  sent : List (List UInt8)

namespace Client

def init : Client := ⟨false, false, [], [], [], []⟩

def settle (c : Client) (call : Nat) (answer : Except Failure (Sid × List UInt8)) : Client :=
  { c with calls := c.calls.modify call fun r => r.settle answer }

def onResult (c : Client) (poll : Nat) (result : Except Failure (List UInt8)) : Client :=
  { c with polls := c.polls.modify poll fun p => p.give result }

def run (c : Client) : Client := if c.running then c else { c with running := true, receiving := true }

/-- The exception handler of `run` calls every callback of the table with the error. -/
def callAll (failure : Failure) : List Entry → Client → Client
  | [], c => c
  | .call call :: rest, c => callAll failure rest (c.settle call (.error failure))
  | .poll poll :: rest, c => callAll failure rest (c.onResult poll (.error failure))

def stop (c : Client) (failure : Failure) : Client :=
  { callAll failure c.waitingSessionCb.values c with running := false, receiving := false }

/-- The callback of a poll with a response. -/
def pollCb (c : Client) (poll : Nat) (p : Poll) (sid : Sid) (result : List UInt8) : Client :=
  if p.sid ≠ sid then
    { c with waitingSessionCb := c.waitingSessionCb.remove (p.sid &&& Sid.mask) }.onResult poll
      (.error (.remote result))
  else c.onResult poll (.ok result)

/-- Whether the loop goes on. -/
def loop (c : Client) : Client := { c with receiving := c.running }

/-- One round of the loop; an undefined callback and a short packet are exceptions. -/
def receive (c : Client) (buf : List UInt8) : Client :=
  if 4 ≤ buf.length then
    let sid := Sid.read buf
    if sid ≠ .signal then
      match c.waitingSessionCb.get (sid &&& Sid.mask) with
      | none => c.stop .exception
      | some (.call call) => (c.settle call (.ok (sid, buf.drop 4))).loop
      | some (.poll poll) =>
        match c.polls[poll]? with
        | none => c.stop .exception
        | some p => (c.pollCb poll p sid (buf.drop 4)).loop
    else c.loop
  else c.stop .exception

def call (c : Client) (callableIndex : BitVec 32) (parameter : List UInt8) (sid : Sid) : Client :=
  let c := if sid ≠ .signal then
    { c with
      waitingSessionCb := c.waitingSessionCb.put sid (.call c.calls.length)
      calls := c.calls ++ [⟨sid, false, none, none⟩] }
    else c
  { c with sent := c.sent ++ [leBytes 4 sid.toNat ++ leBytes 4 callableIndex.toNat ++ parameter] }

def poll (c : Client) (callableIndex : BitVec 32) (parameter : List UInt8) (sid : Sid) : Client :=
  { c with
    waitingSessionCb := c.waitingSessionCb.put sid (.poll c.polls.length)
    polls := c.polls ++ [⟨sid, []⟩]
    sent := c.sent ++
      [leBytes 4 sid.toNat ++ leBytes 4 (-5 : BitVec 32).toNat ++ leBytes 4 callableIndex.toNat ++ parameter] }

/-- The request is sent; the loop stops at the next packet. -/
def close (c : Client) (sid : Sid) : Client :=
  { c with running := false, sent := c.sent ++ [leBytes 4 sid.toNat ++ leBytes 4 (-3 : BitVec 32).toNat] }

/-- `io1.send` ends in a call. -/
def callSent (c : Client) (call : Nat) (ok : Bool) : Option Client :=
  c.calls[call]?.bind fun r =>
    if !r.sent && r.outcome.isNone then
      let r := if ok then { r with sent := true } else { r with outcome := some (.error .io) }
      some { c with calls := c.calls.set call r }
    else none

/-- A call goes on when its request is sent and its promise is settled. -/
def resume (c : Client) (call : Nat) : Option Client :=
  c.calls[call]?.bind fun r =>
    if r.sent && r.outcome.isNone then
      match r.respFut with
      | none => none
      | some (.error failure) => some { c with calls := c.calls.set call { r with outcome := some (.error failure) } }
      | some (.ok (sid2, result)) =>
        let outcome := if r.sid ≠ sid2 then .error (.remote result) else .ok result
        some { c with
          waitingSessionCb := c.waitingSessionCb.remove (r.sid &&& Sid.mask)
          calls := c.calls.set call { r with outcome := some outcome } }
    else none

/-- `io1.send` fails in a poll. -/
def pollFails (c : Client) (poll : Nat) : Client := c.onResult poll (.error .io)

end Client

/-! ### Runs -/

inductive Op where
  | run
  | call (callableIndex : BitVec 32) (parameter : List UInt8) (sid : Sid)
  | poll (callableIndex : BitVec 32) (parameter : List UInt8) (sid : Sid)
  | close (sid : Sid)
  | callSent (call : Nat) (ok : Bool)
  | resume (call : Nat)
  | pollFails (poll : Nat)
  | receive (buf : List UInt8)
  | fail

def Client.step (c : Client) : Op → Option Client
  | .run => some c.run
  | .call callableIndex parameter sid => some (c.call callableIndex parameter sid)
  | .poll callableIndex parameter sid => some (c.poll callableIndex parameter sid)
  | .close sid => some (c.close sid)
  | .callSent call ok => c.callSent call ok
  | .resume call => c.resume call
  | .pollFails poll => some (c.pollFails poll)
  | .receive buf => if c.receiving then some (c.receive buf) else none
  | .fail => if c.receiving then some (c.stop .io) else none

end PxpRpc.TypeScript
