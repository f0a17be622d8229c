import PxpRpc.Lib.Run
import PxpRpc.Pool.RemoteFree

/-!
# Requests as tasks in the TypeScript and the Python server

Every request is a task of its own on one event loop. A task is its request and the
activations of `processRequest` and `poll` that are under way; it runs from one call or
`await` to the next, and any other task may run in between.
-/
namespace PxpRpc.Server.Tasks

set_option linter.dupNamespace false

open PxpRpc.Lib
open PxpRpc.Pool
open PxpRpc.Pool.Managed (RefPool)

inductive Lang where
  | typeScript
  | python
deriving DecidableEq, Repr

/-- `PxpRequest`; an error is its text in UTF-8. -/
structure PxpRequest where
  session : BitVec 32
  callableIndex : Int
  parameter : List UInt8
  result : List UInt8
  rejected : Option (List UInt8)
deriving DecidableEq, Repr

/-- What an invocation leaves in the request. -/
structure Outcome where
  result : List UInt8
  rejected : Option (List UInt8)
deriving DecidableEq, Repr

inductive Event (Callable : Type) where
  | invoked (callable : Callable) (parameter : List UInt8)
  | settled (outcome : Outcome)
  | sent (message : List UInt8)
deriving DecidableEq, Repr

/-- Where an activation stands: `processRequest` at its start, while the callable that it
invoked is running, when what it called has returned, and while `io1.send` is running;
`poll` at the head of its loop and behind its call of `processRequest`. -/
inductive Activation where
  | enters
  | calls
  | called
  | sends
  | loops
  | polled
deriving DecidableEq, Repr

/-- The innermost activation comes first. -/
structure Task (Callable : Type) where
  request : PxpRequest
  stack : List Activation
  history : List (Event Callable)
deriving DecidableEq, Repr

/-- `serving` is whether `serve` waits for a message. -/
structure Server (Obj Callable Hook : Type) where
  refPool : RefPool Obj Hook
  running : Bool
  serving : Bool
  tasks : List (Task Callable)
deriving DecidableEq, Repr

/-- What the application brings: the lookup of a name, which may raise, and what an
object is called by if it can be called. -/
structure Application (Obj Callable : Type) where
  funcMap : List UInt8 → Option (Option Obj)
  callable : Obj → Option Callable

variable {Obj Callable Hook : Type}

/-! ### The pool -/

def expandRefPools : Lang → RefPool Obj Hook → RefPool Obj Hook
  | .typeScript => Managed.TypeScript.expandRefPools
  | .python => Managed.Python.expandRefPools

/-- `getRef`: in Python a negative index counts from the end. -/
def getRef (lang : Lang) (index : Int) (pool : RefPool Obj Hook) : Option Nat :=
  if 0 ≤ index then (if index.toNat < pool.refPool.length then some index.toNat else none)
  else match lang with
    | .typeScript => none
    | .python => if 0 ≤ pool.refPool.length + index then some (pool.refPool.length + index).toNat else none

def setObject (i : Nat) (object : Obj) (pool : RefPool Obj Hook) : RefPool Obj Hook :=
  { pool with refPool := pool.refPool.modify i fun ref => { ref with object := some object } }

/-- Where `freeRefHandler` reads its indices. -/
def freeRefOffsets (lang : Lang) (parameter : List UInt8) : List Nat :=
  (List.range (match lang with
    | .typeScript => (parameter.length + 3) / 4
    | .python => (parameter.length / 4 + 3) / 4)).map (4 * ·)

/-- `freeRefHandler`, and whether it gets to its end. -/
def freeRefs (lang : Lang) (parameter : List UInt8) :
    List Nat → RefPool Obj Hook → RefPool Obj Hook × Bool
  | [], pool => (pool, true)
  | off :: offs, pool =>
    match (getInt32 parameter off).bind fun index =>
        (getRef lang index pool).bind fun i => Managed.freeRef i pool with
    | none => (pool, false)
    | some (pool, _) => freeRefs lang parameter offs pool

namespace Server

def init : Server Obj Callable Hook := ⟨RefPool.empty, true, true, []⟩

/-- The object of a reference. -/
def object (s : Server Obj Callable Hook) (index : Int) : Option Obj :=
  s.refPool.refPool[index.toNat]?.bind fun ref => ref.object

def put (s : Server Obj Callable Hook) (id : Nat) (t : Task Callable) : Server Obj Callable Hook :=
  { s with tasks := s.tasks.set id t }

/-- `close` -/
def close (s : Server Obj Callable Hook) : Server Obj Callable Hook :=
  if s.running then
    { s with
      running := false
      refPool := { s.refPool with
        refPool := s.refPool.refPool.map fun ref => { ref with object := none, onFree := none } } }
  else s

end Server

/-! ### The steps of a task -/

namespace Task

/-- The innermost activation returns. -/
def returns (t : Task Callable) : Task Callable := { t with stack := t.stack.tail }

def goes (t : Task Callable) (a : Activation) : Task Callable := { t with stack := a :: t.stack.tail }

def logs (t : Task Callable) (e : Event Callable) : Task Callable := { t with history := t.history ++ [e] }

end Task

/-- `processRequest` catches everything, closes the server and returns. -/
def raise (s : Server Obj Callable Hook) (id : Nat) (t : Task Callable) : Server Obj Callable Hook :=
  s.close.put id t.returns

/-- `getInfo` -/
def info : Lang → List UInt8
  | .typeScript => "server name:pxprpc for typescript\nversion:2.1\n".toUTF8.toList
  | .python => "server name:pxprpc for python3\nversion:2.1\n".toUTF8.toList

/-- `getFunc`, or `none` where it raises. -/
def getFunc (lang : Lang) (app : Application Obj Callable) (pool : RefPool Obj Hook) (r : PxpRequest) :
    Option (RefPool Obj Hook × PxpRequest) :=
  (app.funcMap r.parameter).bind fun found =>
    match found with
    | none => some (pool, { r with result := leBytes 4 0xffffffff })
    | some object => (Managed.allocRef (expandRefPools lang) pool).map fun (pool, i) =>
      (setObject i object pool, { r with result := leBytes 4 i })

/-- `processRequest` from its start to what it calls. The built-in callables return at
once, `poll` comes to its loop. -/
def enter (lang : Lang) (app : Application Obj Callable) (s : Server Obj Callable Hook) (id : Nat)
    (t : Task Callable) : Server Obj Callable Hook :=
  let r := t.request
  if 0 ≤ r.callableIndex then
    match (s.object r.callableIndex).bind app.callable with
    | some callable => s.put id ((t.goes .calls).logs (.invoked callable r.parameter))
    | none => raise s id t
  else if r.callableIndex = -1 then
    match getFunc lang app s.refPool r with
    | some (refPool, request) => { s with refPool }.put id { t.goes .called with request }
    | none => raise s id t
  else if r.callableIndex = -2 then
    match freeRefs lang r.parameter (freeRefOffsets lang r.parameter) s.refPool with
    | (refPool, true) => { s with refPool }.put id (t.goes .called)
    | (refPool, false) => raise { s with refPool } id t
  else if r.callableIndex = -3 then s.close.put id (t.goes .called)
  else if r.callableIndex = -4 then
    s.put id { t.goes .called with request := { r with result := info lang } }
  else if r.callableIndex = -5 then
    match getInt32 r.parameter 0 with
    | some callableIndex =>
      let request := { r with callableIndex, parameter := r.parameter.drop 4 }
      s.put id { t with request, stack := .loops :: .called :: t.stack.tail }
    | none => raise s id t
  else raise s id t

/-- What `processRequest` sends; in a response to a call that is rejected the upper bit
of the session is flipped. -/
def message (session : BitVec 32) (outcome : Outcome) : List UInt8 :=
  match outcome.rejected with
  | none => leBytes 4 session.toNat ++ outcome.result
  | some text => leBytes 4 (session ^^^ 0x80000000).toNat ++ text

def PxpRequest.outcome (r : PxpRequest) : Outcome := ⟨r.result, r.rejected⟩

/-- `processRequest` behind its call: no response to `close`, which `poll` pretends to
be, nor to a signal. -/
def respond (t : Task Callable) : Task Callable :=
  if t.request.callableIndex = -3 ∨ t.request.session = 0xffffffff then t.returns
  else (t.goes .sends).logs (.sent (message t.request.session t.request.outcome))

/-- `poll` leaves its loop. -/
def endPoll (t : Task Callable) : Task Callable :=
  { t.returns with request := { t.request with callableIndex := -3 } }

/-- `poll` at the head of its loop. -/
def loop (running : Bool) (t : Task Callable) : Task Callable :=
  if running then
    { t with
      request := { t.request with rejected := none, result := [] }
      stack := .enters :: .polled :: t.stack.tail }
  else endPoll t

/-- A task goes on, unless it waits for a callable or for the io. -/
def resume (lang : Lang) (app : Application Obj Callable) (s : Server Obj Callable Hook) (id : Nat)
    (t : Task Callable) : Option (Server Obj Callable Hook) :=
  match t.stack with
  | .enters :: _ => some (enter lang app s id t)
  | .called :: _ => some (s.put id (respond t))
  | .loops :: _ => some (s.put id (loop s.running t))
  | .polled :: _ => some (s.put id (if t.request.rejected.isSome then endPoll t else t.goes .loops))
  | _ => none

/-! ### The event loop -/

inductive Input (Obj Hook : Type) where
  /-- `serve` has received a message, or `receive` has raised -/
  | receives (buf : Option (List UInt8))
  /-- a task goes on -/
  | resumes (id : Nat)
  /-- the callable of a task is through, or has raised or rejected with what has no text -/
  | settles (id : Nat) (outcome : Option Outcome)
  /-- `io1.send` has sent the response of a task, or has raised -/
  | sends (id : Nat) (sent : Bool)
  /-- the application keeps an object in the pool, frees a reference, or closes the server -/
  | allocates (object : Obj) (onFree : Option Hook)
  | frees (i : Nat)
  | closes
deriving DecidableEq, Repr

/-- The request in a message. -/
def parse (buf : List UInt8) : Option PxpRequest :=
  (getUint32 buf 0).bind fun session => (getInt32 buf 4).map fun callableIndex =>
    ⟨BitVec.ofNat 32 session, callableIndex, buf.drop 8, [], none⟩

/-- A callable has written to the request. -/
def settle (t : Task Callable) (o : Outcome) : Task Callable :=
  { (t.goes .called).logs (.settled o) with request := { t.request with result := o.result, rejected := o.rejected } }

def step (lang : Lang) (app : Application Obj Callable) (s : Server Obj Callable Hook) :
    Input Obj Hook → Option (Server Obj Callable Hook)
  | .receives buf =>
    if s.serving then
      match buf.bind parse with
      | some request =>
        some { s with serving := s.running, tasks := s.tasks ++ [⟨request, [.enters], []⟩] }
      | none => some { s.close with serving := false }
    else none
  | .resumes id => s.tasks[id]?.bind (resume lang app s id)
  | .settles id outcome => s.tasks[id]?.bind fun t =>
    if t.stack.head? = some .calls then
      match outcome with
      | some o => some (s.put id (settle t o))
      | none => some (raise s id t)
    else none
  | .sends id sent => s.tasks[id]?.bind fun t =>
    if t.stack.head? = some .sends then some (if sent then s.put id t.returns else raise s id t) else none
  | .allocates object onFree => (Managed.allocRef (expandRefPools lang) s.refPool).bind fun (pool, i) =>
    (Managed.setRef i (some object) onFree pool).map fun refPool => { s with refPool }
  | .frees i => (Managed.freeRef i s.refPool).map fun (refPool, _) => { s with refPool }
  | .closes => some s.close

end PxpRpc.Server.Tasks
