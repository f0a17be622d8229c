import PxpRpc.Client.SidAlloc
import PxpRpc.Client.TypeScriptDemux
import PxpRpc.Session.Values

/-!
# A session of the extended client

The extended TypeScript client at one end, the TypeScript or the Python server with its
callables at the other, and the packets between them. The client asks for functions, calls
them, and frees the objects that it gets; everything that is pending on either side may go on
in any order.
-/
namespace PxpRpc.Session

open PxpRpc.Lib PxpRpc.Codec
open PxpRpc.Codec.Java (Cell Row ValueType)
open PxpRpc.Client (Sid)
open PxpRpc.Client.Extend (RpcExtendClient1)
open PxpRpc.TypeScript (Client Failure)
open PxpRpc.Server.Tasks (Lang)

/-- `errorText` is the text of what the serializer or the table raises. -/
structure Application (Obj Callable Hook : Type) extends Server.Tasks.Application Obj Callable where
  decl : Callable → Decl
  onFree : Obj → Option Hook
  errorText : List UInt8

/-- What the client asks for; objects are named by their numbers. -/
inductive Request where
  | getFunc (name : Utf16)
  | call (callable : Nat) (decl : Decl) (args : List (Value Nat))
  | free (value : BitVec 32) (origin : Nat × Nat)
deriving DecidableEq, Repr

/-- A request, and a record of what has become of it: the arguments that the callable was given,
what it returned or its error, the row that was put for that, what the client got, and how many
objects it had before that. -/
structure Exchange (Obj : Type) where
  request : Request
  sid : Int
  arguments : Option (List (Value Obj))
  returned : Option (Except (List UInt8) (List (Value Obj)))
  row : Row (List UInt8)
  outcome : Option (Except Failure (Ret Nat))
  known : Nat

/-- The packets of the client are in its `sent`, and the server has as many tasks as it has
received of them; `started` of the tasks have started. -/
structure State (Obj Callable Hook : Type) where
  client : Client
  sids : RpcExtendClient1
  handles : List Handle
  exchanges : List (Exchange Obj)
  server : Server.Tasks.Server Obj Callable Hook
  started : Nat
  responses : Table Nat (List UInt8)

variable {Obj Callable Hook : Type}

/-- What a built-in callable has returned. -/
def Exchange.served (app : Application Obj Callable Hook) (t : Server.Tasks.Task Callable) (x : Exchange Obj) : Exchange Obj :=
  match x.request with
  | .getFunc _ =>
    match app.funcMap t.request.parameter with
    | some (some object) =>
      { x with
        returned := some (.ok [.object object])
        row := [.object (BitVec.ofNat 32 (leValue t.request.result))] }
    | _ => { x with returned := some (.ok [.null]), row := [.null] }
  | _ => { x with returned := some (.ok []) }

namespace State

/-- The receive loop of the client runs. -/
def init : State Obj Callable Hook := ⟨Client.init.run, .init, [], [], .init, 0, []⟩

variable (s : State Obj Callable Hook)

/-- The object that was returned at a place. -/
def returnedAt (place : Nat × Nat) : Option Obj :=
  s.exchanges[place.1]?.bind fun x =>
    match x.returned with
    | some (.ok results) =>
      match results[place.2]? with
      | some (.object obj) => some obj
      | _ => none
    | _ => none

/-- The object whose return created an object of the client. -/
def denotes (i : Nat) : Option Obj := s.handles[i]?.bind fun h => s.returnedAt h.origin

def modify (n : Nat) (f : Exchange Obj → Exchange Obj) : State Obj Callable Hook :=
  { s with exchanges := s.exchanges.modify n f }

/-! ### The client -/

/-- A sid is allocated and the request is sent; where all sids are in use, the exception of
`allocSid` is all that comes of it. -/
def ask (request : Request) (callableIndex : BitVec 32) (parameter : List UInt8) : State Obj Callable Hook :=
  match s.sids.allocSid with
  | (.ok sid, sids) =>
    { s with
      sids
      client := s.client.call callableIndex parameter (BitVec.ofInt 32 sid)
      exchanges := s.exchanges ++ [⟨request, sid, none, none, [], none, 0⟩] }
  | (.error _, sids) => { s with sids }

/-- `getFunc` -/
def getFunc (name : Utf16) : State Obj Callable Hook :=
  if s.client.running then s.ask (.getFunc name) (-1) (TypeScript.encodeText name) else s

/-- `call` of a callable that is declared so at the moment. -/
def call (callable : Nat) (decl : Decl) (args : List (Value Nat)) : State Obj Callable Hook :=
  match serArgs decl.tParam s.handles args with
  | none => s
  | some parameter =>
    if s.client.running then s.ask (.call callable decl args) (indexAt s.handles callable) parameter
    else
      match s.sids.allocSid with
      | (.ok sid, sids) => { s with sids := sids.freeSid sid }
      | (.error _, sids) => { s with sids }

/-- `free`; the value is kept where no sid is left. -/
def free (handle : Nat) : Option (State Obj Callable Hook) :=
  s.handles[handle]?.map fun h =>
    match h.value with
    | none => s
    | some value =>
      match s.sids.allocSid with
      | (.ok _, _) =>
        { s.ask (.free value h.origin) (-2) (leBytes 4 value.toNat) with
          handles := s.handles.set handle { h with value := none } }
      | (.error _, sids) => { s with sids }

def asCallable (handle : Nat) : Option (State Obj Callable Hook) :=
  s.handles[handle]?.map fun h => { s with handles := s.handles.set handle { h with value := none } ++ [h] }

def onClient (op : TypeScript.Op) : Option (State Obj Callable Hook) :=
  (s.client.step op).map fun client => { s with client }

/-- The receive loop takes the next response. -/
def receive : Option (State Obj Callable Hook) :=
  match s.responses with
  | [] => none
  | (_, buf) :: responses => ({ s with responses } : State Obj Callable Hook).onClient (.receive buf)

/-- What `getFunc` and `call` make of a response, with the objects that the client has then. -/
def outcome (n : Nat) (x : Exchange Obj) (resp : List UInt8) : Except Failure (Ret Nat) × List Handle :=
  let row := match x.request with
    | .getFunc _ => (Pool.getInt32 resp 0).map fun index => [if index = -1 then .null else .object (BitVec.ofInt 32 index)]
    | .call _ decl _ => unserRet decl.tResult (leBytes 4 (BitVec.ofInt 32 x.sid).toNat) resp
    | .free .. => some []
  match row with
  | none => (.error .exception, s.handles)
  | some row => ((.ok (Ret.ofRow (take n 0 row s.handles).1)), (take n 0 row s.handles).2)

/-- An operation goes on behind the call of the base client, and its sid is free again. -/
def finish (n : Nat) : Option (State Obj Callable Hook) :=
  (s.client.calls[n]?.bind fun r => r.outcome).bind fun result => s.exchanges[n]?.bind fun x =>
    if x.outcome.isSome then none
    else
      let (outcome, handles) := match result with
        | .error failure => (.error failure, s.handles)
        | .ok resp => s.outcome n x resp
      some { s.modify n (fun x => { x with outcome := some outcome, known := s.handles.length }) with
        sids := s.sids.freeSid x.sid
        handles }

/-! ### The server -/

variable (lang : Lang) (app : Application Obj Callable Hook)

def onServer (input : Server.Tasks.Input Obj Hook) : Option (State Obj Callable Hook) :=
  (Server.Tasks.step lang app.toApplication s.server input).map fun server => { s with server }

/-- The next packet of the client arrives. -/
def arrive : Option (State Obj Callable Hook) :=
  s.client.sent[s.server.tasks.length]?.bind fun frame => s.onServer lang app (.receives (some frame))

/-- A callable that raises. -/
def reject (n : Nat) (text : List UInt8) : Option (State Obj Callable Hook) :=
  ((s.modify n fun x => { x with returned := some (.error text) }).onServer lang app (.settles n (some ⟨[], some text⟩)))

/-- An exception takes the place of what the callable is to return or has returned. -/
def raise (n : Nat) : Option (State Obj Callable Hook) :=
  s.onServer lang app (.settles n (some ⟨[], some app.errorText⟩))

/-- The next task starts: in TypeScript when its packet arrives, in Python when the event loop
gets to it, in the order of arrival. A callable reads its parameter at once; where that raises,
the TypeScript callable is rejected and the Python server closed. -/
def start : Option (State Obj Callable Hook) :=
  (s.onServer lang app (.resumes s.started)).bind fun s' => s'.server.tasks[s.started]?.bind fun t =>
    let n := s.started
    let s := { s' with started := n + 1 }
    match t.stack.head?, t.history with
    | some .calls, [.invoked callable parameter] =>
      match readParameter lang (app.decl callable).tParam ((s.client.sent[n]?.getD []).take 8) parameter
          s.server.refPool with
      | some args => some (s.modify n fun x => { x with arguments := some args })
      | none =>
        match lang with
        | .typeScript => s.raise lang app n
        | .python => s.onServer lang app (.settles n none)
    | _, _ => some (s.modify n (Exchange.served app t))

/-- A callable returns. -/
def resolve (n : Nat) (results : List (Value Obj)) : Option (State Obj Callable Hook) :=
  s.server.tasks[n]?.bind fun t =>
    match t.history with
    | [.invoked callable _] =>
      match writeResult lang app.onFree (app.decl callable).tResult results s.server.refPool with
      | (refPool, some (bytes, row)) =>
        ({ s.modify n (fun x => { x with returned := some (.ok results), row }) with
            server := { s.server with refPool } } : State Obj Callable Hook).onServer lang app
          (.settles n (some ⟨bytes, none⟩))
      | (refPool, none) =>
        ({ s.modify n (fun x => { x with returned := some (.ok results) }) with
            server := { s.server with refPool } } : State Obj Callable Hook).raise lang app n
    | _ => none

/-- `processRequest` goes on behind its callable and gives its response to the io. -/
def respond (n : Nat) : Option (State Obj Callable Hook) :=
  s.server.tasks[n]?.bind fun t =>
    if t.stack.head? = some .called then
      (s.onServer lang app (.resumes n)).bind fun s => s.server.tasks[n]?.map fun t =>
        match t.stack.head?, t.history.getLast? with
        | some .sends, some (.sent message) => { s with responses := s.responses ++ [(n, message)] }
        | _, _ => s
    else none

end State

/-! ### Runs -/

inductive Op (Obj : Type) where
  | getFunc (name : Utf16)
  | call (callable : Nat) (decl : Decl) (args : List (Value Nat))
  | free (handle : Nat)
  | asCallable (handle : Nat)
  /-- `io1.send` of a request is through -/
  | requestSent (n : Nat)
  | arrive
  | start
  | resolve (n : Nat) (results : List (Value Obj))
  | reject (n : Nat) (text : List UInt8)
  | respond (n : Nat)
  /-- `io1.send` of a response is through -/
  | responseSent (n : Nat)
  | receive
  /-- the call of the base client goes on with its response -/
  | resume (n : Nat)
  | finish (n : Nat)

namespace State

def step (lang : Lang) (app : Application Obj Callable Hook) (s : State Obj Callable Hook) :
    Op Obj → Option (State Obj Callable Hook)
  | .getFunc name => some (s.getFunc name)
  | .call callable decl args => some (s.call callable decl args)
  | .free handle => s.free handle
  | .asCallable handle => s.asCallable handle
  | .requestSent n => s.onClient (.callSent n true)
  | .arrive => s.arrive lang app
  | .start => s.start lang app
  | .resolve n results => s.resolve lang app n results
  | .reject n text => s.reject lang app n text
  | .respond n => s.respond lang app n
  | .responseSent n => s.onServer lang app (.sends n true)
  | .receive => s.receive
  | .resume n => s.onClient (.resume n)
  | .finish n => s.finish n

end State

end PxpRpc.Session
