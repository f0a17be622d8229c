import PxpRpc.Codec.Native
import PxpRpc.Lib.Run

/-!
# The handlers of C++

A call of a `NamedFunctionPPImpl1` makes a `Parameter` and an `AsyncReturn`, and leaves
the clean-up of both to `onFinishPP` of the request's wrapper, which is run when the
server is done with the request or with one iteration of a poll. `reject` puts its own
clean-up there.
-/
namespace PxpRpc.Server.Cpp

open PxpRpc.Lib
open PxpRpc.Codec.Native (Item putAll prepareSer prepareUnser build)

/-- A pointer to what `new` or the allocator gave, or to memory of the handler. -/
inductive Pointer where
  | null
  | heap (a : Nat)
  | other (id : Nat)
deriving DecidableEq, Repr

/-- `struct pxprpc_buffer_part` -/
structure BufferPart where
  base : Pointer
  length : BitVec 32
  nextPart : Pointer
deriving DecidableEq, Repr

/-- A function in `onReqFinished`. -/
inductive Callback where
  | user (id : Nat)
  /-- `delete[] rawbuf` -/
  | deleteRaw (rawbuf : Nat)
  /-- `ser->freeBuiltBuffer(req->result().bytes.base); delete ser;` -/
  | freeBuilt (ser : Nat)
deriving DecidableEq, Repr

/-- A function in `onFinishPP`. -/
inductive OnFinishPP where
  | nothing
  /-- runs all of `onReqFinished`, then deletes `para` and `ret` -/
  | cleanUp (para ret : Nat)
  /-- `delete[] rawbuf` -/
  | deleteRaw (rawbuf : Nat)
deriving DecidableEq, Repr

inductive Obj where
  | wrap (onFinishPP : OnFinishPP)
  | parameter (req : Nat) (ser : Option Nat)
  | asyncReturn (req : Nat) (onReqFinished : List Callback)
  | serializer (wrapped : Codec.Native.Serializer) (buf : Pointer)
  /-- the memory of a serializer, whose content `wrapped` has -/
  | buffer
  | bytes (content : List UInt8)
deriving DecidableEq, Repr

/-- What the wrapper uses of a `pxprpc_request`. -/
structure PxprpcRequest where
  parameter : List UInt8
  result : BufferPart
  onFinish : Bool
  rejected : Bool
  callableData : Option Nat
deriving DecidableEq, Repr

/-- The overloads of `resolve`, and `reject`. Objects and functions come with the index that `allocRef` gives
them, a null pointer without one. -/
inductive Ending where
  | part (buf : BufferPart) (onReqFinished : Nat)
  | raw (buf : List UInt8)
  | serializer (initBufSize : BitVec 32) (items : List Item)
  | void
  | int32 (v : BitVec 32)
  | int64 (v : BitVec 64)
  | float (v : BitVec 32)
  | double (v : BitVec 64)
  | string (v : List UInt8)
  | pxpObject (refid : Option (BitVec 32))
  | namedFunction (refid : Option (BitVec 32))
  | reject (errorMessage : List UInt8)
deriving DecidableEq, Repr

def Ending.resolves : Ending → Bool
  | .reject _ => false
  | _ => true

/-- A call that has ended. `buffer` is the result buffer, where it is not the handler's own. -/
structure Invocation where
  para : Nat
  ret : Nat
  buffer : Option Nat
  ending : Ending
deriving DecidableEq, Repr

inductive Phase where
  /-- the callable is to be called -/
  | prepared
  | handling (para ret : Nat)
  /-- `next_step` has been called -/
  | answered (i : Invocation)
  | freed
deriving DecidableEq, Repr

inductive Event where
  | deleted (a : Nat)
  | pushed (ret id : Nat)
  | ran (ret id : Nat)
deriving DecidableEq, Repr

/-- A request at the server, the objects made for it, and the calls that have finished. -/
structure Served where
  poll : Bool
  req : PxprpcRequest
  obj : Nat → Option Obj
  next : Nat
  phase : Phase
  finished : List Invocation
  log : List Event

inductive ServedOp where
  | call
  /-- the handler uses `asSerializer` -/
  | asSerializer
  /-- the handler pushes to `onReqFinished` -/
  | push (id : Nat)
  | resolve (e : Ending)
  /-- the server has sent the response, and may have closed -/
  | finish (closed : Bool)
deriving DecidableEq, Repr

namespace Served

/-! ### Memory -/

/-- `new` -/
def alloc (o : Obj) (s : Served) : Served :=
  { s with obj := Function.update s.obj s.next (some o), next := s.next + 1 }

def store (a : Nat) (o : Obj) (s : Served) : Served := { s with obj := Function.update s.obj a (some o) }

/-- `delete` of what is not there is undefined. -/
def delete (a : Nat) (s : Served) : Option Served :=
  if (s.obj a).isSome then
    some { s with obj := Function.update s.obj a none, log := s.log ++ [.deleted a] }
  else none

def emit (e : Event) (s : Served) : Served := { s with log := s.log ++ [e] }

/-! ### The wrapper -/

/-- `PxpRequestWrap::wrap` -/
def wrap (s : Served) : Nat × Served :=
  match s.req.callableData with
  | some w => (w, s)
  | none =>
    let s' := s.alloc (.wrap .nothing)
    (s.next, { s' with req := { s'.req with callableData := some s.next, onFinish := true } })

/-- `NamedFunctionPPImpl1::call` up to the handler. -/
def call (s : Served) : Served :=
  let (w, s) := s.wrap
  let para := s.next
  let s := s.alloc (.parameter w none)
  let ret := s.next
  let s := s.alloc (.asyncReturn w [])
  let s := s.store w (.wrap (.cleanUp para ret))
  { s with phase := .handling para ret }

/-- A function of `onReqFinished`, of the `AsyncReturn` at `ret`. -/
def runCallback (ret : Nat) (s : Served) : Callback → Option Served
  | .user id => some (s.emit (.ran ret id))
  | .deleteRaw rawbuf => s.delete rawbuf
  | .freeBuilt ser =>
    match s.req.result.base with
    | .heap base => (s.delete base).bind (delete ser)
    | .null => s.delete ser
    | .other _ => none

def runCallbacks (ret : Nat) : List Callback → Served → Option Served
  | [], s => some s
  | cb :: cbs, s => (s.runCallback ret cb).bind (runCallbacks ret cbs)

/-- `delete para`, with `~Parameter` -/
def deleteParameter (para : Nat) (s : Served) : Option Served :=
  match s.obj para with
  | some (.parameter _ (some ser)) => (s.delete ser).bind (delete para)
  | some (.parameter _ none) => s.delete para
  | _ => none

def runOnFinishPP (s : Served) : OnFinishPP → Option Served
  | .nothing => some s
  | .cleanUp para ret =>
    match s.obj ret with
    | some (.asyncReturn _ cbs) =>
      (s.runCallbacks ret cbs).bind fun s => (s.deleteParameter para).bind (delete ret)
    | _ => none
  | .deleteRaw rawbuf => s.delete rawbuf

/-- `__wrap_requestOnFinish` and `onWrapFree` -/
def requestOnFinish (s : Served) : Option Served :=
  s.req.callableData.bind fun w =>
    match s.obj w with
    | some (.wrap f) => (s.runOnFinishPP f).bind (delete w)
    | _ => none

/-! ### The handler -/

/-- `asSerializer`, which keeps the serializer it makes. -/
def asSerializer (para : Nat) (s : Served) : Option Served :=
  match s.obj para with
  | some (.parameter w none) =>
    let wrapped := prepareUnser (s.req.parameter.map some) (BitVec.ofNat 32 s.req.parameter.length)
    some ((s.alloc (.serializer wrapped (.other 0))).store para (.parameter w (some s.next)))
  | some (.parameter _ (some _)) => some s
  | _ => none

/-- `onReqFinished.push_back` -/
def pushBack (ret : Nat) (cb : Callback) (s : Served) : Option Served :=
  match s.obj ret with
  | some (.asyncReturn w cbs) => some (s.store ret (.asyncReturn w (cbs ++ [cb])))
  | _ => none

/-- A function of the handler is pushed. -/
def push (ret id : Nat) (s : Served) : Option Served := (s.pushBack ret (.user id)).map (emit (.pushed ret id))

def setResult (result : BufferPart) (s : Served) : Served := { s with req := { s.req with result } }

/-- A new `Serializer` with items; its buffer comes first. -/
def newSerializer (initBufSize : BitVec 32) (items : List Item) (s : Served) : Option Served :=
  (putAll items (prepareSer initBufSize)).map fun wrapped =>
    (s.alloc .buffer).alloc (.serializer wrapped (.heap s.next))

/-- `resolve(Serializer *)`, after which the serializer and its buffer are the last objects. -/
def resolveSerializer (ret : Nat) (initBufSize : BitVec 32) (items : List Item) (s : Served) :
    Option (Option Nat × Served) :=
  (s.newSerializer initBufSize items).bind fun s' =>
    match s'.obj (s.next + 1) with
    | some (.serializer wrapped buf) =>
      let s' := s'.setResult { s'.req.result with base := buf, length := (build wrapped).2 }
      (s'.pushBack ret (.freeBuilt (s.next + 1))).map fun s' => (some s.next, s')
    | _ => none

/-- `reject` -/
def reject (ret : Nat) (errorMessage : List UInt8) (s : Served) : Option (Option Nat × Served) :=
  let rawbuf := s.next
  match s.obj ret with
  | some (.asyncReturn w _) =>
    let s := s.alloc (.bytes errorMessage)
    let s := s.setResult ⟨.heap rawbuf, BitVec.ofNat 32 errorMessage.length, .null⟩
    let s := s.store w (.wrap (.deleteRaw rawbuf))
    some (some rawbuf, { s with req := { s.req with rejected := true } })
  | _ => none

/-- What an ending does up to `nextStep`, and the result buffer that it makes. -/
def conclude (ret : Nat) (s : Served) : Ending → Option (Option Nat × Served)
  | .part buf onReqFinished => ((s.setResult buf).push ret onReqFinished).map fun s => (none, s)
  | .raw buf =>
    let rawbuf := s.next
    let s := s.alloc (.bytes buf)
    let s := s.setResult ⟨.heap rawbuf, BitVec.ofNat 32 buf.length, .null⟩
    (s.pushBack ret (.deleteRaw rawbuf)).map fun s => (some rawbuf, s)
  | .serializer initBufSize items => s.resolveSerializer ret initBufSize items
  | .void => some (none, s.setResult { s.req.result with base := .null, length := 0 })
  | .int32 v => s.resolveSerializer ret 8 [.int [v]]
  | .int64 v => s.resolveSerializer ret 8 [.long [v]]
  | .float v => s.resolveSerializer ret 8 [.float [v]]
  | .double v => s.resolveSerializer ret 8 [.double [v]]
  | .string v => s.resolveSerializer ret 8 [.bytes v]
  | .pxpObject refid | .namedFunction refid => s.resolveSerializer ret 8 [.int [refid.getD (-1)]]
  | .reject errorMessage => s.reject ret errorMessage

/-! ### The server -/

/-- `_pxprpc__prepareRequest` -/
def prepareRequest (s : Served) : Served :=
  { s with
    req := { s.req with result := ⟨.null, 0, .null⟩, onFinish := false, rejected := false, callableData := none }
    phase := .prepared }

/-- `on_finish`, if it is set. -/
def onFinish (s : Served) : Option Served := if s.req.onFinish then s.requestOnFinish else some s

/-- `_pxprpc__stepPoll3` goes on with the next iteration, `_pxprpc__finishRequest` frees the request. -/
def finish (i : Invocation) (closed : Bool) (s : Served) : Option Served :=
  s.onFinish.map fun s' =>
    let s' := { s' with finished := s'.finished ++ [i] }
    if s.poll ∧ ¬ s.req.rejected ∧ ¬ closed then s'.prepareRequest.call else { s' with phase := .freed }

def step (s : Served) : ServedOp → Option Served
  | .call => if s.phase = .prepared then some s.call else none
  | .asSerializer =>
    match s.phase with
    | .handling para _ => s.asSerializer para
    | _ => none
  | .push id =>
    match s.phase with
    | .handling _ ret => s.push ret id
    | _ => none
  | .resolve e =>
    match s.phase with
    | .handling para ret =>
      (s.conclude ret e).map fun (buffer, s) => { s with phase := .answered ⟨para, ret, buffer, e⟩ }
    | _ => none
  | .finish closed =>
    match s.phase with
    | .answered i => s.finish i closed
    | _ => none

/-- A request that has just been received. -/
def new (poll : Bool) (parameter : List UInt8) : Served :=
  prepareRequest ⟨poll, ⟨parameter, ⟨.null, 0, .null⟩, false, false, none⟩, fun _ => none, 0, .prepared, [], []⟩


end Served

end PxpRpc.Server.Cpp
