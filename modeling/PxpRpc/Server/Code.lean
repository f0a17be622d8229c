import PxpRpc.Lib.Callback
import PxpRpc.Server.Context

/-!
# The code of the C server

Every function of the server is cut where it calls out: to the io, to a callable
or to one of the hooks. Calls of the server's own functions are pieces of code
run before the rest of the caller.
-/
namespace PxpRpc.Server

open PxpRpc.Lib PxpRpc.Lib.Callback PxpRpc.Pool PxpRpc.Pool.Native

inductive Code where
  | start
  | step1
  | step2
  /-- `r->next_step(r)` -/
  | nextStep (r : Nat)
  | step (f : NextStep) (r : Nat)
  | writeResult (r : Nat)
  /-- the loop of `_pxprpc__stepFreeRef1` -/
  | freeRefs (r : Nat) (i : Nat)
  /-- the end of `_pxprpc__stepPoll1` and `_pxprpc__stepPoll3`: prepare and call again -/
  | pollCall (r : Nat)
  /-- `_pxprpc__stepPoll3` after its look at `send_error` -/
  | poll3 (r : Nat)
  /-- `_pxprpc__finishRequest` after its look at `send_error` -/
  | finish1 (r : Nat)
  /-- `_pxprpc__finishRequest` after `on_finish` -/
  | finish2 (r : Nat)
  | close
  /-- the loop of `pxprpc_server_close` -/
  | closeRefs (i : Nat)
  | closeUnset (ref : Ptr)
  | closeIo
  | closeCb
  | freeRef (ref : Ptr)
  | freePush (ref : Ptr)
  | delete
  | deleteCount
deriving DecidableEq, Repr

/-- Calls of code that is not the server's. -/
inductive Ext where
  | call (r : Nat) (id : Nat)
  | send (r : Nat)
  | receive
  | onFinish (r : Nat) (hook : Nat)
  | onFree (hook : Nat)
  | ioClose
  | onClosed
deriving DecidableEq, Repr

inductive Entry where
  | start
  | recvDone (frame : List UInt8)
  | recvError (error : String)
  | sendDone (r : Nat) (f : NextStep)
  | sendError (error : Option String)
  | resume (r : Nat) (o : Outcome)
  | close
  | delete
  | allocRef (object : Obj) (onFree : Option Nat)
  | freeRef (index : Nat)
deriving DecidableEq, Repr

abbrev Stack := List (Item Code Ext)

/-- The code reads or writes the context. -/
def Code.touches : Code → Bool
  | .nextStep _ => false
  | .step .stepCall2 _ => false
  | .step .stepPoll2 _ => false
  | _ => true

/-- The request the code works on. -/
def Code.request : Code → Option Nat
  | .nextStep r | .step _ r | .writeResult r | .freeRefs r _ | .pollCall r | .poll3 r | .finish1 r
  | .finish2 r => some r
  | _ => none

def serverInfo : String := "server name:pxprpc for c\nversion:2.1\n"

namespace ServCo

/-- `callable->call(callable,r)` -/
@[simps] def invoke (c : ServCo) (r id : Nat) : ServCo :=
  { c with
    invoked := r :: c.invoked
    log := c.log ++ [.invoked r id (c.request r)] }

/-- `ctx->exp.last_error=ctx->exp.io->send_error; pxprpc_server_close(ctx);` when there is one. -/
def checkSend (c : ServCo) (k : Code) : ServCo × Stack :=
  if c.sendError.isSome then ({ c with lastError := c.sendError }, [.code .close, .code k])
  else (c, [.code k])

/-- A new request with the fields that `_pxprpc__step2` sets. -/
@[simps] def addRequest (c : ServCo) (session callableIndex : BitVec 32) : ServCo :=
  let parameter : PxprpcBytes := ⟨c.recvBuf.base.add 8, c.recvBuf.length - 8⟩
  { c with
    request := Function.update c.request c.nextRequest
      (prepareRequest { Request.zero with session, callableIndex, parameter })
    allocated := c.nextRequest :: c.allocated
    nextRequest := c.nextRequest + 1 }

/-- `_pxprpc__newRequest` -/
def newRequest (c : ServCo) (session callableIndex : BitVec 32) : Option ServCo :=
  (c.addRequest session callableIndex).refCountAdd 1

end ServCo

/-- `_pxprpc__step2` -/
def step2 (c : ServCo) : Option (ServCo × Stack) :=
  if c.closed then some (c, [])
  else
    let c := { c with lastError := c.receiveError }
    if c.lastError.isSome then some (c, [.code .close])
    else
      (c.readWord c.recvBuf.base).bind fun session =>
        (c.readWord (c.recvBuf.base.add 4)).bind fun callableIndex =>
          (c.read c.recvBuf.base c.recvBuf.length.toNat).bind fun frame =>
            ((c.emit (.received c.nextRequest c.recvBuf.base frame)).newRequest session callableIndex).map fun c' =>
              (c', [.code (.nextStep c.nextRequest), .code .step1])

/-- `_pxprpc__writeResult` -/
def writeResult (r : Nat) (c : ServCo) : Option (ServCo × Stack) :=
  let req := (c.request r).flip
  let c := c.setRequest r req
  if c.closed then some (c, [])
  else
    req.nextStep.map fun f =>
      ({ c with sending := (r, f) :: c.sending }.emit (.sent r req.session req.result.sent), [.ext (.send r)])

/-- `_pxprpc__stepGetFunc1`: the index of the function, or -1. -/
def getFunc (r : Nat) (c : ServCo) : Option (ServCo × BitVec 32) :=
  match c.funcmap with
  | none => some (c, -1)
  | some get =>
    (c.read (c.request r).parameter.base (c.request r).parameter.length.toNat).bind fun name =>
      match get name with
      | none => some (c, -1)
      | some func =>
        (serverAllocRef c.pool).bind fun (pool, ref2, index) =>
          (pool.deref ref2).bind fun e =>
            (pool.store ref2 { e with object := some (.callable func) }).map fun pool =>
              ({ c with pool }, BitVec.ofNat 32 index)

/-- The functions `next_step` points to. -/
def step (f : NextStep) (r : Nat) (c : ServCo) : Option (ServCo × Stack) :=
  let req := c.request r
  match f with
  | .finishRequest => some (c.checkSend (.finish1 r))
  | .stepCall2 =>
    if req.session ≠ 0xffffffff#32 then
      some (c.setRequest r { req with nextStep := some .finishRequest }, [.code (.writeResult r)])
    else some (c, [.code (.step .finishRequest r)])
  | .stepCall1 =>
    (c.callable req.callableIndex).map fun id =>
      ((c.setRequest r { req with nextStep := some .stepCall2 }).invoke r id, [.ext (.call r id)])
  | .stepFreeRef1 => some (c, [.code (.freeRefs r 0)])
  | .stepGetFunc1 =>
    (getFunc r c).map fun (c, index) =>
      (c.setRequest r { req with result := { req.result with bytes := leBytes 4 index.toNat } },
        [.code (.step .stepCall2 r)])
  | .stepClose1 => some (c, [.code .close])
  | .stepGetInfo1 =>
    some (c.setRequest r { req with result := { req.result with bytes := serverInfo.toUTF8.toList } },
      [.code (.step .stepCall2 r)])
  | .stepPoll3 => some (c.checkSend (.poll3 r))
  | .stepPoll2 => some (c.setRequest r { req with nextStep := some .stepPoll3 }, [.code (.writeResult r)])
  | .stepPoll1 =>
    (c.readWord req.parameter.base).map fun callableIndex =>
      (c.setRequest r { req with
        callableIndex
        parameter := ⟨req.parameter.base.add 4, req.parameter.length - 4⟩ }, [.code (.pollCall r)])

/-- The end of an iteration of a poll. -/
def poll3 (r : Nat) (c : ServCo) : ServCo × Stack :=
  let req := c.request r
  if req.rejected || c.closed then
    (c.setRequest r { req with
      callableIndex := -5
      parameter := ⟨req.parameter.base.add (-4), req.parameter.length + 4⟩ },
      [.code (.step .finishRequest r)])
  else
    match req.onFinish with
    | some hook => (c.emit (.polled r hook), [.ext (.onFinish r hook), .code (.pollCall r)])
    | none => (c, [.code (.pollCall r)])

/-- The next iteration of a poll. -/
def pollCall (r : Nat) (c : ServCo) : Option (ServCo × Stack) :=
  let req := prepareRequest (c.request r)
  (c.callable req.callableIndex).map fun id =>
    ((c.setRequest r { req with nextStep := some .stepPoll2 }).invoke r id, [.ext (.call r id)])

/-- `_pxprpc__finishRequest` after `on_finish`. -/
def finish2 (r : Nat) (c : ServCo) : Option (ServCo × Stack) :=
  let base := (c.request r).parameter.base
  (if base ≠ .null then c.bufFree (base.add (-8)) else some c).bind fun c =>
    (c.refCountAdd (-1)).map fun c =>
      ({ c with allocated := c.allocated.erase r }.emit (.finished r), [])

/-- One index of a freeRef request; the overflow of the `int` is undefined. -/
def freeRefs (r i : Nat) (c : ServCo) : Option (ServCo × Stack) :=
  let req := c.request r
  if 2 ^ 31 ≤ i then none
  else if i < req.parameter.length.toNat then
    (c.readWord (req.parameter.base.add i)).map fun index =>
      (c, [.code (.freeRef (serverGetRef c.pool index.toNat)), .code (.freeRefs r (i + 4))])
  else some (c, [.code (.step .stepCall2 r)])

/-- One entry of the loop of `pxprpc_server_close`. -/
def closeRefs (i : Nat) (c : ServCo) : Option (ServCo × Stack) :=
  if i < c.pool.refPoolSize.toNat then
    let ref := serverGetRef c.pool i
    (c.pool.deref ref).bind fun e =>
      match e.onFree with
      | some hook =>
        some (c.emit (.freed hook), [.ext (.onFree hook), .code (.closeUnset ref), .code (.closeRefs (i + 1))])
      | none =>
        (c.pool.store ref { e with object := none }).map fun pool =>
          ({ c with pool }, [.code (.closeRefs (i + 1))])
  else some (c, [.code .closeIo])

def exec (k : Code) (c : ServCo) : Option (ServCo × Stack) :=
  if (k.touches && !c.live) || k.request.any (· ∉ c.allocated) then none
  else
    match k with
    | .start =>
      some ({ c with
        pool := { c.pool with block := c.pool.block + 1, refPool := [], refPoolSize := 0 }
        closed := false }, [.code .step1])
    | .step1 =>
      if c.closed then some (c, []) else some ({ c with receiving := true }, [.ext .receive])
    | .step2 => step2 c
    | .nextStep r => (c.request r).nextStep.map fun f => (c, [.code (.step f r)])
    | .step f r => step f r c
    | .writeResult r => writeResult r c
    | .freeRefs r i => freeRefs r i c
    | .pollCall r => pollCall r c
    | .poll3 r => some (poll3 r c)
    | .finish1 r =>
      let hook := (c.request r).onFinish
      let rest := [.code (.finish2 r)]
      some (c.emit (.finishing r hook), match hook with
        | some hook => .ext (.onFinish r hook) :: rest
        | none => rest)
    | .finish2 r => finish2 r c
    | .close => if c.closed then some (c, []) else some ({ c with closed := true }, [.code (.closeRefs 0)])
    | .closeRefs i => closeRefs i c
    | .closeUnset ref =>
      (c.pool.deref ref).bind fun e => (c.pool.store ref { e with object := none, onFree := none }).map fun pool =>
        ({ c with pool }, [])
    | .closeIo => some (c, [.ext .ioClose, .code .closeCb])
    | .closeCb => some (c, if c.onClosed then [.ext .onClosed] else [])
    | .freeRef ref =>
      (c.pool.deref ref).map fun e =>
        match e.onFree with
        | some hook => (c.emit (.freed hook), [.ext (.onFree hook), .code (.freePush ref)])
        | none => (c, [.code (.freePush ref)])
    | .freePush ref => (pushRef ref c.pool).map fun pool => ({ c with pool }, [])
    | .delete => some (c, [.code .close, .code .deleteCount])
    | .deleteCount => (c.refCountAdd (-1)).map fun c => (c, [])

/-- The calls that the io, the callables and the owner may make. A received frame has
a length of 32 bits. -/
def enter : Entry → ServCo → Option (ServCo × Stack)
  | .start, c => if c.owner && !c.started then some ({ c with started := true }, [.code .start]) else none
  | .recvDone frame, c =>
    if c.receiving && frame.length < 2 ^ 32 then
      some ({ c with
        receiving := false
        receiveError := none
        frames := Function.update c.frames c.nextFrame (some frame)
        nextFrame := c.nextFrame + 1
        recvBuf := ⟨⟨some c.nextFrame, 0⟩, BitVec.ofNat 32 frame.length⟩ }, [.code .step2])
    else none
  | .recvError error, c =>
    if c.receiving then some ({ c with receiving := false, receiveError := some error }, [.code .step2]) else none
  | .sendDone r f, c =>
    if (r, f) ∈ c.sending then some ({ c with sending := c.sending.erase (r, f) }, [.code (.step f r)]) else none
  | .sendError error, c => some ({ c with sendError := error }, [])
  | .resume r o, c =>
    if r < c.nextRequest then
      some ({ c.setRequest r ((c.request r).complete o) with invoked := c.invoked.erase r }.emit (.resumed r o),
        [.code (.nextStep r)])
    else none
  | .close, c => if c.live then some (c, [.code .close]) else none
  | .delete, c => if c.owner then some ({ c with owner := false }, [.code .delete]) else none
  | .allocRef object onFree, c =>
    if c.live then
      (serverAllocRef c.pool).bind fun (pool, ref, _) =>
        (setRef pool ref (some object) onFree).map fun pool => ({ c with pool }, [])
    else none
  | .freeRef index, c => if c.live then some (c, [.code (.freeRef (serverGetRef c.pool index))]) else none

def program : Program ServCo Code Ext Entry := ⟨exec, enter⟩

abbrev Config := Callback.Config ServCo Code Ext

/-- What `pxprpc_server_new` makes, with the funcmap and the handler set by its owner. -/
def new (funcmap : Option (List UInt8 → Option Nat)) (onClosed : Bool) : Config :=
  ⟨{ pool := RefPool.empty, closed := false, lastError := none, funcmap, onClosed, recvBuf := ⟨.null, 0⟩,
     refCount := 1, sendError := none, receiveError := none, live := true, frames := fun _ => none,
     nextFrame := 0, request := fun _ => Request.zero, allocated := [], nextRequest := 0, started := false,
     owner := true, receiving := false, sending := [], invoked := [], log := [] }, []⟩

end PxpRpc.Server
