import PxpRpc.Lib.Bytes
import PxpRpc.Pool.Native

/-!
# The state of a C server context

Requests, received frames and the context itself are blocks of memory; the lists
of allocated ones say which may still be touched. What the io and the callables
owe the server, and the history, are kept beside the memory.
-/
namespace PxpRpc.Server

open PxpRpc.Lib PxpRpc.Pool PxpRpc.Pool.Native

/-- An address: a block and an offset into it, or a bare number. -/
structure Addr where
  block : Option Nat
  off : Int
deriving DecidableEq, Repr

namespace Addr

def null : Addr := ⟨none, 0⟩

def add (a : Addr) (n : Int) : Addr := ⟨a.block, a.off + n⟩

end Addr

/-- `struct pxprpc_bytes` -/
structure PxprpcBytes where
  base : Addr
  length : BitVec 32
deriving DecidableEq, Repr

/-- The functions that `next_step` may point to. -/
inductive NextStep where
  | finishRequest
  | stepCall2
  | stepCall1
  | stepFreeRef1
  | stepGetFunc1
  | stepClose1
  | stepGetInfo1
  | stepPoll3
  | stepPoll2
  | stepPoll1
deriving DecidableEq, Repr

/-- `pxprpc_request.result`: the bytes of the part itself and of the parts behind it. -/
structure BufferPart where
  bytes : List UInt8
  nextPart : List (List UInt8)
deriving DecidableEq, Repr

/-- `pxprpc_request`; callbacks and user data are named by numbers. -/
structure Request where
  session : BitVec 32
  callableIndex : BitVec 32
  parameter : PxprpcBytes
  onFinish : Option Nat
  result : BufferPart
  rejected : Bool
  callableData : Option Nat
  nextStep : Option NextStep
deriving DecidableEq, Repr

/-- What a pool entry points to: a callable, or an object of some other kind. -/
inductive Obj where
  | callable (id : Nat)
  | other (id : Nat)
deriving DecidableEq, Repr

/-- What a callable leaves in the request before it calls `next_step`. -/
structure Outcome where
  rejected : Bool
  result : BufferPart
  onFinish : Option Nat
  callableData : Option Nat
  /-- the callable sets `parameter.base=NULL` to own the buffer -/
  ownsParameter : Bool
deriving DecidableEq, Repr

inductive Event where
  | received (r : Nat) (base : Addr) (frame : List UInt8)
  | invoked (r : Nat) (id : Nat) (req : Request)
  | resumed (r : Nat) (o : Outcome)
  | sent (r : Nat) (session : BitVec 32) (result : BufferPart)
  /-- `on_finish` between two iterations of a poll -/
  | polled (r : Nat) (hook : Nat)
  /-- `_pxprpc__finishRequest` up to its call of `on_finish` -/
  | finishing (r : Nat) (hook : Option Nat)
  | bufFree (block : Nat)
  | finished (r : Nat)
  | freed (hook : Nat)
  | released
deriving DecidableEq, Repr

/-- `struct _pxprpc__ServCo` with its exports, the memory and the environment. -/
structure ServCo where
  -- the context
  pool : RefPool Obj Nat
  closed : Bool
  lastError : Option String
  funcmap : Option (List UInt8 → Option Nat)
  onClosed : Bool
  recvBuf : PxprpcBytes
  refCount : Int
  -- its io
  sendError : Option String
  receiveError : Option String
  -- memory
  live : Bool
  frames : Nat → Option (List UInt8)
  nextFrame : Nat
  request : Nat → Request
  allocated : List Nat
  nextRequest : Nat
  -- the environment
  started : Bool
  owner : Bool
  receiving : Bool
  sending : List (Nat × NextStep)
  invoked : List Nat
  log : List Event

/-- A zeroed request. -/
def Request.zero : Request := ⟨0, 0, ⟨.null, 0⟩, none, ⟨[], []⟩, false, none, none⟩

/-- The handler `_pxprpc__prepareRequest` chooses. -/
def handler (callableIndex : BitVec 32) (nextStep : Option NextStep) : Option NextStep :=
  if 0 ≤ callableIndex.toInt then some .stepCall1
  else
    match -callableIndex.toInt with
    | 1 => some .stepGetFunc1
    | 2 => some .stepFreeRef1
    | 3 => some .stepClose1
    | 4 => some .stepGetInfo1
    | 5 => some .stepPoll1
    | _ => nextStep

/-- `_pxprpc__prepareRequest` -/
def prepareRequest (req : Request) : Request :=
  { req with
    result := ⟨[], []⟩
    onFinish := none
    rejected := false
    callableData := none
    nextStep := handler req.callableIndex req.nextStep }

/-- What a callable writes to the request. -/
def Request.complete (req : Request) (o : Outcome) : Request :=
  { req with
    rejected := o.rejected
    result := o.result
    onFinish := o.onFinish
    callableData := o.callableData
    parameter := if o.ownsParameter then { req.parameter with base := .null } else req.parameter }

/-- The session of a rejected request marks its response as an error. -/
def Request.flip (req : Request) : Request :=
  if req.rejected then { req with session := req.session ^^^ 0x80000000#32 } else req

/-- What is sent of a result: an empty part ends the list of parts. -/
def BufferPart.sent (result : BufferPart) : BufferPart := if result.bytes = [] then ⟨[], []⟩ else result

namespace ServCo

@[simps] def emit (c : ServCo) (e : Event) : ServCo := { c with log := c.log ++ [e] }

@[simps] def setRequest (c : ServCo) (r : Nat) (req : Request) : ServCo :=
  { c with request := Function.update c.request r req }

/-- Reading `n` bytes at an address. -/
def read (c : ServCo) (a : Addr) (n : Nat) : Option (List UInt8) :=
  match a.block with
  | none => if n = 0 then some [] else none
  | some b =>
    (c.frames b).bind fun bytes =>
      if 0 ≤ a.off ∧ a.off + n ≤ bytes.length then some ((bytes.drop a.off.toNat).take n) else none

/-- `*(uint32_t *)a` -/
def readWord (c : ServCo) (a : Addr) : Option (BitVec 32) :=
  (c.read a 4).map fun bs => BitVec.ofNat 32 (leValue bs)

/-- `io->buf_free(a)`; freeing anything but the start of an allocated block is undefined. -/
def bufFree (c : ServCo) (a : Addr) : Option ServCo :=
  match a.block with
  | none => if a.off = 0 then some c else none
  | some b =>
    if a.off = 0 ∧ (c.frames b).isSome then
      some ({ c with frames := Function.update c.frames b none }.emit (.bufFree b))
    else none

/-- The context with a new count; it is released when the count gets to 0. -/
@[simps] def counted (c : ServCo) (addend : Int) : ServCo :=
  { c with
    refCount := c.refCount + addend
    live := c.live && decide (c.refCount + addend ≠ 0)
    log := c.log ++ if c.refCount + addend = 0 then [.released] else [] }

/-- `pxprpc_refCount_add`; the overflow of the `int32_t` is undefined. -/
def refCountAdd (c : ServCo) (addend : Int) : Option ServCo :=
  if -2 ^ 31 ≤ c.refCount + addend ∧ c.refCount + addend < 2 ^ 31 then some (c.counted addend) else none

/-- `ctx->exp.ref_pool[index].object` used as a callable. -/
def callable (c : ServCo) (index : BitVec 32) : Option Nat :=
  if 0 ≤ index.toInt then
    match (c.pool.refPool[index.toInt.toNat]?).bind PxpRef.object with
    | some (.callable id) => some id
    | _ => none
  else none

end ServCo

end PxpRpc.Server
