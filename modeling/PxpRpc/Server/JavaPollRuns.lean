import PxpRpc.Server.JavaRequest
import PxpRpc.Pool.RemoteFree

/-!
# The runs of a poll in the Java server

`done` calls `callNonbuiltinCallable` again, which looks the index of the callable up in
the pool as it then is; what it throws is muted, but for the first invocation, which the
thread of `serve` makes. What the callable reads of the parameter is left out here.
-/
namespace PxpRpc.Server.Java

open PxpRpc.Lib
open PxpRpc.Pool
open PxpRpc.Pool.Managed (RefPool)

/-- What a callable has put into the request when it calls `done`. -/
structure PollOutcome where
  rejected : Option Throwable
  result : Option (List (Option (List UInt8)))
deriving DecidableEq, Repr

inductive PollEvent (Callable : Type) where
  | invoked (callable : Callable)
  | completed (o : PollOutcome)
  | sent (message : List UInt8)
deriving DecidableEq, Repr

/-- Where a poll stands: before `callNonbuiltinCallable`, for the first time or not, in
its callable, at its end, or thrown out of `serve`. -/
inductive PollAt where
  | calls (first : Bool)
  | invoked
  | ended
  | thrown
deriving DecidableEq, Repr

structure PollRun (Obj Callable Hook : Type) where
  refPool : RefPool Obj Hook
  request : PxpRequest
  pollAt : PollAt
  history : List (PollEvent Callable)
deriving DecidableEq, Repr

inductive PollInput (Obj Hook : Type) where
  /-- `callNonbuiltinCallable` -/
  | calls
  /-- the callable calls `done`; whether the channel takes the message, and the server is running -/
  | done (o : PollOutcome) (isOpen running : Bool)
  /-- other requests and the application -/
  | allocates (object : Obj) (onFree : Option Hook)
  | frees (i : Nat)
deriving DecidableEq, Repr

variable {Obj Callable Hook : Type}

/-- `(PxpCallable) context.refPool[callableIndex].get()`, when it can be called. -/
def lookUp (callable : Obj → Option Callable) (refPool : RefPool Obj Hook) (index : BitVec 32) : Option Callable :=
  (getObject (refPool.refPool.map fun ref => ref.object) index).bind fun object1 => object1.bind callable

def PollOutcome.request (r : PxpRequest) (o : PollOutcome) : PxpRequest :=
  { r with rejected := o.rejected, result := o.result }

section

variable (r : PxpRequest) (c : Callable)

end

/-- When the callable is looked up the reference is that of the callable, and what the
callable completes with can be sent. -/
def Undisturbed (callable : Obj → Option Callable) (c : Callable) (s : PollRun Obj Callable Hook) :
    PollInput Obj Hook → Prop
  | .calls => lookUp callable s.refPool s.request.callableIndex = some c
  | .done o isOpen running => isOpen ∧ running ∧ ((o.request s.request).message).isOk
  | _ => True

instance [DecidableEq Callable] (callable : Obj → Option Callable) (c : Callable) (s : PollRun Obj Callable Hook)
    (i : PollInput Obj Hook) : Decidable (Undisturbed callable c s i) := by
  unfold Undisturbed
  split <;> infer_instance

variable {callable : Obj → Option Callable} {c : Callable} {r : PxpRequest} {s s' : PollRun Obj Callable Hook}
  {i : PollInput Obj Hook}

end PxpRpc.Server.Java
