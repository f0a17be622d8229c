import PxpRpc.Codec.JavaTable

/-!
# Requests in the Java server

A request is one object for its whole life: `callNonbuiltinCallable` clears what
the last invocation left in it, the callable puts a result or what it rejects
with, and `done` sends that and, for a poll, goes on with the next invocation.
-/
namespace PxpRpc.Server.Java

open PxpRpc.Lib
open PxpRpc.Codec.Java

/-- What a piece of code throws, as `catch(Exception ex)` sees it. -/
inductive Thrown where
  | exception
  | error
deriving DecidableEq, Repr

/-- A `Throwable`; its `toString` in the charset of the server, or what it throws. -/
structure Throwable where
  toString : Except Thrown (List UInt8)
deriving DecidableEq, Repr

/-- `PxpRequest`; `result` is null until the callable has put it, and a buffer in
it may be null. -/
structure PxpRequest where
  session : BitVec 32
  callableIndex : BitVec 32
  parameter : ByteBuffer
  result : Option (List (Option (List UInt8)))
  rejected : Option Throwable
  pollCall : Bool
deriving DecidableEq, Repr

/-- The bytes of a word that is read from a buffer. -/
def getInt (buf : ByteBuffer) : Option (BitVec 32 × ByteBuffer) :=
  (buf.get 4).map fun (bs, buf) => (BitVec.ofNat 32 (leValue bs), buf)

/-- `ServerContext.serve`: the request in a message that has been received. -/
def receiveRequest (message : List UInt8) : Option PxpRequest :=
  (getInt (ByteBuffer.wrap message)).bind fun (session, buf) =>
    (getInt buf).map fun (callableIndex, buf) => ⟨session, callableIndex, buf, some [], none, false⟩

/-- `ServerContext.poll`: the index of the callable is taken off the parameter. -/
def poll (r : PxpRequest) : Option PxpRequest :=
  (getInt r.parameter).map fun (callableIndex, buf) =>
    { r with callableIndex := callableIndex, parameter := buf, pollCall := true }

namespace PxpRequest

/-- What `callNonbuiltinCallable` leaves to the callable. -/
def cleared (r : PxpRequest) : PxpRequest := { r with rejected := none, result := none }

def isSignal (r : PxpRequest) : Bool := r.session = 0xffffffff

/-- What `done` sends, or what is thrown before anything is sent. -/
def message (r : PxpRequest) : Except Thrown (List UInt8) :=
  match r.rejected with
  | some rejected => rejected.toString.map fun text =>
      leBytes 4 (r.session ^^^ 0x80000000).toNat ++ text
  | none => match r.result.bind fun result => result.mapM id with
    | some bufs => .ok (leBytes 4 r.session.toNat ++ bufs.flatten)
    | none => .error .exception

/-- What `done` does: the message that it sends and whether it goes on to invoke
the callable again. -/
structure Done where
  sent : Option (List UInt8)
  again : Bool
deriving DecidableEq, Repr

def again (r : PxpRequest) (running : Bool) : Bool := r.pollCall && r.rejected.isNone && running

/-- `done`; `isOpen` is whether the channel takes the message. Exceptions are
muted and end the poll, errors go through. -/
def done (r : PxpRequest) (isOpen running : Bool) : Except Thrown Done :=
  if r.isSignal then .ok ⟨none, r.again running⟩
  else match r.message with
    | .error .error => .error .error
    | .error .exception => .ok ⟨none, false⟩
    | .ok message => if isOpen then .ok ⟨some message, r.again running⟩ else .ok ⟨none, false⟩

end PxpRequest

/-! ### Parameters of a callable -/

/-- An argument: the request's own buffer, what was read from it, or the object
of a reference. -/
inductive Argument (Obj : Type) where
  | buffer (remaining : List UInt8)
  | value (cell : Cell (List UInt8))
  | object (object1 : Option Obj)
deriving DecidableEq, Repr

variable {Obj : Type}

/-- `boundServContext.getRef(addr).get()` -/
def getObject (refPool : List (Option Obj)) (addr : BitVec 32) : Option (Option Obj) :=
  if addr.msb then none else refPool[addr.toNat]?

def argument (refPool : List (Option Obj)) : Cell (List UInt8) → Option (Argument Obj)
  | .null => some (.object none)
  | .object addr => (getObject refPool addr).map .object
  | cell => some (.value cell)

/-- `tParam.length==1 && tParam[0]=='b'` -/
def isRaw (types : Utf16) : Bool := types = [ValueType.b.char]

/-- `CommonCallable.readParameter`, with the buffer of the request as it is left. -/
def readParameter (refPool : List (Option Obj)) (tParam : Utf16) (buf : ByteBuffer) :
    Option (List (Argument Obj) × ByteBuffer) :=
  if isRaw tParam then some ([.buffer buf.remaining], buf)
  else
    (TableSerializer.getRowsData tParam 1 (Serializer2.prepareUnserializing buf)).bind fun (rows, ser) =>
      rows[0]?.bind fun row => (row.mapM (argument refPool)).map fun args => (args, ser.buf)

end PxpRpc.Server.Java
