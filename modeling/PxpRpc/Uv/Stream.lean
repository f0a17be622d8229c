import PxpRpc.Lib.Callback

/-!
# Streams over RPC

Reads and accepts wait in queues; data, connections and errors come from libuv. To
resolve or reject a request is an external call, in which the client may already send
its next request. Popping an empty queue and copying a negative number of bytes have no
result.
-/
namespace PxpRpc.Uv.Stream

open PxpRpc.Lib PxpRpc.Lib.Callback

inductive Kind where
  | read
  | accept
  | write
  | connect
deriving DecidableEq, Repr

/-- A request, by the number of its call. -/
structure Op where
  kind : Kind
  p : Nat
deriving DecidableEq, Repr

/-- What an `AsyncReturn` is given; `object` is a reference to a new stream. -/
inductive Outcome where
  | bytes (bs : List UInt8)
  | object
  | int (v : Int)
  | rejected (errcode : Int)
deriving DecidableEq, Repr

/-- `UvStreamWrap`; the writes and connects that libuv has to report on; how many
requests have been made, what libuv has delivered, and the requests completed, in the
order of completion; how many had been completed and made when libuv reported the first
error. -/
structure UvStreamWrap where
  readBuf : List UInt8
  readWaiting : List Nat
  acceptWaiting : List Nat
  errcode : Int
  writing : List Nat
  connecting : List Nat
  calls : Nat
  received : List UInt8
  log : List (Op × Outcome)
  failed : Option (Nat × Nat)
deriving DecidableEq, Repr

/-- `nread` of a read callback, with the bytes read where it is not negative. -/
inductive Nread where
  | data (bs : List UInt8)
  | error (errcode : Int)
deriving DecidableEq, Repr

inductive Code where
  | pushError (errcode : Int)
  | pushData (nread : Nread)
  | processing
  /-- `readWaiting.pop_front(); readBuf.clear()` -/
  | clear
  /-- `if(errcode<0)` -/
  | fail
  /-- the head of the loop over the reads -/
  | failRead
  | popRead
  /-- the head of the loop over the accepts -/
  | failAccept
  | popAccept
  | pushConn
  | popConn
  | pullData (p : Nat)
  | acceptConn (p : Nat)
  /-- `uv_write` will return `r`. -/
  | writeData (p : Nat) (r : Int)
  | uvWrite (p : Nat) (r : Int)
  /-- The callback of `uv_write`. -/
  | written (p : Nat) (stat : Int)
  /-- `uv_ip4_addr`, `uv_ip6_addr` and `uv_tcp_connect` will return these. -/
  | tcpConnect (p : Nat) (ip4 ip6 r : Int)
  /-- The callback of `uv_tcp_connect`. -/
  | connected (p : Nat) (stat : Int)
deriving DecidableEq, Repr

inductive Entry where
  | read
  | accept
  | write (r : Int)
  | tcpConnect (ip4 ip6 r : Int)
  | nread (nread : Nread)
  /-- `_UvStreamWrapConnection` -/
  | connection (status : Int)
  | written (p : Nat) (stat : Int)
  | connected (p : Nat) (stat : Int)
deriving DecidableEq, Repr

abbrev Stack := List (Item Code Op)

namespace UvStreamWrap

/-- A request is resolved or rejected. -/
def complete (s : UvStreamWrap) (kind : Kind) (p : Nat) (o : Outcome) : UvStreamWrap :=
  { s with log := s.log ++ [(⟨kind, p⟩, o)] }

def call (s : UvStreamWrap) : UvStreamWrap := { s with calls := s.calls + 1 }

/-- libuv reports an error. -/
def fails (s : UvStreamWrap) : UvStreamWrap := { s with failed := s.failed.or (some (s.log.length, s.calls)) }

end UvStreamWrap

def exec (k : Code) (s : UvStreamWrap) : Option (UvStreamWrap × Stack) :=
  match k with
  | .pushError errcode => some ({ s with errcode }, [.code .processing])
  | .pushData (.data []) => some (s, [])
  | .pushData (.data bs) =>
      if s.readBuf.length > 1024 * 1024 then some (s, [])
      else some ({ s with readBuf := s.readBuf ++ bs }, [.code .processing])
  | .pushData (.error _) => if s.readBuf.length > 1024 * 1024 then some (s, []) else none
  | .processing =>
      match s.readWaiting with
      | [] => some (s, [.code .fail])
      | p :: _ =>
        if s.readBuf = [] then some (s, [.code .fail])
        else some (s.complete .read p (.bytes s.readBuf), [.ext ⟨.read, p⟩, .code .clear])
  | .clear =>
      match s.readWaiting with
      | [] => none
      | _ :: readWaiting => some ({ s with readWaiting, readBuf := [] }, [.code .fail])
  | .fail => if s.errcode < 0 then some (s, [.code .failRead]) else some (s, [])
  | .failRead =>
      match s.readWaiting with
      | [] => some (s, [.code .failAccept])
      | p :: _ => some (s.complete .read p (.rejected s.errcode), [.ext ⟨.read, p⟩, .code .popRead])
  | .popRead =>
      match s.readWaiting with
      | [] => none
      | _ :: readWaiting => some ({ s with readWaiting }, [.code .failRead])
  | .failAccept =>
      match s.acceptWaiting with
      | [] => some (s, [])
      | p :: _ => some (s.complete .accept p (.rejected s.errcode), [.ext ⟨.accept, p⟩, .code .popAccept])
  | .popAccept =>
      match s.acceptWaiting with
      | [] => none
      | _ :: acceptWaiting => some ({ s with acceptWaiting }, [.code .failAccept])
  | .pushConn =>
      match s.acceptWaiting with
      | [] => some (s, [])
      | p :: _ => some (s.complete .accept p .object, [.ext ⟨.accept, p⟩, .code .popConn])
  | .popConn =>
      match s.acceptWaiting with
      | [] => none
      | _ :: acceptWaiting => some ({ s with acceptWaiting }, [])
  | .pullData p => some ({ s with readWaiting := s.readWaiting ++ [p] }, [.code .processing])
  | .acceptConn p => some ({ s with acceptWaiting := s.acceptWaiting ++ [p] }, [.code .processing])
  | .writeData p r =>
      if s.errcode < 0 then
        some (s.complete .write p (.rejected s.errcode), [.ext ⟨.write, p⟩, .code (.uvWrite p r)])
      else some (s, [.code (.uvWrite p r)])
  | .uvWrite p r =>
      -- what `uv_write` returns is not looked at: when it is negative no callback follows
      if r < 0 then some (s, []) else some ({ s with writing := s.writing ++ [p] }, [])
  | .written p stat =>
      some ({ s with writing := s.writing.erase p }.complete .write p
        (if stat < 0 then .rejected stat else .int stat), [.ext ⟨.write, p⟩])
  | .tcpConnect p ip4 ip6 r =>
      -- nor is what `connect` returns
      if (ip4 < 0 ∧ ip6 < 0) ∨ r < 0 then some (s, [])
      else some ({ s with connecting := s.connecting ++ [p] }, [])
  | .connected p stat =>
      some ({ s with connecting := s.connecting.erase p }.complete .connect p
        (if stat < 0 then .rejected stat else .object), [.ext ⟨.connect, p⟩])

/-- A request is made, or libuv calls back. -/
def enter (e : Entry) (s : UvStreamWrap) : Option (UvStreamWrap × Stack) :=
  match e with
  | .read => some (s.call, [.code (.pullData s.calls)])
  | .accept => some (s.call, [.code (.acceptConn s.calls)])
  | .write r => some (s.call, [.code (.writeData s.calls r)])
  | .tcpConnect ip4 ip6 r => some (s.call, [.code (.tcpConnect s.calls ip4 ip6 r)])
  | .nread (.data bs) => some ({ s with received := s.received ++ bs }, [.code (.pushData (.data bs))])
  | .nread (.error errcode) => if errcode < 0 then some (s.fails, [.code (.pushData (.error errcode))]) else none
  | .connection status =>
      if status = 0 then some (s, [.code .pushConn])
      else if status < 0 then some (s.fails, [.code (.pushError status)])
      else none
  | .written p stat => if p ∈ s.writing then some (s, [.code (.written p stat)]) else none
  | .connected p stat => if p ∈ s.connecting then some (s, [.code (.connected p stat)]) else none

def program : Program UvStreamWrap Code Op Entry := ⟨exec, enter⟩

abbrev Config := Callback.Config UvStreamWrap Code Op

/-- A stream on which nothing has been asked for yet. -/
def opened : Config := ⟨⟨[], [], [], 0, [], [], 0, [], [], none⟩, []⟩

end PxpRpc.Uv.Stream
