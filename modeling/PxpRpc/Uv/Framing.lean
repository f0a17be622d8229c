import PxpRpc.Lib.Run
import PxpRpc.Lib.Bytes

/-!
# Packet framing over a libuv stream

`__sockUvReadCb` reads a length into `recvBuf->length`, then a body of that many
bytes. libuv puts each chunk of the stream where `__sockUvAllocCb` says before it
calls back with the size of the chunk.
-/
namespace PxpRpc.Uv

open PxpRpc.Lib

/-- `struct pxprpc_bytes`, with the four bytes of its length. -/
structure PxprpcBytes where
  base : Option Block
  length : List UInt8
deriving DecidableEq, Repr

/-- Where `uv_buf_t.base` points. -/
inductive Base where
  | null
  | length (off : Nat)
  | body (off : Nat)
deriving DecidableEq, Repr

def Base.add : Base → Nat → Base
  | .null, _ => .null
  | .length off, n => .length (off + n)
  | .body off, n => .body (off + n)

/-- `uv_buf_t` -/
structure UvBuf where
  base : Base
  len : Nat
deriving DecidableEq, Repr

/-- The receiving side of `struct _pxprpc_libuv_sockconn`; the callback is its
argument, and `reading` is whether the stream is started. -/
structure SockConn where
  recvBuf : Option PxprpcBytes
  nextBuf : UvBuf
  readCb : Option Nat
  reading : Bool
  receiveError : Option String
deriving DecidableEq, Repr

/-- A call of `onCompleted`: its argument, and the buffer and error it finds. -/
structure Completion where
  args : Nat
  buf : PxprpcBytes
  error : Option String
deriving DecidableEq, Repr

/-- `__sockAbsIo1Receive` -/
def sockAbsIo1Receive (self : SockConn) (buf : PxprpcBytes) (p : Nat) : SockConn × List Completion :=
  if self.recvBuf.isSome then
    let error := some "overlap read is not allowed"
    ({ self with receiveError := error }, [⟨p, buf, error⟩])
  else
    ({ recvBuf := some ⟨none, leBytes 4 0⟩, nextBuf := ⟨.length 0, 4⟩, readCb := some p,
       reading := true, receiveError := none }, [])

/-- The end of both branches of the read callback that finish a receive: `buf` is
what they leave in the caller's buffer. -/
def complete (self : SockConn) (buf : PxprpcBytes) : SockConn × List Completion :=
  ({ self with recvBuf := none, reading := false, readCb := none },
    (self.readCb.map fun args => ⟨args, buf, self.receiveError⟩).toList)

/-- `__sockUvReadCb`; `strerror` is `uv_strerror` -/
def sockUvReadCb (strerror : Int → String) (self : SockConn) (nread : Int) :
    Option (SockConn × List Completion) :=
  self.recvBuf.bind fun buf =>
    if 0 < nread then
      match buf.base with
      | none =>
        let length := leValue buf.length
        some ({ self with
          recvBuf := some { buf with base := some (Block.malloc length) }
          nextBuf := ⟨.body 0, length⟩ }, [])
      | some _ =>
        let nextBuf := ⟨self.nextBuf.base.add nread.toNat, self.nextBuf.len - nread.toNat⟩
        if nextBuf.len = 0 then some (complete { self with nextBuf } buf)
        else some ({ self with nextBuf }, [])
    else if nread < 0 then
      some (complete { self with
        receiveError := some (strerror nread)
        nextBuf := { self.nextBuf with base := .null } } { buf with base := none })
    else some (self, [])

/-- What `__sockAbsIo1Send` hands to `uv_write` for the buffer parts `buf`. -/
def sockAbsIo1Send (buf : List (List UInt8)) : List (List UInt8) :=
  let packetSize : BitVec 32 := (buf.map fun part => BitVec.ofNat 32 part.length).sum
  leBytes 4 packetSize.toNat :: buf

/-! ### The stream -/

/-- libuv copies a chunk to where the buffer it was given points. -/
def fill (self : SockConn) (chunk : List UInt8) : Option SockConn :=
  self.recvBuf.bind fun buf =>
    match self.nextBuf.base with
    | .null => none
    | .length off =>
      some { self with recvBuf := some { buf with
        length := buf.length.take off ++ chunk ++ buf.length.drop (off + chunk.length) } }
    | .body off =>
      buf.base.bind fun base => (base.write off chunk).map fun base =>
        { self with recvBuf := some { buf with base := some base } }

/-- A connection, the bytes of the stream still to be read, the receives made and
the completions of them. -/
structure Conn where
  sock : SockConn
  wire : List UInt8
  started : Nat
  done : List Completion
deriving DecidableEq, Repr

inductive Event where
  | receive
  | read (n : Nat)
deriving DecidableEq, Repr

/-- One receive follows the other, and libuv reads at least one byte and at most
what its buffer and the stream hold. -/
def step (c : Conn) : Event → Option Conn
  | .receive =>
    if c.sock.recvBuf.isSome then none
    else
      let (sock, done) := sockAbsIo1Receive c.sock ⟨none, leBytes 4 0⟩ c.started
      some { c with sock, started := c.started + 1, done := c.done ++ done }
  | .read n =>
    if c.sock.reading ∧ 0 < n ∧ n ≤ c.sock.nextBuf.len ∧ n ≤ c.wire.length then
      (fill c.sock (c.wire.take n)).bind fun sock =>
        (sockUvReadCb (fun _ => "") sock n).map fun (sock, done) =>
          { c with sock, wire := c.wire.drop n, done := c.done ++ done }
    else none

/-- A packet whose length fits in four bytes. -/
abbrev Packet := { bs : List UInt8 // bs.length < 2 ^ 32 }

/-- A packet after its length. -/
def frame (p : Packet) : List UInt8 := leBytes 4 p.1.length ++ p.1

def frames (ps : List Packet) : List UInt8 := ps.flatMap frame

/-- A fresh connection on the stream of the packets `ps`. -/
def connect (ps : List Packet) : Conn := ⟨⟨none, ⟨.null, 0⟩, none, false, none⟩, frames ps, 0, []⟩

/-! ### What is delivered -/

/-- The `i`th receive completes with the packet. -/
def delivery (p : Packet) (i : Nat) : Completion := ⟨i, ⟨some (p.1.map some), leBytes 4 p.1.length⟩, none⟩

/-- The receives complete one after the other, each with the next packet. -/
def deliveries (ps : List Packet) : List Completion := ps.zipIdx.map fun (p, i) => delivery p i

/-- Neither a receive nor a read is possible. -/
def Quiet (c : Conn) : Prop := ∀ e, step c e = none

/-- The connection waits for the length of a packet. -/
def AtLength (self : SockConn) : Prop := self.recvBuf = some ⟨none, leBytes 4 0⟩ ∧ self.nextBuf = ⟨.length 0, 4⟩

/-- Packets are received in order, each by the one completion of one receive; and
when nothing more can happen all of them have been, and no byte beyond them is taken. -/
structure Delivers (ps : List Packet) (c : Conn) : Prop where
  order : c.done <+: deliveries ps
  once : c.done.length + c.sock.readCb.toList.length = c.started
  all : Quiet c → c.done = deliveries ps ∧ c.wire = [] ∧ AtLength c.sock

/-- A read of the length takes all four bytes. -/
def WholeLength (c : Conn) : Event → Prop
  | .receive => True
  | .read n => (∀ buf ∈ c.sock.recvBuf, buf.base = none) → n = 4

instance (c : Conn) (e : Event) : Decidable (WholeLength c e) :=
  match e with
  | .receive => isTrue trivial
  | .read n =>
    match h : c.sock.recvBuf with
    | none => decidable_of_iff (n = 4) (by simp [WholeLength, h])
    | some buf => decidable_of_iff (buf.base = none → n = 4) (by simp [WholeLength, h])

end PxpRpc.Uv
