import PxpRpc.Lib.Callback
import PxpRpc.Lib.Bytes

/-!
# The in-process pipe connection

Both ends run the same code with the sides exchanged. Completion callbacks are
external calls made in the middle of it, and may call the connection again. A
piece of code that would touch memory already freed has no result.
-/
namespace PxpRpc.Pipe

open PxpRpc.Lib PxpRpc.Lib.Callback

inductive Side where
  | client
  | server
deriving DecidableEq, Repr

def Side.other : Side → Side
  | .client => .server
  | .server => .client

/-- A send or a receive, by the argument of its callback. -/
inductive Op where
  | send (s : Side) (p : Nat)
  | receive (s : Side) (p : Nat)
deriving DecidableEq, Repr

def Op.p : Op → Nat
  | .send _ p => p
  | .receive _ p => p

/-- `_pxpIoReq` of a send. -/
structure IoReq where
  buf : List (List UInt8)
  p : Nat
deriving DecidableEq, Repr

def errorOverlapedReceive : String := "Overlapped receive is not supported"
def errorConnectionClosed : String := "Connection closed."

/-- What `_pxprpcPipeConnection` has for one of its sides. -/
structure End where
  send : List IoReq
  recv : Option Nat
  closed : Bool
  sendError : Option String
  receiveError : Option String
deriving DecidableEq, Repr

/-- What has happened on the connection. -/
inductive Event where
  | called (op : Op)
  | sent (s : Side) (r : IoReq)
  | delivered (s : Side) (p : Nat) (r : IoReq) (buf : Block)
  | completed (op : Op) (error : Option String)
  | freed
deriving DecidableEq, Repr

/-- `_pxprpcPipeConnection`, whether it is allocated, the send requests that are,
the number of calls made and the history. -/
structure Conn where
  ends : Side → End
  live : Bool
  heap : List Op
  calls : Nat
  log : List Event

inductive Code where
  | send (s : Side) (p : Nat) (buf : List (List UInt8))
  | receive (s : Side) (p : Nat)
  | close (s : Side)
  /-- the half of `_pxprpcPipePump` that gives side `s` what the other side sent -/
  | pump (s : Side)
  /-- `req->onCompleted(req->p)` after the receive has completed -/
  | pumpReq (s : Side) (r : IoReq)
  | pumpFree (s : Side) (r : IoReq)
  | closeRecv (s : Side)
  /-- the head of the loop over the sends of side `s` -/
  | closeSend (s : Side)
  /-- the loop body after `req->onCompleted(req->p)` -/
  | closeNext (s : Side) (r : IoReq)
  | closeFree
deriving DecidableEq, Repr

inductive Entry where
  | send (s : Side) (buf : List (List UInt8))
  | receive (s : Side)
  | close (s : Side)
deriving DecidableEq, Repr

/-! ### Memory -/

/-- One part of a packet is copied behind the parts before it. -/
def transferPart (st : Block × BitVec 32) (part : List UInt8) : Option (Block × BitVec 32) :=
  (st.1.write st.2.toNat part).map fun base => (base, st.2 + BitVec.ofNat 32 part.length)

/-- `_pxpTransferBuffer`: what is in the buffer of the receive afterwards; writing
past the end of what was allocated for it is undefined. -/
def transferBuffer (providerBuffer : List (List UInt8)) : Option Block :=
  let length : BitVec 32 := (providerBuffer.map fun part => BitVec.ofNat 32 part.length).sum
  (providerBuffer.foldlM transferPart (Block.malloc length.toNat, 0)).map Prod.fst

/-- The code reads or writes the connection. -/
def Code.touches : Code → Bool
  | .pumpReq .. => false
  | .pumpFree .. => false
  | _ => true

/-! ### Code -/

namespace Conn

def setEnd (c : Conn) (s : Side) (e : End) : Conn := { c with ends := Function.update c.ends s e }

def emit (c : Conn) (e : Event) : Conn := { c with log := c.log ++ [e] }

/-- A user calls an operation. -/
def call (c : Conn) (op : Op) : Conn := { c with calls := c.calls + 1 }.emit (.called op)

/-- `pxprpc__malloc` of a send request. -/
def malloc (c : Conn) (op : Op) : Conn := { c with heap := op :: c.heap }

/-- `pxprpc__free(req)` -/
def free (c : Conn) (op : Op) : Conn := { c with heap := c.heap.erase op }

/-- `pxprpc__free(conn)` -/
def release (c : Conn) : Conn := { c with live := false }.emit .freed

def anyClosed (c : Conn) : Bool := (c.ends .client).closed || (c.ends .server).closed

def bothClosed (c : Conn) : Bool := (c.ends .client).closed && (c.ends .server).closed

/-- The error the caller of an operation finds at its end. -/
def error (c : Conn) : Op → Option String
  | .send s _ => (c.ends s).sendError
  | .receive s _ => (c.ends s).receiveError

/-- `onCompleted(p)` -/
def complete (c : Conn) (op : Op) : Conn := c.emit (.completed op (c.error op))

end Conn

abbrev Stack := List (Item Code Op)

/-- `_pxprpcPipePump` -/
def pump : Stack := [.code (.pump .client), .code (.pump .server)]

/-- `_pxprpcPipeConnectionClosing` after the errors are set. -/
def closing : Stack :=
  [.code (.closeRecv .server), .code (.closeRecv .client), .code (.closeSend .server),
    .code (.closeSend .client), .code .closeFree]

/-- `_pxprpcPipeConnectionClientSend` and `_pxprpcPipeConnectionServerSend` -/
def connectionSend (s : Side) (p : Nat) (buf : List (List UInt8)) (c : Conn) : Conn × Stack :=
  let c := c.setEnd s { c.ends s with sendError := none }
  if c.anyClosed then
    let c := c.setEnd s { c.ends s with sendError := some errorConnectionClosed }
    (c.complete (.send s p), [.ext (.send s p)])
  else
    let c := c.setEnd s { c.ends s with send := (c.ends s).send ++ [⟨buf, p⟩] }
    (c.malloc (.send s p), pump)

/-- `_pxprpcPipeConnectionClientReceive` and `_pxprpcPipeConnectionServerRecv` -/
def connectionReceive (s : Side) (p : Nat) (c : Conn) : Conn × Stack :=
  let c := c.setEnd s { c.ends s with receiveError := none }
  if (c.ends s).recv.isSome then
    let c := c.setEnd s { c.ends s with receiveError := some errorOverlapedReceive }
    (c.complete (.receive s p), [.ext (.receive s p)])
  else if c.anyClosed then
    let c := c.setEnd s { c.ends s with receiveError := some errorConnectionClosed }
    (c.complete (.receive s p), [.ext (.receive s p)])
  else (c.setEnd s { c.ends s with recv := some p }, pump)

/-- `_pxprpcPipeConnectionServerClose` and `_pxprpcPipeConnectionClientClose` -/
def connectionClose (s : Side) (c : Conn) : Conn × Stack :=
  let c := c.setEnd s { c.ends s with closed := true }
  ({ c with ends := fun t => { c.ends t with
      sendError := some errorConnectionClosed, receiveError := some errorConnectionClosed } }, closing)

/-- One half of `_pxprpcPipePump`. -/
def pumpTo (s : Side) (c : Conn) : Option (Conn × Stack) :=
  match (c.ends s).recv, (c.ends s.other).send with
  | some p, r :: send =>
    if .send s.other r.p ∈ c.heap then
      (transferBuffer r.buf).map fun buf =>
        let c := c.setEnd s.other { c.ends s.other with send }
        let c := c.setEnd s { c.ends s with recv := none }
        ((c.emit (.delivered s p r buf)).complete (.receive s p),
          [.ext (.receive s p), .code (.pumpReq s.other r)])
    else none
  | _, _ => some (c, [])

/-- What is linked behind `req`. -/
def behind (req : IoReq) (send : List IoReq) : List IoReq := (send.dropWhile fun r => r.p != req.p).tail

def exec (k : Code) (c : Conn) : Option (Conn × Stack) :=
  if k.touches && !c.live then none
  else
    match k with
    | .send s p buf => some (connectionSend s p buf c)
    | .receive s p => some (connectionReceive s p c)
    | .close s => some (connectionClose s c)
    | .pump s => pumpTo s c
    | .pumpReq s r =>
      if .send s r.p ∈ c.heap then
        some (c.complete (.send s r.p), [.ext (.send s r.p), .code (.pumpFree s r)])
      else none
    | .pumpFree s r =>
      if .send s r.p ∈ c.heap then some (c.free (.send s r.p), []) else none
    | .closeRecv s =>
      match (c.ends s).recv with
      | none => some (c, [])
      | some p =>
        some ((c.setEnd s { c.ends s with recv := none }).complete (.receive s p), [.ext (.receive s p)])
    | .closeSend s =>
      match (c.ends s).send with
      | [] => some (c, [])
      | r :: _ =>
        if .send s r.p ∈ c.heap then
          some (c.complete (.send s r.p), [.ext (.send s r.p), .code (.closeNext s r)])
        else none
    | .closeNext s r =>
      if .send s r.p ∈ c.heap then
        let c := c.setEnd s { c.ends s with send := behind r (c.ends s).send }
        some (c.free (.send s r.p), [.code (.closeSend s)])
      else none
    | .closeFree =>
      if c.bothClosed then some (c.release, []) else some (c, [])

def enter : Entry → Conn → Option (Conn × Stack)
  | .send s buf, c =>
    some ((c.call (.send s c.calls)).emit (.sent s ⟨buf, c.calls⟩), [.code (.send s c.calls buf)])
  | .receive s, c => some (c.call (.receive s c.calls), [.code (.receive s c.calls)])
  | .close s, c => some (c, [.code (.close s)])

def program : Program Conn Code Op Entry := ⟨exec, enter⟩

abbrev Config := Callback.Config Conn Code Op

/-- What `pxprpc_pipe_connect` makes. -/
def connect : Config := ⟨⟨fun _ => ⟨[], none, false, none, none⟩, true, [], 0, []⟩, []⟩

/-! ### Transfers -/

theorem transferParts_holds {parts : List (List UInt8)} :
    ∀ {base : Block} {off : BitVec 32} {bs : List UInt8}, base.Holds bs → off.toNat = bs.length →
      bs.length + parts.flatten.length ≤ base.length → base.length < 2 ^ 32 →
      ∃ base' off', parts.foldlM transferPart (base, off) = some (base', off') ∧
        base'.length = base.length ∧ base'.Holds (bs ++ parts.flatten) := by
  induction parts with
  | nil => exact fun {base off bs} hb _ _ _ => ⟨base, off, rfl, rfl, by simpa using hb⟩
  | cons part parts ih =>
    intro base off bs hb hoff hle hlt
    rw [List.flatten_cons, List.length_append] at hle
    obtain ⟨base₁, hw, hlen, hb₁⟩ := @Block.Holds.write _ _ part hb (by omega)
    have hoff₁ : (off + BitVec.ofNat 32 part.length).toNat = (bs ++ part).length := by
      rw [BitVec.toNat_add, BitVec.toNat_ofNat, hoff, List.length_append]
      omega
    obtain ⟨base', off', hf, hlen', hb'⟩ := ih hb₁ hoff₁ (by rw [List.length_append]; omega) (by omega)
    refine ⟨base', off', ?_, hlen'.trans hlen, by simpa using hb'⟩
    rw [List.foldlM_cons, transferPart, hoff, hw]
    exact hf

theorem transferParts_le {parts : List (List UInt8)} :
    ∀ {base base' : Block} {off off' : BitVec 32}, off.toNat ≤ base.length → base.length < 2 ^ 32 →
      parts.foldlM transferPart (base, off) = some (base', off') →
      off.toNat + parts.flatten.length ≤ base.length := by
  induction parts with
  | nil => exact fun {base base' off off'} hle _ _ => by simpa using hle
  | cons part parts ih =>
    intro base base' off off' hle hlt hf
    rw [List.foldlM_cons] at hf
    obtain ⟨⟨base₁, off₁⟩, hp, hf⟩ := Option.bind_eq_some_iff.mp hf
    obtain ⟨base₂, hw, he⟩ := Option.map_eq_some_iff.mp hp
    obtain ⟨rfl, rfl⟩ := Prod.mk.inj he
    have hlen := Block.length_write hw
    have hfit : off.toNat + part.length ≤ base.length := by
      rw [Block.write] at hw
      split at hw
      · assumption
      · cases hw
    have hoff : (off + BitVec.ofNat 32 part.length).toNat = off.toNat + part.length := by
      rw [BitVec.toNat_add, BitVec.toNat_ofNat]
      omega
    have := ih (by rw [hoff, hlen]; exact hfit) (by rw [hlen]; exact hlt) hf
    rw [List.flatten_cons, List.length_append]
    rw [hoff, hlen] at this
    dsimp only at this ⊢
    omega

/-- The buffer of a receive ends up as the packet. -/
theorem transferBuffer_eq {buf : List (List UInt8)} (h : buf.flatten.length < 2 ^ 32) :
    transferBuffer buf = some (buf.flatten.map some) := by
  have hsum := toNat_sum_ofNat buf
  rw [Nat.mod_eq_of_lt h] at hsum
  obtain ⟨base, off, hf, hlen, hb⟩ := @transferParts_holds buf (Block.malloc buf.flatten.length) 0 []
    (Block.Holds.malloc _) rfl (by simp) (by simpa using h)
  rw [transferBuffer, hsum]
  rw [show buf.foldlM transferPart (Block.malloc buf.flatten.length, 0) = some (base, off) from hf]
  exact congrArg some (hb.whole (by simpa using hlen))

/-- A packet whose length does not fit is written past the end of the buffer. -/
theorem transferBuffer_overflow {buf : List (List UInt8)} (h : 2 ^ 32 ≤ buf.flatten.length) :
    transferBuffer buf = none := by
  have hlt : (Block.malloc ((buf.map fun part => BitVec.ofNat 32 part.length).sum).toNat).length < 2 ^ 32 := by
    rw [Block.length_malloc]
    exact BitVec.isLt _
  by_contra hsome
  obtain ⟨base, hb⟩ := Option.ne_none_iff_exists'.mp hsome
  obtain ⟨⟨base', off⟩, hf, -⟩ := Option.map_eq_some_iff.mp hb
  have := @transferParts_le buf _ _ 0 _ (Nat.zero_le _) hlt hf
  omega

end PxpRpc.Pipe
