import PxpRpc.Server.JavaRequest

/-!
# The callbacks of the Java client

`callBlock` returns the result of a call; `call` and `poll` give it to a
callback, in the receive thread, by two copies of the same code. The branch of a
raw result gives the buffer to the callback and goes on to the table.
-/
namespace PxpRpc.Client.Java

open PxpRpc.Lib PxpRpc.Codec.Java PxpRpc.Server.Java

/-- What `callBlock` throws. -/
inductive Raised where
  | remote (message : Utf16)
  | exception
deriving DecidableEq, Repr

/-- What has been done in the receive thread when a response has been handled: the sid has been
freed, the callback has been called, an exception has been thrown. -/
structure Handled where
  freed : Bool
  called : List (Except Utf16 (Row (List UInt8)))
  raised : Bool
deriving DecidableEq

/-- The one row of the result. -/
def readResult (tResult : Utf16) (result2 : ByteBuffer) : Option (Row (List UInt8)) :=
  (TableSerializer.getRowsData tResult 1 (.prepareUnserializing result2)).bind fun (rows, _) => rows[0]?

/-- Results are read from the buffer as the callback of the raw result has `left` it. -/
def giveResult (tResult : Utf16) (left : ByteBuffer → ByteBuffer) (result2 : ByteBuffer) (freed : Bool) : Handled :=
  let raw := if isRaw tResult then [.ok [.bytes result2.remaining]] else []
  let result2 := if isRaw tResult then left result2 else result2
  match readResult tResult result2 with
  | some result3 => ⟨freed, raw ++ [.ok result3], false⟩
  | none => ⟨freed, raw, true⟩

namespace RpcExtendClientCallable

/-- A response is an error message or the rest of a frame. -/
def call (tResult : Utf16) (left : ByteBuffer → ByteBuffer) : Except Utf16 ByteBuffer → Handled
  | .error err => ⟨true, [.error err], false⟩
  | .ok result2 => giveResult tResult left result2 true

def poll (tResult : Utf16) (left : ByteBuffer → ByteBuffer) : Except Utf16 ByteBuffer → Handled
  | .error err => ⟨true, [.error err], false⟩
  | .ok result2 => giveResult tResult left result2 false

def callBlock (tResult : Utf16) : Except Utf16 ByteBuffer → Except Raised (Row (List UInt8))
  | .error err => .error (.remote err)
  | .ok result2 =>
    if isRaw tResult then .ok [.bytes result2.remaining]
    else match readResult tResult result2 with
      | some result3 => .ok result3
      | none => .error .exception

end RpcExtendClientCallable

/-- The callback has been called once, with the outcome, and nothing has been thrown. -/
structure Agrees (handled : Handled) (outcome : Except Raised (Row (List UInt8))) : Prop where
  called : handled.called.map (Except.mapError Raised.remote) = [outcome]
  quiet : handled.raised = false

/-- An error, or a row that can be read from a result that is not raw. -/
def Deliverable (tResult : Utf16) : Except Utf16 ByteBuffer → Prop
  | .error _ => True
  | .ok result2 => isRaw tResult = false ∧ (readResult tResult result2).isSome

open RpcExtendClientCallable

theorem giveResult_agrees_iff (tResult : Utf16) (left : ByteBuffer → ByteBuffer) (result2 : ByteBuffer) (freed : Bool) :
    Agrees (giveResult tResult left result2 freed) (callBlock tResult (.ok result2)) ↔
      Deliverable tResult (.ok result2) := by
  cases hraw : isRaw tResult with
  | true =>
    refine iff_of_false (fun h => ?_) fun h => ?_
    · -- The callback is called again, or there is an exception.
      obtain ⟨hcalled, hquiet⟩ := h
      cases hread : readResult tResult (left result2) <;> simp [giveResult, hraw, hread] at hcalled hquiet
    · rw [Deliverable, hraw] at h
      exact absurd h.1 (Bool.noConfusion ·)
  | false =>
    cases hread : readResult tResult result2 with
    | none =>
      refine iff_of_false (fun h => ?_) fun h => ?_
      · have hquiet := h.quiet
        simp [giveResult, hraw, hread] at hquiet
      · rw [Deliverable, hread] at h
        exact absurd h.2 (Bool.noConfusion ·)
    | some result3 =>
      refine iff_of_true ⟨?_, ?_⟩ ⟨hraw, by rw [hread]; rfl⟩
      · simp [giveResult, callBlock, hraw, hread, Except.mapError]
      · simp [giveResult, hraw, hread]

inductive Method where
  | call
  | poll
deriving DecidableEq, Repr

def Method.handle (tResult : Utf16) (left : ByteBuffer → ByteBuffer) : Method → Except Utf16 ByteBuffer → Handled
  | .call => RpcExtendClientCallable.call tResult left
  | .poll => RpcExtendClientCallable.poll tResult left

/-- A response is handled as `callBlock` would end exactly when it is an error, or a result
that is not raw and can be read. -/
theorem handle_agrees_iff (method : Method) (tResult : Utf16) (left : ByteBuffer → ByteBuffer)
    (response : Except Utf16 ByteBuffer) :
    Agrees (method.handle tResult left response) (callBlock tResult response) ↔ Deliverable tResult response := by
  cases response with
  | error err => cases method <;> exact iff_of_true ⟨rfl, rfl⟩ trivial
  | ok result2 => cases method <;> exact giveResult_agrees_iff tResult left result2 _

/-- A raw result of one byte: the callback gets it, and then an empty one. -/
theorem rawResult_twice :
    ¬ Agrees (Method.call.handle [ValueType.b.char] id (.ok (ByteBuffer.wrap [0])))
      (callBlock [ValueType.b.char] (.ok (ByteBuffer.wrap [0]))) := by
  intro h
  exact absurd h.called (by decide)

end PxpRpc.Client.Java
