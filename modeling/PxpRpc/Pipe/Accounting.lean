import PxpRpc.Pipe.Connection

/-!
# Where an operation of a pipe connection is

An operation that has been called is completed, or it waits on the stack, in a
queue or as the pending receive. The loop of closing completes the head of a
queue before it unlinks it.
-/
namespace PxpRpc.Pipe

open PxpRpc.Lib PxpRpc.Lib.Callback

def Event.completes (op : Op) : Event → Bool
  | .completed op' _ => op' = op
  | _ => false

namespace Conn

/-- How often the callback of an operation has been called. -/
def completions (c : Conn) (op : Op) : Nat := c.log.countP (Event.completes op)

/-- Whether an operation waits at its end. -/
def queued (c : Conn) : Op → Nat
  | .send s p => (c.ends s).send.countP fun r => r.p = p
  | .receive s p => if (c.ends s).recv = some p then 1 else 0

end Conn

/-! ### Counting over the stack -/

/-- The operation waits in this piece of code. -/
def waits (op : Op) : Item Code Op → Nat
  | .code (.send s p _) => if op = .send s p then 1 else 0
  | .code (.receive s p) => if op = .receive s p then 1 else 0
  | .code (.pumpReq s r) => if op = .send s r.p then 1 else 0
  | _ => 0

/-- The send has been completed and is still linked. -/
def unlinks (op : Op) : Item Code Op → Nat
  | .code (.closeNext s r) => if op = .send s r.p then 1 else 0
  | _ => 0

/-- The request is unlinked and still allocated. -/
def holds (op : Op) : Item Code Op → Nat
  | .code (.pumpReq s r) => if op = .send s r.p then 1 else 0
  | .code (.pumpFree s r) => if op = .send s r.p then 1 else 0
  | _ => 0

/-- The loop that completes the sends of side `s`. -/
def loops (s : Side) : Item Code Op → Nat
  | .code (.closeSend t) => if s = t then 1 else 0
  | .code (.closeNext t _) => if s = t then 1 else 0
  | _ => 0

/-! ### State -/

section

variable (c : Conn) (s t : Side) (e : End) (ev : Event) (op : Op)

@[simp] theorem ends_setEnd : (c.setEnd s e).ends t = if t = s then e else c.ends t := by
  simp [Conn.setEnd, Function.update_apply]

@[simp] theorem live_setEnd : (c.setEnd s e).live = c.live := rfl
@[simp] theorem heap_setEnd : (c.setEnd s e).heap = c.heap := rfl
@[simp] theorem calls_setEnd : (c.setEnd s e).calls = c.calls := rfl
@[simp] theorem log_setEnd : (c.setEnd s e).log = c.log := rfl
@[simp] theorem ends_emit : (c.emit ev).ends = c.ends := rfl
@[simp] theorem live_emit : (c.emit ev).live = c.live := rfl
@[simp] theorem heap_emit : (c.emit ev).heap = c.heap := rfl
@[simp] theorem calls_emit : (c.emit ev).calls = c.calls := rfl
@[simp] theorem log_emit : (c.emit ev).log = c.log ++ [ev] := rfl
@[simp] theorem ends_complete : (c.complete op).ends = c.ends := rfl
@[simp] theorem live_complete : (c.complete op).live = c.live := rfl
@[simp] theorem heap_complete : (c.complete op).heap = c.heap := rfl
@[simp] theorem calls_complete : (c.complete op).calls = c.calls := rfl
@[simp] theorem log_complete : (c.complete op).log = c.log ++ [.completed op (c.error op)] := rfl
@[simp] theorem ends_call : (c.call op).ends = c.ends := rfl
@[simp] theorem live_call : (c.call op).live = c.live := rfl
@[simp] theorem heap_call : (c.call op).heap = c.heap := rfl
@[simp] theorem calls_call : (c.call op).calls = c.calls + 1 := rfl
@[simp] theorem log_call : (c.call op).log = c.log ++ [.called op] := rfl
@[simp] theorem ends_malloc : (c.malloc op).ends = c.ends := rfl
@[simp] theorem live_malloc : (c.malloc op).live = c.live := rfl
@[simp] theorem heap_malloc : (c.malloc op).heap = op :: c.heap := rfl
@[simp] theorem calls_malloc : (c.malloc op).calls = c.calls := rfl
@[simp] theorem log_malloc : (c.malloc op).log = c.log := rfl
@[simp] theorem ends_free : (c.free op).ends = c.ends := rfl
@[simp] theorem live_free : (c.free op).live = c.live := rfl
@[simp] theorem heap_free : (c.free op).heap = c.heap.erase op := rfl
@[simp] theorem calls_free : (c.free op).calls = c.calls := rfl
@[simp] theorem log_free : (c.free op).log = c.log := rfl
@[simp] theorem ends_release : c.release.ends = c.ends := rfl
@[simp] theorem live_release : c.release.live = false := rfl
@[simp] theorem heap_release : c.release.heap = c.heap := rfl
@[simp] theorem calls_release : c.release.calls = c.calls := rfl
@[simp] theorem log_release : c.release.log = c.log ++ [.freed] := rfl
@[simp] theorem live_close : (connectionClose s c).1.live = c.live := rfl
@[simp] theorem heap_close : (connectionClose s c).1.heap = c.heap := rfl
@[simp] theorem calls_close : (connectionClose s c).1.calls = c.calls := rfl
@[simp] theorem log_close : (connectionClose s c).1.log = c.log := rfl

@[simp] theorem ends_close : (connectionClose s c).1.ends t =
    { c.ends t with
      closed := (c.ends t).closed || t = s
      sendError := some errorConnectionClosed
      receiveError := some errorConnectionClosed } := by
  by_cases h : t = s <;> simp [connectionClose, h]

@[simp] theorem other_other : s.other.other = s := by cases s <;> rfl

@[simp] theorem other_ne : s.other ≠ s := by cases s <;> decide

end

/-- The operations called, completed and waiting are in balance. -/
def Balanced (c : Conn) (stack : Stack) : Prop := ∀ op,
  c.completions op + total (waits op) stack + c.queued op =
    c.log.count (.called op) + total (unlinks op) stack

/-- A head that closing is about to unlink is the head of its queue. -/
def Heads (c : Conn) (stack : Stack) : Prop := ∀ s r, .code (.closeNext s r) ∈ stack →
  ∃ send, (c.ends s).send = r :: send

/-! ### What a piece of code does -/

/-- Every way a piece of code can run to its next external call or its end. -/
inductive Runs (c : Conn) : Code → Conn → Stack → Prop
  | sendClosed {s : Side} {p : Nat} {buf : List (List UInt8)} (hl : c.live) (hc : c.anyClosed) :
      Runs c (.send s p buf)
        ((c.setEnd s { c.ends s with sendError := some errorConnectionClosed }).complete (.send s p))
        [.ext (.send s p)]
  | sendQueued {s : Side} {p : Nat} {buf : List (List UInt8)} (hl : c.live) (hc : c.anyClosed = false) :
      Runs c (.send s p buf)
        ((c.setEnd s { c.ends s with send := (c.ends s).send ++ [⟨buf, p⟩], sendError := none }).malloc
          (.send s p)) pump
  | receiveFailed {s : Side} {p : Nat} {error : String} (hl : c.live)
      (hc : (c.ends s).recv.isSome ∨ c.anyClosed) :
      Runs c (.receive s p)
        ((c.setEnd s { c.ends s with receiveError := some error }).complete (.receive s p))
        [.ext (.receive s p)]
  | receivePending {s : Side} {p : Nat} (hl : c.live) (hr : (c.ends s).recv = none)
      (hc : c.anyClosed = false) :
      Runs c (.receive s p) (c.setEnd s { c.ends s with recv := some p, receiveError := none }) pump
  | close {s : Side} (hl : c.live) : Runs c (.close s) (connectionClose s c).1 closing
  | pumpIdle {s : Side} (hl : c.live) (hi : (c.ends s).recv = none ∨ (c.ends s.other).send = []) :
      Runs c (.pump s) c []
  | pumpTransfer {s : Side} {p : Nat} {r : IoReq} {send : List IoReq} {buf : Block} (hl : c.live)
      (hr : (c.ends s).recv = some p) (hs : (c.ends s.other).send = r :: send)
      (hh : .send s.other r.p ∈ c.heap) (hb : transferBuffer r.buf = some buf) :
      Runs c (.pump s)
        ((((c.setEnd s.other { c.ends s.other with send }).setEnd s { c.ends s with recv := none }).emit
          (.delivered s p r buf)).complete (.receive s p))
        [.ext (.receive s p), .code (.pumpReq s.other r)]
  | pumpReq {s : Side} {r : IoReq} (hh : .send s r.p ∈ c.heap) :
      Runs c (.pumpReq s r) (c.complete (.send s r.p)) [.ext (.send s r.p), .code (.pumpFree s r)]
  | pumpFree {s : Side} {r : IoReq} (hh : .send s r.p ∈ c.heap) :
      Runs c (.pumpFree s r) (c.free (.send s r.p)) []
  | closeRecvIdle {s : Side} (hl : c.live) (hr : (c.ends s).recv = none) : Runs c (.closeRecv s) c []
  | closeRecv {s : Side} {p : Nat} (hl : c.live) (hr : (c.ends s).recv = some p) :
      Runs c (.closeRecv s) ((c.setEnd s { c.ends s with recv := none }).complete (.receive s p))
        [.ext (.receive s p)]
  | closeSendIdle {s : Side} (hl : c.live) (hs : (c.ends s).send = []) : Runs c (.closeSend s) c []
  | closeSend {s : Side} {r : IoReq} {send : List IoReq} (hl : c.live) (hs : (c.ends s).send = r :: send)
      (hh : .send s r.p ∈ c.heap) :
      Runs c (.closeSend s) (c.complete (.send s r.p)) [.ext (.send s r.p), .code (.closeNext s r)]
  | closeNext {s : Side} {r : IoReq} (hl : c.live) (hh : .send s r.p ∈ c.heap) :
      Runs c (.closeNext s r)
        ((c.setEnd s { c.ends s with send := behind r (c.ends s).send }).free (.send s r.p))
        [.code (.closeSend s)]
  | closeFree (hl : c.live) (hb : c.bothClosed) : Runs c .closeFree c.release []
  | closeKeep (hl : c.live) (hb : c.bothClosed = false) : Runs c .closeFree c []

theorem setEnd_setEnd (c : Conn) (s : Side) (e e' : End) : (c.setEnd s e).setEnd s e' = c.setEnd s e' := by
  simp [Conn.setEnd]

theorem anyClosed_setEnd (c : Conn) (s : Side) (e : End) (h : e.closed = (c.ends s).closed) :
    (c.setEnd s e).anyClosed = c.anyClosed := by
  cases s <;> simp [Conn.anyClosed, h]

theorem runs_connectionSend (c : Conn) (s : Side) (p : Nat) (buf : List (List UInt8)) (hl : c.live) :
    Runs c (.send s p buf) (connectionSend s p buf c).1 (connectionSend s p buf c).2 := by
  have hany : (c.setEnd s { c.ends s with sendError := none }).anyClosed = c.anyClosed :=
    anyClosed_setEnd _ _ _ rfl
  rw [connectionSend]
  dsimp only
  rw [hany]
  simp only [ends_setEnd, if_true, setEnd_setEnd]
  split
  · exact .sendClosed hl ‹_›
  · exact .sendQueued hl (Bool.eq_false_iff.mpr ‹_›)

theorem runs_connectionReceive (c : Conn) (s : Side) (p : Nat) (hl : c.live) :
    Runs c (.receive s p) (connectionReceive s p c).1 (connectionReceive s p c).2 := by
  have hany : (c.setEnd s { c.ends s with receiveError := none }).anyClosed = c.anyClosed :=
    anyClosed_setEnd _ _ _ rfl
  rw [connectionReceive]
  dsimp only
  rw [hany]
  simp only [ends_setEnd, if_true, setEnd_setEnd]
  split
  · exact .receiveFailed hl (.inl ‹_›)
  · split
    · exact .receiveFailed hl (.inr ‹_›)
    · exact .receivePending hl (by simpa using ‹¬ (c.ends s).recv.isSome = true›) (Bool.eq_false_iff.mpr ‹_›)

/-- Everything a piece of code can do. -/
theorem exec_runs {c c' : Conn} {k : Code} {items : Stack} (h : exec k c = some (c', items)) :
    Runs c k c' items := by
  have hl : k.touches = true → c.live = true := by
    intro ht
    cases hlive : c.live with
    | true => rfl
    | false => simp [exec.eq_def, ht, hlive] at h
  rw [exec.eq_def] at h
  split at h
  · cases h
  · cases k with
    | send s p buf =>
      obtain ⟨rfl, rfl⟩ := Prod.mk.inj (Option.some.inj h)
      exact runs_connectionSend c s p buf (hl rfl)
    | receive s p =>
      obtain ⟨rfl, rfl⟩ := Prod.mk.inj (Option.some.inj h)
      exact runs_connectionReceive c s p (hl rfl)
    | close s =>
      obtain ⟨rfl, rfl⟩ := Prod.mk.inj (Option.some.inj h)
      exact .close (hl rfl)
    | pump s =>
      dsimp only at h
      rw [pumpTo.eq_def] at h
      split at h
      · rename_i p r send hr hs
        split at h
        · rename_i hh
          obtain ⟨buf, hb, h⟩ := Option.map_eq_some_iff.mp h
          obtain ⟨rfl, rfl⟩ := Prod.mk.inj h
          dsimp only
          rw [ends_setEnd, if_neg (fun h => other_ne s h.symm)]
          exact .pumpTransfer (hl rfl) hr hs hh hb
        · cases h
      · rename_i hi
        obtain ⟨rfl, rfl⟩ := Prod.mk.inj (Option.some.inj h)
        refine .pumpIdle (hl rfl) ?_
        cases hr : (c.ends s).recv with
        | none => exact .inl rfl
        | some p =>
          cases hs : (c.ends s.other).send with
          | nil => exact .inr rfl
          | cons r send => exact absurd hs (hi p r send hr)
    | pumpReq s r =>
      dsimp only at h
      split at h
      · obtain ⟨rfl, rfl⟩ := Prod.mk.inj (Option.some.inj h)
        exact .pumpReq ‹_›
      · cases h
    | pumpFree s r =>
      dsimp only at h
      split at h
      · obtain ⟨rfl, rfl⟩ := Prod.mk.inj (Option.some.inj h)
        exact .pumpFree ‹_›
      · cases h
    | closeRecv s =>
      dsimp only at h
      split at h
      · obtain ⟨rfl, rfl⟩ := Prod.mk.inj (Option.some.inj h)
        exact .closeRecvIdle (hl rfl) ‹_›
      · obtain ⟨rfl, rfl⟩ := Prod.mk.inj (Option.some.inj h)
        exact .closeRecv (hl rfl) ‹_›
    | closeSend s =>
      dsimp only at h
      split at h
      · obtain ⟨rfl, rfl⟩ := Prod.mk.inj (Option.some.inj h)
        exact .closeSendIdle (hl rfl) ‹_›
      · split at h
        · obtain ⟨rfl, rfl⟩ := Prod.mk.inj (Option.some.inj h)
          exact .closeSend (hl rfl) ‹_› ‹_›
        · cases h
    | closeNext s r =>
      dsimp only at h
      split at h
      · obtain ⟨rfl, rfl⟩ := Prod.mk.inj (Option.some.inj h)
        exact .closeNext (hl rfl) ‹_›
      · cases h
    | closeFree =>
      dsimp only at h
      split at h
      · obtain ⟨rfl, rfl⟩ := Prod.mk.inj (Option.some.inj h)
        exact .closeFree (hl rfl) ‹_›
      · obtain ⟨rfl, rfl⟩ := Prod.mk.inj (Option.some.inj h)
        exact .closeKeep (hl rfl) (Bool.eq_false_iff.mpr ‹_›)

theorem behind_cons (r : IoReq) (send : List IoReq) : behind r (r :: send) = send := by
  simp [behind, List.dropWhile]

theorem balanced_runs {c c' : Conn} {k : Code} {rest items : Stack}
    (hb : Balanced c (.code k :: rest)) (hh : Heads c (.code k :: rest))
    (h : Runs c k c' items) : Balanced c' (items ++ rest) := by
  intro op
  have hop := hb op
  cases h with
  | @closeNext s r hl hm =>
    obtain ⟨send, hs⟩ := hh s r List.mem_cons_self
    cases op <;> simp [waits, unlinks, Conn.queued, Conn.completions, hs, behind_cons] at hop ⊢ <;> grind
  | @pumpTransfer s p r send buf hl hr hs hm hbuf =>
    have hne := other_ne s
    cases op <;> simp [waits, unlinks, Conn.queued, Conn.completions, Event.completes] at hop ⊢ <;> grind
  | _ =>
    cases op <;>
      simp [waits, unlinks, Conn.queued, Conn.completions, Event.completes, pump, closing] at hop ⊢ <;> grind

end PxpRpc.Pipe
