import PxpRpc.Server.Runs

/-!
# The life of a request

From `_pxprpc__newRequest` to `_pxprpc__finishRequest` a request is held by one
piece of code, by the callable it was given to or by the io that sends its
response. The context is held by its owner and by every request.
-/
namespace PxpRpc.Server

open PxpRpc.Lib PxpRpc.Lib.Callback

/-- The code goes on with request `r`. -/
def holds (r : Nat) : Item Code Ext → Nat
  | .code k => if k.request = some r then 1 else 0
  | .ext _ => 0

/-- The rest of `_pxprpc__finishRequest` after `on_finish`. -/
def finishes (r : Nat) : Item Code Ext → Nat
  | .code (.finish2 q) => if q = r then 1 else 0
  | _ => 0

/-- A `pxprpc_server_delete` that has yet to give up the reference of the owner. -/
def deletes : Item Code Ext → Nat
  | .code .delete => 1
  | .code .deleteCount => 1
  | _ => 0

def Event.isFinishing (r : Nat) : Event → Bool
  | .finishing q _ => q = r
  | _ => false

/-- Every callable calls `next_step` once for each of its invocations. -/
def CallsOnce (c : Config) : Move Entry → Prop
  | .enter (.resume r _) => r ∈ c.state.invoked
  | _ => True

/-- No close request is processed, and no response is written on a closed context. -/
def AnswersOpen (c : Config) : Move Entry → Prop
  | .run =>
      match c.stack with
      | .code (.step .stepClose1 _) :: _ => False
      | .code (.writeResult _) :: _ => c.state.closed = false
      | _ => True
  | _ => True

instance (c : Config) (m : Move Entry) : Decidable (CallsOnce c m) := by
  unfold CallsOnce
  split <;> infer_instance

instance (c : Config) (m : Move Entry) : Decidable (AnswersOpen c m) := by
  unfold AnswersOpen
  split
  · split <;> infer_instance
  · infer_instance

/-- How often a request is still to be gone on with. -/
def pending (c : ServCo) (stack : Stack) (r : Nat) : Nat :=
  total (holds r) stack + c.invoked.count r + c.sending.countP (·.1 = r)

structure Counted (c : ServCo) (stack : Stack) : Prop where
  held : ∀ r, pending c stack r ≤ c.allocated.count r
  finished : ∀ r, c.log.count (.finished r) + c.allocated.count r = if r < c.nextRequest then 1 else 0
  finishing : ∀ r, c.log.countP (Event.isFinishing r) = c.log.count (.finished r) + total (finishes r) stack
  refCount : c.refCount = (if c.owner then 1 else 0) + total deletes stack + c.allocated.length
  live : c.live = decide (c.refCount ≠ 0)
  released : c.log.count .released = if c.live then 0 else 1
  bound : c.refCount < 2 ^ 31

/-- Every request that is allocated is gone on with. -/
structure Accounted (c : ServCo) (stack : Stack) : Prop extends Counted c stack where
  all : ∀ r, pending c stack r = c.allocated.count r

theorem counted_new (funcmap : Option (List UInt8 → Option Nat)) (onClosed : Bool) :
    Counted (new funcmap onClosed).state (new funcmap onClosed).stack := by
  constructor <;> simp [new, pending]

theorem accounted_new (funcmap : Option (List UInt8 → Option Nat)) (onClosed : Bool) :
    Accounted (new funcmap onClosed).state (new funcmap onClosed).stack :=
  ⟨counted_new funcmap onClosed, by simp [new, pending]⟩

section

variable {c c' : ServCo} {k : Code} {rest items : Stack}

theorem held_runs (h : Counted c (.code k :: rest)) (hr : Runs c k c' items) (q : Nat) :
    pending c' (items ++ rest) q ≤ c'.allocated.count q := by
  have hq := h.held q
  cases hr <;>
    simp [pending, holds, Code.request, List.count_cons, List.countP_cons, List.count_erase] at hq ⊢ <;> omega

theorem all_runs (h : Accounted c (.code k :: rest)) (ha : AnswersOpen ⟨c, .code k :: rest⟩ .run)
    (hr : Runs c k c' items) (q : Nat) : pending c' (items ++ rest) q = c'.allocated.count q := by
  have hq := h.all q
  cases hr with
  | stepClose1 => exact absurd ha id
  | writeResultClosed hc => simp [AnswersOpen, hc] at ha
  | _ =>
    simp [pending, holds, Code.request, List.count_cons, List.countP_cons, List.count_erase] at hq ⊢
    try omega

/-- The request of the code on top is allocated, once. -/
theorem count_top (h : Counted c (.code k :: rest)) {r : Nat} (hk : k.request = some r) :
    c.allocated.count r = 1 := by
  have hq := h.held r
  have hf := h.finished r
  simp [pending, holds, hk] at hq
  split at hf <;> omega

/-- Code of a request finds the request and the context allocated. -/
theorem counted_top (h : Counted c (.code k :: rest)) {r : Nat} (hk : k.request = some r) :
    r ∈ c.allocated ∧ c.live := by
  have hc := h.refCount
  have hcount := count_top h hk
  have hm : r ∈ c.allocated := List.count_pos_iff.mp (by omega)
  refine ⟨hm, ?_⟩
  have := List.length_pos_of_mem hm
  rw [h.live, decide_eq_true_iff]
  split at hc <;> omega

theorem finished_runs (h : Counted c (.code k :: rest)) (hr : Runs c k c' items) (q : Nat) :
    c'.log.count (.finished q) + c'.allocated.count q = if q < c'.nextRequest then 1 else 0 := by
  have hq := h.finished q
  cases hr with
  | @finishOwned r hb =>
    have hc := @count_top _ _ _ h r rfl
    simp [List.count_erase, List.count_append, apply_ite (List.count _)] at hq ⊢
    grind
  | @finishFree r b hb hf =>
    have hc := @count_top _ _ _ h r rfl
    simp [List.count_erase, List.count_append, apply_ite (List.count _)] at hq ⊢
    grind
  | step2 =>
    simp [List.count_cons, List.count_append, apply_ite (List.count _)] at hq ⊢
    grind
  | _ => simpa [List.count_append, apply_ite (List.count _)] using hq

theorem finishing_runs (h : Counted c (.code k :: rest)) (hr : Runs c k c' items) (q : Nat) :
    c'.log.countP (Event.isFinishing q) = c'.log.count (.finished q) + total (finishes q) (items ++ rest) := by
  have hq := h.finishing q
  cases hr <;>
    simp [finishes, Event.isFinishing, List.count_append, apply_ite (List.count _),
      apply_ite (List.countP _)] at hq ⊢ <;> grind

theorem refCount_runs (h : Counted c (.code k :: rest)) (hr : Runs c k c' items) :
    c'.refCount = (if c'.owner then 1 else 0) + total deletes (items ++ rest) + c'.allocated.length := by
  have hc := h.refCount
  have hl : ∀ r, k.request = some r → (c.allocated.erase r).length + 1 = c.allocated.length := by
    intro r hk
    have := count_top h hk
    have hm : r ∈ c.allocated := List.count_pos_iff.mp (by omega)
    have := List.length_pos_of_mem hm
    rw [List.length_erase_of_mem hm]
    omega
  cases hr with
  | @finishOwned r hb =>
    have := hl r rfl
    simp [deletes] at hc ⊢
    omega
  | @finishFree r b hb hf =>
    have := hl r rfl
    simp [deletes] at hc ⊢
    omega
  | _ =>
    simp [deletes] at hc ⊢
    try omega

/-- While a context is touched its owner, a deletion or a request holds it. -/
theorem live_runs (h : Counted c (.code k :: rest)) (ht : k.touches → c.live) (hr : Runs c k c' items) :
    c'.live = decide (c'.refCount ≠ 0) := by
  have hl := h.live
  cases hr <;> simp_all [Code.touches]

theorem released_runs (h : Counted c (.code k :: rest)) (ht : k.touches → c.live) (hr : Runs c k c' items) :
    c'.log.count .released = if c'.live then 0 else 1 := by
  have hl := h.released
  have hc := h.live
  cases hr with
  | step2 | finishOwned | finishFree | deleteCount =>
    have hlive : c.live := ht rfl
    simp [List.count_append, apply_ite (List.count _), hlive] at hl ⊢
    grind
  | _ => simpa [List.count_append] using hl

theorem bound_runs (h : Counted c (.code k :: rest)) (hr : Runs c k c' items) : c'.refCount < 2 ^ 31 := by
  have hb := h.bound
  cases hr with
  | step2 hc he hs hi hf hn => simpa using hn
  | finishOwned | finishFree | deleteCount =>
    simp
    omega
  | _ => exact hb

theorem counted_runs (h : Counted c (.code k :: rest)) (ht : k.touches → c.live) (hr : Runs c k c' items) :
    Counted c' (items ++ rest) where
  held := held_runs h hr
  finished := finished_runs h hr
  finishing := finishing_runs h hr
  refCount := refCount_runs h hr
  live := live_runs h ht hr
  released := released_runs h ht hr
  bound := bound_runs h hr

theorem accounted_runs (h : Accounted c (.code k :: rest)) (ha : AnswersOpen ⟨c, .code k :: rest⟩ .run)
    (ht : k.touches → c.live) (hr : Runs c k c' items) : Accounted c' (items ++ rest) :=
  ⟨counted_runs h.toCounted ht hr, all_runs h ha hr⟩

end

/-! ### Whole runs -/

theorem pending_ret (c : ServCo) (e : Ext) (rest : Stack) (r : Nat) : pending c (.ext e :: rest) r = pending c rest r := by
  simp [pending, holds]

theorem counted_ret {c : ServCo} {e : Ext} {rest : Stack} (h : Counted c (.ext e :: rest)) : Counted c rest where
  held r := pending_ret c e rest r ▸ h.held r
  finished := h.finished
  finishing r := by simpa [finishes] using h.finishing r
  refCount := by simpa [deletes] using h.refCount
  live := h.live
  released := h.released
  bound := h.bound

theorem accounted_ret {c : ServCo} {e : Ext} {rest : Stack} (h : Accounted c (.ext e :: rest)) : Accounted c rest :=
  ⟨counted_ret h.toCounted, fun r => pending_ret c e rest r ▸ h.all r⟩

/-- The environment goes on with a request that it holds. -/
theorem pending_enter {c c' : ServCo} {e : Entry} {stack items : Stack} (hc : CallsOnce ⟨c, stack⟩ (.enter e))
    (he : Enters c e c' items) (q : Nat) : pending c' (items ++ stack) q = pending c stack q := by
  cases he with
  | @resume r o hr =>
    have hm : 0 < c.invoked.count r := List.count_pos_iff.mpr hc
    simp [pending, holds, Code.request, List.count_erase]
    grind
  | @sendDone r f hm =>
    have hp := List.countP_erase (fun p : Nat × NextStep => decide (p.1 = q)) c.sending (r, f)
    have hpos : 0 < c.sending.countP (fun p => decide (p.1 = r)) :=
      List.countP_pos_iff.mpr ⟨_, hm, by simp⟩
    simp [pending, holds, Code.request] at hp ⊢
    grind
  | _ => simp [pending, holds, Code.request]

theorem counted_enter {c c' : ServCo} {e : Entry} {stack items : Stack} (h : Counted c stack)
    (hc : CallsOnce ⟨c, stack⟩ (.enter e)) (he : Enters c e c' items) : Counted c' (items ++ stack) := by
  have hpending := pending_enter hc he
  obtain ⟨held, finished, finishing, refCount, live, released, bound⟩ := h
  cases he with
  | @resume r o hr =>
    refine ⟨fun q => hpending q ▸ held q, fun q => ?_, fun q => ?_, ?_, live, ?_, bound⟩
    · simpa [List.count_append] using finished q
    · simpa [List.count_append, finishes, Event.isFinishing] using finishing q
    · simpa [deletes] using refCount
    · simpa [List.count_append] using released
  | delete ho =>
    refine ⟨fun q => hpending q ▸ held q, finished, fun q => ?_, ?_, live, released, bound⟩
    · simpa [finishes] using finishing q
    · rw [if_pos ho] at refCount
      simp [deletes, refCount]
  | _ =>
    refine ⟨fun q => hpending q ▸ held q, finished, fun q => ?_, ?_, live, released, bound⟩
    · simpa [finishes] using finishing q
    · simpa [deletes] using refCount

theorem accounted_enter {c c' : ServCo} {e : Entry} {stack items : Stack} (h : Accounted c stack)
    (hc : CallsOnce ⟨c, stack⟩ (.enter e)) (he : Enters c e c' items) : Accounted c' (items ++ stack) := by
  refine ⟨counted_enter h.toCounted hc he, fun q => ?_⟩
  rw [pending_enter hc he, h.all]
  cases he <;> rfl

theorem accounted_preserves :
    program.Preserves (fun c m => CallsOnce c m ∧ AnswersOpen c m) fun c => Accounted c.state c.stack where
  exec h hg he := accounted_runs h hg.2 (exec_guard he).1 (exec_runs he)
  ret h _ := accounted_ret h
  enter _ h hg he := accounted_enter h hg.1 (enter_enters he)

end PxpRpc.Server
