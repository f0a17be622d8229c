import PxpRpc.Pipe.Closing

/-!
# Delivery on an open pipe connection

Packets go from the queue of one end to the receives of the other in the order of
the sends, as long as the length of each fits in 32 bits. `_pxprpcPipePump` moves
at most one packet each way, and that is enough: a call makes at most one way
ready, and the calls made from callbacks pump again.
-/
namespace PxpRpc.Pipe

open PxpRpc.Lib PxpRpc.Lib.Callback

/-- The connection stays open, and the parts of every packet sent fit in 32 bits. -/
def Fitting : Move Entry → Prop
  | .enter (.send _ buf) => buf.flatten.length < 2 ^ 32
  | .enter (.close _) => False
  | _ => True

instance : ∀ m : Move Entry, Decidable (Fitting m)
  | .enter (.send _ buf) => inferInstanceAs (Decidable (buf.flatten.length < 2 ^ 32))
  | .enter (.close _) => isFalse id
  | .run | .ret | .enter (.receive _) => isTrue trivial

/-- What the user of side `s` sends in a run. -/
def sends (s : Side) (ms : List (Move Entry)) : List (List (List UInt8)) :=
  ms.filterMap fun m => match m with
    | .enter (.send t buf) => if t = s then some buf else none
    | _ => none

namespace Conn

/-- The sends called at side `s`. -/
def sent (c : Conn) (s : Side) : List IoReq :=
  c.log.filterMap fun e => match e with
    | .sent t r => if t = s then some r else none
    | _ => none

/-- The packets delivered to side `s`: the receive, the send and the buffer. -/
def delivered (c : Conn) (s : Side) : List (Nat × IoReq × Block) :=
  c.log.filterMap fun e => match e with
    | .delivered t p r buf => if t = s then some (p, r, buf) else none
    | _ => none

/-- Side `s` has a pending receive, and the other side a queued send. -/
def ready (c : Conn) (s : Side) : Prop := (c.ends s).recv ≠ none ∧ (c.ends s.other).send ≠ []

end Conn

/-- What an open connection promises. -/
structure Delivers (c : Config) : Prop where
  /-- what was sent is what has been delivered, in order, and then the queue -/
  order : EnvControls c.stack → ∀ s,
    c.state.sent s.other = (c.state.delivered s).map (fun d => d.2.1) ++ (c.state.ends s.other).send
  content : ∀ s, ∀ d ∈ c.state.delivered s, d.2.2 = d.2.1.buf.flatten.map some
  /-- a receive gets at most one packet, and its callback is called -/
  received : ∀ s p, (c.state.delivered s).countP (fun d => d.1 = p) ≤ c.state.completions (.receive s p) ∧
    c.state.completions (.receive s p) ≤ 1
  /-- a send is completed only after its delivery, once, and in the end always -/
  completed : ∀ s p,
    c.state.completions (.send s p) ≤ (c.state.delivered s.other).countP (fun d => d.2.1.p = p) ∧
    c.state.completions (.send s p) ≤ 1 ∧
    (c.stack = [] →
      c.state.completions (.send s p) = (c.state.delivered s.other).countP fun d => d.2.1.p = p)
  /-- no packet is stuck -/
  settled : EnvControls c.stack → ∀ s, ¬ c.state.ready s
  noFault : ¬ program.Faults c

/-! ### The invariant -/

/-- Frames that stand only on top of the stack. -/
def Code.starts : Code → Bool
  | .send .. | .receive .. | .close .. | .pump .client => true
  | _ => false

/-- The send that has been called and not yet queued. -/
def pending (s : Side) : Stack → List IoReq
  | .code (.send t p buf) :: _ => if t = s then [⟨buf, p⟩] else []
  | _ => []

/-- The callback of a send delivered is still to be called. -/
def calls (op : Op) : Item Code Op → Nat
  | .code (.pumpReq s r) => if op = .send s r.p then 1 else 0
  | _ => 0

/-- Which ways may have something to move, by the code on top. -/
def Settled (c : Conn) : Stack → Prop
  | .code (.pump .client) :: rest => ¬ (c.ready .client ∧ c.ready .server) ∧ ∃ rest', rest = .code (.pump .server) :: rest'
  | .code (.pump .server) :: _ => ¬ c.ready .client
  | _ => ∀ s, ¬ c.ready s

structure Flows (c : Conn) (stack : Stack) : Prop where
  isOpen : c.anyClosed = false ∧ ∀ s, .code (.close s) ∉ stack
  fits : ∀ s, ∀ r ∈ (c.ends s).send ++ pending s stack, r.buf.flatten.length < 2 ^ 32
  starts : ∀ k, .code k ∈ stack.tail → k.starts = false
  order : ∀ s, c.sent s.other =
    (c.delivered s).map (fun d => d.2.1) ++ (c.ends s.other).send ++ pending s.other stack
  content : ∀ s, ∀ d ∈ c.delivered s, d.2.2 = d.2.1.buf.flatten.map some
  received : ∀ s p, (c.delivered s).countP (fun d => d.1 = p) ≤ c.completions (.receive s p)
  completed : ∀ s p, c.completions (.send s p) + total (calls (.send s p)) stack =
    (c.delivered s.other).countP fun d => d.2.1.p = p
  settled : Settled c stack

theorem flows_connect : Flows connect.state connect.stack := by
  constructor <;> simp [connect, Conn.anyClosed, pending, Conn.sent, Conn.delivered, Conn.completions,
    Settled, Conn.ready]

/-! ### Events -/

section

variable (c : Conn) (s t : Side) (e : End) (op : Op)

@[simp] theorem sent_setEnd : (c.setEnd s e).sent t = c.sent t := rfl
@[simp] theorem sent_malloc : (c.malloc op).sent t = c.sent t := rfl
@[simp] theorem sent_free : (c.free op).sent t = c.sent t := rfl
@[simp] theorem delivered_setEnd : (c.setEnd s e).delivered t = c.delivered t := rfl
@[simp] theorem delivered_malloc : (c.malloc op).delivered t = c.delivered t := rfl
@[simp] theorem delivered_free : (c.free op).delivered t = c.delivered t := rfl

@[simp] theorem sent_complete : (c.complete op).sent t = c.sent t := by
  simp [Conn.sent, List.filterMap_append]

@[simp] theorem delivered_complete : (c.complete op).delivered t = c.delivered t := by
  simp [Conn.delivered, List.filterMap_append]

@[simp] theorem sent_emit_delivered (p : Nat) (r : IoReq) (buf : Block) :
    (c.emit (.delivered s p r buf)).sent t = c.sent t := by
  simp [Conn.sent, List.filterMap_append]

@[simp] theorem delivered_emit_delivered (p : Nat) (r : IoReq) (buf : Block) :
    (c.emit (.delivered s p r buf)).delivered t = c.delivered t ++ if s = t then [(p, r, buf)] else [] := by
  by_cases h : s = t <;> simp [Conn.delivered, List.filterMap_append, h]

@[simp] theorem sent_call : (c.call op).sent t = c.sent t := by
  simp [Conn.sent, List.filterMap_append]

@[simp] theorem delivered_call : (c.call op).delivered t = c.delivered t := by
  simp [Conn.delivered, List.filterMap_append]

@[simp] theorem sent_emit_sent (r : IoReq) :
    (c.emit (.sent s r)).sent t = c.sent t ++ if s = t then [r] else [] := by
  by_cases h : s = t <;> simp [Conn.sent, List.filterMap_append, h]

@[simp] theorem delivered_emit_sent (r : IoReq) : (c.emit (.sent s r)).delivered t = c.delivered t := by
  simp [Conn.delivered, List.filterMap_append]

@[simp] theorem completions_setEnd : (c.setEnd s e).completions op = c.completions op := rfl
@[simp] theorem completions_malloc (op' : Op) : (c.malloc op').completions op = c.completions op := rfl
@[simp] theorem completions_free (op' : Op) : (c.free op').completions op = c.completions op := rfl

@[simp] theorem completions_complete (op' : Op) :
    (c.complete op').completions op = c.completions op + if op' = op then 1 else 0 := by
  simp [Conn.completions, Event.completes, List.countP_append, List.countP_singleton]

@[simp] theorem completions_call (op' : Op) : (c.call op').completions op = c.completions op := by
  simp [Conn.completions, Event.completes, List.countP_append]

@[simp] theorem completions_emit_sent (r : IoReq) : (c.emit (.sent s r)).completions op = c.completions op := by
  simp [Conn.completions, Event.completes, List.countP_append]

@[simp] theorem completions_emit_delivered (p : Nat) (r : IoReq) (buf : Block) :
    (c.emit (.delivered s p r buf)).completions op = c.completions op := by
  simp [Conn.completions, Event.completes, List.countP_append]

end

section

variable (s t : Side) (p : Nat) (r : IoReq) (op : Op) (buf : List (List UInt8)) (rest : Stack)

@[simp] theorem pending_nil : pending s [] = [] := rfl
@[simp] theorem pending_ext : pending s (.ext op :: rest) = [] := rfl
@[simp] theorem pending_send : pending s (.code (.send t p buf) :: rest) = if t = s then [⟨buf, p⟩] else [] := rfl
@[simp] theorem pending_receive : pending s (.code (.receive t p) :: rest) = [] := rfl
@[simp] theorem pending_pump : pending s (.code (.pump t) :: rest) = [] := rfl
@[simp] theorem pending_pumpReq : pending s (.code (.pumpReq t r) :: rest) = [] := rfl
@[simp] theorem pending_pumpFree : pending s (.code (.pumpFree t r) :: rest) = [] := rfl

end

/-! ### One piece of code -/

theorem eq_or_other (t s : Side) : t = s ∨ t = s.other := by cases t <;> cases s <;> decide

theorem pending_of_starts {stack : Stack} (h : ∀ k, .code k ∈ stack → k.starts = false) (s : Side) :
    pending s stack = [] := by
  cases stack with
  | nil => rfl
  | cons i rest =>
    cases i with
    | ext op => rfl
    | code k =>
      have hk := h k List.mem_cons_self
      cases k <;> first | rfl | cases hk

theorem settled_of_starts {c : Conn} {stack : Stack} (hr : ∀ s, ¬ c.ready s)
    (h : ∀ k, .code k ∈ stack → k.starts = false) : Settled c stack := by
  cases stack with
  | nil => exact hr
  | cons i rest =>
    cases i with
    | ext op => exact hr
    | code k =>
      have hk := h k List.mem_cons_self
      cases k with
      | pump s =>
        cases s with
        | client => cases hk
        | server => exact hr .client
      | _ => exact hr

section

variable {c c' : Conn} {k : Code} {rest items : Stack}

/-- Items pushed above a stack that starts nothing. -/
theorem starts_append (hi : ∀ k, .code k ∈ items.tail → k.starts = false)
    (hr : ∀ k, .code k ∈ rest → k.starts = false) (hne : items ≠ []) :
    ∀ k, .code k ∈ (items ++ rest).tail → k.starts = false := by
  intro k hk
  rw [List.tail_append_of_ne_nil hne] at hk
  rcases List.mem_append.mp hk with hk | hk
  · exact hi k hk
  · exact hr k hk

theorem open_runs (hf : Flows c (.code k :: rest)) (h : Runs c k c' items) : c'.anyClosed = false :=
  (anyClosed_runs h fun s he => hf.isOpen.2 s (he ▸ List.mem_cons_self)).trans hf.isOpen.1

theorem Flows.close_not_mem (hf : Flows c (.code k :: rest)) (s : Side) : .code (.close s) ∉ rest :=
  fun hm => hf.isOpen.2 s (List.mem_cons_of_mem _ hm)

variable {s : Side} {p : Nat} {r : IoReq} {buf : List (List UInt8)}

/-- A packet is queued; only the receives of the other side may now have something. -/
theorem flows_send (hf : Flows c (.code (.send s p buf) :: rest)) (h : Runs c (.send s p buf) c' items) :
    Flows c' (items ++ rest) := by
  have hopen' := open_runs hf h
  have hclose := hf.close_not_mem
  have hidle : ∀ t, ¬ c.ready t := hf.settled
  cases h with
  | sendClosed hl hc =>
    rw [hf.isOpen.1] at hc
    cases hc
  | sendQueued hl hc =>
    refine ⟨⟨hopen', by simpa [pump] using hclose⟩, fun t => ?_, ?_, fun t => ?_, hf.content, hf.received, ?_, ?_⟩
    · have := hf.fits t
      by_cases hts : t = s
      · subst hts
        simpa [pump] using this
      · simpa [pump, hts, Ne.symm hts] using this
    · exact starts_append (by simp [pump, Code.starts]) hf.starts (by simp [pump])
    · have := hf.order t
      by_cases hts : t.other = s
      · subst hts
        simpa [pump] using this
      · simpa [pump, hts, Ne.symm hts] using this
    · simpa [calls, pump] using hf.completed
    · refine ⟨?_, _, rfl⟩
      rintro ⟨h₁, h₂⟩
      cases s
      · exact hidle .client (by simpa [Conn.ready, Side.other] using h₁)
      · exact hidle .server (by simpa [Conn.ready, Side.other] using h₂)

/-- A receive waits, or fails at once; only the receives of this side may now have something. -/
theorem flows_receive (hf : Flows c (.code (.receive s p) :: rest)) (h : Runs c (.receive s p) c' items) :
    Flows c' (items ++ rest) := by
  have hopen' := open_runs hf h
  have hclose := hf.close_not_mem
  have hidle : ∀ t, ¬ c.ready t := hf.settled
  cases h with
  | receiveFailed hl hc =>
    refine ⟨⟨hopen', by simpa using hclose⟩, fun t => ?_, ?_, fun t => ?_, by simpa using hf.content, ?_, ?_, ?_⟩
    · have := hf.fits t
      by_cases hts : t = s <;> simpa [hts] using this
    · exact starts_append (by simp) hf.starts (by simp)
    · have := hf.order t
      by_cases hts : t.other = s <;> simpa [hts] using this
    · intro t q
      have := hf.received t q
      simp
      omega
    · simpa [calls] using hf.completed
    · intro t
      have := hidle t
      simp [Conn.ready] at this ⊢
      grind
  | receivePending hl hr hc =>
    refine ⟨⟨hopen', by simpa [pump] using hclose⟩, fun t => ?_, ?_, fun t => ?_, hf.content, hf.received, ?_, ?_⟩
    · have := hf.fits t
      by_cases hts : t = s <;> simpa [pump, hts] using this
    · exact starts_append (by simp [pump, Code.starts]) hf.starts (by simp [pump])
    · have := hf.order t
      by_cases hts : t.other = s <;> simpa [pump, hts] using this
    · simpa [calls, pump] using hf.completed
    · refine ⟨?_, _, rfl⟩
      rintro ⟨h₁, h₂⟩
      cases s
      · exact hidle .server (by simpa [Conn.ready, Side.other] using h₂)
      · exact hidle .client (by simpa [Conn.ready, Side.other] using h₁)

/-- There is nothing to move to side `s`. -/
theorem flows_pumpIdle (hf : Flows c (.code (.pump s) :: rest)) (hi : ¬ c.ready s) : Flows c rest := by
  have hrest : ∀ k, .code k ∈ rest → k.starts = false := hf.starts
  have hpend := pending_of_starts hrest
  refine ⟨⟨hf.isOpen.1, hf.close_not_mem⟩, ?_, fun k hk => hrest k (List.mem_of_mem_tail hk), ?_, hf.content,
    hf.received, ?_, ?_⟩
  · simpa [hpend] using hf.fits
  · simpa [hpend] using hf.order
  · simpa [calls] using hf.completed
  · have hset := hf.settled
    cases s with
    | client =>
      obtain ⟨-, rest', rfl⟩ := hset
      exact hi
    | server =>
      refine settled_of_starts (fun t => ?_) hrest
      cases t
      · exact hset
      · exact hi

/-- The other side has nothing to be moved to it. -/
theorem Flows.not_ready_other (hf : Flows c (.code (.pump s) :: rest)) (hr : c.ready s) : ¬ c.ready s.other := by
  have hset := hf.settled
  cases s with
  | client => exact fun h => hset.1 ⟨hr, h⟩
  | server => exact hset

/-- The first packet that is queued at the other side is moved to the receive of side `s`. -/
theorem flows_pump (hf : Flows c (.code (.pump s) :: rest)) (h : Runs c (.pump s) c' items) :
    Flows c' (items ++ rest) := by
  have hopen' := open_runs hf h
  cases h with
  | pumpIdle hl hi => exact flows_pumpIdle hf fun h => hi.elim h.1 h.2
  | @pumpTransfer _ p r send buf hl hr hq hh hb =>
    have hbuf : buf = r.buf.flatten.map some := by
      rw [transferBuffer_eq (hf.fits s.other r (by simp [hq]))] at hb
      exact (Option.some.inj hb).symm
    have hother := hf.not_ready_other ⟨by simp [hr], by simp [hq]⟩
    have hne := other_ne s
    refine ⟨⟨hopen', by simpa using hf.close_not_mem⟩, fun t => ?_, ?_, fun t => ?_, fun t d hd => ?_, fun t q => ?_,
      fun t q => ?_, fun t => ?_⟩
    · have := hf.fits t
      by_cases hts : t = s
      · subst hts
        simpa using this
      · by_cases hto : t = s.other
        · subst hto
          simp [hq] at this
          simpa using this.2
        · simpa [hts, hto] using this
    · exact starts_append (by simp [Code.starts]) hf.starts (by simp)
    · have := hf.order t
      by_cases hts : t = s
      · subst hts
        simpa [hq] using this
      · obtain rfl := (eq_or_other t s).resolve_left hts
        simpa [hne, hne.symm] using this
    · simp only [delivered_complete, delivered_emit_delivered, delivered_setEnd] at hd
      rcases List.mem_append.mp hd with hd | hd
      · exact hf.content t d hd
      · split at hd
        · obtain rfl := List.mem_singleton.mp hd
          exact hbuf
        · cases hd
    · have := hf.received t q
      by_cases hts : s = t
      · subst hts
        simp [List.countP_append, List.countP_singleton]
        omega
      · simpa [hts] using this
    · have := hf.completed t q
      rcases eq_or_other t s with rfl | rfl
      · simpa [calls, hne, hne.symm] using this
      · simp [List.countP_append, List.countP_singleton, calls] at this ⊢
        grind
    · rcases eq_or_other t s with rfl | rfl
      · simp [Conn.ready]
      · simpa [Conn.ready, hne] using hother

/-- The send of a packet that has been moved is completed. -/
theorem flows_pumpReq (hf : Flows c (.code (.pumpReq s r) :: rest)) (h : Runs c (.pumpReq s r) c' items) :
    Flows c' (items ++ rest) := by
  have hopen' := open_runs hf h
  have hrest : ∀ k, .code k ∈ rest → k.starts = false := hf.starts
  have hpend := pending_of_starts hrest
  cases h with
  | pumpReq hh =>
    refine ⟨⟨hopen', by simpa using hf.close_not_mem⟩, ?_, ?_, ?_, ?_, ?_, fun t q => ?_, hf.settled⟩
    · simpa [hpend] using hf.fits
    · simpa [Code.starts] using hrest
    · simpa [hpend] using hf.order
    · simpa using hf.content
    · simpa using hf.received
    · have := hf.completed t q
      simp [calls] at this ⊢
      grind

theorem flows_pumpFree (hf : Flows c (.code (.pumpFree s r) :: rest)) (h : Runs c (.pumpFree s r) c' items) :
    Flows c' (items ++ rest) := by
  have hopen' := open_runs hf h
  have hrest : ∀ k, .code k ∈ rest → k.starts = false := hf.starts
  have hpend := pending_of_starts hrest
  cases h with
  | pumpFree hh =>
    refine ⟨⟨hopen', by simpa using hf.close_not_mem⟩, ?_, ?_, ?_, hf.content, hf.received, ?_, ?_⟩
    · simpa [hpend] using hf.fits
    · exact fun k hk => hrest k (List.mem_of_mem_tail hk)
    · simpa [hpend] using hf.order
    · simpa [calls] using hf.completed
    · exact settled_of_starts hf.settled hrest

theorem flows_runs (hs : Sound c (.code k :: rest)) (hf : Flows c (.code k :: rest))
    (h : Runs c k c' items) : Flows c' (items ++ rest) := by
  have hopen : k.closes = false := by
    by_contra hcl
    have := hs.closed k List.mem_cons_self (by simpa using hcl)
    rw [hf.isOpen.1] at this
    cases this
  cases k with
  | send s p buf => exact flows_send hf h
  | receive s p => exact flows_receive hf h
  | close s => exact absurd List.mem_cons_self (hf.isOpen.2 s)
  | pump s => exact flows_pump hf h
  | pumpReq s r => exact flows_pumpReq hf h
  | pumpFree s r => exact flows_pumpFree hf h
  | closeRecv s | closeSend s | closeNext s r | closeFree => cases hopen

end

/-! ### Whole runs -/

theorem flows_ret {c : Conn} {op : Op} {rest : Stack} (hf : Flows c (.ext op :: rest)) : Flows c rest where
  isOpen := ⟨hf.isOpen.1, fun s hm => hf.isOpen.2 s (List.mem_cons_of_mem _ hm)⟩
  fits s := by
    rw [@pending_of_starts rest hf.starts]
    exact hf.fits s
  starts k hk := hf.starts k (List.mem_of_mem_tail hk)
  order s := by
    rw [@pending_of_starts rest hf.starts]
    exact hf.order s
  content := hf.content
  received := hf.received
  completed s p := by simpa [calls] using hf.completed s p
  settled := settled_of_starts hf.settled hf.starts

/-- Where the environment is in control nothing is pending and no way is ready. -/
theorem Flows.idle {c : Conn} {stack : Stack} (hf : Flows c stack) (hc : EnvControls stack) :
    (∀ s, pending s stack = []) ∧ (∀ s, ¬ c.ready s) ∧ ∀ k, .code k ∈ stack → k.starts = false := by
  cases stack with
  | nil => exact ⟨fun _ => rfl, hf.settled, fun k hk => by cases hk⟩
  | cons i rest =>
    cases i with
    | code k => cases hc
    | ext op =>
      exact ⟨fun _ => rfl, hf.settled, fun k hk => hf.starts k (by simpa using hk)⟩

theorem flows_enter {c c' : Conn} {e : Entry} {stack items : Stack} (hc : EnvControls stack)
    (hf : Flows c stack) (hfit : Fitting (.enter e)) (h : enter e c = some (c', items)) :
    Flows c' (items ++ stack) := by
  obtain ⟨hpend, hidle, hstarts⟩ := hf.idle hc
  have hclose := hf.isOpen.2
  cases e with
  | send s buf =>
    obtain ⟨rfl, rfl⟩ := Prod.mk.inj (Option.some.inj h)
    refine ⟨⟨hf.isOpen.1, by simpa using hclose⟩, fun t r hr => ?_, hstarts, fun t => ?_, fun t => ?_,
      fun t q => ?_, fun t q => ?_, hidle⟩
    · have hr : r ∈ (c.ends t).send ∨ r ∈ if s = t then [⟨buf, c.calls⟩] else [] := by simpa using hr
      rcases hr with hr | hr
      · exact hf.fits t r (List.mem_append_left _ hr)
      · split at hr
        · obtain rfl := List.mem_singleton.mp hr
          exact hfit
        · cases hr
    · have := hf.order t
      rw [hpend, List.append_nil] at this
      rw [sent_emit_sent, sent_call, delivered_emit_sent, delivered_call, this]
      rfl
    · simpa using hf.content t
    · simpa using hf.received t q
    · simpa [calls] using hf.completed t q
  | receive s =>
    obtain ⟨rfl, rfl⟩ := Prod.mk.inj (Option.some.inj h)
    refine ⟨⟨hf.isOpen.1, by simpa using hclose⟩, fun t => ?_, hstarts, fun t => ?_, fun t => ?_,
      fun t q => ?_, fun t q => ?_, hidle⟩
    · simpa [hpend] using hf.fits t
    · simpa [hpend] using hf.order t
    · simpa using hf.content t
    · simpa using hf.received t q
    · simpa [calls] using hf.completed t q
  | close s => cases hfit

/-- On an open connection every step is careful. -/
theorem careful_of_flows {c : Config} (hs : Sound c.state c.stack) (hf : Flows c.state c.stack)
    (m : Move Entry) : Careful c m := by
  have hl : c.state.live = true := by
    by_contra hdead
    have hb := (hs.dead (by simpa using hdead)).1
    have ho := hf.isOpen.1
    simp [Conn.bothClosed, Conn.anyClosed] at hb ho
    simp [hb.1] at ho
  obtain ⟨c, stack⟩ := c
  cases m with
  | run =>
    cases stack with
    | nil => trivial
    | cons i rest =>
      cases i with
      | ext op => trivial
      | code k =>
        cases k with
        | send s p buf => exact hl
        | receive s p => exact hl
        | close s => exact absurd List.mem_cons_self (hf.isOpen.2 s)
        | pump s =>
          simp only [Careful, Fits]
          split
          · rename_i p r send hr hq
            exact hf.fits s.other r (by simp [hq])
          · trivial
        | _ => trivial
  | ret => trivial
  | enter e => trivial

theorem flows_preserves : program.Preserves (fun _ m => Fitting m) fun c =>
    Sound c.state c.stack ∧ Flows c.state c.stack where
  exec hi _ he :=
    ⟨sound_runs hi.1 (careful_of_flows hi.1 hi.2 .run) (exec_runs he), flows_runs hi.1 hi.2 (exec_runs he)⟩
  ret hi _ := ⟨sound_ret hi.1, flows_ret hi.2⟩
  enter hc hi hm he := ⟨sound_enter hi.1 he, flows_enter hc hi.2 hm he⟩

theorem flows_delivers {c : Config} (hs : Sound c.state c.stack) (hf : Flows c.state c.stack) : Delivers c where
  order hc s := by
    have := hf.order s
    rwa [(hf.idle hc).1, List.append_nil] at this
  content := hf.content
  received s p := ⟨hf.received s p, ((sound_closes hs).once _).trans ((sound_closes hs).called _)⟩
  completed s p := by
    have hb := hf.completed s p
    refine ⟨by omega, ((sound_closes hs).once _).trans ((sound_closes hs).called _), fun hstack => ?_⟩
    rw [hstack, total_nil] at hb
    omega
  settled hc := (hf.idle hc).2.1
  noFault := (sound_closes hs).noFault (careful_of_flows hs hf .run)

/-- The history has the sends of the run, in their order. -/
theorem sent_step {c c' : Config} {m : Move Entry} (h : program.step c m = some c') (s : Side) :
    (c'.state.sent s).map IoReq.buf = (c.state.sent s).map IoReq.buf ++ sends s [m] := by
  obtain ⟨k, rest, s', items, rfl, hk, he, rfl⟩ | ⟨e, rest, rfl, hk, rfl⟩ | ⟨i, s', items, rfl, hk, he, rfl⟩ :=
    Program.step_cases h
  · have : s'.sent s = c.state.sent s := by
      cases exec_runs he <;> simp [Conn.sent, Conn.release, Conn.emit, List.filterMap_append]
    simp [this, sends]
  · simp [sends]
  · cases i with
    | send t buf =>
      obtain ⟨rfl, rfl⟩ := Prod.mk.inj (Option.some.inj he)
      by_cases hts : t = s <;> simp [Conn.sent, sends, List.filterMap_append, hts]
    | receive t =>
      obtain ⟨rfl, rfl⟩ := Prod.mk.inj (Option.some.inj he)
      simp [Conn.sent, sends, List.filterMap_append]
    | close t =>
      obtain ⟨rfl, rfl⟩ := Prod.mk.inj (Option.some.inj he)
      simp [sends]

theorem sent_run {ms : List (Move Entry)} (s : Side) : ∀ {c c' : Config},
    run program.step c ms = some c' →
    (c'.state.sent s).map IoReq.buf = (c.state.sent s).map IoReq.buf ++ sends s ms := by
  induction ms with
  | nil =>
    intro c c' h
    obtain rfl := Option.some.inj h
    simp [sends]
  | cons m ms ih =>
    intro c c' h
    obtain ⟨c₁, h₁, h₂⟩ := run_cons_eq_some.mp h
    rw [ih h₂, sent_step h₁, List.append_assoc]
    congr 1
    rw [sends, sends, sends, ← List.filterMap_append, List.singleton_append]

/-- Every packet sent on an open connection is delivered in order and once. -/
theorem fitting_delivers (ms : List (Move Entry)) (c : Config) (hm : ∀ m ∈ ms, Fitting m)
    (h : run program.step connect ms = some c) :
    Delivers c ∧ ∀ s, (c.state.sent s).map IoReq.buf = sends s ms := by
  obtain ⟨hs, hf⟩ := flows_preserves.run ⟨sound_connect, flows_connect⟩ (.of_forall hm) h
  exact ⟨flows_delivers hs hf, fun s => by simpa [connect, Conn.sent] using sent_run s h⟩

/-- The server waits for a packet, the client sends one in two parts, and the server
answers from the callback of its receive. -/
def echo : List (Move Entry) :=
  [.enter (.receive .server), .run, .run, .run, .enter (.send .client [[1], [2]]), .run, .run, .run,
    .enter (.send .server [[1, 2]]), .run, .run, .run, .ret, .run, .ret, .run, .enter (.receive .client),
    .run, .run, .ret, .run, .ret, .run, .run]

theorem echo_delivers : ∃ c, run program.step connect echo = some c ∧ c.stack = [] ∧ Delivers c := by
  obtain ⟨c, hc⟩ := Option.isSome_iff_exists.mp (show (run program.step connect echo).isSome by decide)
  refine ⟨c, hc, ?_, (fitting_delivers echo c (by decide) hc).1⟩
  have hl : (run program.step connect echo).map (fun c => c.stack) = some [] := by decide
  rw [hc] at hl
  exact Option.some.inj hl

/-- A packet whose length needs more than 32 bits is written past the end of its buffer. -/
theorem overflow_faults {buf : List (List UInt8)} (h : 2 ^ 32 ≤ buf.flatten.length) :
    ∃ c, run program.step connect [.enter (.receive .server), .run, .run, .run, .enter (.send .client buf),
      .run, .run] = some c ∧ program.Faults c := by
  obtain ⟨c, hc, hstack, hl, hr, hq⟩ : ∃ c, run program.step connect [.enter (.receive .server), .run, .run, .run,
      .enter (.send .client buf), .run, .run] = some c ∧ c.stack = [.code (.pump .server)] ∧ c.state.live = true ∧
      (c.state.ends .server).recv = some 0 ∧ (c.state.ends .client).send = [⟨buf, 1⟩] :=
    ⟨_, rfl, rfl, rfl, rfl, rfl⟩
  refine ⟨c, hc, _, _, hstack, ?_⟩
  change exec (.pump .server) c.state = none
  rw [exec.eq_def, hl]
  simp [pumpTo.eq_def, hr, Side.other, hq, transferBuffer_overflow h]

/-- Two parts of two gibibytes each. -/
theorem delivers_overflow : ∃ c, run program.step connect [.enter (.receive .server), .run, .run, .run,
    .enter (.send .client [List.replicate (2 ^ 31) 0, List.replicate (2 ^ 31) 0]), .run, .run] = some c ∧
    ¬ Delivers c := by
  obtain ⟨c, hc, hf⟩ := @overflow_faults [List.replicate (2 ^ 31) 0, List.replicate (2 ^ 31) 0] (by
    rw [List.flatten_cons, List.length_append, List.flatten_cons, List.length_append, List.length_replicate]
    omega)
  exact ⟨c, hc, fun h => h.noFault hf⟩

end PxpRpc.Pipe
