import PxpRpc.Pipe.Delivery

/-!
# The errors that a pipe connection reports

An end has one error for its sends and one for its receives. They are reset when an
operation starts and are what the caller finds when one is completed, whichever that
is.
-/
namespace PxpRpc.Pipe

open PxpRpc.Lib PxpRpc.Lib.Callback

/-! ### What is to be reported -/

/-- What has happened `before` an operation is completed decides its error: a receive
has none when a packet has just been stored for it, a send when it has been delivered. -/
def Reported (before : List Event) : Event → Prop
  | .completed (.receive s p) error =>
      error = none ↔ ∃ r buf, before.getLast? = some (.delivered s p r buf)
  | .completed (.send s p) error =>
      error = none ↔ ∃ q r buf, .delivered s.other q r buf ∈ before ∧ r.p = p
  | _ => True

def Reports (log : List Event) : Prop :=
  ∀ before e after, log = before ++ e :: after → Reported before e

/-- The receive that was called last at side `s`. -/
def Conn.lastReceive (c : Conn) (s : Side) : Option Nat :=
  (c.log.filterMap fun
    | .called (.receive t p) => if t = s then some p else none
    | _ => none).getLast?

/-- A packet is given to a receive only when no other has been called at its end since,
and the connection is not closed between that and the callback of the send. -/
def Undisturbed (c : Config) : Move Entry → Prop
  | .run =>
      match c.stack with
      | .code (.pump s) :: _ =>
          (c.state.ends s.other).send ≠ [] → ∀ p ∈ (c.state.ends s).recv, c.state.lastReceive s = some p
      | .code (.pumpReq ..) :: _ => c.state.anyClosed = false
      | _ => True
  | _ => True

/-- The end that is given what the other one sent. -/
def Code.pumped : Code → Option Side
  | .pump s => some s
  | _ => none

def Code.isPumpReq : Code → Bool
  | .pumpReq .. => true
  | _ => false

theorem undisturbed_code {c : Conn} {k : Code} {rest : Stack} : Undisturbed ⟨c, .code k :: rest⟩ .run ↔
    (∀ s ∈ k.pumped, (c.ends s.other).send ≠ [] → ∀ p ∈ (c.ends s).recv, c.lastReceive s = some p) ∧
      (k.isPumpReq → c.anyClosed = false) := by
  cases k <;> simp [Undisturbed, Code.pumped, Code.isPumpReq]

instance : ∀ (c : Config) (m : Move Entry), Decidable (Undisturbed c m) :=
  decidableMove (fun _ _ _ => decidable_of_iff _ undisturbed_code.symm) (fun _ _ => isTrue trivial)
    (fun _ => trivial) (fun _ _ _ => trivial) (fun _ => trivial)

/-! ### Completions in a log -/

theorem reports_nil : Reports [] := fun _ _ _ h => absurd h (by simp)

theorem reports_concat {log : List Event} {e : Event} : Reports (log ++ [e]) ↔ Reports log ∧ Reported log e := by
  constructor
  · intro h
    refine ⟨fun before e' after hl => h before e' (after ++ [e]) (by rw [hl]; simp), h log e [] rfl⟩
  · rintro ⟨h, he⟩ before e' after hl
    rcases List.eq_nil_or_concat after with rfl | ⟨after, e'', rfl⟩
    · obtain ⟨rfl, he'⟩ := List.append_inj' hl rfl
      obtain rfl := (List.cons.inj he').1
      exact he
    · have hl' : log ++ [e] = (before ++ e' :: after) ++ [e''] := by rw [hl]; simp
      obtain ⟨rfl, -⟩ := List.append_inj' hl' rfl
      exact h before e' after rfl

theorem mem_delivered {c : Conn} {s : Side} {q : Nat} {r : IoReq} {buf : Block} :
    .delivered s q r buf ∈ c.log ↔ (q, r, buf) ∈ c.delivered s := by
  unfold Conn.delivered
  rw [List.mem_filterMap]
  constructor
  · exact fun h => ⟨_, h, if_pos rfl⟩
  · rintro ⟨e, he, hf⟩
    cases e with
    | delivered t q' r' buf' =>
      dsimp only at hf
      split at hf
      · rename_i hts
        cases hf
        rw [← hts]
        exact he
      · cases hf
    | _ => cases hf

section

variable (c : Conn) (s t : Side) (e : End) (op : Op)

@[simp] theorem lastReceive_setEnd : (c.setEnd s e).lastReceive t = c.lastReceive t := rfl
@[simp] theorem lastReceive_malloc : (c.malloc op).lastReceive t = c.lastReceive t := rfl
@[simp] theorem lastReceive_free : (c.free op).lastReceive t = c.lastReceive t := rfl
@[simp] theorem lastReceive_close : (connectionClose s c).1.lastReceive t = c.lastReceive t := rfl
@[simp] theorem delivered_close : (connectionClose s c).1.delivered t = c.delivered t := rfl

/-- Other events do not matter. -/
theorem lastReceive_append {log : List Event} {ev : Event} (h : ∀ p, ev ≠ .called (.receive t p)) :
    ({ c with log := log ++ [ev] } : Conn).lastReceive t = ({ c with log } : Conn).lastReceive t := by
  have hnone : List.filterMap (fun
      | Event.called (.receive t' p) => if t' = t then some p else none
      | _ => none) [ev] = [] := by
    cases ev with
    | called op =>
      cases op with
      | send s p => rfl
      | receive s p => simp [show s ≠ t from fun he => h p (he ▸ rfl)]
    | _ => rfl
  rw [Conn.lastReceive, List.filterMap_append, hnone, List.append_nil]
  rfl

@[simp] theorem lastReceive_complete : (c.complete op).lastReceive t = c.lastReceive t :=
  lastReceive_append _ _ fun _ he => by cases he

@[simp] theorem lastReceive_release : c.release.lastReceive t = c.lastReceive t :=
  lastReceive_append _ _ fun _ he => by cases he

@[simp] theorem delivered_release : c.release.delivered t = c.delivered t := by
  simp [Conn.delivered, List.filterMap_append]

@[simp] theorem lastReceive_call :
    (c.call op).lastReceive t = if op = .receive t op.p then some op.p else c.lastReceive t := by
  cases op with
  | send s p => exact lastReceive_append _ _ fun _ he => by cases he
  | receive s p => by_cases h : s = t <;> simp [Conn.lastReceive, List.filterMap_append, Op.p, h]

@[simp] theorem lastReceive_emit_sent (r : IoReq) : (c.emit (.sent s r)).lastReceive t = c.lastReceive t :=
  lastReceive_append _ _ fun _ he => by cases he

@[simp] theorem lastReceive_emit_delivered (p : Nat) (r : IoReq) (buf : Block) :
    (c.emit (.delivered s p r buf)).lastReceive t = c.lastReceive t :=
  lastReceive_append _ _ fun _ he => by cases he

end

/-! ### Closing -/

/-- Both ends have errors from the moment one of them is closed; inside of closing no
packet is transferred. -/
structure Shuts (c : Conn) (stack : Stack) : Prop where
  closes : ∀ k, .code k ∈ stack → k.closes → c.anyClosed
  order : stack.Pairwise fun i j => ∀ k k', i = .code k → j = .code k' → k.isPump → k'.closes = false
  drained : c.anyClosed → ∀ s, (c.ends s).recv = none ∨ .code (.closeRecv s) ∈ stack
  failed : c.anyClosed → ∀ s, (c.ends s).sendError ≠ none ∧ (c.ends s).receiveError ≠ none
  clean : c.anyClosed = false → ∀ s, (c.ends s).sendError = none

variable {c c' : Conn} {k : Code} {rest items : Stack}

theorem shuts_runs (h : Shuts c (.code k :: rest)) (hr : Runs c k c' items) : Shuts c' (items ++ rest) := by
  refine ⟨closed_step h.closes hr, order_runs h.closes h.order hr, recvDrained_runs h.order h.drained hr, ?_, ?_⟩
  · intro hany t
    by_cases hk : ∃ s, k = .close s
    · obtain ⟨s, rfl⟩ := hk
      cases hr with
      | close hl => simp
    · rw [anyClosed_runs hr fun s he => hk ⟨s, he⟩] at hany
      have hf := h.failed hany t
      cases hr with
      | close hl => exact absurd ⟨_, rfl⟩ hk
      | sendQueued hl hc => simp [hc] at hany
      | receivePending hl hr hc => simp [hc] at hany
      | pumpTransfer hl hr hq hh hbuf => simp [anyClosed_pump h.order h.drained hr] at hany
      | @closeRecv s p hl hr => by_cases hts : t = s <;> simp_all
      | @sendClosed s p buf hl hc => by_cases hts : t = s <;> simp_all
      | @receiveFailed s p error hl hc => by_cases hts : t = s <;> simp_all
      | @closeNext s r hl hh => by_cases hts : t = s <;> simp_all
      | _ => simpa using hf
  · intro hopen t
    by_cases hk : ∃ s, k = .close s
    · obtain ⟨s, rfl⟩ := hk
      cases hr with
      | close hl => simp [anyClosed_close] at hopen
    · rw [anyClosed_runs hr fun s he => hk ⟨s, he⟩] at hopen
      have hc := h.clean hopen t
      cases hr with
      | close hl => exact absurd ⟨_, rfl⟩ hk
      | sendClosed hl hc => simp [hc] at hopen
      | @sendQueued s p buf hl hc => by_cases hts : t = s <;> simp_all
      | @receiveFailed s p error hl hc => by_cases hts : t = s <;> simp_all
      | @receivePending s p hl hr hc => by_cases hts : t = s <;> simp_all
      | @pumpTransfer s p r send buf hl hr hq hh hbuf => simp; grind
      | @closeRecv s p hl hr => by_cases hts : t = s <;> simp_all
      | @closeNext s r hl hh => by_cases hts : t = s <;> simp_all
      | _ => simpa using hc

/-! ### Sends -/

/-- The sends of a side that are delivered or queued. -/
def Conn.numbers (c : Conn) (s : Side) : List Nat :=
  (c.delivered s.other).map (fun d => d.2.1.p) ++ (c.ends s).send.map IoReq.p

/-- Every send is on its way, queued or delivered, once; calls are made on top of the
stack only. -/
structure Numbered (c : Conn) (stack : Stack) : Prop where
  starts : ∀ k, .code k ∈ stack.tail → k.isCall = false
  nodup : ∀ s, (c.numbers s ++ (pending s stack).map IoReq.p).Nodup
  lt : ∀ s, ∀ p ∈ c.numbers s ++ (pending s stack).map IoReq.p, p < c.calls
  held : ∀ s r, .code (.pumpReq s r) ∈ stack → ∃ q buf, (q, r, buf) ∈ c.delivered s.other

theorem pending_of_isCall {stack : Stack} (h : ∀ k, .code k ∈ stack → k.isCall = false) (s : Side) :
    pending s stack = [] := by
  cases stack with
  | nil => rfl
  | cons i rest =>
    cases i with
    | ext op => rfl
    | code k =>
      have hk := h k List.mem_cons_self
      cases k <;> first | rfl | cases hk

theorem behind_sublist (r : IoReq) (send : List IoReq) : (behind r send).Sublist send :=
  (List.tail_sublist _).trans (List.dropWhile_sublist _)

/-- Only a call goes on with calls on top of the stack. -/
theorem isCall_runs (h : ∀ k, .code k ∈ rest → k.isCall = false) (hr : Runs c k c' items) :
    ∀ k, .code k ∈ items ++ rest → k.isCall = false := by
  intro k' hm
  rcases List.mem_append.mp hm with hm | hm
  · cases hr <;> simp [pump, closing] at hm <;> grind [Code.isCall]
  · exact h k' hm

/-- A send goes on to the queue and from there to the other end, or is lost. -/
theorem numbers_runs (hr : Runs c k c' items) (s : Side) :
    (c'.numbers s).Sublist (c.numbers s ++ (pending s (.code k :: rest)).map IoReq.p) := by
  unfold Conn.numbers
  cases hr with
  | @sendQueued t p buf hl hc =>
    by_cases hts : s = t
    · subst hts
      simp
    · simp [hts, Ne.symm hts]
  | @pumpTransfer t p r send buf hl hr hq hh hbuf =>
    have hne := other_ne t
    rcases eq_or_other s t with rfl | rfl
    · simp [hne.symm]
    · simp [hne, hq]
  | @closeNext t r hl hh =>
    by_cases hts : s = t
    · subst hts
      simpa using ((behind_sublist r (c.ends s).send).map IoReq.p).trans (List.sublist_append_left ..)
    · simp [hts]
  | @sendClosed t p buf hl hc => by_cases hts : s = t <;> simp [hts]
  | @receiveFailed t p error hl hc => by_cases hts : s = t <;> simp [hts]
  | @receivePending t p hl hr hc => by_cases hts : s = t <;> simp [hts]
  | @closeRecv t p hl hr => by_cases hts : s = t <;> simp [hts]
  | _ => simp

theorem numbered_runs (h : Numbered c (.code k :: rest)) (hr : Runs c k c' items) : Numbered c' (items ++ rest) := by
  have hcalls : ∀ k, .code k ∈ items ++ rest → k.isCall = false := isCall_runs h.starts hr
  have hpend := pending_of_isCall hcalls
  have hsub := fun s => @numbers_runs c c' k rest items hr s
  have hcnt : c'.calls = c.calls := by cases hr <;> rfl
  refine ⟨fun k' hm => hcalls k' (List.mem_of_mem_tail hm), fun s => ?_, fun s p hm => ?_, fun s r hm => ?_⟩
  · rw [hpend s, List.map_nil, List.append_nil]
    exact (h.nodup s).sublist (hsub s)
  · rw [hpend s, List.map_nil, List.append_nil] at hm
    rw [hcnt]
    exact h.lt s p ((hsub s).subset hm)
  · have hgrow : ∀ t, c.delivered t ⊆ c'.delivered t := by
      intro t d hd
      cases hr <;> simp [hd]
    have hold : .code (.pumpReq s r) ∈ rest → ∃ q buf, (q, r, buf) ∈ c'.delivered s.other := by
      intro hm
      obtain ⟨q, buf, hd⟩ := h.held s r (List.mem_cons_of_mem _ hm)
      exact ⟨q, buf, hgrow _ hd⟩
    rcases List.mem_append.mp hm with hm | hm
    · cases hr with
      | @pumpTransfer t p r' send buf hl hr hq hh hbuf =>
        have hm : s = t.other ∧ r = r' := by simpa using hm
        obtain ⟨rfl, rfl⟩ := hm
        exact ⟨p, buf, by simp⟩
      | _ => simp [pump, closing] at hm
    · exact hold hm

/-! ### Receives -/

/-- A pending receive finds no error as long as it is the last that has been called. -/
structure Awaits (c : Conn) (stack : Stack) : Prop where
  last : ∀ s p r buf, c.log.getLast? ≠ some (.delivered s p r buf)
  calling : ∀ s p rest, stack = .code (.receive s p) :: rest →
    c.lastReceive s = some p ∧ p < c.calls ∧ ∀ q ∈ (c.ends s).recv, q < p
  lt : ∀ s, ∀ q ∈ (c.ends s).recv, q < c.calls
  pending : c.anyClosed = false → ∀ s, ∀ q ∈ (c.ends s).recv, (∀ p rest, stack ≠ .code (.receive s p) :: rest) →
    ((c.ends s).receiveError = none ↔ c.lastReceive s = some q)

theorem awaits_pending (h : Awaits c (.code k :: rest)) (hr : Runs c k c' items) (hopen : c'.anyClosed = false)
    (t : Side) (q : Nat) (hq : q ∈ (c'.ends t).recv) :
    (c'.ends t).receiveError = none ↔ c'.lastReceive t = some q := by
  by_cases hk : ∃ s, k = .close s
  · obtain ⟨s, rfl⟩ := hk
    cases hr with
    | close hl => simp [anyClosed_close] at hopen
  · rw [anyClosed_runs hr fun s he => hk ⟨s, he⟩] at hopen
    have hold := h.pending hopen t
    cases hr with
    | close hl => exact absurd ⟨_, rfl⟩ hk
    | @receiveFailed s p error hl hc =>
      by_cases hts : t = s
      · subst hts
        obtain ⟨hlast, -, hlt⟩ := h.calling t p rest rfl
        have hqp : q < p := hlt q (by simpa using hq)
        simp [hlast]
        omega
      · simpa [hts] using hold q (by simpa [hts] using hq) fun p' rest' he => by
          cases he
          exact hts rfl
    | @receivePending s p hl hr hc =>
      by_cases hts : t = s
      · subst hts
        obtain ⟨hlast, -, -⟩ := h.calling t p rest rfl
        have hpq : p = q := by simpa using hq
        simp [hlast, hpq]
      · simpa [hts] using hold q (by simpa [hts] using hq) fun p' rest' he => by
          cases he
          exact hts rfl
    | @pumpTransfer s p r send buf hl hr hs hh hbuf =>
      have hne := other_ne s
      by_cases hts : t = s
      · subst hts
        simp at hq
      · obtain rfl := (eq_or_other t s).resolve_left hts
        simpa [hne] using hold q (by simpa [hne] using hq) (by simp)
    | @closeRecv s p hl hr =>
      by_cases hts : t = s
      · subst hts
        simp at hq
      · simpa [hts] using hold q (by simpa [hts] using hq) (by simp)
    | @sendClosed s p buf hl hc => simp [hc] at hopen
    | @sendQueued s p buf hl hc =>
      by_cases hts : t = s
      · subst hts
        simpa using hold q (by simpa using hq) (by simp)
      · simpa [hts] using hold q (by simpa [hts] using hq) (by simp)
    | @closeNext s r hl hh =>
      by_cases hts : t = s
      · subst hts
        simpa using hold q (by simpa using hq) (by simp)
      · simpa [hts] using hold q (by simpa [hts] using hq) (by simp)
    | _ => simpa using hold q (by simpa using hq) (by simp)

theorem awaits_runs (hn : Numbered c (.code k :: rest)) (h : Awaits c (.code k :: rest)) (hr : Runs c k c' items) :
    Awaits c' (items ++ rest) := by
  have hcalls : ∀ k, .code k ∈ items ++ rest → k.isCall = false := isCall_runs hn.starts hr
  have hcnt : c'.calls = c.calls := by cases hr <;> rfl
  refine ⟨?_, ?_, ?_, fun hopen t q hq _ => awaits_pending h hr hopen t q hq⟩
  · intro s p r buf
    have hlast := h.last s p r buf
    cases hr <;> first | exact hlast | simp
  · intro s p rest' he
    have := hcalls (.receive s p) (he ▸ List.mem_cons_self)
    cases this
  · intro t q hq
    rw [hcnt]
    cases hr with
    | @receivePending s p hl hr hc =>
      by_cases hts : t = s
      · subst hts
        have hpq : p = q := by simpa using hq
        exact hpq ▸ (h.calling t p rest rfl).2.1
      · exact h.lt t q (by simpa [hts] using hq)
    | @pumpTransfer s p r send buf hl hr hs hh hbuf =>
      refine h.lt t q ?_
      simp at hq ⊢
      grind
    | @closeRecv s p hl hr =>
      refine h.lt t q ?_
      simp at hq ⊢
      grind
    | @sendClosed s p buf hl hc => exact h.lt t q (by by_cases hts : t = s <;> simp_all)
    | @sendQueued s p buf hl hc => exact h.lt t q (by by_cases hts : t = s <;> simp_all)
    | @receiveFailed s p error hl hc => exact h.lt t q (by by_cases hts : t = s <;> simp_all)
    | @closeNext s r hl hh => exact h.lt t q (by by_cases hts : t = s <;> simp_all)
    | _ => exact h.lt t q (by simpa using hq)

/-! ### One step -/

/-- A connection whose completions so far have all been reported. -/
structure Inv (c : Conn) (stack : Stack) : Prop where
  shuts : Shuts c stack
  numbered : Numbered c stack
  awaits : Awaits c stack
  reports : Reports c.log

theorem inv_connect : Inv connect.state connect.stack where
  shuts := by constructor <;> simp [connect, Conn.anyClosed]
  numbered := by constructor <;> simp [connect, pending, Conn.numbers, Conn.delivered]
  awaits := by constructor <;> simp [connect]
  reports := reports_nil

/-- A send that is still to be delivered has not been delivered. -/
theorem not_delivered {stack : Stack} (h : Numbered c stack) {s : Side} {p : Nat}
    (hp : p ∈ (c.ends s).send.map IoReq.p ++ (pending s stack).map IoReq.p) :
    ¬ ∃ q r buf, .delivered s.other q r buf ∈ c.log ∧ r.p = p := by
  rintro ⟨q, r, buf, hm, rfl⟩
  have hnd := h.nodup s
  unfold Conn.numbers at hnd
  rw [List.append_assoc] at hnd
  exact (List.nodup_append.mp hnd).2.2 r.p (List.mem_map.mpr ⟨_, mem_delivered.mp hm, rfl⟩) r.p hp rfl

/-- What is completed is reported if and only if nothing has disturbed it. -/
theorem reports_runs (h : Inv c (.code k :: rest)) (hr : Runs c k c' items) :
    Reports c'.log ↔ Undisturbed ⟨c, .code k :: rest⟩ .run := by
  have hsame : Reports c.log := h.reports
  cases hr with
  | @sendClosed s p buf hl hc =>
    have hp : p ∈ (c.ends s).send.map IoReq.p ++ (pending s (.code (.send s p buf) :: rest)).map IoReq.p := by simp
    refine iff_of_true (reports_concat.mpr ⟨hsame, ?_⟩) trivial
    exact iff_of_false (by simp [Conn.error]) (not_delivered h.numbered hp)
  | @receiveFailed s p error hl hc =>
    refine iff_of_true (reports_concat.mpr ⟨hsame, ?_⟩) trivial
    refine iff_of_false (by simp [Conn.error]) ?_
    rintro ⟨r, buf, hlast⟩
    exact h.awaits.last s p r buf hlast
  | @pumpIdle s hl hi =>
    refine iff_of_true hsame fun hs p hp => ?_
    rcases hi with hi | hi
    · rw [hi] at hp
      cases hp
    · exact absurd hi hs
  | @pumpTransfer s p r send buf hl hr hq hh hb =>
    have hopen := anyClosed_pump h.shuts.order h.shuts.drained hr
    have hne := other_ne s
    have herror := h.awaits.pending hopen s p hr (by simp)
    have hund : Undisturbed ⟨c, .code (.pump s) :: rest⟩ .run ↔ c.lastReceive s = some p := by
      simp only [Undisturbed, hq, hr]
      simp
    rw [hund, ← herror, log_complete, log_emit, reports_concat, reports_concat]
    simp only [log_setEnd, Reported, and_true, hsame, true_and]
    have hlast : ∃ r' buf', (c.log ++ [Event.delivered s p r buf]).getLast? = some (.delivered s p r' buf') :=
      ⟨r, buf, List.getLast?_concat ..⟩
    rw [iff_true_right hlast]
    simp [Conn.error]
  | @pumpReq s r hh =>
    obtain ⟨q, buf, hd⟩ := h.numbered.held s r List.mem_cons_self
    have hdel : ∃ q r' buf, .delivered s.other q r' buf ∈ c.log ∧ r'.p = r.p := ⟨q, r, buf, mem_delivered.mpr hd, rfl⟩
    rw [log_complete, reports_concat]
    simp only [hsame, true_and, Reported, Undisturbed, iff_true_right hdel, Conn.error]
    cases hany : c.anyClosed with
    | false => exact iff_of_true (h.shuts.clean hany s) rfl
    | true => exact iff_of_false (h.shuts.failed hany s).1 (by simp)
  | @closeRecv s p hl hr =>
    have hany := h.shuts.closes _ List.mem_cons_self rfl
    refine iff_of_true (reports_concat.mpr ⟨hsame, ?_⟩) trivial
    refine iff_of_false (by simpa [Conn.error] using (h.shuts.failed hany s).2) ?_
    rintro ⟨r, buf, hlast⟩
    exact h.awaits.last s p r buf hlast
  | @closeSend s r send hl hq hh =>
    have hany := h.shuts.closes _ List.mem_cons_self rfl
    have hp : r.p ∈ (c.ends s).send.map IoReq.p ++ (pending s (.code (.closeSend s) :: rest)).map IoReq.p := by simp [hq]
    refine iff_of_true (reports_concat.mpr ⟨hsame, ?_⟩) trivial
    exact iff_of_false (h.shuts.failed hany s).1 (not_delivered h.numbered hp)
  | closeFree hl hb => exact iff_of_true (reports_concat.mpr ⟨hsame, trivial⟩) trivial
  | _ => exact iff_of_true hsame trivial

theorem inv_runs (h : Inv c (.code k :: rest)) (hr : Runs c k c' items) (hrep : Reports c'.log) :
    Inv c' (items ++ rest) :=
  ⟨shuts_runs h.shuts hr, numbered_runs h.numbered hr, awaits_runs h.numbered h.awaits hr, hrep⟩

theorem inv_ret {op : Op} (h : Inv c (.ext op :: rest)) : Inv c rest := by
  have hcalls : ∀ k, .code k ∈ rest → k.isCall = false := h.numbered.starts
  have hpend := pending_of_isCall hcalls
  refine ⟨⟨fun k hm => h.shuts.closes k (List.mem_cons_of_mem _ hm), (List.pairwise_cons.mp h.shuts.order).2, ?_,
    h.shuts.failed, h.shuts.clean⟩, ⟨fun k hm => hcalls k (List.mem_of_mem_tail hm), ?_, ?_, ?_⟩,
    ⟨h.awaits.last, ?_, h.awaits.lt, ?_⟩, h.reports⟩
  · exact fun hany s => (h.shuts.drained hany s).imp_right fun hm => by simpa using hm
  · exact fun s => by rw [hpend]; exact h.numbered.nodup s
  · exact fun s => by rw [hpend]; exact h.numbered.lt s
  · exact fun s r hm => h.numbered.held s r (List.mem_cons_of_mem _ hm)
  · intro s p rest' he
    have := hcalls (.receive s p) (he ▸ List.mem_cons_self)
    cases this
  · exact fun hopen s q hq _ => h.awaits.pending hopen s q hq (by simp)

/-- Where the environment is in control no call is on the stack. -/
theorem Numbered.idle {stack : Stack} (h : Numbered c stack) (hc : EnvControls stack) :
    ∀ k, .code k ∈ stack → k.isCall = false := by
  cases stack with
  | nil => exact fun k hm => absurd hm List.not_mem_nil
  | cons i rest =>
    cases i with
    | code k => exact hc.elim
    | ext op => exact fun k hm => h.starts k (by simpa using hm)

theorem ne_receive {stack : Stack} (hc : EnvControls stack) (s : Side) (p : Nat) (rest : Stack) :
    stack ≠ .code (.receive s p) :: rest := by
  rintro rfl
  exact hc

theorem shuts_enter {stack : Stack} {k : Code} (h : Shuts c stack) (hk : k.isCall) (hends : c'.ends = c.ends) :
    Shuts c' (.code k :: stack) := by
  have hcloses : k.closes = false := by cases k <;> simp_all [Code.isCall, Code.closes]
  have hpump : k.isPump = false := by cases k <;> simp_all [Code.isCall, Code.isPump]
  have hany : c'.anyClosed = c.anyClosed := by unfold Conn.anyClosed; rw [hends]
  refine ⟨fun k' hm hcl => ?_, List.pairwise_cons.mpr ⟨fun j _ k₁ k₂ h₁ _ hp => ?_, h.order⟩, ?_, ?_, ?_⟩
  · rcases List.mem_cons.mp hm with he | hm
    · obtain rfl := Item.code.inj he
      rw [hcloses] at hcl
      cases hcl
    · rw [hany]
      exact h.closes k' hm hcl
  · obtain rfl := Item.code.inj h₁
    rw [hpump] at hp
    cases hp
  · rw [hany, hends]
    exact fun ha s => (h.drained ha s).imp_right (List.mem_cons_of_mem _)
  · rw [hany, hends]
    exact h.failed
  · rw [hany, hends]
    exact h.clean

theorem inv_enter {e : Entry} {stack : Stack} (hc : EnvControls stack) (h : Inv c stack)
    (he : enter e c = some (c', items)) : Inv c' (items ++ stack) := by
  have hcalls := h.numbered.idle hc
  have hpend := pending_of_isCall hcalls
  have hnd := fun s => h.numbered.nodup s
  have hlt := fun s => h.numbered.lt s
  simp only [hpend, List.map_nil, List.append_nil] at hnd hlt
  cases e with
  | send s buf =>
    obtain ⟨rfl, rfl⟩ := Prod.mk.inj (Option.some.inj he)
    have hnum : ∀ t, ((c.call (.send s c.calls)).emit (.sent s ⟨buf, c.calls⟩)).numbers t = c.numbers t := by
      intro t
      simp [Conn.numbers]
    refine ⟨shuts_enter h.shuts rfl rfl, ⟨hcalls, fun t => ?_, fun t p hp => ?_, fun t r hm => ?_⟩,
      ⟨by simp, by simp, fun t q hq => ?_, fun hopen t q hq _ => ?_⟩, ?_⟩
    · rw [hnum]
      by_cases hst : s = t
      · subst hst
        have hnew : ∀ p ∈ c.numbers s, ¬p = c.calls := fun p hp => Nat.ne_of_lt (hlt s p hp)
        simpa using List.nodup_append.mpr ⟨hnd s, List.nodup_singleton _, by simpa using hnew⟩
      · simpa [hst] using hnd t
    · rw [hnum] at hp
      rcases List.mem_append.mp hp with hp | hp
      · exact Nat.lt_succ_of_lt (hlt t p hp)
      · by_cases hst : s = t
        · obtain rfl : p = c.calls := by simpa [hst] using hp
          exact Nat.lt_succ_self _
        · simp [hst] at hp
    · simpa using h.numbered.held t r (by simpa using hm)
    · exact Nat.lt_succ_of_lt (h.awaits.lt t q hq)
    · simpa using h.awaits.pending hopen t q hq (ne_receive hc t)
    · rw [log_emit, log_call, reports_concat, reports_concat]
      exact ⟨⟨h.reports, trivial⟩, trivial⟩
  | receive s =>
    obtain ⟨rfl, rfl⟩ := Prod.mk.inj (Option.some.inj he)
    have hnum : ∀ t, (c.call (.receive s c.calls)).numbers t = c.numbers t := by
      intro t
      simp [Conn.numbers]
    have hlast : ∀ t, (c.call (.receive s c.calls)).lastReceive t = if s = t then some c.calls else c.lastReceive t := by
      intro t
      simp [Op.p]
    refine ⟨shuts_enter h.shuts rfl rfl, ⟨hcalls, fun t => ?_, fun t p hp => ?_, fun t r hm => ?_⟩,
      ⟨by simp, fun t p rest' hst => ?_, fun t q hq => ?_, fun hopen t q hq hne => ?_⟩, ?_⟩
    · rw [hnum]
      simpa using hnd t
    · rw [hnum] at hp
      exact Nat.lt_succ_of_lt (hlt t p (by simpa using hp))
    · simpa using h.numbered.held t r (by simpa using hm)
    · simp only [List.singleton_append, List.cons.injEq, Item.code.injEq, Code.receive.injEq] at hst
      obtain ⟨⟨rfl, rfl⟩, -⟩ := hst
      exact ⟨by rw [hlast, if_pos rfl], Nat.lt_succ_self _, h.awaits.lt s⟩
    · exact Nat.lt_succ_of_lt (h.awaits.lt t q hq)
    · have hst : s ≠ t := fun hst => hne c.calls stack (by rw [hst]; rfl)
      rw [hlast, if_neg hst]
      exact h.awaits.pending hopen t q hq (ne_receive hc t)
    · rw [log_call, reports_concat]
      exact ⟨h.reports, trivial⟩
  | close s =>
    obtain ⟨rfl, rfl⟩ := Prod.mk.inj (Option.some.inj he)
    refine ⟨shuts_enter h.shuts rfl rfl, ⟨hcalls, fun t => ?_, fun t p hp => ?_, fun t r hm => ?_⟩,
      ⟨h.awaits.last, by simp, h.awaits.lt, fun hopen t q hq _ => ?_⟩, h.reports⟩
    · simpa [pending] using hnd t
    · exact hlt t p (by simpa [pending] using hp)
    · exact h.numbered.held t r (by simpa using hm)
    · exact h.awaits.pending hopen t q hq (ne_receive hc t)

/-! ### Runs -/

variable {s s' : Config} {m : Move Entry} {ms : List (Move Entry)}

theorem reports_step (h : Inv s.state s.stack) (hs : program.step s m = some s') :
    Reports s'.state.log ↔ Undisturbed s m := by
  obtain ⟨c, stack⟩ := s
  obtain ⟨k, rest, c', items, rfl, rfl, he, rfl⟩ | ⟨op, rest, rfl, rfl, rfl⟩ | ⟨e, c', items, rfl, hc, he, rfl⟩ :=
    Program.step_cases hs
  · exact reports_runs h (exec_runs he)
  · exact iff_of_true h.reports trivial
  · exact iff_of_true (inv_enter hc h he).reports trivial

theorem inv_step (h : Inv s.state s.stack) (hs : program.step s m = some s') (hrep : Reports s'.state.log) :
    Inv s'.state s'.stack := by
  obtain ⟨c, stack⟩ := s
  obtain ⟨k, rest, c', items, rfl, rfl, he, rfl⟩ | ⟨op, rest, rfl, rfl, rfl⟩ | ⟨e, c', items, rfl, hc, he, rfl⟩ :=
    Program.step_cases hs
  · exact inv_runs h (exec_runs he) hrep
  · exact inv_ret h
  · exact inv_enter hc h he

/-- The history only grows. -/
theorem log_step (hs : program.step s m = some s') : s.state.log <+: s'.state.log := by
  obtain ⟨k, rest, c', items, rfl, hk, he, rfl⟩ | ⟨op, rest, rfl, hk, rfl⟩ | ⟨e, c', items, rfl, hc, he, rfl⟩ :=
    Program.step_cases hs
  · cases exec_runs he <;> simp [Conn.release, Conn.emit]
  · exact List.prefix_refl _
  · cases e <;> obtain ⟨rfl, rfl⟩ := Prod.mk.inj (Option.some.inj he) <;> simp

theorem log_run : ∀ {s : Config}, run program.step s ms = some s' → s.state.log <+: s'.state.log := by
  induction ms with
  | nil =>
    intro s h
    obtain rfl := Option.some.inj h
    exact List.prefix_refl _
  | cons m ms ih =>
    intro s h
    obtain ⟨s₁, h₁, h₂⟩ := run_cons_eq_some.mp h
    exact (log_step h₁).trans (ih h₂)

theorem Reports.of_prefix {log log' : List Event} (h : Reports log') (hp : log <+: log') : Reports log := by
  obtain ⟨rest, rfl⟩ := hp
  intro before e after hl
  exact h before e (after ++ rest) (by rw [hl, List.append_assoc, List.cons_append])

theorem reports_run : ∀ {s : Config}, Inv s.state s.stack → run program.step s ms = some s' →
    (Reports s'.state.log ↔ Along program.step Undisturbed s ms) := by
  induction ms with
  | nil =>
    intro s hi h
    obtain rfl := Option.some.inj h
    exact iff_of_true hi.reports trivial
  | cons m ms ih =>
    intro s hi h
    obtain ⟨s₁, h₁, h₂⟩ := run_cons_eq_some.mp h
    rw [along_cons_iff h₁]
    constructor
    · intro hrep
      have hrep₁ : Reports s₁.state.log := hrep.of_prefix (log_run h₂)
      exact ⟨(reports_step hi h₁).mp hrep₁, (ih (inv_step hi h₁ hrep₁) h₂).mp hrep⟩
    · rintro ⟨hm, hms⟩
      have hrep₁ : Reports s₁.state.log := (reports_step hi h₁).mpr hm
      exact (ih (inv_step hi h₁ hrep₁) h₂).mpr hms

/-- Every completion of a run has been reported if and only if none has been disturbed. -/
theorem reports_iff {ms : List (Move Entry)} {c : Config} (h : run program.step connect ms = some c) :
    Reports c.state.log ↔ Along program.step Undisturbed connect ms :=
  reports_run inv_connect h

/-- The end that has answered closes the connection when it is done. -/
theorem reports_echo : ∃ c, run program.step connect (echo ++ [.enter (.close .client), .run]) = some c ∧
    Reports c.state.log := by
  obtain ⟨c, hc⟩ := Option.isSome_iff_exists.mp
    (show (run program.step connect (echo ++ [.enter (.close .client), .run])).isSome by decide)
  exact ⟨c, hc, (reports_iff hc).mpr (by decide)⟩

/-- A second receive fails while one is waiting, and its error is what the first one finds
with its packet. -/
def overlapped : List (Move Entry) :=
  [.enter (.receive .server), .run, .run, .run, .enter (.receive .server), .run, .ret,
    .enter (.send .client [[1]]), .run, .run, .run]

theorem reports_overlapped : ∃ c, run program.step connect overlapped = some c ∧ ¬ Reports c.state.log := by
  obtain ⟨c, hc, hlog⟩ : ∃ c, run program.step connect overlapped = some c ∧ c.state.log =
      [.called (.receive .server 0), .called (.receive .server 1),
        .completed (.receive .server 1) (some errorOverlapedReceive), .called (.send .client 2),
        .sent .client ⟨[[1]], 2⟩, .delivered .server 0 ⟨[[1]], 2⟩ [some 1],
        .completed (.receive .server 0) (some errorOverlapedReceive)] := exists_run (by decide)
  refine ⟨c, hc, fun h => ?_⟩
  have hlast := h [_, _, _, _, _, _] _ [] hlog
  have := hlast.mpr ⟨_, _, rfl⟩
  cases this

end PxpRpc.Pipe
