import PxpRpc.Lib.Run
import PxpRpc.Server.JavaCallable

/-!
# The event dispatcher of the Java server

`call` keeps a request until an event is fired or the dispatcher is closed.
`fireEvent` and `close` take the queue and complete what is in it; a poll that is
completed calls the dispatcher again, which puts it into the new queue.
-/
namespace PxpRpc.Server.Java

open PxpRpc.Lib PxpRpc.Codec.Java

variable {Obj : Type}

/-- What a request meets when it is completed: its connection takes the response, its context
is running, and its reference holds the dispatcher. -/
structure Net where
  isOpen : Bool
  running : Bool
  holds : Bool
deriving DecidableEq, Repr

/-- A request with a name. -/
structure Receiver where
  id : Nat
  request : PxpRequest
deriving DecidableEq, Repr

inductive Happening where
  | registered (request : Nat)
  | completed (request : Nat) (rejected : Bool)
  | closed
deriving DecidableEq, Repr

/-- `next` names the next request; the responses that are sent and the log are not in the source. -/
structure EventDispatcher where
  tResult : Utf16
  closed : Bool
  receivers : List Receiver
  next : Nat
  sent : List (Nat × List UInt8)
  log : List Happening
deriving DecidableEq, Repr

/-- `new Error("closed")` -/
def closedError : Throwable := ⟨.ok "java.lang.Error: closed".toUTF8.toList⟩

def Receiver.reject (q : Receiver) : Receiver := { q with request := { q.request with rejected := some closedError } }

def Receiver.setResult (q : Receiver) (bufs : List (Option (List UInt8))) : Receiver :=
  { q with request := { q.request with result := some bufs } }

def Receiver.cleared (q : Receiver) : Receiver := { q with request := q.request.cleared }

namespace EventDispatcher

def new (tResult : Utf16) : EventDispatcher := ⟨tResult, false, [], 0, [], []⟩

/-- `done`, up to where a poll goes on; whether it does, or what is thrown. -/
def respond (d : EventDispatcher) (net : Net) (q : Receiver) : EventDispatcher × Except Thrown Bool :=
  let d := { d with log := d.log ++ [.completed q.id q.request.rejected.isSome] }
  match q.request.done net.isOpen net.running with
  | .ok done => ({ d with sent := d.sent ++ done.sent.toList.map (q.id, ·) }, .ok done.again)
  | .error thrown => (d, .error thrown)

/-- A request that is rejected does not go on to call the dispatcher again. -/
def call (d : EventDispatcher) (net : Net) (q : Receiver) : EventDispatcher × Option Thrown :=
  if d.closed then
    match d.respond net q.reject with
    | (d, .ok _) => (d, none)
    | (d, .error thrown) => (d, some thrown)
  else ({ d with receivers := d.receivers ++ [q], log := d.log ++ [.registered q.id] }, none)

def done (d : EventDispatcher) (net : Net) (q : Receiver) : EventDispatcher × Option Thrown :=
  match d.respond net q with
  | (d, .ok again) => if again && net.holds then d.call net q.cleared else (d, none)
  | (d, .error thrown) => (d, some thrown)

/-- The loop of `fireEvent`. -/
def deliver (evt : Result) (w : Nat → Surroundings Obj) (net : Nat → Net) :
    List Receiver → EventDispatcher → EventDispatcher × Option Thrown
  | [], d => (d, none)
  | q :: saved, d =>
    match writeResult (w q.id) d.tResult evt with
    | none => (d, some .exception)
    | some bufs =>
      match d.done (net q.id) (q.setResult bufs) with
      | (d, none) => deliver evt w net saved d
      | (d, some thrown) => (d, some thrown)

def fireEvent (d : EventDispatcher) (evt : Result) (w : Nat → Surroundings Obj) (net : Nat → Net) :
    EventDispatcher × Option Thrown :=
  deliver evt w net d.receivers { d with receivers := [] }

/-- The loop of `close`. -/
def rejectAll (net : Nat → Net) : List Receiver → EventDispatcher → EventDispatcher × Option Thrown
  | [], d => (d, none)
  | q :: saved, d =>
    match d.done (net q.id) q.reject with
    | (d, none) => rejectAll net saved d
    | (d, some thrown) => (d, some thrown)

/-- The flag `closed` is left as it is. -/
def close (d : EventDispatcher) (net : Nat → Net) : EventDispatcher × Option Thrown :=
  rejectAll net d.receivers { d with receivers := [], log := d.log ++ [.closed] }

end EventDispatcher

/-! ### Histories -/

/-- What a client, or the program, does with a dispatcher; the functions say what each request
meets when it is completed. -/
inductive DispatchOp (Obj : Type) where
  | call (r : PxpRequest) (net : Net)
  | fireEvent (evt : Result) (w : Nat → Surroundings Obj) (net : Nat → Net)
  | close (net : Nat → Net)

/-- The requests that wait: registered and not completed since. -/
def pendingAfter (waiting : List Nat) : Happening → List Nat
  | .registered request => waiting ++ [request]
  | .completed request _ => waiting.erase request
  | .closed => waiting

def pending (log : List Happening) : List Nat := log.foldl pendingAfter []

def completions (log : List Happening) : List (Nat × Bool) :=
  log.filterMap fun
    | .completed request rejected => some (request, rejected)
    | _ => none

def registrations (log : List Happening) : List Nat :=
  log.filterMap fun
    | .registered request => some request
    | _ => none

namespace EventDispatcher

/-- A new request comes with its fields cleared. -/
def perform (d : EventDispatcher) : DispatchOp Obj → EventDispatcher × Option Thrown
  | .call r net => { d with next := d.next + 1 }.call net ⟨d.next, r.cleared⟩
  | .fireEvent evt w net => d.fireEvent evt w net
  | .close net => d.close net

def step (d : EventDispatcher) (op : DispatchOp Obj) : Option EventDispatcher := some (d.perform op).1

/-- What an operation adds to the log. -/
def added (d : EventDispatcher) (op : DispatchOp Obj) : List Happening := (d.perform op).1.log.drop d.log.length

/-- An event completes what is pending, each request once and in the order of the registrations,
and then those are pending that have registered meanwhile. -/
def Delivers (d : EventDispatcher) : DispatchOp Obj → Prop
  | .fireEvent evt w net =>
    let op := .fireEvent evt w net
    (d.perform op).2 = none ∧ (pending d.log).Nodup ∧
      completions (d.added op) = (pending d.log).map (·, false) ∧
      pending (d.perform op).1.log = registrations (d.added op)
  | _ => True

/-- The event can be written for each request that waits. -/
def Writes (d : EventDispatcher) : DispatchOp Obj → Prop
  | .fireEvent evt w _ => ∀ q ∈ d.receivers, (writeResult (w q.id) d.tResult evt).isSome
  | _ => True

/-- Closing rejects what is pending; afterwards nothing is registered, and what comes is rejected. -/
def Closes (d : EventDispatcher) (op : DispatchOp Obj) : Prop :=
  match op with
  | .close _ => (d.perform op).1.receivers = [] ∧ registrations (d.added op) = [] ∧
      completions (d.added op) = (pending d.log).map (·, true)
  | .fireEvent .. => .closed ∈ d.log → (d.perform op).1.receivers = [] ∧ registrations (d.added op) = []
  | .call .. => .closed ∈ d.log → (d.perform op).1.receivers = [] ∧ registrations (d.added op) = [] ∧
      completions (d.added op) = [(d.next, true)]

/-- No call comes after the closing, before which no request has been lost. -/
def Careful (d : EventDispatcher) : DispatchOp Obj → Prop
  | .call .. => .closed ∉ d.log
  | .fireEvent .. => True
  | .close _ => pending d.log = d.receivers.map Receiver.id

end EventDispatcher

/-! ### Logs -/

theorem pending_append (log log' : List Happening) : pending (log ++ log') = log'.foldl pendingAfter (pending log) :=
  List.foldl_append

@[simp] theorem completions_nil : completions [] = [] := rfl

@[simp] theorem registrations_nil : registrations [] = [] := rfl

@[simp] theorem completions_append (log log' : List Happening) :
    completions (log ++ log') = completions log ++ completions log' := List.filterMap_append

@[simp] theorem registrations_append (log log' : List Happening) :
    registrations (log ++ log') = registrations log ++ registrations log' := List.filterMap_append

/-- A request that has been completed, and whether it has been registered again. -/
def round (q : Receiver × Bool) : List Happening :=
  .completed q.1.id false :: if q.2 then [.registered q.1.id] else []

/-- The requests that have been registered again. -/
def back (rounds : List (Receiver × Bool)) : List Receiver := (rounds.filter Prod.snd).map fun q => q.1.cleared

theorem back_cons (q : Receiver × Bool) (rounds : List (Receiver × Bool)) :
    back (q :: rounds) = (if q.2 then [q.1.cleared] else []) ++ back rounds := by
  rw [back, List.filter_cons]
  split <;> rfl

theorem back_ids_sublist (rounds : List (Receiver × Bool)) :
    ((back rounds).map Receiver.id).Sublist (rounds.map fun q => q.1.id) := by
  rw [back, List.map_map]
  exact List.filter_sublist.map _

theorem completions_rounds (rounds : List (Receiver × Bool)) :
    completions (rounds.flatMap round) = rounds.map fun q => (q.1.id, false) := by
  induction rounds with
  | nil => rfl
  | cons q rounds ih =>
    rw [List.flatMap_cons, completions_append, ih, List.map_cons]
    cases q.2 <;> simp [round, completions, *]

theorem registrations_rounds (rounds : List (Receiver × Bool)) :
    registrations (rounds.flatMap round) = (back rounds).map Receiver.id := by
  induction rounds with
  | nil => rfl
  | cons q rounds ih =>
    rw [List.flatMap_cons, registrations_append, ih, back_cons, List.map_append]
    cases h : q.2 <;> simp [round, registrations, h, Receiver.cleared]

theorem closed_notMem_rounds (rounds : List (Receiver × Bool)) : .closed ∉ rounds.flatMap round := by
  intro h
  obtain ⟨q, -, hq⟩ := List.mem_flatMap.mp h
  rw [round] at hq
  split at hq <;> simp at hq

/-- Rounds of the first requests that wait. -/
theorem pending_rounds {rounds : List (Receiver × Bool)} : ∀ {waiting : List Nat},
    ((rounds.map fun q => q.1.id) ++ waiting).Nodup →
    (rounds.flatMap round).foldl pendingAfter ((rounds.map fun q => q.1.id) ++ waiting) =
      waiting ++ (back rounds).map Receiver.id := by
  induction rounds with
  | nil => intro waiting _; simp [back]
  | cons q rounds ih =>
    intro waiting hn
    obtain ⟨hfirst, hn⟩ := List.nodup_cons.mp hn
    have hhead : (Happening.completed q.1.id false :: (if q.2 then [.registered q.1.id] else [])).foldl pendingAfter
        (q.1.id :: ((rounds.map fun q => q.1.id) ++ waiting)) =
        (rounds.map fun q => q.1.id) ++ (waiting ++ if q.2 then [q.1.id] else []) := by
      cases q.2 <;> simp [pendingAfter]
    have hnext : ((rounds.map fun q => q.1.id) ++ (waiting ++ if q.2 then [q.1.id] else [])).Nodup := by
      cases q.2 with
      | false => simpa using hn
      | true =>
        rw [if_pos rfl, ← List.append_assoc]
        exact List.nodup_append_comm.mp (List.nodup_cons.mpr ⟨hfirst, hn⟩)
    rw [List.flatMap_cons, List.foldl_append, round, List.map_cons, List.cons_append, hhead, ih hnext, back_cons]
    cases q.2 <;> simp [Receiver.cleared]

namespace EventDispatcher

variable {d : EventDispatcher}

/-! ### Completions -/

/-- A response is sent or not; a request that is rejected does not go on. -/
theorem done_again {r : PxpRequest} (h : r.rejected = none ∨ r.rejected = some closedError) (isOpen running : Bool) :
    ∃ done, r.done isOpen running = .ok done ∧ (r.rejected.isSome → done.again = false) := by
  have hagain : r.rejected.isSome → r.again running = false := fun hs => by
    rw [PxpRequest.again, ← Option.not_isSome, hs, Bool.not_true, Bool.and_false, Bool.false_and]
  rw [PxpRequest.done]
  split
  · exact ⟨_, rfl, hagain⟩
  · cases hm : r.message with
    | error thrown =>
      cases thrown with
      | exception => exact ⟨_, rfl, fun _ => rfl⟩
      | error =>
        rcases h with h | h
        · rw [PxpRequest.message, h] at hm
          dsimp only at hm
          split at hm <;> cases hm
        · rw [PxpRequest.message, h] at hm
          cases hm
    | ok message =>
      dsimp only
      split
      · exact ⟨_, rfl, hagain⟩
      · exact ⟨_, rfl, fun _ => rfl⟩

theorem respond_eq (d : EventDispatcher) (net : Net) {q : Receiver}
    (h : q.request.rejected = none ∨ q.request.rejected = some closedError) : ∃ sent again,
      d.respond net q = ({ d with sent, log := d.log ++ [.completed q.id q.request.rejected.isSome] }, .ok again) ∧
      (q.request.rejected.isSome → again = false) := by
  obtain ⟨done, hdone, hagain⟩ := done_again h net.isOpen net.running
  rw [respond, hdone]
  exact ⟨_, _, rfl, hagain⟩

/-- The dispatcher after some completions. -/
def after (d : EventDispatcher) (sent : List (Nat × List UInt8)) (rounds : List (Receiver × Bool)) : EventDispatcher :=
  { d with sent, receivers := d.receivers ++ back rounds, log := d.log ++ rounds.flatMap round }

theorem after_after (sent sent' : List (Nat × List UInt8)) (rounds rounds' : List (Receiver × Bool)) :
    (d.after sent rounds).after sent' rounds' = d.after sent' (rounds ++ rounds') := by
  simp [after, back]

/-- A request that is not rejected is completed, and registered again or not. -/
theorem done_eq (hopen : d.closed = false) (net : Net) {q : Receiver} (h : q.request.rejected = none) :
    ∃ sent again, d.done net q = (d.after sent [(q, again)], none) := by
  obtain ⟨sent, again, hrespond, -⟩ := respond_eq d net (.inl h)
  rw [done, hrespond]
  dsimp only
  split
  · refine ⟨sent, true, ?_⟩
    rw [call, if_neg (by rw [hopen]; exact Bool.false_ne_true)]
    simp [after, back, round, h, Receiver.cleared]
  · refine ⟨sent, false, ?_⟩
    simp [after, back, round, h]

theorem done_reject (d : EventDispatcher) (net : Net) (q : Receiver) : ∃ sent,
    d.done net q.reject = ({ d with sent, log := d.log ++ [.completed q.id true] }, none) := by
  obtain ⟨sent, again, hrespond, hagain⟩ := respond_eq d net (q := q.reject) (.inr rfl)
  obtain rfl := hagain rfl
  exact ⟨sent, by rw [done, hrespond]; rfl⟩

/-- The loop ends at the first request for which the event cannot be written. -/
theorem deliver_eq (evt : Result) (w : Nat → Surroundings Obj) (net : Nat → Net) {saved : List Receiver} :
    ∀ {d : EventDispatcher}, d.closed = false → (∀ q ∈ saved, q.request.rejected = none) → ∃ sent rounds,
      rounds.map Prod.fst = (saved.takeWhile fun q => (writeResult (w q.id) d.tResult evt).isSome) ∧
      deliver evt w net saved d = (d.after sent rounds,
        if saved.all fun q => (writeResult (w q.id) d.tResult evt).isSome then none else some .exception) := by
  induction saved with
  | nil => exact fun {d} _ _ => ⟨d.sent, [], rfl, by simp [deliver, after, back]⟩
  | cons q saved ih =>
    intro d hopen hclean
    rw [deliver]
    cases hw : writeResult (w q.id) d.tResult evt with
    | none => exact ⟨d.sent, [], by simp [hw], by simp [after, back, hw]⟩
    | some bufs =>
      obtain ⟨sent, again, hdone⟩ := done_eq hopen (net q.id) (q := q.setResult bufs) (hclean q List.mem_cons_self)
      -- What the callable has put is cleared before the next call.
      have hround : d.after sent [(q.setResult bufs, again)] = d.after sent [(q, again)] := by
        cases again <;> rfl
      obtain ⟨sent', rounds, htaken, hrest⟩ := ih (d := d.after sent [(q, again)]) hopen
        fun q hq => hclean q (List.mem_cons_of_mem _ hq)
      refine ⟨sent', (q, again) :: rounds, ?_, ?_⟩
      · rw [List.map_cons, htaken, List.takeWhile_cons, hw]
        rfl
      · dsimp only
        rw [hdone, hround]
        dsimp only
        rw [hrest, after_after, List.all_cons, hw]
        rfl

theorem rejectAll_eq (net : Nat → Net) (saved : List Receiver) : ∀ d : EventDispatcher, ∃ sent,
    rejectAll net saved d =
      ({ d with sent, log := d.log ++ saved.map fun q => .completed q.id true }, none) := by
  induction saved with
  | nil => exact fun d => ⟨d.sent, by simp [rejectAll]⟩
  | cons q saved ih =>
    intro d
    obtain ⟨sent, hdone⟩ := done_reject d (net q.id) q
    obtain ⟨sent', hrest⟩ := ih { d with sent, log := d.log ++ [.completed q.id true] }
    refine ⟨sent', ?_⟩
    rw [rejectAll, hdone]
    simp [hrest]

/-! ### Events -/

/-- The queue holds what is pending, under different names and not rejected. -/
structure Queued (d : EventDispatcher) : Prop where
  isOpen : d.closed = false
  waiting : pending d.log = d.receivers.map Receiver.id
  nodup : (d.receivers.map Receiver.id).Nodup
  below : ∀ q ∈ d.receivers, q.id < d.next
  clean : ∀ q ∈ d.receivers, q.request.rejected = none

theorem Queued.new (tResult : Utf16) : Queued (.new tResult) :=
  ⟨rfl, rfl, List.nodup_nil, fun _ hq => absurd hq List.not_mem_nil, fun _ hq => absurd hq List.not_mem_nil⟩

theorem perform_call (hopen : d.closed = false) (r : PxpRequest) (net : Net) :
    d.perform (.call r net : DispatchOp Obj) =
      ({ d with next := d.next + 1, receivers := d.receivers ++ [⟨d.next, r.cleared⟩],
                log := d.log ++ [.registered d.next] }, none) := by
  rw [perform, call, hopen]
  rfl

theorem fireEvent_eq (hopen : d.closed = false) (hclean : ∀ q ∈ d.receivers, q.request.rejected = none)
    (evt : Result) (w : Nat → Surroundings Obj) (net : Nat → Net) : ∃ sent rounds,
      rounds.map Prod.fst = (d.receivers.takeWhile fun q => (writeResult (w q.id) d.tResult evt).isSome) ∧
      d.fireEvent evt w net = ({ d with sent, receivers := back rounds, log := d.log ++ rounds.flatMap round },
        if d.receivers.all fun q => (writeResult (w q.id) d.tResult evt).isSome then none else some .exception) :=
  deliver_eq evt w net (d := { d with receivers := [] }) hopen hclean

theorem close_eq (d : EventDispatcher) (net : Nat → Net) : ∃ sent, d.close net =
    ({ d with sent, receivers := [], log := d.log ++ .closed :: d.receivers.map fun q => .completed q.id true },
      none) := by
  obtain ⟨sent, h⟩ := rejectAll_eq net d.receivers { d with receivers := [], log := d.log ++ [.closed] }
  exact ⟨sent, by rw [close, h, List.append_assoc]; rfl⟩

theorem mem_back {rounds : List (Receiver × Bool)} {q : Receiver} (h : q ∈ back rounds) :
    ∃ q' ∈ rounds.map Prod.fst, q = q'.cleared := by
  obtain ⟨r, hr, rfl⟩ := List.mem_map.mp h
  exact ⟨r.1, List.mem_map_of_mem (List.mem_filter.mp hr).1, rfl⟩

/-- An event that can be written for all. -/
theorem Queued.fire (hq : Queued d) {evt : Result} {w : Nat → Surroundings Obj} {net : Nat → Net}
    (hw : d.Writes (.fireEvent evt w net)) : ∃ sent rounds, rounds.map Prod.fst = d.receivers ∧
      d.fireEvent evt w net =
        ({ d with sent, receivers := back rounds, log := d.log ++ rounds.flatMap round }, none) := by
  obtain ⟨sent, rounds, htaken, heq⟩ := fireEvent_eq hq.isOpen hq.clean evt w net
  refine ⟨sent, rounds, ?_, ?_⟩
  · rw [htaken, List.takeWhile_eq_self_iff]
    exact hw
  · rw [heq, if_pos (List.all_eq_true.mpr hw)]

theorem Queued.pending_fire (hq : Queued d) {rounds : List (Receiver × Bool)} (h : rounds.map Prod.fst = d.receivers) :
    pending (d.log ++ rounds.flatMap round) = (back rounds).map Receiver.id := by
  have hids : d.receivers.map Receiver.id = (rounds.map fun q => q.1.id) ++ [] := by
    rw [← h, List.map_map, List.append_nil]
    rfl
  have hn := hq.nodup
  rw [hids] at hn
  rw [pending_append, hq.waiting, hids, pending_rounds hn, List.nil_append]

theorem pending_rejections (rs : List Receiver) : ∀ waiting : List Nat,
    (rs.map fun q => Happening.completed q.id true).foldl pendingAfter (rs.map Receiver.id ++ waiting) = waiting := by
  induction rs with
  | nil => exact fun _ => rfl
  | cons q rs ih =>
    intro waiting
    rw [List.map_cons, List.map_cons, List.cons_append, List.foldl_cons, pendingAfter, List.erase_cons_head, ih]

theorem Queued.step {d' : EventDispatcher} {op : DispatchOp Obj} (hq : Queued d) (hw : d.Writes op)
    (hs : d.step op = some d') : Queued d' := by
  obtain rfl := Option.some.inj hs
  cases op with
  | call r net =>
    rw [perform_call hq.isOpen]
    have hnew : d.next ∉ d.receivers.map Receiver.id := fun h => by
      obtain ⟨q, hmem, hid⟩ := List.mem_map.mp h
      exact absurd (hq.below q hmem) (by omega)
    refine ⟨hq.isOpen, ?_, ?_, fun q hmem => ?_, fun q hmem => ?_⟩
    · rw [pending_append, hq.waiting, List.map_append]
      rfl
    · rw [List.map_append]
      exact List.nodup_append_comm.mp (List.nodup_cons.mpr ⟨hnew, hq.nodup⟩)
    · rcases List.mem_append.mp hmem with hmem | hmem
      · exact Nat.lt_succ_of_lt (hq.below q hmem)
      · rw [List.mem_singleton.mp hmem]
        exact Nat.lt_succ_self _
    · rcases List.mem_append.mp hmem with hmem | hmem
      · exact hq.clean q hmem
      · rw [List.mem_singleton.mp hmem]
        rfl
  | fireEvent evt w net =>
    obtain ⟨sent, rounds, hrounds, heq⟩ := hq.fire hw
    rw [perform, heq]
    have hids := back_ids_sublist rounds
    rw [show (rounds.map fun q => q.1.id) = d.receivers.map Receiver.id by rw [← hrounds, List.map_map]; rfl] at hids
    refine ⟨hq.isOpen, hq.pending_fire hrounds, hq.nodup.sublist hids, fun q hmem => ?_, fun q hmem => ?_⟩
    · obtain ⟨q', hq', rfl⟩ := mem_back hmem
      exact hq.below q' (hrounds ▸ hq')
    · obtain ⟨q', -, rfl⟩ := mem_back hmem
      rfl
  | close net =>
    obtain ⟨sent, heq⟩ := d.close_eq net
    rw [perform, heq]
    refine ⟨hq.isOpen, ?_, List.nodup_nil, fun q hmem => absurd hmem List.not_mem_nil,
      fun q hmem => absurd hmem List.not_mem_nil⟩
    rw [pending_append, hq.waiting, List.foldl_cons, pendingAfter]
    simpa using pending_rejections d.receivers []

theorem Queued.delivers_op_iff (hq : Queued d) (op : DispatchOp Obj) : d.Delivers op ↔ d.Writes op := by
  cases op with
  | call r net => exact Iff.rfl
  | close net => exact Iff.rfl
  | fireEvent evt w net =>
    obtain ⟨sent, rounds, htaken, heq⟩ := fireEvent_eq hq.isOpen hq.clean evt w net
    constructor
    · rintro ⟨hnone, -⟩
      rw [perform, heq] at hnone
      by_contra hw
      rw [if_neg (fun hall => hw (List.all_eq_true.mp hall))] at hnone
      cases hnone
    · intro hw
      obtain ⟨sent, rounds, hrounds, heq⟩ := hq.fire hw
      have hadded : d.added (.fireEvent evt w net) = rounds.flatMap round := by
        rw [added, perform, heq, List.drop_left]
      refine ⟨by rw [perform, heq], hq.waiting ▸ hq.nodup, ?_, ?_⟩
      · rw [hadded, completions_rounds, hq.waiting, ← hrounds, List.map_map, List.map_map]
        rfl
      · rw [hadded, registrations_rounds, perform, heq]
        exact hq.pending_fire hrounds

/-- In a history every event completes what is pending exactly when it can be written for all
requests that wait. -/
theorem events_deliver_iff (tResult : Utf16) (ops : List (DispatchOp Obj)) :
    Along step Delivers (.new tResult) ops ↔ Along step Writes (.new tResult) ops :=
  along_iff (J := Queued) (L := fun _ _ => True) (fun _ _ _ hq _ hw hs => hq.step hw hs)
    (fun _ op hq _ => hq.delivers_op_iff op) (.new tResult) (Along.of_forall fun _ _ => trivial)

/-- A plain request. -/
def plainRequest : PxpRequest := ⟨1, 0, ByteBuffer.wrap [], none, none, false⟩

/-- A connection that is open, with the dispatcher in its reference. -/
def connected : Net := ⟨true, true, true⟩

/-- A string is fired where integers are declared: the request is neither completed nor kept. -/
theorem events_deliver_mistyped : ¬ Along step Delivers (.new [ValueType.i.char])
    [.call plainRequest connected, .fireEvent (.single (.string [])) (fun _ => surroundings) fun _ => connected] := by
  intro h
  have hfire := (h.2 _ rfl).1
  exact absurd hfire.1 (by decide)

/-! ### Closing -/

/-- No request waits behind the closing, where no flag keeps a call out. -/
structure Shut (d : EventDispatcher) : Prop where
  isOpen : d.closed = false
  clean : ∀ q ∈ d.receivers, q.request.rejected = none
  gone : .closed ∈ d.log → d.receivers = []

theorem Shut.new (tResult : Utf16) : Shut (.new tResult) :=
  ⟨rfl, fun _ hq => absurd hq List.not_mem_nil, fun _ => rfl⟩

theorem Shut.step {d' : EventDispatcher} {op : DispatchOp Obj} (hd : Shut d) (hc : d.Careful op)
    (hs : d.step op = some d') : Shut d' := by
  obtain rfl := Option.some.inj hs
  cases op with
  | call r net =>
    rw [perform_call hd.isOpen]
    refine ⟨hd.isOpen, fun q hmem => ?_, fun hmem => ?_⟩
    · rcases List.mem_append.mp hmem with hmem | hmem
      · exact hd.clean q hmem
      · rw [List.mem_singleton.mp hmem]
        rfl
    · rcases List.mem_append.mp hmem with hmem | hmem
      · exact absurd hmem hc
      · cases List.mem_singleton.mp hmem
  | fireEvent evt w net =>
    obtain ⟨sent, rounds, htaken, heq⟩ := fireEvent_eq hd.isOpen hd.clean evt w net
    rw [perform, heq]
    refine ⟨hd.isOpen, fun q hmem => ?_, fun hmem => ?_⟩
    · obtain ⟨q', -, rfl⟩ := mem_back hmem
      rfl
    · rcases List.mem_append.mp hmem with hmem | hmem
      · rw [hd.gone hmem] at htaken
        rw [List.map_eq_nil_iff.mp htaken]
        rfl
      · exact absurd hmem (closed_notMem_rounds rounds)
  | close net =>
    obtain ⟨sent, heq⟩ := d.close_eq net
    rw [perform, heq]
    exact ⟨hd.isOpen, fun q hmem => absurd hmem List.not_mem_nil, fun _ => rfl⟩

theorem completions_rejections (rs : List Receiver) :
    completions (rs.map fun q => Happening.completed q.id true) = rs.map fun q => (q.id, true) := by
  induction rs with
  | nil => rfl
  | cons q rs ih => exact congrArg ((q.id, true) :: ·) ih

theorem registrations_rejections (rs : List Receiver) :
    registrations (rs.map fun q => Happening.completed q.id true) = [] := by
  induction rs with
  | nil => rfl
  | cons q rs ih => exact ih

theorem Shut.closes_iff (hd : Shut d) (op : DispatchOp Obj) : d.Closes op ↔ d.Careful op := by
  cases op with
  | call r net =>
    refine ⟨fun h hmem => ?_, fun h hmem => absurd hmem h⟩
    -- The call is registered.
    have hnone := (h hmem).1
    rw [perform_call hd.isOpen] at hnone
    exact absurd hnone (List.append_ne_nil_of_right_ne_nil _ (List.cons_ne_nil _ _))
  | fireEvent evt w net =>
    refine iff_of_true (fun hmem => ?_) trivial
    obtain ⟨sent, rounds, htaken, heq⟩ := fireEvent_eq hd.isOpen hd.clean evt w net
    rw [hd.gone hmem] at htaken
    obtain rfl := List.map_eq_nil_iff.mp htaken
    rw [added, perform, heq]
    exact ⟨rfl, by rw [List.drop_left]; rfl⟩
  | close net =>
    obtain ⟨sent, heq⟩ := d.close_eq net
    have hadded : d.added (.close net : DispatchOp Obj) =
        .closed :: d.receivers.map fun q => .completed q.id true := by
      rw [added, perform, heq, List.drop_left]
    have hcompletions : completions (d.added (.close net : DispatchOp Obj)) =
        (d.receivers.map Receiver.id).map (·, true) := by
      rw [hadded, List.map_map]
      exact completions_rejections d.receivers
    constructor
    · intro ⟨_, _, h⟩
      rw [hcompletions] at h
      exact (List.map_injective_iff.mpr (fun _ _ h => (Prod.mk.inj h).1) h).symm
    · intro h
      refine ⟨by rw [perform, heq], ?_, by rw [hcompletions, h]⟩
      rw [hadded]
      exact registrations_rejections d.receivers

/-- In a history closing does what it should exactly when no call comes after it and no
request has been lost before it. -/
theorem dispatcher_closes_iff (tResult : Utf16) (ops : List (DispatchOp Obj)) :
    Along step Closes (.new tResult) ops ↔ Along step Careful (.new tResult) ops :=
  along_iff (J := Shut) (L := fun _ _ => True) (fun _ _ _ hd _ hc hs => hd.step hc hs)
    (fun _ op hd _ => hd.closes_iff op) (.new tResult) (Along.of_forall fun _ _ => trivial)

/-- A call on a closed dispatcher is registered. -/
theorem dispatcher_closes_late : ¬ Along step Closes (.new [ValueType.i.char])
    ([.close fun _ => connected, .call plainRequest connected] : List (DispatchOp Unit)) := by
  intro h
  have hcall := (h.2 _ rfl).1
  exact absurd (hcall (by decide)).1 (by decide)

end EventDispatcher

end PxpRpc.Server.Java
