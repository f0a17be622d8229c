import PxpRpc.Client.Session
import PxpRpc.Lib.Run
import PxpRpc.Lib.Table

/-!
# The Java client

`call`, `poll` and the loop of the receive thread work on one table of waiting
sessions. A `Ret` object carries a mutable field that tells polls from calls.
-/
namespace PxpRpc.Client.Java

open PxpRpc.Lib

/-- A client whose thread has been started. `receiving` says that the thread waits for a
frame, `pollCall` is the field of each `Ret` object, `called` is what `cb` has been given. -/
structure ClientContext where
  running : Bool
  receiving : Bool
  waitingSession : Table Sid Nat
  pollCall : Nat → Bool
  sent : List (List UInt8)
  called : List (Nat × Except (List UInt8) (List UInt8))

namespace ClientContext

def init : ClientContext := ⟨true, true, [], fun _ => false, [], []⟩

def call (c : ClientContext) (callableIndex : BitVec 32) (parameter : List UInt8) (sid : Sid) (asyncResult : Nat) :
    ClientContext :=
  { c with
    pollCall := Function.update c.pollCall asyncResult false
    waitingSession := if sid ≠ .signal then c.waitingSession.put sid asyncResult else c.waitingSession
    sent := c.sent ++ [leBytes 4 sid.toNat ++ leBytes 4 callableIndex.toNat ++ parameter] }

def close (c : ClientContext) (sid : Sid) (asyncResult : Nat) : ClientContext :=
  { c.call (-3) [] sid asyncResult with running := false }

def poll (c : ClientContext) (callableIndex : BitVec 32) (parameter : List UInt8) (sid : Sid) (asyncResult : Nat) :
    ClientContext :=
  { c with
    pollCall := Function.update c.pollCall asyncResult true
    waitingSession := c.waitingSession.put sid asyncResult
    sent := c.sent ++
      [leBytes 4 sid.toNat ++ leBytes 4 (-5 : BitVec 32).toNat ++ leBytes 4 callableIndex.toNat ++ parameter] }

/-- The body of the loop of the thread, from the id of the frame on. -/
def process (c : ClientContext) (sid : Sid) (msgBody : List UInt8) : ClientContext :=
  if sid ≠ .signal then
    match c.waitingSession.get (sid &&& Sid.mask) with
    | none => c
    | some r =>
      if sid.IsError then
        { c with waitingSession := c.waitingSession.remove sid, called := c.called ++ [(r, .error msgBody)] }
      else if !c.pollCall r then
        { c with waitingSession := c.waitingSession.remove sid, called := c.called ++ [(r, .ok msgBody)] }
      else { c with called := c.called ++ [(r, .ok msgBody)] }
  else c

/-- A frame too short for `getInt` ends the thread with an exception. -/
def receive (c : ClientContext) (allBuf : List UInt8) : Option ClientContext :=
  if c.receiving then
    if 4 ≤ allBuf.length then
      let c' := c.process (Sid.read allBuf) (allBuf.drop 4)
      some { c' with receiving := c'.running }
    else some { c with receiving := false }
  else none

/-- The exception of `io.receive` leaves the thread. -/
def fail (c : ClientContext) : Option ClientContext := if c.receiving then some { c with receiving := false } else none

/-- The frame takes the entry at its own id out of the table. -/
def Removes (c : ClientContext) (sid : Sid) : Prop :=
  sid ≠ .signal ∧ ∃ r, c.waitingSession.get (sid &&& Sid.mask) = some r ∧ (sid.IsError ∨ c.pollCall r = false)

/-- What a frame does to the table. -/
theorem mem_process {c : ClientContext} {sid : Sid} {msgBody : List UInt8} {e : Sid × Nat} :
    e ∈ (c.process sid msgBody).waitingSession ↔ e ∈ c.waitingSession ∧ ¬ (c.Removes sid ∧ e.1 = sid) := by
  by_cases hs : sid = .signal
  · simp [process, Removes, hs]
  · cases hg : c.waitingSession.get (sid &&& Sid.mask) with
    | none => simp [process, Removes, hg]
    | some r =>
      by_cases he : sid.IsError
      · simp [process, Removes, hs, hg, he, Table.mem_remove]
      · cases hp : c.pollCall r <;> simp [process, Removes, hs, hg, he, hp, Table.mem_remove]

theorem process_sublist (c : ClientContext) (sid : Sid) (msgBody : List UInt8) :
    (c.process sid msgBody).waitingSession.Sublist c.waitingSession := by
  rw [process]
  split
  · split
    · exact .refl _
    · split
      · exact List.filter_sublist
      · split
        · exact List.filter_sublist
        · exact .refl _
  · exact .refl _

end ClientContext

/-! ### Histories -/

inductive Op where
  | call (callableIndex : BitVec 32) (parameter : List UInt8) (sid : Sid) (asyncResult : Nat)
  | poll (callableIndex : BitVec 32) (parameter : List UInt8) (sid : Sid) (asyncResult : Nat)
  | close (sid : Sid) (asyncResult : Nat)
  | receive (allBuf : List UInt8)
  | fail

inductive Kind where
  | call
  | poll
deriving DecidableEq

/-- A request that is to be answered. -/
structure Waiting where
  sid : Sid
  asyncResult : Nat
  kind : Kind
deriving DecidableEq

namespace Waiting

def entry (w : Waiting) : Sid × Nat := (w.sid, w.asyncResult)

/-- A response with this id is the last one of the request. -/
def EndedBy (w : Waiting) (sid : Sid) : Prop := sid = w.sid.error ∨ w.kind = .call ∧ sid = w.sid

instance (w : Waiting) (sid : Sid) : Decidable (w.EndedBy sid) := inferInstanceAs (Decidable (_ ∨ _))

/-- A request that no frame with this id is an error response of; if the frame is its
normal response, its `Ret` object is still marked as the one of a call or of a poll. -/
def AnsweredBy (w : Waiting) (pollCall : Nat → Bool) (sid : Sid) : Prop :=
  sid ≠ w.sid.error ∧
  (sid = w.sid → match w.kind with
    | .call => ¬ sid.IsError ∧ pollCall w.asyncResult = false
    | .poll => ¬ sid.IsError → pollCall w.asyncResult = true)

end Waiting

/-- A client and the requests that have been made and not been ended by a response. -/
structure Session where
  client : ClientContext
  waiting : List Waiting

namespace Session

def init : Session := ⟨.init, []⟩

/-- A request without an answer waits for nothing. -/
def addCall (waiting : List Waiting) (sid : Sid) (asyncResult : Nat) : List Waiting :=
  if sid ≠ .signal then waiting ++ [⟨sid, asyncResult, .call⟩] else waiting

def answer (waiting : List Waiting) (allBuf : List UInt8) : List Waiting :=
  if 4 ≤ allBuf.length then waiting.filter fun w => ¬ w.EndedBy (Sid.read allBuf) else waiting

def step (h : Session) : Op → Option Session
  | .call callableIndex parameter sid asyncResult =>
    some ⟨h.client.call callableIndex parameter sid asyncResult, addCall h.waiting sid asyncResult⟩
  | .poll callableIndex parameter sid asyncResult =>
    some ⟨h.client.poll callableIndex parameter sid asyncResult, h.waiting ++ [⟨sid, asyncResult, .poll⟩]⟩
  | .close sid asyncResult => some ⟨h.client.close sid asyncResult, addCall h.waiting sid asyncResult⟩
  | .receive allBuf => (h.client.receive allBuf).map fun client => ⟨client, answer h.waiting allBuf⟩
  | .fail => h.client.fail.map fun client => ⟨client, h.waiting⟩

/-- A request takes a sid that no request waits with. -/
def FreshSid (h : Session) : Op → Prop
  | .call _ _ sid _ | .close sid _ => sid ≠ .signal → ∀ w ∈ h.waiting, w.sid ≠ sid
  | .poll _ _ sid _ => ∀ w ∈ h.waiting, w.sid ≠ sid
  | .receive _ | .fail => True

/-- The keys of the table are the sids of the requests that wait. -/
def InStep (h : Session) : Prop := ∀ sid, sid ∈ h.client.waitingSession.keys ↔ ∃ w ∈ h.waiting, w.sid = sid

def KeepsStep (h : Session) (op : Op) : Prop := ∀ h', h.step op = some h' → h'.InStep

/-- A frame that is received is no error response of a request that waits, and finds the
`Ret` object as the request left it. -/
def Answered (h : Session) : Op → Prop
  | .receive allBuf =>
    h.client.receiving → 4 ≤ allBuf.length → ∀ w ∈ h.waiting, w.AnsweredBy h.client.pollCall (Sid.read allBuf)
  | _ => True

/-- The table holds the entries of the requests that wait, under different sids. -/
structure Matched (h : Session) : Prop where
  mem : ∀ e, e ∈ h.client.waitingSession ↔ ∃ w ∈ h.waiting, w.entry = e
  nodup : (h.waiting.map Waiting.sid).Nodup
  keys : h.client.waitingSession.keys.Nodup

namespace Matched

theorem init : Matched .init := ⟨by simp [Session.init, ClientContext.init], List.nodup_nil, List.nodup_nil⟩

variable {h h' : Session} {w w' : Waiting} {sid : Sid}

theorem eq_of_sid (hm : Matched h) (hw : w ∈ h.waiting) (hw' : w' ∈ h.waiting) (hs : w.sid = w'.sid) : w = w' :=
  List.inj_on_of_nodup_map hm.nodup hw hw' hs

theorem inStep (hm : Matched h) : h.InStep := by
  intro sid
  constructor
  · intro hk
    obtain ⟨e, he, rfl⟩ := List.mem_map.mp hk
    obtain ⟨w, hw, rfl⟩ := (hm.mem e).mp he
    exact ⟨w, hw, rfl⟩
  · rintro ⟨w, hw, rfl⟩
    exact List.mem_map_of_mem ((hm.mem w.entry).mpr ⟨w, hw, rfl⟩)

theorem get_sid (hm : Matched h) (hw : w ∈ h.waiting) : h.client.waitingSession.get w.sid = some w.asyncResult :=
  Table.get_of_mem hm.keys ((hm.mem w.entry).mpr ⟨w, hw, rfl⟩)

theorem removes_iff (hm : Matched h) : h.client.Removes sid ↔ sid ≠ .signal ∧
    ∃ w ∈ h.waiting, w.sid = sid &&& Sid.mask ∧ (sid.IsError ∨ h.client.pollCall w.asyncResult = false) := by
  refine and_congr_right fun _ => ⟨?_, ?_⟩
  · rintro ⟨r, hr, hcase⟩
    obtain ⟨w, hw, he⟩ := (hm.mem _).mp (Table.mem_of_get hr)
    obtain ⟨hsid, rfl⟩ := Prod.mk.inj he
    exact ⟨w, hw, hsid, hcase⟩
  · rintro ⟨w, hw, hsid, hcase⟩
    exact ⟨w.asyncResult, hsid ▸ hm.get_sid hw, hcase⟩

/-- A frame that is no error response removes the entry of its sid, if it does, because
the `Ret` object found there is that of a call. -/
theorem removes_sid (hm : Matched h) (he : ∀ w ∈ h.waiting, sid ≠ w.sid.error) (hw : w ∈ h.waiting) (hs : sid = w.sid) :
    h.client.Removes sid ↔ ¬ sid.IsError ∧ h.client.pollCall w.asyncResult = false := by
  rw [hm.removes_iff]
  constructor
  · rintro ⟨-, w', hw', hsid, hcase⟩
    have hn : ¬ sid.IsError := fun herr => he w' hw' (by rw [hsid, Sid.error_and_mask herr])
    have := hm.eq_of_sid hw' hw (by rw [hsid, Sid.and_mask hn, hs])
    exact ⟨hn, this ▸ hcase.resolve_left hn⟩
  · rintro ⟨hn, hp⟩
    exact ⟨fun hsig => hn (hsig ▸ Sid.isError_signal), w, hw, by rw [Sid.and_mask hn, hs], .inr hp⟩

/-- The requests that a frame ends are those whose entries it removes. -/
theorem answered_iff (hm : Matched h) : (∀ w ∈ h.waiting, w.AnsweredBy h.client.pollCall sid) ↔
    ∀ w ∈ h.waiting, (w.EndedBy sid ↔ h.client.Removes sid ∧ w.sid = sid) := by
  constructor
  · intro ha w hw
    have he : ∀ w ∈ h.waiting, sid ≠ w.sid.error := fun w hw => (ha w hw).1
    by_cases hs : sid = w.sid
    · have hc := (ha w hw).2 hs
      rw [hm.removes_sid he hw hs]
      cases hk : w.kind with
      | call =>
        rw [hk] at hc
        exact ⟨fun _ => ⟨hc, hs.symm⟩, fun _ => .inr ⟨hk, hs⟩⟩
      | poll =>
        rw [hk] at hc
        constructor
        · rintro (h' | ⟨h', -⟩)
          · exact absurd h' (he w hw)
          · rw [hk] at h'
            cases h'
        · rintro ⟨⟨hn, hp⟩, -⟩
          rw [hc hn] at hp
          cases hp
    · constructor
      · rintro (h' | ⟨-, h'⟩)
        · exact absurd h' (he w hw)
        · exact absurd h' hs
      · exact fun h' => absurd h'.2.symm hs
  · intro ha
    have he : ∀ w ∈ h.waiting, sid ≠ w.sid.error := fun w hw hs =>
      Sid.error_ne w.sid (hs.symm.trans ((ha w hw).mp (.inl hs)).2.symm)
    intro w hw
    refine ⟨he w hw, fun hs => ?_⟩
    have hiff := ha w hw
    rw [hm.removes_sid he hw hs] at hiff
    cases hk : w.kind with
    | call => exact (hiff.mp (.inr ⟨hk, hs⟩)).1
    | poll =>
      intro hn
      by_contra hp
      rcases hiff.mpr ⟨⟨hn, by simpa using hp⟩, hs.symm⟩ with h' | ⟨h', -⟩
      · exact he w hw h'
      · rw [hk] at h'
        cases h'

/-- What the table and the list keep. -/
theorem inStep_iff (hm : Matched h) {client : ClientContext} {waiting : List Waiting} {P : Prop}
    (hmem : ∀ e, e ∈ client.waitingSession ↔ e ∈ h.client.waitingSession ∧ ¬ (P ∧ e.1 = sid))
    (hwaiting : ∀ w, w ∈ waiting ↔ w ∈ h.waiting ∧ ¬ w.EndedBy sid) :
    InStep ⟨client, waiting⟩ ↔ ∀ w ∈ h.waiting, (w.EndedBy sid ↔ P ∧ w.sid = sid) := by
  constructor
  · intro hi w hw
    have he : w.entry ∈ h.client.waitingSession := (hm.mem _).mpr ⟨w, hw, rfl⟩
    constructor
    · intro hend
      by_contra hkeep
      obtain ⟨w', hw', hs⟩ := (hi w.sid).mp (List.mem_map_of_mem ((hmem w.entry).mpr ⟨he, hkeep⟩))
      obtain ⟨hw', hnot⟩ := (hwaiting w').mp hw'
      exact hnot (hm.eq_of_sid hw' hw hs ▸ hend)
    · intro hrem
      by_contra hend
      obtain ⟨e, he', hs⟩ := List.mem_map.mp ((hi w.sid).mpr ⟨w, (hwaiting w).mpr ⟨hw, hend⟩, rfl⟩)
      exact ((hmem e).mp he').2 ⟨hrem.1, hs.trans hrem.2⟩
  · intro ha sid'
    constructor
    · intro hk
      obtain ⟨e, he, rfl⟩ := List.mem_map.mp hk
      obtain ⟨he, hkeep⟩ := (hmem e).mp he
      obtain ⟨w, hw, rfl⟩ := (hm.mem e).mp he
      exact ⟨w, (hwaiting w).mpr ⟨hw, fun hend => hkeep ((ha w hw).mp hend)⟩, rfl⟩
    · rintro ⟨w, hw, rfl⟩
      obtain ⟨hw, hend⟩ := (hwaiting w).mp hw
      refine List.mem_map_of_mem (f := Prod.fst) (a := w.entry) ((hmem _).mpr ⟨(hm.mem _).mpr ⟨w, hw, rfl⟩, ?_⟩)
      exact fun hrem => hend ((ha w hw).mpr hrem)

/-- A request under a new sid. -/
theorem push (hm : Matched h) {client : ClientContext} {asyncResult : Nat} (kind : Kind)
    (hfresh : ∀ w ∈ h.waiting, w.sid ≠ sid) (hput : client.waitingSession = h.client.waitingSession.put sid asyncResult) :
    Matched ⟨client, h.waiting ++ [⟨sid, asyncResult, kind⟩]⟩ := by
  have hnot : sid ∉ h.client.waitingSession.keys := fun hk => by
    obtain ⟨w, hw, hs⟩ := (hm.inStep sid).mp hk
    exact hfresh w hw hs
  rw [Table.put_of_notMem hnot] at hput
  refine ⟨fun e => ?_, ?_, ?_⟩
  · simp only [hput, List.mem_append, List.mem_singleton, hm.mem e]
    constructor
    · rintro (⟨w, hw, he⟩ | rfl)
      · exact ⟨w, .inl hw, he⟩
      · exact ⟨_, .inr rfl, rfl⟩
    · rintro ⟨w, hw | rfl, he⟩
      · exact .inl ⟨w, hw, he⟩
      · exact .inr he.symm
  · rw [List.map_append, List.map_singleton]
    refine hm.nodup.append (List.nodup_singleton _) (List.disjoint_singleton.mpr fun hs => ?_)
    obtain ⟨w, hw, hs⟩ := List.mem_map.mp hs
    exact hfresh w hw hs
  · rw [hput, Table.keys, List.map_append]
    exact hm.keys.append (List.nodup_singleton _) (List.disjoint_singleton.mpr hnot)

theorem pushCall (hm : Matched h) {client : ClientContext} {asyncResult : Nat}
    (hfresh : sid ≠ .signal → ∀ w ∈ h.waiting, w.sid ≠ sid)
    (hput : client.waitingSession =
      if sid ≠ .signal then h.client.waitingSession.put sid asyncResult else h.client.waitingSession) :
    Matched ⟨client, addCall h.waiting sid asyncResult⟩ := by
  rw [addCall]
  by_cases hs : sid ≠ .signal
  · rw [if_pos hs] at hput ⊢
    exact hm.push .call (hfresh hs) hput
  · rw [if_neg hs] at hput ⊢
    exact ⟨by rw [hput]; exact hm.mem, hm.nodup, by rw [hput]; exact hm.keys⟩

theorem receive (hm : Matched h) {allBuf : List UInt8}
    (ha : h.Answered (.receive allBuf)) (hs : h.step (.receive allBuf) = some h') : Matched h' := by
  obtain ⟨client, hc, rfl⟩ := Option.map_eq_some_iff.mp hs
  rw [ClientContext.receive] at hc
  split at hc
  case isFalse => cases hc
  case isTrue hr =>
    by_cases hl : 4 ≤ allBuf.length
    · rw [if_pos hl] at hc
      obtain rfl := Option.some.inj hc
      have hiff := hm.answered_iff.mp (ha hr hl)
      have hsub := ClientContext.process_sublist h.client (Sid.read allBuf) (allBuf.drop 4)
      refine ⟨fun e => ?_, ?_, (hsub.map Prod.fst).nodup hm.keys⟩
      · simp only [answer, if_pos hl, ClientContext.mem_process, hm.mem e, List.mem_filter, decide_eq_true_eq]
        constructor
        · rintro ⟨⟨w, hw, rfl⟩, hkeep⟩
          exact ⟨w, ⟨hw, fun hend => hkeep ((hiff w hw).mp hend)⟩, rfl⟩
        · rintro ⟨w, ⟨hw, hend⟩, rfl⟩
          exact ⟨⟨w, hw, rfl⟩, fun hrem => hend ((hiff w hw).mpr hrem)⟩
      · simp only [answer, if_pos hl]
        exact (List.filter_sublist.map Waiting.sid).nodup hm.nodup
    · rw [if_neg hl] at hc
      obtain rfl := Option.some.inj hc
      rw [answer, if_neg hl]
      exact ⟨hm.mem, hm.nodup, hm.keys⟩

theorem step (hm : Matched h) {op : Op} (hf : h.FreshSid op) (ha : h.Answered op) (hs : h.step op = some h') :
    Matched h' := by
  cases op with
  | call callableIndex parameter sid asyncResult =>
    obtain rfl := Option.some.inj hs
    exact hm.pushCall hf rfl
  | poll callableIndex parameter sid asyncResult =>
    obtain rfl := Option.some.inj hs
    exact hm.push .poll hf rfl
  | close sid asyncResult =>
    obtain rfl := Option.some.inj hs
    exact hm.pushCall hf rfl
  | receive allBuf => exact hm.receive ha hs
  | fail =>
    obtain ⟨client, hc, rfl⟩ := Option.map_eq_some_iff.mp hs
    rw [ClientContext.fail] at hc
    split at hc
    · obtain rfl := Option.some.inj hc
      exact ⟨hm.mem, hm.nodup, hm.keys⟩
    · cases hc

theorem keepsStep_iff (hm : Matched h) {op : Op} (hf : h.FreshSid op) : h.KeepsStep op ↔ h.Answered op := by
  constructor
  · intro hk
    cases op with
    | receive allBuf =>
      intro hr hl
      have hin := hk _ (by rw [Session.step, ClientContext.receive, if_pos hr, if_pos hl, Option.map_some])
      refine hm.answered_iff.mpr ((hm.inStep_iff (fun e => ClientContext.mem_process) fun w => ?_).mp hin)
      rw [answer, if_pos hl, List.mem_filter, decide_eq_true_eq]
    | _ => trivial
  · exact fun ha h' hs => (hm.step hf ha hs).inStep

end Matched

/-- In every session, the table is in step with the requests that wait after each step
exactly when each frame is no error response of them and finds the `Ret` object of its
request as the request left it. -/
theorem session_inStep_iff (ops : List Op) (hf : Along step FreshSid .init ops) :
    Along step KeepsStep .init ops ↔ Along step Answered .init ops :=
  along_iff (fun _ _ _ hm hf ha hs => Matched.step hm hf ha hs) (fun _ _ hm hf => Matched.keepsStep_iff hm hf)
    Matched.init hf

/-- A call and its normal response. -/
theorem answeredCall_inStep :
    Along step KeepsStep .init [.call 0 [] 1 7, .receive [1, 0, 0, 0]] :=
  (session_inStep_iff _ (by simp [Along, FreshSid, step, init])).mpr (by
    simp [Along, Answered, step, init, ClientContext.init, ClientContext.call, addCall, Waiting.AnsweredBy, Sid.read,
      Sid.signal, Sid.error, Sid.errorBit, Sid.IsError, leValue])

/-- An error response to a call removes nothing. -/
theorem failedCall_remains :
    ¬ Along step KeepsStep .init [.call 0 [] 1 7, .receive [1, 0, 0, 0x80]] := by
  intro h
  have hin := (h.2 _ rfl).1 _ rfl
  have hmem := (hin 1).mp (by decide)
  revert hmem
  decide

end Session

end PxpRpc.Client.Java
