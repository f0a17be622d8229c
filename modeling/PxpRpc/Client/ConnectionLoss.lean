import PxpRpc.Client.JavaContext
import PxpRpc.Client.PythonContext

/-!
# The requests that wait when the connection is lost
-/
namespace PxpRpc.Client

open PxpRpc.Lib

namespace Python

/-- The call waits for its future. -/
def Call.Outstanding (r : Call) : Prop := r.phase ≠ .over ∧ r.respFut = .pending

/-- The poll has not been given an error. -/
def Poll.Outstanding (p : Poll) : Prop := p.raised = false ∧ ∀ error, .error error ∉ p.given

namespace ClientContext

/-- When `io1.receive` fails, the calls that wait get an exception and the polls that go on
get an error. -/
def LossNotifies (c : ClientContext) (op : Op) : Prop :=
  op = .fail → ∀ c', c.step op = some c' →
    (∀ (i : Nat) (r : Call), c.calls[i]? = some r → r.Outstanding → c'.calls[i]? = some { r with respFut := .exception }) ∧
    ∀ (i : Nat) (p : Poll), c.polls[i]? = some p → p.Outstanding →
      ∃ error, c'.polls[i]? = some { p with given := p.given ++ [.error error] }

/-- No poll goes on, and the futures of the calls that wait come before all others in the table. -/
def PendingFirst (c : ClientContext) (op : Op) : Prop :=
  op = .fail → c.receiving →
    (∀ p ∈ c.polls, ¬ p.Outstanding) ∧
    ∀ (i : Nat) (r : Call), c.calls[i]? = some r → r.Outstanding → .respFut i ∈ c.waitingSession.values.takeWhile c.pending

theorem lossNotifies_iff {c : ClientContext} (h : c.Regular) (op : Op) : c.LossNotifies op ↔ c.PendingFirst op := by
  refine forall_congr' fun hop => ?_
  subst hop
  by_cases hr : c.receiving
  · have hpolls : c.except.polls = c.polls := setExceptions_polls _ c
    have hcalls := setExceptions_calls h.values c
    simp only [step, hr, if_true, Option.some.injEq, forall_eq', true_imp_iff]
    rw [and_comm]
    refine and_congr ⟨fun hn p hp ho => ?_, fun hn i p hp ho => ?_⟩ ?_
    · obtain ⟨i, hi⟩ := List.getElem?_of_mem hp
      obtain ⟨error, he⟩ := hn i p hi ho
      rw [hpolls, hi] at he
      have := congrArg (fun q => q.given.length) (Option.some.inj he)
      simp at this
    · exact absurd ho (hn p (List.mem_of_getElem? hp))
    · refine forall₄_congr fun i r hi ho => ?_
      show (c.setExceptions c.waitingSession.values).calls[i]? = _ ↔ _
      rw [hcalls i, hi]
      split
      · rename_i hm
        simp [hm]
      · rename_i hm
        have hne : r ≠ { r with respFut := .exception } := fun he => by
          have := congrArg Call.respFut he
          rw [ho.2] at this
          cases this
        simp [hm, hne]
  · simp [step, hr]

end ClientContext

end Python

namespace Java

/-- When `io.receive` fails, the requests that wait are given an error. -/
def Session.LossNotifies (h : Session) (op : Op) : Prop :=
  op = .fail → ∀ h', h.step op = some h' → ∃ given : List (Nat × List UInt8),
    h'.client.called = h.client.called ++ given.map (fun g => (g.1, .error g.2)) ∧
    (given.map Prod.fst).Perm (h.waiting.map Waiting.asyncResult)

def Session.NothingWaits (h : Session) (op : Op) : Prop := op = .fail → h.client.receiving → h.waiting = []

theorem Session.lossNotifies_iff (h : Session) (op : Op) : h.LossNotifies op ↔ h.NothingWaits op := by
  refine forall_congr' fun hop => ?_
  subst hop
  by_cases hr : h.client.receiving
  · simp only [step, ClientContext.fail, hr, if_true, Option.map_some, Option.some.injEq, forall_eq', true_imp_iff]
    constructor
    · rintro ⟨given, hc, hp⟩
      have hg : given = [] := by simpa using hc
      subst hg
      simpa using hp.symm.eq_nil
    · intro hw
      exact ⟨[], by simp, by simp [hw]⟩
  · simp [step, ClientContext.fail, hr]

end Java

/-- In every run of the Python client, the loss of the connection reaches all requests that wait
exactly when no poll is among them and nothing stands before them in the table. In every run of the
Java client, exactly when no request waits. -/
theorem connectionLoss_notifies_iff (ops : List Python.Op) (ops' : List Java.Op) :
    (Along Python.ClientContext.step Python.ClientContext.LossNotifies .init ops ↔
      Along Python.ClientContext.step Python.ClientContext.PendingFirst .init ops) ∧
    (Along Java.Session.step Java.Session.LossNotifies .init ops' ↔
      Along Java.Session.step Java.Session.NothingWaits .init ops') := by
  constructor
  · exact along_iff (J := Python.ClientContext.Regular) (L := fun _ _ => True)
      (fun _ _ _ h _ _ hs => h.step hs) (fun _ op h _ => Python.ClientContext.lossNotifies_iff h op)
      Python.ClientContext.Regular.init (Along.of_forall fun _ _ => trivial)
  · exact along_iff (J := fun _ => True) (L := fun _ _ => True) (fun _ _ _ _ _ _ _ => trivial)
      (fun h op _ _ => h.lossNotifies_iff op) trivial (Along.of_forall fun _ _ => trivial)

/-- A poll hides a call made after it from the Python client; the Java client tells nobody. -/
theorem connectionLoss_skips :
    ¬ Along Python.ClientContext.step Python.ClientContext.LossNotifies .init [.poll 0 [] 1, .call 0 [] 2, .fail] ∧
    ¬ Along Java.Session.step Java.Session.LossNotifies .init [.call 0 [] 1 7, .fail] := by
  constructor
  · intro h
    have hcall := ((h.2 _ rfl).2 _ rfl).1 rfl _ rfl |>.1 0 _ rfl ⟨by decide, rfl⟩
    exact absurd hcall (by decide)
  · intro h
    obtain ⟨given, hc, hp⟩ := (h.2 _ rfl).1 rfl _ rfl
    have hlen := hp.length_eq
    cases given with
    | nil => cases hlen
    | cons g given => cases hc

end PxpRpc.Client
