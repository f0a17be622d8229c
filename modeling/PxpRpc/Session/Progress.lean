import PxpRpc.Session.Runs

/-!
# Progress of a session

Every request takes eight steps that go on by themselves, in whatever order, and a session in
which no such step is left waits for nothing but callables that run.
-/
namespace PxpRpc.Session

open PxpRpc.Lib
open PxpRpc.TypeScript (Call)
open PxpRpc.Server.Tasks (Lang PxpRequest)

variable {Obj Callable Hook : Type} {lang : Lang} {app : Application Obj Callable Hook}
  {s s' : State Obj Callable Hook} {ops : List (Op Obj)} {x : Exchange Obj} {r : Call} {q : PxpRequest} {n : Nat}

namespace State

theorem Good.receives (h : s.Good lang app) {buf : List UInt8} (hm : s.responses.get n = some buf) :
    ∃ s', s.receive = some s' := by
  have hmem := Table.mem_of_get hm
  rw [State.receive]
  cases hq : s.responses with
  | nil =>
    rw [hq] at hmem
    cases hmem
  | cons e responses =>
    simp only [onClient, TypeScript.Client.step, h.receiving, if_true]
    exact ⟨_, rfl⟩

theorem finishes (hr : s.client.calls[n]? = some r) (ho : r.outcome ≠ none) (hx : s.exchanges[n]? = some x)
    (hout : x.outcome = none) : ∃ s', s.finish n = some s' := by
  obtain ⟨result, hresult⟩ := Option.ne_none_iff_exists'.mp ho
  simp only [finish, hr, Option.bind_some, hresult, hx, hout]
  exact ⟨_, rfl⟩

end State

end PxpRpc.Session
