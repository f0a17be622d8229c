import PxpRpc.Session.Asking
import PxpRpc.Session.Finishing
import PxpRpc.Session.Starting

/-!
# Runs of a session

What holds in every run: the connection goes on, every exchange means the same at its two ends,
and the references in use are those that somebody owns.
-/
namespace PxpRpc.Session

open PxpRpc.Lib PxpRpc.Codec
open PxpRpc.Pool.Managed (Sound)
open PxpRpc.Server.Tasks (Lang)

variable {Obj Callable Hook : Type} {lang : Lang} {app : Application Obj Callable Hook}
  {s s' : State Obj Callable Hook} {ops : List (Op Obj)}

/-- Steps that go on by themselves, without the application and the user of the client. -/
def Op.work : Op Obj → Nat
  | .requestSent _ | .arrive | .start | .respond _ | .responseSent _ | .receive | .resume _ | .finish _ => 1
  | .getFunc _ | .call _ _ _ | .free _ | .asCallable _ | .resolve _ _ | .reject _ _ => 0

namespace State

theorem Good.init : (State.init : State Obj Callable Hook).Good lang app where
  running := rfl
  receiving := rfl
  serverRunning := rfl
  serving := rfl
  regular := TypeScript.Client.Regular.init.step (show TypeScript.Client.FreshSid _ .run from trivial) rfl
  polls := rfl
  calls := rfl
  sent := rfl
  tasks := le_rfl
  started := le_rfl
  keys := List.nodup_nil
  answers _ hm := by cases hm
  cursor := Client.Extend.Regular.init
  sids _ _ hx := by cases hx
  distinct _ _ _ _ hx := by cases hx
  exchange _ _ hx := by cases hx
  holds := Holds.empty
  stores _ ho := by
    have hzero : (State.init : State Obj Callable Hook).owned = 0 := by
      rw [owned]
      exact add_zero _
    rw [hzero] at ho
    exact absurd ho (Multiset.notMem_zero _)

theorem Good.step {op : Op Obj} (h : s.Good lang app) (hp : s.Proper app op) (hs : s.step lang app op = some s') :
    s'.Good lang app ∧ s.Does s' op.work := by
  cases op with
  | getFunc name => exact Option.some.inj hs ▸ h.getFunc hp
  | call callable decl args => exact Option.some.inj hs ▸ h.call hp
  | free handle => exact h.free hs
  | asCallable handle => exact h.asCallable hs
  | requestSent n => exact h.requestSent hs
  | arrive => exact h.arrive hs
  | start => exact h.start hp hs
  | resolve n results => exact h.resolve hp hs
  | reject n text => exact h.reject hs
  | respond n => exact h.respond hs
  | responseSent n => exact h.responseSent hs
  | receive => exact h.receive hs
  | resume n => exact h.resume hs
  | finish n => exact h.finish hs

/-- Under every name is a callable that takes an object and returns one. -/
def echo : Application Bool Unit Unit where
  funcMap _ := some (some false)
  callable obj := if obj then none else some ()
  decl _ := ⟨[.o], [.o]⟩
  onFree _ := none
  errorText := []

/-- The function is asked for, called with itself, and returns another object. -/
def asked : State Bool Unit Unit := State.init.sends 1 (.getFunc []) (-1) []

def askedOps : List (Op Bool) := [.arrive, .start, .respond 0, .receive, .requestSent 0, .resume 0, .finish 0]

def found : State Bool Unit Unit := (run (step .typeScript echo) asked askedOps).getD .init

def called : State Bool Unit Unit := found.sends 2 (.call 0 ⟨[.o], [.o]⟩ [.object 0]) 0 [0, 0, 0, 0]

def calledOps : List (Op Bool) :=
  [.requestSent 1, .arrive, .start, .resolve 1 [.object true], .respond 1, .receive, .resume 1, .finish 1]

def returned : State Bool Unit Unit := (run (step .typeScript echo) called calledOps).getD .init

end State

end PxpRpc.Session
