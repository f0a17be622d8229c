import PxpRpc.Server.Poll
import PxpRpc.Server.TaskPoll
import PxpRpc.Server.JavaPollRuns

/-!
# Polls and the references they are on

All four servers look the index of a poll up again before every invocation. As long as
the entry is that of the callable which the poll was started on, whatever other requests
free and allocate, no poll strays from its callable, stops without a response or takes
anything else down; an entry that has been freed, or reused, is called as it is.
-/
namespace PxpRpc.Server

open PxpRpc.Lib PxpRpc.Lib.Callback
open PxpRpc.Pool.Managed (RefPool)

namespace Tasks

variable {Obj Callable Hook : Type}

/-- No step but the poll's own could close the server; where the poll looks its callable
up, the reference is that of the callable. -/
structure Undisturbed (lang : Lang) (app : Application Obj Callable) (k : Int) (c : Callable) (id : Nat)
    (s : Server Obj Callable Hook) (i : Input Obj Hook) : Prop where
  finds : Finds app k c id s i
  calm : i ≠ .resumes id → (step lang app s i).all fun s' => s'.running

instance [DecidableEq Obj] [DecidableEq Callable] [DecidableEq Hook] (lang : Lang) (app : Application Obj Callable)
    (k : Int) (c : Callable) (id : Nat) (s : Server Obj Callable Hook) (i : Input Obj Hook) :
    Decidable (Undisturbed lang app k c id s i) :=
  decidable_of_iff (Finds app k c id s i ∧ (i ≠ .resumes id → (step lang app s i).all fun s' => s'.running))
    ⟨fun h => ⟨h.1, h.2⟩, fun h => ⟨h.finds, h.calm⟩⟩

variable {lang : Lang} {app : Application Obj Callable} {s s' : Server Obj Callable Hook} {i : Input Obj Hook} {id : Nat}
  {session : BitVec 32} {k : Int} {c : Callable} {parameter : List UInt8}

/-- Then no step closes it: a poll that goes on does not, either. -/
theorem Undisturbed.running (hu : Undisturbed lang app k c id s i) (hk : 0 ≤ k)
    (h : ∃ t, s.tasks[id]? = some t ∧ Stage session c parameter k t) (hr : s.running)
    (hs : step lang app s i = some s') : s'.running := by
  by_cases hi : i = .resumes id
  · have hc := hu.finds (by rw [hi]; rfl)
    subst hi
    obtain ⟨t, ht, hstage⟩ := h
    simp only [step, ht, Option.bind_some] at hs
    obtain ⟨t', rfl, -⟩ := hstage.resume hk (fun he => hc (by rw [ht, Option.map_some, he])) hs hr
    exact hr
  · have hall := hu.calm hi
    rw [hs] at hall
    exact hall

end Tasks

namespace Java

end Java

namespace Tasks

/-- Objects are numbers, and all of them can be called. -/
def numbered : Application Nat Nat := ⟨fun _ => some none, some⟩

/-- A poll on the object 0 is between two invocations when its reference is freed. -/
def freed : List (Input Nat Unit) :=
  [.allocates 0 none, .receives (some onePoll), .resumes 0, .resumes 0, .resumes 0, .settles 0 (some ⟨[5], none⟩),
    .receives (some [2, 0, 0, 0, 0xfe, 0xff, 0xff, 0xff, 0, 0, 0, 0]), .resumes 1, .resumes 1, .sends 1 true]

def next : List (Input Nat Unit) := [.resumes 0, .sends 0 true, .resumes 0, .resumes 0, .resumes 0]

end Tasks

end PxpRpc.Server
