import PxpRpc.Lib.Callback
import PxpRpc.Pipe.Registry

/-!
# A pipe server whose connections are accepted over RPC

An accept that finds no connection leaves its completion in the one slot of the server;
connections that find no accept waiting are queued. Completions are external calls and
may accept again before the accept that makes them has taken its connection off the
queue. The destructor takes the server off the registry, which leaves the newest server
where it is. Calling an empty completion and touching a deleted server have no result.
-/
namespace PxpRpc.Bridge.PipeServer

open PxpRpc.Lib PxpRpc.Lib.Callback PxpRpc.Pipe

variable {Name : Type}

/-- `PxpPipeServer` and the registry. Of a registration matter only whether its function is
`__wrap_on_connect` and whether its argument is this server. `deleted` is whether the
destructor has been entered and `live` whether the members still exist; the connections that
have come in and the accepts are counted, and `answers` has a connection or `none` for an abort. -/
structure Server (Name : Type) where
  s : Name
  registry : List (Pipe.PipeServer Name Bool Bool)
  newConn : Option Nat
  connected : List Nat
  waiting : Bool
  deleted : Bool
  live : Bool
  arrivals : Nat
  accepts : Nat
  answers : List (Nat × Option Nat)
deriving DecidableEq, Repr

inductive Code where
  | onConnect (io : Nat)
  | accept (a : Nat)
  /-- `connected.pop()`, after the completion has been called -/
  | pop
  /-- `~PxpPipeServer` -/
  | delete
  /-- the members are destroyed, after the completion has been called -/
  | free
deriving DecidableEq, Repr

inductive Entry (Name : Type) where
  /-- `pxprpc_pipe_connect` with the name of the server -/
  | connect
  | accept
  | delete
  /-- `pxprpc_pipe_serve`, for others -/
  | serve (name : Name) (onConnect : Option Bool)
deriving DecidableEq, Repr

/-- `newConn(io)` for accept `a`. -/
def Server.answer (s : Server Name) (a : Nat) (io : Option Nat) : Server Name :=
  { s with answers := s.answers ++ [(a, io)] }

abbrev Stack := List (Item Code Nat)

variable [DecidableEq Name]

/-- `pxprpc_pipe_serve(s.c_str(),nullptr,nullptr)` -/
def Server.unserve (s : Server Name) : Server Name :=
  { s with registry := Registry.serve s.registry ⟨s.s, none, false⟩ }

def exec (k : Code) (s : Server Name) : Option (Server Name × Stack) :=
  if !s.live then none
  else
    match k with
    | .onConnect io =>
      if s.waiting then
        s.newConn.map fun a => ({ s with waiting := false }.answer a (some io), [.ext a])
      else some ({ s with connected := s.connected ++ [io] }, [])
    | .accept a =>
      match s.connected with
      | [] => some ({ s with newConn := some a, waiting := true }, [])
      | io :: _ => some (s.answer a (some io), [.ext a, .code .pop])
    | .pop =>
      match s.connected with
      | [] => none
      | _ :: connected => some ({ s with connected }, [])
    | .delete => s.newConn.map fun a => ({ s.unserve with deleted := true }.answer a none, [.ext a, .code .free])
    | .free => some ({ s with live := false }, [])

/-- The server is registered, and has not been taken off since. -/
def Server.reached (s : Server Name) : Prop := Registry.connect s.s s.registry = some (true, true)

instance (s : Server Name) : Decidable s.reached := inferInstanceAs (Decidable (_ = _))

/-- A connection is one for this server if the registry has it, deleted or not; nobody has a
reference to a server that has been deleted. -/
def enter (e : Entry Name) (s : Server Name) : Option (Server Name × Stack) :=
  match e with
  | .connect =>
    if s.reached then some ({ s with arrivals := s.arrivals + 1 }, [.code (.onConnect s.arrivals)]) else none
  | .accept => if s.live then some ({ s with accepts := s.accepts + 1 }, [.code (.accept s.accepts)]) else none
  | .delete => if s.deleted then none else some (s, [.code .delete])
  | .serve name onConnect => some ({ s with registry := Registry.serve s.registry ⟨name, onConnect, false⟩ }, [])

def program : Program (Server Name) Code Nat (Entry Name) := ⟨exec, enter⟩

abbrev Config (Name : Type) := Callback.Config (Server Name) Code Nat

/-- What `serve` makes, with what has been registered before. -/
def serve (name : Name) (registry : List (Pipe.PipeServer Name Bool Bool)) : Config Name :=
  ⟨⟨name, Registry.serve registry ⟨name, some true, true⟩, none, [], false, false, true, 0, 0, []⟩, []⟩

namespace Server

/-- The accepts answered so far, in order. -/
def answered (s : Server Name) : List Nat := s.answers.map Prod.fst

/-- The connections handed to an accept so far, in order. -/
def handed (s : Server Name) : List Nat := s.answers.filterMap Prod.snd

end Server

/-- Connections are handed out in the order of their arrival and accepts are answered
once; no connection is left in the queue while an accept waits, and no accept is left
when the server has been deleted. -/
structure Serves (c : Config Name) : Prop where
  handed : c.state.handed = List.range c.state.handed.length
  arrived : c.state.handed.length ≤ c.state.arrivals
  once : c.state.answered.Nodup
  called : ∀ a ∈ c.state.answered, a < c.state.accepts
  settled : EnvControls c.stack → c.state.live → c.state.handed.length = c.state.arrivals ∨
    c.state.answered.length = c.state.accepts
  deleted : c.state.deleted → c.state.answered.length = c.state.accepts ∧ c.state.handed.length = c.state.arrivals
  noFault : ¬ program.Faults c

/-- An accept is called only when none is waiting and none has still to take its connection
off the queue, the server is deleted only while an accept is waiting, and no connection comes
in for it after that. -/
def Orderly (c : Config Name) : Move (Entry Name) → Prop
  | .enter .connect => c.state.deleted = false
  | .enter .accept => c.state.waiting = false ∧ .code .pop ∉ c.stack
  | .enter .delete => c.state.waiting
  | _ => True

instance (c : Config Name) (m : Move (Entry Name)) : Decidable (Orderly c m) := by
  unfold Orderly
  split <;> infer_instance

/-! ### The invariant -/

/-- How many accepts have still to take their connection off the queue. -/
def pops (stack : Stack) : Nat := stack.count (.code .pop)

/-- How many deletions are under way. -/
def frees (stack : Stack) : Nat := stack.count (.code .free)

/-- The connection that is coming in. -/
def arriving : Stack → List Nat
  | .code (.onConnect io) :: _ => [io]
  | _ => []

/-- The accept that is being called. -/
def calling : Stack → List Nat
  | .code (.accept a) :: _ => [a]
  | _ => []

/-- The accept that is waiting. -/
def Server.waiter (s : Server Name) : List Nat := if !s.deleted && s.waiting then s.newConn.toList else []

structure Sound (s : Server Name) (stack : Stack) : Prop where
  starts : ∀ k, .code k ∈ stack.tail → k = .pop ∨ k = .free
  live : ∀ k, .code k ∈ stack → s.live
  pops : pops stack ≤ 1 ∧ pops stack ≤ s.connected.length
  frees : frees stack = if s.deleted && s.live then 1 else 0
  handed : s.handed ++ s.connected.drop (PipeServer.pops stack) ++ arriving stack = List.range s.arrivals
  answered : (s.answered ++ s.waiter ++ calling stack).Perm (List.range s.accepts)
  waits : s.waiting → s.connected = [] ∧ s.newConn.isSome
  accepts : ∀ a rest, stack = .code (.accept a) :: rest → s.waiting = false ∧ PipeServer.pops rest = 0
  deletes : ∀ rest, stack = .code .delete :: rest → s.waiting ∧ s.deleted = false
  connects : ∀ io rest, stack = .code (.onConnect io) :: rest → s.deleted = false
  deleted : s.deleted → s.waiting
  gone : s.live = false → s.deleted

variable {s s' : Server Name} {k : Code} {rest items stack : Stack}

theorem sound_serve (name : Name) (registry : List (Pipe.PipeServer Name Bool Bool)) :
    Sound (serve name registry).state (serve name registry).stack := by
  constructor <;> simp [serve, pops, frees, arriving, calling, Server.handed, Server.answered, Server.waiter]

section

omit [DecidableEq Name]

variable (a : Nat) (io : Option Nat)

@[simp] theorem answered_answer : (s.answer a io).answered = s.answered ++ [a] := by
  simp [Server.answer, Server.answered]

@[simp] theorem handed_answer : (s.answer a io).handed = s.handed ++ io.toList := by
  cases io <;> simp [Server.answer, Server.handed, List.filterMap_append]

@[simp] theorem connected_answer : (s.answer a io).connected = s.connected := rfl
@[simp] theorem waiting_answer : (s.answer a io).waiting = s.waiting := rfl
@[simp] theorem deleted_answer : (s.answer a io).deleted = s.deleted := rfl
@[simp] theorem live_answer : (s.answer a io).live = s.live := rfl
@[simp] theorem newConn_answer : (s.answer a io).newConn = s.newConn := rfl
@[simp] theorem arrivals_answer : (s.answer a io).arrivals = s.arrivals := rfl
@[simp] theorem accepts_answer : (s.answer a io).accepts = s.accepts := rfl

@[simp] theorem pops_cons_ext (rest : Stack) : pops (.ext a :: rest) = pops rest := by
  simp [pops]

@[simp] theorem pops_cons_pop (rest : Stack) : pops (.code .pop :: rest) = pops rest + 1 := by
  simp [pops]

theorem pops_cons_code {k : Code} (h : k ≠ .pop) (rest : Stack) : pops (.code k :: rest) = pops rest := by
  simp [pops, h]

@[simp] theorem frees_cons_ext (rest : Stack) : frees (.ext a :: rest) = frees rest := by
  simp [frees]

@[simp] theorem frees_cons_free (rest : Stack) : frees (.code .free :: rest) = frees rest + 1 := by
  simp [frees]

theorem frees_cons_code {k : Code} (h : k ≠ .free) (rest : Stack) : frees (.code k :: rest) = frees rest := by
  simp [frees, h]

end

/-- No call is at its start. -/
structure Calm (stack : Stack) : Prop where
  arriving : arriving stack = []
  calling : calling stack = []
  accepts : ∀ a rest, stack ≠ .code (.accept a) :: rest
  deletes : ∀ rest, stack ≠ .code .delete :: rest
  connects : ∀ io rest, stack ≠ .code (.onConnect io) :: rest

/-- Below the top of the stack no call is at its start. -/
theorem calm_of_starts (h : ∀ k, .code k ∈ stack → k = .pop ∨ k = .free) : Calm stack := by
  cases stack with
  | nil => constructor <;> simp [arriving, calling]
  | cons i rest =>
    cases i with
    | ext a => constructor <;> simp [arriving, calling]
    | code k => rcases h k List.mem_cons_self with rfl | rfl <;> constructor <;> simp [arriving, calling]

/-! ### One step -/

theorem live_exec (h : exec k s = some (s', items)) : s.live := by
  cases hl : s.live with
  | true => rfl
  | false =>
    rw [exec.eq_def, if_pos (by rw [hl]; rfl)] at h
    cases h

omit [DecidableEq Name] in
/-- Before the deletion no member is about to be destroyed. -/
theorem Sound.frees_eq_zero (hs : Sound s stack) (hd : s.deleted = false) : PipeServer.frees stack = 0 := by
  rw [hs.frees, hd]
  rfl

/-- A connection goes to the accept that waits, or to the end of the queue. -/
theorem sound_onConnect {io : Nat} (hs : Sound s (.code (.onConnect io) :: rest))
    (h : exec (.onConnect io) s = some (s', items)) : Sound s' (items ++ rest) := by
  have hl := live_exec h
  have hd := hs.connects io rest rfl
  have hrest : Calm rest := calm_of_starts hs.starts
  have hp := hs.pops
  have hf := hs.frees_eq_zero hd
  have hh := hs.handed
  have ha := hs.answered
  rw [pops_cons_code (by simp)] at hp hh
  rw [frees_cons_code (by simp)] at hf
  simp only [arriving, calling, List.append_nil] at hh ha
  rw [exec.eq_def, if_neg (by simp [hl])] at h
  dsimp only at h
  split at h
  · rename_i hw
    obtain ⟨hc, -⟩ := hs.waits hw
    obtain ⟨a, hn, he⟩ := Option.map_eq_some_iff.mp h
    obtain ⟨rfl, rfl⟩ := Prod.mk.inj he
    have hz : pops rest = 0 := by simpa [hc] using hp.2
    exact {
      starts := fun k hm => hs.starts k hm
      live := fun k hm => hl
      pops := by simp [hz]
      frees := by simp [hf, Server.answer, hd]
      handed := by
        rw [handed_answer]
        simpa [Server.handed, hz, arriving, hc] using hh
      answered := by
        rw [answered_answer]
        simpa [Server.answered, Server.waiter, hd, hw, hn, calling] using ha
      waits := fun hw' => by cases hw'
      accepts := fun a' rest' he => by cases he
      deletes := fun rest' he => by cases he
      connects := fun io' rest' he => by cases he
      deleted := fun hd' => absurd hd' (by simp [Server.answer, hd])
      gone := hs.gone }
  · rename_i hw
    obtain ⟨rfl, rfl⟩ := Prod.mk.inj (Option.some.inj h)
    exact {
      starts := fun k hm => hs.starts k (List.mem_of_mem_tail (by simpa using hm))
      live := fun k hm => hl
      pops := ⟨hp.1, by simpa using Nat.le_succ_of_le hp.2⟩
      frees := by simp [hf, hd]
      handed := by
        rw [List.nil_append, hrest.arriving, List.append_nil]
        simpa [Server.handed, List.drop_append_of_le_length hp.2] using hh
      answered := by
        rw [List.nil_append, hrest.calling, List.append_nil]
        exact ha
      waits := fun hw' => absurd hw' hw
      accepts := fun a' rest' he => absurd he (hrest.accepts a' rest')
      deletes := fun rest' he => absurd he (hrest.deletes rest')
      connects := fun io' rest' he => absurd he (hrest.connects io' rest')
      deleted := hs.deleted
      gone := hs.gone }

theorem sound_accept {a : Nat} (hs : Sound s (.code (.accept a) :: rest))
    (h : exec (.accept a) s = some (s', items)) : Sound s' (items ++ rest) := by
  have hl := live_exec h
  have hrest : Calm rest := calm_of_starts hs.starts
  obtain ⟨hw, hz⟩ := hs.accepts a rest rfl
  have hd : s.deleted = false := Bool.eq_false_of_not_eq_true fun hd => by simp [hs.deleted hd] at hw
  have hf := hs.frees_eq_zero hd
  have hh := hs.handed
  have ha := hs.answered
  rw [pops_cons_code (by simp), hz] at hh
  rw [frees_cons_code (by simp)] at hf
  simp only [arriving, calling, Server.waiter, hw, Bool.and_false, Bool.false_eq_true, if_false, List.append_nil,
    List.drop_zero] at hh ha
  rw [exec.eq_def, if_neg (by simp [hl])] at h
  dsimp only at h
  split at h
  · rename_i hc
    obtain ⟨rfl, rfl⟩ := Prod.mk.inj (Option.some.inj h)
    exact {
      starts := fun k hm => hs.starts k (List.mem_of_mem_tail (by simpa using hm))
      live := fun k hm => hl
      pops := by simp [hz]
      frees := by simp [hf, hd]
      handed := by
        rw [List.nil_append, hrest.arriving, hz, List.append_nil]
        exact hh
      answered := by
        rw [List.nil_append, hrest.calling, List.append_nil]
        simpa [Server.answered, Server.waiter, hd] using ha
      waits := fun _ => ⟨hc, rfl⟩
      accepts := fun a' rest' he => absurd he (hrest.accepts a' rest')
      deletes := fun rest' he => absurd he (hrest.deletes rest')
      connects := fun io' rest' he => absurd he (hrest.connects io' rest')
      deleted := fun _ => rfl
      gone := hs.gone }
  · rename_i io connected hc
    obtain ⟨rfl, rfl⟩ := Prod.mk.inj (Option.some.inj h)
    exact {
      starts := fun k hm => by
        rcases List.mem_cons.mp hm with he | hm
        · exact .inl (Item.code.inj he)
        · exact hs.starts k hm
      live := fun k hm => hl
      pops := by simp [hz, Server.answer, hc]
      frees := by simp [frees_cons_code, hf, hd]
      handed := by
        rw [handed_answer]
        simpa [hz, arriving, hc] using hh
      answered := by
        rw [answered_answer]
        simpa [Server.waiter, hw, calling] using ha
      waits := fun hw' => by simp [Server.answer, hw] at hw'
      accepts := fun a' rest' he => by cases he
      deletes := fun rest' he => by cases he
      connects := fun io' rest' he => by cases he
      deleted := hs.deleted
      gone := hs.gone }

/-- The connection that has been handed out is taken off the queue. -/
theorem sound_pop (hs : Sound s (.code .pop :: rest)) (h : exec .pop s = some (s', items)) :
    Sound s' (items ++ rest) := by
  have hl := live_exec h
  have hrest : Calm rest := calm_of_starts hs.starts
  have hp := hs.pops
  have hf := hs.frees
  have hh := hs.handed
  have ha := hs.answered
  rw [pops_cons_pop] at hp hh
  rw [frees_cons_code (by simp)] at hf
  have hz : pops rest = 0 := by omega
  simp only [arriving, calling, hz, List.append_nil] at hh ha
  rw [exec.eq_def, if_neg (by simp [hl])] at h
  dsimp only at h
  split at h
  · cases h
  · rename_i io connected hc
    have hw : ¬ s.waiting := fun hw => by simp [(hs.waits hw).1] at hc
    obtain ⟨rfl, rfl⟩ := Prod.mk.inj (Option.some.inj h)
    exact {
      starts := fun k hm => hs.starts k (List.mem_of_mem_tail (by simpa using hm))
      live := fun k hm => hl
      pops := by simp [hz]
      frees := hf
      handed := by
        rw [List.nil_append, hrest.arriving, hz, List.append_nil]
        simpa [Server.handed, hc] using hh
      answered := by
        rw [List.nil_append, hrest.calling, List.append_nil]
        exact ha
      waits := fun hw' => absurd hw' hw
      accepts := fun a' rest' he => absurd he (hrest.accepts a' rest')
      deletes := fun rest' he => absurd he (hrest.deletes rest')
      connects := fun io' rest' he => absurd he (hrest.connects io' rest')
      deleted := hs.deleted
      gone := hs.gone }

/-- Deletion answers the accept that waits. -/
theorem sound_delete (hs : Sound s (.code .delete :: rest)) (h : exec .delete s = some (s', items)) :
    Sound s' (items ++ rest) := by
  have hl := live_exec h
  obtain ⟨hw, hd⟩ := hs.deletes rest rfl
  obtain ⟨hc, -⟩ := hs.waits hw
  have hp := hs.pops
  have hf := hs.frees_eq_zero hd
  have hh := hs.handed
  have ha := hs.answered
  rw [pops_cons_code (by simp)] at hp hh
  rw [frees_cons_code (by simp)] at hf
  have hz : pops rest = 0 := by simpa [hc] using hp.2
  simp only [arriving, calling, hz, List.append_nil, List.drop_zero] at hh ha
  rw [exec.eq_def, if_neg (by simp [hl])] at h
  obtain ⟨a, hn, he⟩ := Option.map_eq_some_iff.mp h
  obtain ⟨rfl, rfl⟩ := Prod.mk.inj he
  exact {
    starts := fun k hm => by
      rcases List.mem_cons.mp hm with he | hm
      · exact .inr (Item.code.inj he)
      · exact hs.starts k hm
    live := fun k hm => hl
    pops := by simp [pops_cons_code, hz]
    frees := by simp [hf, Server.unserve, hl]
    handed := by simpa [pops_cons_code, hz, arriving, Server.answer, Server.handed, Server.unserve] using hh
    answered := by
      simpa [Server.waiter, hd, hw, hn, calling, Server.answer, Server.answered, Server.unserve] using ha
    waits := fun _ => hs.waits hw
    accepts := fun a' rest' he => by cases he
    deletes := fun rest' he => by cases he
    connects := fun io' rest' he => by cases he
    deleted := fun _ => hw
    gone := fun _ => rfl }

/-- Once the members are destroyed no code of the server is left. -/
theorem sound_free (hs : Sound s (.code .free :: rest)) (h : exec .free s = some (s', items)) :
    Sound s' (items ++ rest) := by
  have hl := live_exec h
  have hrest : Calm rest := calm_of_starts hs.starts
  have hp := hs.pops
  have hf := hs.frees
  have hh := hs.handed
  have ha := hs.answered
  rw [pops_cons_code (by simp)] at hp hh
  rw [frees_cons_free, hl, Bool.and_true] at hf
  have hd : s.deleted := by
    by_contra hd
    rw [if_neg hd] at hf
    cases hf
  have hfrees : frees rest = 0 := by
    rw [if_pos hd] at hf
    omega
  have hz : pops rest = 0 := by simpa [(hs.waits (hs.deleted hd)).1] using hp.2
  rw [exec.eq_def, if_neg (by simp [hl])] at h
  obtain ⟨rfl, rfl⟩ := Prod.mk.inj (Option.some.inj h)
  have hnone : ∀ k, .code k ∉ rest := by
    intro k hm
    rcases hs.starts k hm with rfl | rfl
    · exact List.count_eq_zero.mp hz hm
    · exact List.count_eq_zero.mp hfrees hm
  exact {
    starts := fun k hm => hs.starts k (List.mem_of_mem_tail (by simpa using hm))
    live := fun k hm => absurd (by simpa using hm) (hnone k)
    pops := by simp [hz]
    frees := by simp [hfrees]
    handed := by
      rw [List.nil_append, hrest.arriving]
      exact hh
    answered := by
      rw [List.nil_append, hrest.calling]
      exact ha
    waits := hs.waits
    accepts := fun a' rest' he => absurd he (hrest.accepts a' rest')
    deletes := fun rest' he => absurd he (hrest.deletes rest')
    connects := fun io' rest' he => absurd he (hrest.connects io' rest')
    deleted := hs.deleted
    gone := fun _ => hd }

theorem sound_exec (hs : Sound s (.code k :: rest)) (h : exec k s = some (s', items)) : Sound s' (items ++ rest) := by
  cases k with
  | onConnect io => exact sound_onConnect hs h
  | accept a => exact sound_accept hs h
  | pop => exact sound_pop hs h
  | delete => exact sound_delete hs h
  | free => exact sound_free hs h

omit [DecidableEq Name] in
/-- Where the environment is in control no code on the stack is at its start. -/
theorem Sound.starts_of_controls (hs : Sound s stack) (hc : EnvControls stack) :
    ∀ k, .code k ∈ stack → k = .pop ∨ k = .free := by
  cases stack with
  | nil => exact fun k hm => absurd hm List.not_mem_nil
  | cons i rest =>
    cases i with
    | code k => exact hc.elim
    | ext a => exact fun k hm => hs.starts k (by simpa using hm)

omit [DecidableEq Name] in
theorem sound_ret {a : Nat} (hs : Sound s (.ext a :: rest)) : Sound s rest := by
  have hrest : Calm rest := calm_of_starts hs.starts
  have hh := hs.handed
  have ha := hs.answered
  simp only [pops_cons_ext, arriving, calling, List.append_nil] at hh ha
  exact {
    starts := fun k hm => hs.starts k (List.mem_of_mem_tail hm)
    live := fun k hm => hs.live k (List.mem_cons_of_mem _ hm)
    pops := by simpa using hs.pops
    frees := by simpa using hs.frees
    handed := by
      rw [hrest.arriving, List.append_nil]
      exact hh
    answered := by
      rw [hrest.calling, List.append_nil]
      exact ha
    waits := hs.waits
    accepts := fun a rest' he => absurd he (hrest.accepts a rest')
    deletes := fun rest' he => absurd he (hrest.deletes rest')
    connects := fun io rest' he => absurd he (hrest.connects io rest')
    deleted := hs.deleted
    gone := hs.gone }

/-! ### The calls -/

theorem sound_connect (hc : EnvControls stack) (hs : Sound s stack) (hd : s.deleted = false)
    (h : enter .connect s = some (s', items)) : Sound s' (items ++ stack) := by
  have hstarts := hs.starts_of_controls hc
  have hcalm : Calm stack := calm_of_starts hstarts
  have hl : s.live := by
    by_contra hl
    rw [hs.gone (Bool.eq_false_of_not_eq_true hl)] at hd
    cases hd
  have hp := hs.pops
  have hh := hs.handed
  have ha := hs.answered
  rw [hcalm.arriving, List.append_nil] at hh
  rw [hcalm.calling, List.append_nil] at ha
  rw [enter] at h
  split_ifs at h
  obtain ⟨rfl, rfl⟩ := Prod.mk.inj (Option.some.inj h)
  exact {
    starts := hstarts
    live := fun k hm => hl
    pops := by simpa [pops_cons_code] using hp
    frees := by simpa [frees_cons_code] using hs.frees
    handed := by
      rw [List.singleton_append, pops_cons_code (by simp), List.range_succ, ← hh]
      rfl
    answered := by simpa [Server.answered, Server.waiter, calling] using ha
    waits := hs.waits
    accepts := fun _ _ he => by cases he
    deletes := fun _ he => by cases he
    connects := fun _ _ _ => hd
    deleted := hs.deleted
    gone := hs.gone }

theorem sound_acceptCall (hc : EnvControls stack) (hs : Sound s stack) (hw : s.waiting = false)
    (hpop : .code .pop ∉ stack) (h : enter .accept s = some (s', items)) : Sound s' (items ++ stack) := by
  have hstarts := hs.starts_of_controls hc
  have hcalm : Calm stack := calm_of_starts hstarts
  have hp := hs.pops
  have hh := hs.handed
  have ha := hs.answered
  rw [hcalm.arriving, List.append_nil] at hh
  rw [hcalm.calling, List.append_nil] at ha
  rw [enter] at h
  split_ifs at h with hl
  obtain ⟨rfl, rfl⟩ := Prod.mk.inj (Option.some.inj h)
  exact {
    starts := hstarts
    live := fun k hm => hl
    pops := by simpa [pops_cons_code] using hp
    frees := by simpa [frees_cons_code] using hs.frees
    handed := by simpa [Server.handed, pops_cons_code, arriving] using hh
    answered := by
      rw [List.range_succ]
      exact ha.append_right [s.accepts]
    waits := hs.waits
    accepts := fun a rest he => by
      obtain rfl := (List.cons.inj he).2
      exact ⟨hw, List.count_eq_zero.mpr hpop⟩
    deletes := fun _ he => by cases he
    connects := fun _ _ he => by cases he
    deleted := hs.deleted
    gone := hs.gone }

theorem sound_deleteCall (hc : EnvControls stack) (hs : Sound s stack) (hw : s.waiting)
    (h : enter .delete s = some (s', items)) : Sound s' (items ++ stack) := by
  have hstarts := hs.starts_of_controls hc
  have hcalm : Calm stack := calm_of_starts hstarts
  have hh := hs.handed
  have ha := hs.answered
  rw [hcalm.arriving, List.append_nil] at hh
  rw [hcalm.calling, List.append_nil] at ha
  rw [enter] at h
  split_ifs at h with hd
  have hd : s.deleted = false := Bool.eq_false_of_not_eq_true hd
  have hl : s.live := by
    by_contra hl
    rw [hs.gone (Bool.eq_false_of_not_eq_true hl)] at hd
    cases hd
  obtain ⟨rfl, rfl⟩ := Prod.mk.inj (Option.some.inj h)
  exact {
    starts := hstarts
    live := fun k hm => hl
    pops := by simpa [pops_cons_code] using hs.pops
    frees := by simpa [frees_cons_code] using hs.frees
    handed := by simpa [pops_cons_code, arriving] using hh
    answered := by simpa [calling] using ha
    waits := hs.waits
    accepts := fun _ _ he => by cases he
    deletes := fun _ _ => ⟨hw, hd⟩
    connects := fun _ _ he => by cases he
    deleted := hs.deleted
    gone := hs.gone }

theorem sound_enter {e : Entry Name} (hc : EnvControls stack) (hs : Sound s stack) (ho : Orderly ⟨s, stack⟩ (.enter e))
    (h : enter e s = some (s', items)) : Sound s' (items ++ stack) := by
  cases e with
  | connect => exact sound_connect hc hs ho h
  | accept => exact sound_acceptCall hc hs ho.1 ho.2 h
  | delete => exact sound_deleteCall hc hs ho h
  | serve name onConnect =>
    obtain ⟨rfl, rfl⟩ := Prod.mk.inj (Option.some.inj h)
    exact ⟨hs.starts, hs.live, hs.pops, hs.frees, hs.handed, hs.answered, hs.waits, hs.accepts, hs.deletes, hs.connects,
      hs.deleted, hs.gone⟩

theorem sound_preserves :
    Program.Preserves (program : Program (Server Name) Code Nat (Entry Name)) Orderly fun c =>
      Sound c.state c.stack where
  exec hs _ he := sound_exec hs he
  ret hs _ := sound_ret hs
  enter hc hs ho he := sound_enter hc hs ho he

/-! ### Runs -/

theorem sound_noFault {c : Config Name} (hs : Sound c.state c.stack) : ¬ program.Faults c := by
  obtain ⟨s, stack⟩ := c
  rintro ⟨k, rest, rfl, he⟩
  have hl := hs.live k List.mem_cons_self
  change s.live = true at hl
  change exec k s = none at he
  rw [exec.eq_def, if_neg (by simp [hl])] at he
  cases k with
  | onConnect io =>
    dsimp only at he
    split at he
    · rename_i hw
      have hn := (hs.waits hw).2
      rw [Option.map_eq_none_iff.mp he] at hn
      cases hn
    · cases he
  | accept a =>
    dsimp only at he
    split at he <;> cases he
  | pop =>
    have hp := hs.pops.2
    rw [pops_cons_pop] at hp
    dsimp only at he
    split at he
    · rename_i hc
      simp [hc] at hp
    · cases he
  | delete =>
    have hn := (hs.waits (hs.deletes rest rfl).1).2
    rw [Option.map_eq_none_iff.mp he] at hn
    cases hn
  | free => cases he

omit [DecidableEq Name] in
/-- While an accept waits all connections have been handed out, but for the one that is coming in. -/
theorem Sound.handed_of_waiting (hs : Sound s stack) (hw : s.waiting) (ha : arriving stack = []) :
    s.handed.length = s.arrivals := by
  have hh := congrArg List.length hs.handed
  simpa [ha, (hs.waits hw).1] using hh

omit [DecidableEq Name] in
/-- A server that is deleted has no call at its start. -/
theorem Sound.starts_of_deleted (hs : Sound s stack) (hd : s.deleted) : arriving stack = [] ∧ calling stack = [] := by
  cases stack with
  | nil => exact ⟨rfl, rfl⟩
  | cons i rest =>
    cases i with
    | ext a => exact ⟨rfl, rfl⟩
    | code k =>
      cases k with
      | onConnect io =>
        have hc := hs.connects io rest rfl
        rw [hd] at hc
        cases hc
      | accept a =>
        have hw := (hs.accepts a rest rfl).1
        rw [hs.deleted hd] at hw
        cases hw
      | pop | delete | free => exact ⟨rfl, rfl⟩

theorem serves_of_sound {c : Config Name} (hs : Sound c.state c.stack) : Serves c := by
  obtain ⟨s, stack⟩ := c
  have hprefix : s.handed <+: List.range s.arrivals := by
    rw [← hs.handed, List.append_assoc]
    exact List.prefix_append _ _
  have hrange : s.handed = List.range s.handed.length := by
    have := List.prefix_iff_eq_take.mp hprefix
    rw [List.take_range] at this
    have hle := hprefix.length_le
    rw [List.length_range] at hle
    rwa [Nat.min_eq_left hle] at this
  have hnodup : (s.answered ++ s.waiter ++ calling stack).Nodup := hs.answered.nodup_iff.mpr List.nodup_range
  exact {
    handed := hrange
    arrived := by simpa using hprefix.length_le
    once := (List.nodup_append.mp (List.nodup_append.mp hnodup).1).1
    called := fun a ha => List.mem_range.mp (hs.answered.subset (List.mem_append_left _ (List.mem_append_left _ ha)))
    settled := fun hc _ => by
      have hcalm : Calm stack := calm_of_starts (hs.starts_of_controls hc)
      by_cases hw : s.waiting
      · exact .inl (hs.handed_of_waiting hw hcalm.arriving)
      · right
        simpa [hcalm.calling, Server.waiter, hw] using hs.answered.length_eq
    deleted := fun hd => by
      obtain ⟨harriving, hcalling⟩ := hs.starts_of_deleted hd
      refine ⟨?_, hs.handed_of_waiting (hs.deleted hd) harriving⟩
      have hd : s.deleted = true := hd
      simpa [hcalling, Server.waiter, hd] using hs.answered.length_eq
    noFault := sound_noFault hs }

/-- In place of the last condition: the server is not the newest one when it is deleted. -/
def Linked (c : Config Name) : Move (Entry Name) → Prop
  | .enter .connect => True
  | .enter .delete => c.state.waiting ∧ ∀ serv ∈ c.state.registry.head?, serv.name ≠ c.state.s
  | m => Orderly c m

/-- A server that is deleted is taken off, and not put on the list again. -/
structure Off (s : Server Name) (stack : Stack) : Prop where
  distinct : Registry.Distinct s.registry
  off : s.deleted → ∀ onConnect, Registry.connect s.s s.registry ≠ some (onConnect, true)
  next : ∀ rest, stack = .code .delete :: rest → ∀ serv ∈ s.registry.head?, serv.name ≠ s.s

theorem Off.other {stack' : Stack} (h : Off s stack) (hrest : ∀ rest, stack' ≠ .code .delete :: rest)
    (hname : s'.s = s.s) (hregistry : s'.registry = s.registry) (hd : s'.deleted = s.deleted) : Off s' stack' where
  distinct := hregistry ▸ h.distinct
  off := by
    rw [hname, hregistry, hd]
    exact h.off
  next rest he := absurd he (hrest rest)

theorem off_exec (ho : Off s (.code k :: rest)) (hs : Sound s (.code k :: rest)) (h : exec k s = some (s', items)) :
    Off s' (items ++ rest) := by
  have hrest := (calm_of_starts hs.starts).deletes
  have hl := live_exec h
  rw [exec.eq_def, if_neg (by simp [hl])] at h
  cases k with
  | onConnect io =>
    dsimp only at h
    split at h
    · obtain ⟨a, -, he⟩ := Option.map_eq_some_iff.mp h
      obtain ⟨rfl, rfl⟩ := Prod.mk.inj he
      exact ho.other (by simp) rfl rfl rfl
    · obtain ⟨rfl, rfl⟩ := Prod.mk.inj (Option.some.inj h)
      exact ho.other hrest rfl rfl rfl
  | accept a =>
    dsimp only at h
    split at h
    · obtain ⟨rfl, rfl⟩ := Prod.mk.inj (Option.some.inj h)
      exact ho.other hrest rfl rfl rfl
    · obtain ⟨rfl, rfl⟩ := Prod.mk.inj (Option.some.inj h)
      exact ho.other (by simp) rfl rfl rfl
  | pop =>
    dsimp only at h
    split at h
    · cases h
    · obtain ⟨rfl, rfl⟩ := Prod.mk.inj (Option.some.inj h)
      exact ho.other hrest rfl rfl rfl
  | delete =>
    obtain ⟨a, -, he⟩ := Option.map_eq_some_iff.mp h
    obtain ⟨rfl, rfl⟩ := Prod.mk.inj he
    have hkeeps : Registry.Keeps s.registry ⟨s.s, none, false⟩ := ho.next rest rfl
    have hnone : Registry.connect s.s (Registry.serve s.registry ⟨s.s, none, false⟩) = none :=
      (Registry.connect_serve_iff ho.distinct).mpr hkeeps
    exact {
      distinct := Registry.distinct_serve ho.distinct
      off := fun _ onConnect hc => absurd (hnone.symm.trans hc) (by simp)
      next := fun _ he => by cases he }
  | free =>
    obtain ⟨rfl, rfl⟩ := Prod.mk.inj (Option.some.inj h)
    exact ho.other hrest rfl rfl rfl

/-- Another registration under the same name has an argument of its own. -/
theorem off_serve {name : Name} {onConnect : Option Bool} (ho : Off s stack) (hdel : ∀ rest, stack ≠ .code .delete :: rest) :
    Off { s with registry := Registry.serve s.registry ⟨name, onConnect, false⟩ } stack where
  distinct := Registry.distinct_serve ho.distinct
  off hd onConnect' hc := by
    have hc : Registry.connect s.s (Registry.serve s.registry ⟨name, onConnect, false⟩) = some (onConnect', true) := hc
    by_cases hname : s.s = name
    · subst hname
      have hc : Registry.connect (Serve.name ⟨s.s, onConnect, false⟩)
          (Registry.serve s.registry ⟨s.s, onConnect, false⟩) = some (onConnect', true) := hc
      obtain hp | ⟨onConnect', hc⟩ := Registry.connect_serve_arg ho.distinct hc
      · cases hp
      · exact ho.off hd onConnect' hc
    · rw [Registry.connect_serve_ne hname] at hc
      exact ho.off hd onConnect' hc
  next rest he := absurd he (hdel rest)

theorem off_enter {e : Entry Name} (ho : Off s stack) (hs : Sound s stack) (hc : EnvControls stack)
    (hl : Linked ⟨s, stack⟩ (.enter e)) (h : enter e s = some (s', items)) : Off s' (items ++ stack) := by
  have hcalm : Calm stack := calm_of_starts (hs.starts_of_controls hc)
  cases e with
  | connect =>
    rw [enter] at h
    split_ifs at h
    obtain ⟨rfl, rfl⟩ := Prod.mk.inj (Option.some.inj h)
    exact ⟨ho.distinct, ho.off, fun _ he => by cases he⟩
  | accept =>
    rw [enter] at h
    split_ifs at h
    obtain ⟨rfl, rfl⟩ := Prod.mk.inj (Option.some.inj h)
    exact ⟨ho.distinct, ho.off, fun _ he => by cases he⟩
  | delete =>
    rw [enter] at h
    split_ifs at h
    obtain ⟨rfl, rfl⟩ := Prod.mk.inj (Option.some.inj h)
    exact ⟨ho.distinct, ho.off, fun _ _ => hl.2⟩
  | serve name onConnect =>
    obtain ⟨rfl, rfl⟩ := Prod.mk.inj (Option.some.inj h)
    exact off_serve ho hcalm.deletes

/-- What is linked is orderly: no connection comes in for a server that has been taken off. -/
theorem Off.orderly {e : Entry Name} (ho : Off s stack) (hl : Linked ⟨s, stack⟩ (.enter e))
    (h : enter e s = some (s', items)) : Orderly ⟨s, stack⟩ (.enter e) := by
  cases e with
  | connect =>
    rw [enter] at h
    split_ifs at h with hr
    exact Bool.eq_false_of_not_eq_true fun hd => ho.off hd true hr
  | accept => exact hl
  | delete => exact hl.1
  | serve name onConnect => exact trivial

theorem linked_preserves :
    Program.Preserves (program : Program (Server Name) Code Nat (Entry Name)) Linked fun c =>
      Sound c.state c.stack ∧ Off c.state c.stack where
  exec h _ he := ⟨sound_exec h.1 he, off_exec h.2 h.1 he⟩
  ret h _ := ⟨sound_ret h.1, ⟨h.2.distinct, h.2.off, fun rest he => absurd he ((calm_of_starts h.1.starts).deletes rest)⟩⟩
  enter hc h hl he := ⟨sound_enter hc h.1 (h.2.orderly hl he) he, off_enter h.2 h.1 hc hl he⟩

/-- A server that is not the newest one when it is deleted serves, whatever comes in later. -/
theorem serves_linked {name : Name} {registry : List (Pipe.PipeServer Name Bool Bool)} {ms : List (Move (Entry Name))}
    {c : Config Name} (hd : Registry.Distinct registry) (h : run program.step (serve name registry) ms = some c)
    (hl : Along program.step Linked (serve name registry) ms) : Serves c := by
  have hoff : Off (serve name registry).state (serve name registry).stack := {
    distinct := Registry.distinct_serve hd
    off := fun hdeleted => by cases hdeleted
    next := fun _ he => by cases he }
  exact serves_of_sound (linked_preserves.run ⟨sound_serve name registry, hoff⟩ hl h).1

end PxpRpc.Bridge.PipeServer
