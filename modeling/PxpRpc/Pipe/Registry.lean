import PxpRpc.Lib.Run

/-!
# The registry of pipe servers

Servers are looked up by name in a list, newest first. The function and the argument
of a server that is registered again are those of the last registration only in part,
and the newest server is never taken off the list.
-/
namespace PxpRpc.Pipe

open PxpRpc.Lib

variable {Name Fn Arg : Type}

/-- `_pxprpcPipeServer` without its link. -/
structure PipeServer (Name Fn Arg : Type) where
  name : Name
  onConnect : Fn
  p : Arg
deriving DecidableEq, Repr

/-- A call of `pxprpc_pipe_serve`, without a function to unregister the name. -/
structure Serve (Name Fn Arg : Type) where
  name : Name
  onConnect : Option Fn
  p : Arg
deriving DecidableEq, Repr

namespace Registry

variable [DecidableEq Name]

/-- The loop of `pxprpc_pipe_serve`: the servers up to `lastServ`, the server with the
name, and what is linked behind it. -/
def search (name : Name) : List (PipeServer Name Fn Arg) →
    Option (List (PipeServer Name Fn Arg) × PipeServer Name Fn Arg × List (PipeServer Name Fn Arg))
  | [] => none
  | serv :: next =>
    if serv.name = name then some ([], serv, next)
    else (search name next).map fun (before, found, next) => (serv :: before, found, next)

/-- `lastServ->next=serv->next`, or where there is no `lastServ`
`_pxprpcServerList->next=serv->next`. -/
def unlink (before : List (PipeServer Name Fn Arg)) (serv : PipeServer Name Fn Arg)
    (next : List (PipeServer Name Fn Arg)) : List (PipeServer Name Fn Arg) :=
  if before.isEmpty then serv :: next else before ++ next

/-- `pxprpc_pipe_serve` -/
def serve (servers : List (PipeServer Name Fn Arg)) (call : Serve Name Fn Arg) : List (PipeServer Name Fn Arg) :=
  match search call.name servers, call.onConnect with
  | some (before, serv, next), none => unlink before serv next
  | some (before, serv, next), some onConnect => before ++ { serv with onConnect } :: next
  | none, none => servers
  | none, some onConnect => ⟨call.name, onConnect, call.p⟩ :: servers

/-- `pxprpc_pipe_connect`: the function that is called and its argument, or `none` for
`NULL`. -/
def connect (name : Name) (servers : List (PipeServer Name Fn Arg)) : Option (Fn × Arg) :=
  (search name servers).map fun (_, serv, _) => (serv.onConnect, serv.p)

/-! ### What the registry is for -/

/-- The last registration of every name. -/
abbrev Registered (Name Fn Arg : Type) := Name → Option (Fn × Arg)

def register (registered : Registered Name Fn Arg) (call : Serve Name Fn Arg) : Registered Name Fn Arg :=
  Function.update registered call.name (call.onConnect.map fun onConnect => (onConnect, call.p))

/-- The list and what it stands for. -/
structure State (Name Fn Arg : Type) where
  servers : List (PipeServer Name Fn Arg)
  registered : Registered Name Fn Arg

def State.init : State Name Fn Arg := ⟨[], fun _ => none⟩

def step (s : State Name Fn Arg) (call : Serve Name Fn Arg) : Option (State Name Fn Arg) :=
  some ⟨serve s.servers call, register s.registered call⟩

/-- Every name connects to its last registration, and to nothing where that has been
taken back. -/
def Connects (s : State Name Fn Arg) : Prop := ∀ name, connect name s.servers = s.registered name

/-- A name that is registered again keeps its argument, and the newest server is not
unregistered. -/
def Keeps (servers : List (PipeServer Name Fn Arg)) (call : Serve Name Fn Arg) : Prop :=
  match call.onConnect with
  | some _ => ∀ serv ∈ servers, serv.name = call.name → serv.p = call.p
  | none => ∀ serv ∈ servers.head?, serv.name ≠ call.name

instance [DecidableEq Arg] (servers : List (PipeServer Name Fn Arg)) (call : Serve Name Fn Arg) :
    Decidable (Keeps servers call) := by
  unfold Keeps
  split <;> infer_instance

/-! ### The list as a map -/

variable {servers before next : List (PipeServer Name Fn Arg)} {serv : PipeServer Name Fn Arg} {name : Name}
  {call : Serve Name Fn Arg}

theorem search_cons : search name (serv :: next) = if serv.name = name then some ([], serv, next) else
    (search name next).map fun (before, found, next) => (serv :: before, found, next) := rfl

theorem search_eq_some (h : search name servers = some (before, serv, next)) :
    servers = before ++ serv :: next ∧ serv.name = name ∧ ∀ other ∈ before, other.name ≠ name := by
  induction servers generalizing before with
  | nil => cases h
  | cons head servers ih =>
    rw [search_cons] at h
    split at h
    · rename_i hname
      obtain ⟨rfl, hrest⟩ := Prod.mk.inj (Option.some.inj h)
      obtain ⟨rfl, rfl⟩ := Prod.mk.inj hrest
      exact ⟨rfl, hname, fun _ hm => absurd hm List.not_mem_nil⟩
    · rename_i hname
      obtain ⟨⟨before', serv', next'⟩, hs, he⟩ := Option.map_eq_some_iff.mp h
      obtain ⟨rfl, hrest⟩ := Prod.mk.inj he
      obtain ⟨rfl, rfl⟩ := Prod.mk.inj hrest
      obtain ⟨rfl, hserv, hbefore⟩ := ih hs
      exact ⟨rfl, hserv, List.forall_mem_cons.mpr ⟨hname, hbefore⟩⟩

theorem search_eq_none : search name servers = none ↔ ∀ serv ∈ servers, serv.name ≠ name := by
  induction servers with
  | nil => exact iff_of_true rfl fun _ hm => absurd hm List.not_mem_nil
  | cons head servers ih =>
    rw [search_cons, List.forall_mem_cons, ← ih]
    split
    · rename_i hname
      exact iff_of_false (Option.some_ne_none _) fun h => h.1 hname
    · rename_i hname
      rw [Option.map_eq_none_iff]
      exact ⟨fun h => ⟨hname, h⟩, fun h => h.2⟩

/-- Servers with other names are passed over. -/
theorem connect_append (hb : ∀ other ∈ before, other.name ≠ name) : connect name (before ++ next) = connect name next := by
  induction before with
  | nil => rfl
  | cons head before ih =>
    obtain ⟨hhead, hrest⟩ := List.forall_mem_cons.mp hb
    rw [← ih hrest, List.cons_append, connect, search_cons, if_neg hhead, Option.map_map]
    rfl

theorem connect_cons :
    connect name (serv :: next) = if serv.name = name then some (serv.onConnect, serv.p) else connect name next := by
  rw [connect, search_cons]
  split
  · rfl
  · rw [Option.map_map]
    rfl

/-- Of two lists that differ in one server, another name sees no difference. -/
theorem connect_middle {serv' : PipeServer Name Fn Arg} (h : serv.name ≠ name) (h' : serv'.name ≠ name) :
    connect name (before ++ serv :: next) = connect name (before ++ next) ∧
    connect name (before ++ serv :: next) = connect name (before ++ serv' :: next) := by
  induction before with
  | nil =>
    rw [List.nil_append, List.nil_append, List.nil_append, connect_cons, connect_cons, if_neg h, if_neg h']
    exact ⟨rfl, rfl⟩
  | cons head before ih =>
    rw [List.cons_append, List.cons_append, List.cons_append, connect_cons, connect_cons, connect_cons, ih.1, ← ih.2, ih.1]
    exact ⟨rfl, rfl⟩

/-- Every name is on the list once. -/
def Distinct (servers : List (PipeServer Name Fn Arg)) : Prop := (servers.map PipeServer.name).Nodup

omit [DecidableEq Name] in
/-- No server behind another one has its name. -/
theorem Distinct.name_ne (h : Distinct (before ++ serv :: next)) : ∀ other ∈ next, other.name ≠ serv.name := by
  intro other hm he
  unfold Distinct at h
  rw [List.map_append, List.map_cons] at h
  exact (List.nodup_cons.mp (List.nodup_append.mp h).2.1).1 (List.mem_map.mpr ⟨other, hm, he⟩)

theorem distinct_serve (h : Distinct servers) : Distinct (serve servers call) := by
  unfold serve
  split
  · rename_i before serv next hs _
    obtain ⟨rfl, -, -⟩ := search_eq_some hs
    unfold unlink
    split
    · rename_i hempty
      rw [List.isEmpty_iff.mp hempty] at h
      exact h
    · exact h.sublist (((List.sublist_cons_self serv next).append_left before).map _)
  · rename_i before serv next onConnect hs _
    obtain ⟨rfl, -, -⟩ := search_eq_some hs
    unfold Distinct at h ⊢
    rw [List.map_append, List.map_cons] at h ⊢
    exact h
  · exact h
  · rename_i onConnect hs _
    refine List.nodup_cons.mpr ⟨fun hm => ?_, h⟩
    obtain ⟨serv, hserv, hname⟩ := List.mem_map.mp hm
    exact search_eq_none.mp hs serv hserv hname

/-- A name other than the one of the call connects as before. -/
theorem connect_serve_ne (hne : name ≠ call.name) : connect name (serve servers call) = connect name servers := by
  unfold serve
  split
  · rename_i before serv next hs _
    obtain ⟨rfl, hname, -⟩ := search_eq_some hs
    have hserv : serv.name ≠ name := fun he => hne (he.symm.trans hname)
    unfold unlink
    split
    · rename_i hempty
      rw [List.isEmpty_iff.mp hempty]
      rfl
    · exact (connect_middle hserv hserv).1.symm
  · rename_i before serv next onConnect hs _
    obtain ⟨rfl, hname, -⟩ := search_eq_some hs
    have hserv : serv.name ≠ name := fun he => hne (he.symm.trans hname)
    have hserv' : ({ serv with onConnect } : PipeServer Name Fn Arg).name ≠ name := hserv
    exact (connect_middle hserv hserv').2.symm
  · rfl
  · rw [connect_cons, if_neg hne.symm]

/-- The name of the call connects to what has been registered if and only if the call
keeps to what the list can do. -/
theorem connect_serve_iff (hd : Distinct servers) :
    connect call.name (serve servers call) = call.onConnect.map (fun onConnect => (onConnect, call.p)) ↔
      Keeps servers call := by
  unfold serve Keeps
  split
  · rename_i before serv next hs hnone
    obtain ⟨rfl, hname, hbefore⟩ := search_eq_some hs
    simp only [hnone, Option.map_none]
    unfold unlink
    cases before with
    | nil =>
      refine iff_of_false ?_ fun h => h serv rfl hname
      rw [List.isEmpty_nil, if_pos rfl, connect_cons, if_pos hname]
      exact Option.some_ne_none _
    | cons head before =>
      refine iff_of_true ?_ fun other ho => ?_
      · have hnext : ∀ other ∈ next, other.name ≠ call.name := hname ▸ hd.name_ne
        rw [if_neg (by simp), connect_append hbefore, connect, search_eq_none.mpr hnext]
        rfl
      · obtain rfl := Option.some.inj ho
        exact hbefore _ List.mem_cons_self
  · rename_i before serv next onConnect hs hsome
    obtain ⟨rfl, hname, hbefore⟩ := search_eq_some hs
    simp only [hsome, Option.map_some]
    rw [connect_append hbefore, connect_cons, if_pos hname]
    constructor
    · intro h other hm ho
      have hp : serv.p = call.p := (Prod.mk.inj (Option.some.inj h)).2
      rcases List.mem_append.mp hm with hm | hm
      · exact absurd ho (hbefore other hm)
      · rcases List.mem_cons.mp hm with rfl | hm
        · exact hp
        · exact absurd (ho.trans hname.symm) (hd.name_ne other hm)
    · intro h
      rw [h serv (List.mem_append_right _ List.mem_cons_self) hname]
  · rename_i hs hnone
    simp only [hnone, Option.map_none]
    refine iff_of_true (by rw [connect, hs]; rfl) fun serv hserv => ?_
    exact search_eq_none.mp hs serv (List.mem_of_mem_head? hserv)
  · rename_i onConnect hs hsome
    simp only [hsome, Option.map_some]
    refine iff_of_true (by rw [connect_cons, if_pos rfl]) fun serv hm hname => ?_
    exact absurd hname (search_eq_none.mp hs serv hm)

/-- The argument of the name of the call is the one of the call or the one it had. -/
theorem connect_serve_arg {onConnect : Fn} {p : Arg} (hd : Distinct servers)
    (h : connect call.name (serve servers call) = some (onConnect, p)) :
    p = call.p ∨ ∃ onConnect, connect call.name servers = some (onConnect, p) := by
  unfold serve at h
  split at h
  · rename_i before serv next hs hnone
    obtain ⟨rfl, hname, hbefore⟩ := search_eq_some hs
    right
    unfold unlink at h
    split at h
    · rename_i hempty
      rw [List.isEmpty_iff.mp hempty]
      exact ⟨onConnect, h⟩
    · have hnext : ∀ other ∈ next, other.name ≠ call.name := hname ▸ hd.name_ne
      rw [connect_append hbefore, connect, search_eq_none.mpr hnext] at h
      cases h
  · rename_i before serv next onConnect' hs hsome
    obtain ⟨rfl, hname, hbefore⟩ := search_eq_some hs
    rw [connect_append hbefore, connect_cons, if_pos hname] at h
    rw [connect_append hbefore, connect_cons, if_pos hname]
    exact .inr ⟨serv.onConnect, congrArg (fun p => some (serv.onConnect, p)) (Prod.mk.inj (Option.some.inj h)).2⟩
  · exact .inr ⟨onConnect, h⟩
  · rw [connect_cons, if_pos rfl] at h
    exact .inl (Prod.mk.inj (Option.some.inj h)).2.symm

/-! ### Runs -/

/-- The state that a call leaves connects. -/
def ConnectsAfter (s : State Name Fn Arg) (call : Serve Name Fn Arg) : Prop :=
  ∀ s', step s call = some s' → Connects s'

structure Inv (s : State Name Fn Arg) : Prop where
  distinct : Distinct s.servers
  connects : Connects s

theorem inv_init : Inv (State.init : State Name Fn Arg) := ⟨List.nodup_nil, fun _ => rfl⟩

theorem connectsAfter_iff {s : State Name Fn Arg} (h : Inv s) : ConnectsAfter s call ↔ Keeps s.servers call := by
  rw [← connect_serve_iff h.distinct]
  constructor
  · intro hc
    rw [hc _ rfl call.name]
    exact Function.update_self ..
  · intro hname s' hs name
    obtain rfl := Option.some.inj hs
    by_cases hne : name = call.name
    · subst hne
      rw [hname]
      exact (Function.update_self call.name _ s.registered).symm
    · rw [connect_serve_ne hne, h.connects name]
      exact (Function.update_of_ne hne ..).symm

/-- Every call of a run leaves every name connected to its last registration if and
only if no call registers a name again with another argument or unregisters the
newest of the servers. -/
theorem registry_connects_iff (calls : List (Serve Name Fn Arg)) :
    Along step ConnectsAfter State.init calls ↔
      Along step (fun s call => Keeps s.servers call) State.init calls := by
  refine along_iff (L := fun _ _ => True) (J := Inv) ?_ ?_ inv_init (Along.of_forall fun _ _ => trivial)
  · intro s call s' h _ hk hs
    refine ⟨?_, (connectsAfter_iff h).mpr hk s' hs⟩
    obtain rfl := Option.some.inj hs
    exact distinct_serve h.distinct
  · exact fun s call h _ => connectsAfter_iff h

/-- The only server stays when its name is unregistered, and keeps its first argument
when it is registered again. -/
theorem registry_disconnects :
    ¬ Along step ConnectsAfter State.init [⟨0, some 1, 2⟩, (⟨0, none, 0⟩ : Serve Nat Nat Nat)] ∧
    ¬ Along step ConnectsAfter State.init [⟨0, some 1, 2⟩, (⟨0, some 1, 3⟩ : Serve Nat Nat Nat)] := by
  constructor
  · rintro ⟨-, h⟩
    obtain ⟨h, -⟩ := h _ rfl
    exact absurd (h _ rfl 0) (by decide)
  · rintro ⟨-, h⟩
    obtain ⟨h, -⟩ := h _ rfl
    exact absurd (h _ rfl 0) (by decide)

end Registry

end PxpRpc.Pipe
