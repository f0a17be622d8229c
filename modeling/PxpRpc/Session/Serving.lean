import PxpRpc.Session.Transport

/-!
# Requests at the server

The steps in which the server serves a request: its task starts, and its callable returns or
is rejected. Here objects come into the pool and references go out of use.
-/
namespace PxpRpc.Session

open PxpRpc.Lib PxpRpc.Codec
open PxpRpc.Codec.Java (Row ValueType)
open PxpRpc.Pool
open PxpRpc.Pool.Managed (RefPool)
open PxpRpc.TypeScript (Call)
open PxpRpc.Server.Tasks (Lang Outcome PxpRequest)

variable {Obj Callable Hook : Type} {lang : Lang} {app : Application Obj Callable Hook}
  {s s' : State Obj Callable Hook} {q : PxpRequest} {x x' : Exchange Obj} {n : Nat}

namespace State

/-- The server has done something for an exchange. -/
structure Serves (s s' : State Obj Callable Hook) (n : Nat) (x x' : Exchange Obj) (t' : Server.Tasks.Task Callable)
    (pool : RefPool Obj Hook) (started : Nat) : Prop where
  eq : s' = { s with
    exchanges := s.exchanges.set n x'
    server := { s.server with refPool := pool, tasks := s.server.tasks.set n t' }
    started }
  exchange : s.exchanges[n]? = some x
  lt : n < s.server.tasks.length
  request : x'.request = x.request
  sid : x'.sid = x.sid
  outcome : x'.outcome = x.outcome
  returned : ∀ returned, x.returned = some returned → x'.returned = some returned
  le : s.started ≤ started
  started_le : started ≤ s.server.tasks.length
  started : ∀ m, m ≠ n → (m < started ↔ m < s.started)

namespace Serves

variable {t' : Server.Tasks.Task Callable} {pool : RefPool Obj Hook} {started : Nat}

theorem at_self (h : s.Serves s' n x x' t' pool started) :
    s'.exchanges[n]? = some x' ∧ s'.server.tasks[n]? = some t' := by
  rw [h.eq]
  exact ⟨List.getElem?_set_self (List.getElem?_eq_some_iff.mp h.exchange).1, List.getElem?_set_self h.lt⟩

theorem at_ne (h : s.Serves s' n x x' t' pool started) {m : Nat} (hm : m ≠ n) :
    s'.exchanges[m]? = s.exchanges[m]? ∧ s'.server.tasks[m]? = s.server.tasks[m]? := by
  rw [h.eq]
  exact ⟨List.getElem?_set_ne (Ne.symm hm), List.getElem?_set_ne (Ne.symm hm)⟩

theorem length (h : s.Serves s' n x x' t' pool started) : s'.exchanges.length = s.exchanges.length := by
  rw [h.eq, List.length_set]

theorem grows (h : s.Serves s' n x x' t' pool started) : s.Grows s' where
  started := by
    rw [h.eq]
    exact h.le
  handles i h₁ hh := ⟨h₁, by rwa [h.eq], rfl⟩
  exchanges m y hy := by
    by_cases hm : m = n
    · subst hm
      obtain rfl := Option.some.inj (h.exchange.symm.trans hy)
      exact ⟨x', h.at_self.1, h.request, h.returned⟩
    · exact ⟨y, (h.at_ne hm).1.trans hy, rfl, fun _ hr => hr⟩
  held o ho := .inl (by rwa [h.eq])

theorem apart (h : s.Serves s' n x x' t' pool started) : s.Apart s' n where
  exchanges m hm := (h.at_ne hm).1
  calls m hm := by rw [h.eq]
  tasks m hm := (h.at_ne hm).2
  responses m hm := by rw [h.eq]
  started m hm := by
    rw [h.eq]
    exact h.started m hm

theorem owned (h : s.Serves s' n x x' t' pool started) : ∃ rest, s.owned = x.owned n s.started + rest ∧
    s'.owned = x'.owned n started + rest := by
  have hne (m : Nat) (hm : m ≠ n) : s'.ownedAt m = s.ownedAt m := by
    rw [ownedAt, ownedAt, (h.at_ne hm).1]
    have hst : (s'.started ≤ m ↔ s.started ≤ m) := by
      have := h.apart.started m hm
      omega
    cases hx : s.exchanges[m]? with
    | none => rfl
    | some y => simp only [Exchange.owned, hst]
  obtain ⟨rest, he, he'⟩ := owned_change n h.length hne (List.getElem?_eq_some_iff.mp h.exchange).1
  have hheld : s'.held = s.held := by rw [State.held, h.eq, State.held]
  have hstarted : s'.started = started := by rw [h.eq]
  refine ⟨s.held + rest, ?_, ?_⟩
  · rw [he, ownedAt_eq h.exchange, add_left_comm]
  · rw [he', ownedAt_eq h.at_self.1, hstarted, hheld, add_left_comm]

theorem does (h : s.Serves s' n x x' t' pool started) (hgood : s.Good lang app) {t : Server.Tasks.Task Callable} {k : Nat}
    (ht : s.server.tasks[n]? = some t) (hleft : taskLeft t' + (if n < started then 0 else 1) + k =
      taskLeft t + if n < s.started then 0 else 1) : s.Does s' k := by
  refine h.apart.does h.length (h.lt.trans_le hgood.tasks) ?_
  have hclient : s'.client = s.client := by rw [h.eq]
  have hstarted : s'.started = started := by rw [h.eq]
  rw [left, left, hclient, hstarted, h.at_self.1, h.at_self.2, h.exchange, ht]
  simp only [Option.elim_some, h.outcome]
  omega

/-- What is left to show of a step of the server. -/
theorem good (h : s.Serves s' n x x' t' pool started) (hgood : s.Good lang app)
    (hvalid : ∀ r q, x.Valid app s n r q → x'.Valid app s' n r q)
    (hholds : Holds lang pool (s'.owned.map fun o => o.1.toNat))
    (hstores : ∀ o ∈ s'.owned, ∃ obj, s'.returnedAt o.2 = some obj ∧ Stores pool obj o.1) : s'.Good lang app := by
  have hids : ∀ (m : Nat) (y' : Exchange Obj), s'.exchanges[m]? = some y' → ∃ y, s.exchanges[m]? = some y ∧
      y'.sid = y.sid ∧ y'.outcome = y.outcome := fun m y' hy' => by
    by_cases hm : m = n
    · subst hm
      obtain rfl := Option.some.inj (h.at_self.1.symm.trans hy')
      exact ⟨x, h.exchange, h.sid, h.outcome⟩
    · exact ⟨y', (h.at_ne hm).1.symm.trans hy', rfl, rfl⟩
  have hclient : s'.client = s.client := by rw [h.eq]
  have hpacket (m : Nat) : s'.packet m = s.packet m := by rw [packet, packet, hclient]
  have hexchange := hgood.exchange_of h.grows h.apart (fun m _ => hpacket m) fun y hy => by
    obtain rfl := Option.some.inj (h.at_self.1.symm.trans hy)
    obtain ⟨r, q, hv⟩ := hgood.exchange n x h.exchange
    exact ⟨r, q, hvalid r q hv⟩
  have hlen := h.length
  have hpool : s'.server.refPool = pool := by rw [h.eq]
  refine ⟨?_, ?_, ?_, ?_, ?_, ?_, ?_, ?_, ?_, ?_, fun m y' hy' => ?_, fun m k y' z' hy' hz' hy hz hsid => ?_, hexchange,
    hpool ▸ hholds, hpool ▸ hstores⟩
  · rw [h.eq]
    exact ⟨hgood.running, hgood.receiving, hgood.serverRunning, hgood.serving⟩
  · rw [hclient]
    exact hgood.regular
  · rw [hclient]
    exact hgood.polls
  · rw [hclient, hlen]
    exact hgood.calls
  · rw [hclient, hlen]
    exact hgood.sent
  · rw [hlen, h.eq]
    simpa using hgood.tasks
  · rw [h.eq]
    simpa using h.started_le
  · rw [h.eq]
    exact hgood.keys
  · rw [hlen, h.eq]
    exact hgood.answers
  · rw [h.eq]
    exact hgood.cursor
  · obtain ⟨y, hy, hsid, hout⟩ := hids m y' hy'
    obtain ⟨hstart, hend, hused⟩ := hgood.sids m y hy
    rw [hsid, hout, h.eq]
    exact ⟨hstart, hend, hused⟩
  · obtain ⟨y, hy₀, hsid₁, hout₁⟩ := hids m y' hy'
    obtain ⟨z, hz₀, hsid₂, hout₂⟩ := hids k z' hz'
    exact hgood.distinct m k y z hy₀ hz₀ (hout₁ ▸ hy) (hout₂ ▸ hz) (hsid₁ ▸ hsid₂ ▸ hsid)

/-- An exchange whose client still waits. -/
theorem valid (h : s.Serves s' n x x' t' pool started) {r : Call} (hv : x.Valid app s n r q)
    (ho : x.outcome = none) (hlt : n < started)
    (hinvoked : ∀ callable decl args, x.request = .call callable decl args →
      ∃ c, s.callee app callable = some c ∧ invocations t' = [c])
    (huninvoked : ¬ x.request.IsCall → invocations t' = [])
    (harguments : ∀ callable decl passed, x.request = .call callable decl passed → ∃ args, x'.arguments = some args ∧
      List.Forall₂ (Value.Arrives fun i obj => s.denotes i = some obj) passed args)
    (hfound : ∀ name, x.request = .getFunc name → ∃ found, app.funcMap (TypeScript.encodeText name) = some found ∧
      x'.returned = some (.ok [(found.map Value.object).getD .null]))
    (hputs : ∀ results, x'.returned = some (.ok results) → Declared x.request.tResult results ∧
      List.Forall₂ (Value.Puts fun _ index => index.toNat < 2 ^ 31) results x'.row)
    (hunput : (∀ results, x'.returned ≠ some (.ok results)) → x'.row = [])
    (hstage : Stage q x' true r (some t') (s.responses.get n)) : x'.Valid app s' n r q where
  invoked t ht _ callable decl args hr := by
    obtain rfl := Option.some.inj (h.at_self.2.symm.trans ht)
    obtain ⟨c, hc, hi⟩ := hinvoked callable decl args (h.request ▸ hr)
    exact ⟨c, h.grows.callee hc, hi⟩
  uninvoked t ht _ hr := by
    obtain rfl := Option.some.inj (h.at_self.2.symm.trans ht)
    exact huninvoked (h.request ▸ hr)
  arguments _ callable decl passed hr := by
    obtain ⟨args, ha, hp⟩ := harguments callable decl passed (h.request ▸ hr)
    exact ⟨args, ha, hp.imp fun _ _ => Value.Arrives.mono fun _ _ => h.grows.denotes⟩
  found _ name hreq := hfound name (h.request ▸ hreq)
  succeeds ret hret := by
    rw [h.outcome, ho] at hret
    cases hret
  fails failure hf := by
    rw [h.outcome, ho] at hf
    cases hf
  call := by
    rw [h.eq]
    exact hv.call
  sid := by
    rw [h.sid]
    exact hv.sid
  packet := by
    rw [h.eq]
    exact hv.packet
  session := hv.session
  asks := by
    rw [h.request]
    exact h.grows.asks (List.getElem?_eq_some_iff.mp h.exchange).1 hv.asks
  stage := by
    have hstarted : n < s'.started := by
      rw [h.eq]
      exact hlt
    have hresponses : s'.responses = s.responses := by rw [h.eq]
    rw [h.at_self.2, hresponses, decide_eq_true hstarted]
    exact hstage
  puts := by
    rw [h.request]
    exact hputs
  unput := hunput

end Serves

end State

/-! ### Stages of tasks -/

theorem Stage.arrived_of {r : Call} {t : Server.Tasks.Task Callable} {m : Option (List UInt8)}
    (h : Stage q x false r (some t) m) : x.Fresh ∧ r.isOpen ∧ t = ⟨q, [.enters], []⟩ ∧ m = none := by
  cases h with
  | arrived fresh isOpen => exact ⟨fresh, isOpen, rfl, rfl⟩

theorem Stage.running_of {started : Bool} {r : Call} {t : Server.Tasks.Task Callable} {m : Option (List UInt8)}
    (h : Stage q x started r (some t) m) (hcalls : t.stack.head? = some .calls) :
    x.returned = none ∧ x.outcome = none ∧ r.isOpen ∧ started ∧ m = none ∧
      ∃ c parameter, t = ⟨q, [.calls], [.invoked c parameter]⟩ := by
  cases h with
  | running returned outcome isOpen => exact ⟨returned, outcome, isOpen, rfl, rfl, _, _, rfl⟩
  | arrived fresh isOpen => cases hcalls
  | settled session index reply same outcome isOpen => cases hcalls
  | answered stack reply outcome isOpen => rcases stack with hst | hst <;> rw [hst] at hcalls <;> cases hcalls
  | received stack reply outcome waits respFut =>
    rcases stack with hst | hst <;> rw [hst] at hcalls <;> cases hcalls
  | resumed stack reply outcome result => rcases stack with hst | hst <;> rw [hst] at hcalls <;> cases hcalls
  | finished stack reply outcome result => rcases stack with hst | hst <;> rw [hst] at hcalls <;> cases hcalls

/-! ### What is owned -/

theorem Stores.keep {pool pool' : RefPool Obj Hook} {obj : Obj} {index : BitVec 32} (h : Stores pool obj index)
    (hkeep : objectAt pool' index.toNat = objectAt pool index.toNat) : Stores pool' obj index :=
  ⟨h.1, hkeep.trans h.2⟩

/-- A reference of a row has the place of its cell. -/
theorem mem_refs {row : Row (List UInt8)} {o : Owned} : ∀ {j : Nat}, o ∈ refs n j row →
    ∃ k, o.2 = (n, j + k) ∧ row[k]? = some (.object o.1) := by
  induction row with
  | nil => intro j h; cases h
  | cons cell row ih =>
    intro j h
    have hrest (h : o ∈ refs n (j + 1) row) : ∃ k, o.2 = (n, j + k) ∧ (cell :: row)[k]? = some (.object o.1) := by
      obtain ⟨k, hk, hcell⟩ := ih h
      exact ⟨k + 1, by rw [hk, Nat.add_assoc, Nat.add_comm 1 k], hcell⟩
    cases cell with
    | object index =>
      rcases List.mem_cons.mp h with rfl | h
      · exact ⟨0, rfl, rfl⟩
      · exact hrest h
    | _ => exact hrest h

/-- The objects of a row that has been put are where the row says. -/
theorem stores_of_mem_refs {pool : RefPool Obj Hook} {results : List (Value Obj)} {row : Row (List UInt8)} {o : Owned}
    (h : List.Forall₂ (Value.Puts (Stores pool)) results row) (ho : o ∈ refs n 0 row) :
    ∃ k obj, o.2 = (n, k) ∧ results[k]? = some (.object obj) ∧ Stores pool obj o.1 := by
  obtain ⟨k, hk, hcell⟩ := mem_refs ho
  obtain ⟨hlt, hrow⟩ := List.getElem?_eq_some_iff.mp hcell
  have hlt' : k < results.length := h.length_eq ▸ hlt
  obtain ⟨obj, hobj, hs⟩ := (h.get hlt' hlt).object hrow
  exact ⟨k, obj, by rw [hk, Nat.zero_add], List.getElem?_eq_some_iff.mpr ⟨hlt', hobj⟩, hs⟩

/-! ### A callable is through -/

namespace State

theorem getElem?_exchanges (h : s.Good lang app) (hn : n < s.server.tasks.length) :
    ∃ x r q, s.exchanges[n]? = some x ∧ x.Valid app s n r q := by
  have hx := List.getElem?_eq_getElem (hn.trans_le h.tasks)
  obtain ⟨r, q, hv⟩ := h.exchange n _ hx
  exact ⟨_, r, q, hx, hv⟩

/-- A call whose callable runs. -/
structure Runs (lang : Lang) (app : Application Obj Callable Hook) (s : State Obj Callable Hook) (n : Nat)
    (x : Exchange Obj) (callable : Nat) (decl : Decl) (args : List (Value Nat)) (c : Callable)
    (parameter : List UInt8) : Prop where
  exchange : s.exchanges[n]? = some x
  request : x.request = .call callable decl args
  callee : s.callee app callable = some c
  decl : app.decl c = decl
  started : n < s.started
  returned : x.returned = none
  outcome : x.outcome = none
  row : x.row = []
  response : s.responses.get n = none
  stage : ∀ r q, x.Valid app s n r q →
    r.isOpen ∧ s.server.tasks[n]? = some ⟨q, [.calls], [.invoked c parameter]⟩

theorem Good.runs (h : s.Good lang app) {t : Server.Tasks.Task Callable} (ht : s.server.tasks[n]? = some t)
    (hcalls : t.stack.head? = some .calls) : ∃ x callable decl args c parameter,
      s.Runs lang app n x callable decl args c parameter ∧ t.history = [.invoked c parameter] := by
  obtain ⟨x, r, q, hx, hv⟩ := getElem?_exchanges h (List.getElem?_eq_some_iff.mp ht).1
  obtain ⟨hret, hout, -, hstarted, hresponse, c, parameter, rfl⟩ := (ht ▸ hv.stage).running_of hcalls
  have hlt : n < s.started := of_decide_eq_true hstarted
  obtain ⟨callable, decl, args, hr⟩ : ∃ callable decl args, x.request = .call callable decl args := by
    by_contra hn
    have hnil := hv.uninvoked _ ht hlt fun hcall => ?_
    · cases hnil
    · cases hreq : x.request with
      | call callable decl args => exact hn ⟨callable, decl, args, hreq⟩
      | getFunc name => exact (hreq ▸ hcall : Request.IsCall (.getFunc name))
      | free value origin => exact (hreq ▸ hcall : Request.IsCall (.free value origin))
  obtain ⟨c₁, hc₁, hinvoked⟩ := hv.invoked _ ht hlt callable decl args hr
  obtain rfl : c = c₁ := (List.cons.inj hinvoked).1
  have hasks := hv.asks
  rw [hr] at hasks
  obtain ⟨-, -, -, -, -, -, -, -, c₂, hc₂, hdecl⟩ := hasks
  obtain rfl := Option.some.inj (hc₁.symm.trans hc₂)
  refine ⟨x, callable, decl, args, c, parameter,
    ⟨hx, hr, hc₁, hdecl, hlt, hret, hout, hv.unput (by simp [hret]), hresponse, fun r' q' hv' => ?_⟩, rfl⟩
  obtain ⟨-, -, hopen, -, -, c₃, parameter₃, heq⟩ := (ht ▸ hv'.stage).running_of hcalls
  obtain ⟨rfl, -, hhist⟩ := Server.Tasks.Task.mk.inj heq
  exact ⟨hopen, ht⟩

theorem settles_calls {o : Option Outcome} (hs : s.onServer lang app (.settles n o) = some s') :
    ∃ t, s.server.tasks[n]? = some t ∧ t.stack.head? = some .calls := by
  obtain ⟨server, hstep, -⟩ := Option.map_eq_some_iff.mp hs
  obtain ⟨t, ht, hstep⟩ := Option.bind_eq_some_iff.mp hstep
  split at hstep
  · rename_i hcalls
    exact ⟨t, ht, hcalls⟩
  · cases hstep

theorem settles_eq (lang : Lang) (app : Application Obj Callable Hook) (pool : RefPool Obj Hook)
    {t : Server.Tasks.Task Callable} (f : Exchange Obj → Exchange Obj) (o : Outcome) (hx : s.exchanges[n]? = some x)
    (ht : s.server.tasks[n]? = some t) (hcalls : t.stack.head? = some .calls) :
    ({ s.modify n f with server := { s.server with refPool := pool } } : State Obj Callable Hook).onServer lang app
        (.settles n (some o)) =
      some { s with
        exchanges := s.exchanges.set n (f x)
        server := { s.server with
          refPool := pool
          tasks := s.server.tasks.modify n fun t => Server.Tasks.settle t o } } := by
  have hmodify : s.exchanges.modify n f = s.exchanges.set n (f x) := by
    rw [List.modify_eq_set_getElem?, hx]
    rfl
  have htasks : s.server.tasks.modify n (fun t => Server.Tasks.settle t o) =
      s.server.tasks.set n (Server.Tasks.settle t o) := by
    rw [List.modify_eq_set_getElem?, ht]
    rfl
  rw [onServer, Server.Tasks.step]
  simp only [ht, Option.bind_some, hcalls, if_true, Option.map_some, modify, hmodify, htasks]
  rfl

/-- The callable of a call is through. -/
theorem Runs.settles (h : s.Good lang app) {callable : Nat} {decl : Decl} {args : List (Value Nat)} {c : Callable}
    {parameter : List UInt8} (hrun : s.Runs lang app n x callable decl args c parameter) {o : Outcome}
    {returned : Except (List UInt8) (List (Value Obj))} {row : Row (List UInt8)} {pool : RefPool Obj Hook}
    (hs : s' = { s with
      exchanges := s.exchanges.set n { x with returned := some returned, row }
      server := { s.server with
        refPool := pool
        tasks := s.server.tasks.modify n fun t => Server.Tasks.settle t o } })
    (hreply : Exchange.reply { x with returned := some returned, row } = some o)
    (hputs : ∀ results, returned = .ok results → Declared decl.tResult results ∧
      List.Forall₂ (Value.Puts (Stores pool)) results row)
    (hunput : (∀ results, returned ≠ .ok results) → row = [])
    (hholds : Holds lang pool (indices row + s.owned.map fun o => o.1.toNat))
    (hkeep : ∀ o ∈ s.owned, objectAt pool o.1.toNat = objectAt s.server.refPool o.1.toNat) :
    s'.Good lang app ∧ s.Does s' 0 := by
  obtain ⟨r, q, hv⟩ := h.exchange n x hrun.exchange
  have ht := (hrun.stage r q hv).2
  have hlt := (List.getElem?_eq_some_iff.mp ht).1
  have hserves : s.Serves s' n x { x with returned := some returned, row }
      (Server.Tasks.settle ⟨q, [.calls], [.invoked c parameter]⟩ o) pool s.started :=
    { eq := by
        rw [hs, List.modify_eq_set_getElem?, ht]
        rfl
      exchange := hrun.exchange
      lt := hlt
      request := rfl
      sid := rfl
      outcome := rfl
      returned := fun _ hr => by rw [hrun.returned] at hr; cases hr
      le := le_rfl
      started_le := h.started
      started := fun _ _ => Iff.rfl }
  obtain ⟨rest, howned, howned'⟩ := hserves.owned
  have hrest : s.owned = rest := by
    rw [howned]
    simp [Exchange.owned, hrun.row, hrun.outcome, hrun.request, refs]
  have hnew : s'.owned = (refs n 0 row : Multiset Owned) + s.owned := by
    rw [howned', hrest]
    simp [Exchange.owned, hrun.outcome, hrun.request]
  refine ⟨hserves.good h (fun r' q' hv' => ?_) ?_ fun o ho => ?_, hserves.does h ht rfl⟩
  · obtain ⟨hopen, ht'⟩ := hrun.stage r' q' hv'
    obtain ⟨rfl, -, -⟩ := Server.Tasks.Task.mk.inj (Option.some.inj (ht.symm.trans ht'))
    refine hserves.valid hv' hrun.outcome hrun.started (fun callable' decl' args' hr => ?_) (fun hr => ?_)
      (hv'.arguments hrun.started) (fun name hr => ?_) (fun results hr => ?_) (fun hr => ?_) ?_
    · obtain ⟨rfl, rfl, rfl⟩ := Request.call.inj (hrun.request.symm.trans hr)
      exact ⟨c, hrun.callee, rfl⟩
    · exact absurd (hrun.request ▸ trivial) hr
    · cases hrun.request.symm.trans hr
    · obtain ⟨hd, hput⟩ := hputs results (Option.some.inj hr)
      rw [hrun.request]
      exact ⟨hd, hput.imp fun _ _ => Value.Puts.mono fun _ _ hst => hst.1⟩
    · exact hunput fun results he => hr results (congrArg some he)
    · rw [hrun.response]
      exact .settled rfl rfl hreply rfl hrun.outcome hopen
  · rw [hnew, Multiset.map_add, Multiset.map_coe, map_refs]
    exact hholds
  · rw [hnew, Multiset.mem_add] at ho
    rcases ho with ho | ho
    · obtain ⟨results, rfl⟩ : ∃ results, returned = .ok results := by
        by_contra hn
        rw [hunput fun results he => hn ⟨results, he⟩] at ho
        simp [refs] at ho
      obtain ⟨k, obj, hplace, hres, hst⟩ := stores_of_mem_refs (hputs results rfl).2 (Multiset.mem_coe.mp ho)
      rw [hplace]
      exact ⟨obj, returnedAt_eq_some.mpr ⟨_, results, hserves.at_self.1, rfl, hres⟩, hst⟩
    · obtain ⟨obj, hret, hst⟩ := h.stores o ho
      exact ⟨obj, hserves.grows.returnedAt hret, hst.keep (hkeep o ho)⟩

theorem Good.reject (h : s.Good lang app) {text : List UInt8} (hs : s.reject lang app n text = some s') :
    s'.Good lang app ∧ s.Does s' 0 := by
  obtain ⟨t, ht, hcalls⟩ := settles_calls hs
  obtain ⟨x, callable, decl, args, c, parameter, hrun, -⟩ := h.runs ht hcalls
  have heq := settles_eq lang app s.server.refPool (fun x => { x with returned := some (.error text) })
    ⟨[], some text⟩ hrun.exchange ht hcalls
  obtain rfl := Option.some.inj (heq.symm.trans hs)
  refine hrun.settles h rfl rfl (fun _ he => ?_) (fun _ => hrun.row) ?_ fun _ _ => rfl
  · cases he
  · rw [hrun.row]
    simpa [indices, refs] using h.holds

theorem Good.resolve (h : s.Good lang app) {results : List (Value Obj)} (hp : s.Proper app (.resolve n results))
    (hs : s.resolve lang app n results = some s') : s'.Good lang app ∧ s.Does s' 0 := by
  obtain ⟨t, ht, hs⟩ := Option.bind_eq_some_iff.mp hs
  split at hs
  case h_2 => cases hs
  rename_i c parameter hhist
  have hcalls : t.stack.head? = some .calls := by
    split at hs
    all_goals
      obtain ⟨t', ht', hcalls⟩ := settles_calls hs
      obtain rfl := Option.some.inj (ht.symm.trans ht')
      exact hcalls
  obtain ⟨x, callable, decl, args, c', parameter', hrun, hhist'⟩ := h.runs ht hcalls
  rw [hhist'] at hhist
  obtain ⟨rfl, rfl⟩ := Server.Tasks.Event.invoked.inj (List.cons.inj hhist).1
  have hd : Declared decl.tResult results := by
    have := hp.2 x hrun.exchange
    rwa [hrun.request] at this
  obtain ⟨pool, row, hwrite, hholds, hkeep, hput⟩ := writeResult_eq h.holds app.onFree hd hp.1
  rw [hrun.decl, hwrite] at hs
  have heq := settles_eq lang app pool (fun x => { x with returned := some (.ok results), row })
    ⟨rowBytes decl.tResult row, none⟩ hrun.exchange ht hcalls
  obtain rfl := Option.some.inj (heq.symm.trans hs)
  refine hrun.settles h rfl ?_ (fun results' he => ?_) (fun hn => absurd rfl (hn results)) hholds
    fun o ho => hkeep _ (Multiset.mem_map_of_mem _ ho)
  · simp only [Exchange.reply, hrun.request, Request.tResult]
  · obtain rfl := Except.ok.inj he
    exact ⟨hd, hput⟩

end State

end PxpRpc.Session
