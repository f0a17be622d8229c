import PxpRpc.Session.Serving

/-!
# The start of a task

A task starts in the order in which its packet was sent. Up to then the references in its
request are backed, so the objects that it finds are those that the client means.
-/
namespace PxpRpc.Session

open PxpRpc.Lib PxpRpc.Codec
open PxpRpc.Codec.Java (Row ValueType)
open PxpRpc.Pool
open PxpRpc.Pool.Managed (RefPool)
open PxpRpc.TypeScript (Call)
open PxpRpc.Server.Tasks (Lang Outcome PxpRequest)

variable {Obj Callable Hook : Type} {lang : Lang} {app : Application Obj Callable Hook}
  {s s' : State Obj Callable Hook} {q : PxpRequest} {x x' : Exchange Obj} {n : Nat}

theorem rowBytes_null : rowBytes [.o] [.null] = leBytes 4 0xffffffff := rowBytes_object (-1)

namespace State

theorem packet_plain (h : s.packet n = some q) : q.result = [] ∧ q.rejected = none := by
  obtain ⟨frame, -, hparse⟩ := Option.bind_eq_some_iff.mp h
  obtain ⟨session, -, hparse⟩ := Option.bind_eq_some_iff.mp hparse
  obtain ⟨callableIndex, -, rfl⟩ := Option.map_eq_some_iff.mp hparse
  exact ⟨rfl, rfl⟩

/-- What a value of a request that has not started stands for. -/
theorem Good.denotes_refers (h : s.Good lang app) (hn : s.started ≤ n) {i : Nat} {value : BitVec 32}
    (hr : s.Refers n i value) : ∃ obj, s.denotes i = some obj ∧ Stores s.server.refPool obj value := by
  obtain ⟨handle, hh, hb⟩ := hr
  obtain ⟨obj, hret, hst⟩ := h.stores _ (mem_owned_of_backed hn (hb hn))
  exact ⟨obj, Option.bind_eq_some_iff.mpr ⟨handle, hh, hret⟩, hst⟩

/-- A task that has arrived and not started. -/
structure Waits (lang : Lang) (app : Application Obj Callable Hook) (s : State Obj Callable Hook) (x : Exchange Obj)
    (r : Call) (q : PxpRequest) : Prop where
  exchange : s.exchanges[s.started]? = some x
  valid : x.Valid app s s.started r q
  fresh : x.Fresh
  isOpen : r.isOpen
  task : s.server.tasks[s.started]? = some ⟨q, [.enters], []⟩
  response : s.responses.get s.started = none

theorem Good.waits (h : s.Good lang app) (hlt : s.started < s.server.tasks.length) : ∃ x r q, s.Waits lang app x r q := by
  obtain ⟨x, r, q, hx, hv⟩ := getElem?_exchanges h hlt
  have ht := List.getElem?_eq_getElem hlt
  have hstage := hv.stage
  rw [ht, decide_eq_false (lt_irrefl _)] at hstage
  obtain ⟨hfresh, hopen, he, hm⟩ := hstage.arrived_of
  exact ⟨x, r, q, hx, hv, hfresh, hopen, he ▸ ht, hm⟩

/-- The task has started. -/
theorem Waits.serves {r : Call} (hw : s.Waits lang app x r q) (x' : Exchange Obj) {t' : Server.Tasks.Task Callable}
    {pool : RefPool Obj Hook}
    (hrequest : x'.request = x.request) (hsid : x'.sid = x.sid) (hout : x'.outcome = none)
    (hs : s' = { s with
      exchanges := s.exchanges.set s.started x'
      server := { s.server with refPool := pool, tasks := s.server.tasks.set s.started t' }
      started := s.started + 1 }) : s.Serves s' s.started x x' t' pool (s.started + 1) where
  eq := hs
  exchange := hw.exchange
  lt := (List.getElem?_eq_some_iff.mp hw.task).1
  request := hrequest
  sid := hsid
  outcome := hout.trans hw.fresh.outcome.symm
  returned returned hr := by
    rw [hw.fresh.returned] at hr
    cases hr
  le := Nat.le_succ _
  started_le := (List.getElem?_eq_some_iff.mp hw.task).1
  started m hm := by omega

theorem Waits.step_eq {r : Call} (hw : s.Waits lang app x r q) :
    Server.Tasks.step lang app.toApplication s.server (.resumes s.started) =
      some (Server.Tasks.enter lang app.toApplication s.server s.started ⟨q, [.enters], []⟩) := by
  rw [Server.Tasks.step, hw.task, Option.bind_some]
  rfl

/-- A built-in callable has been called and is through. -/
theorem Waits.start_called {r : Call} (hw : s.Waits lang app x r q) {request : PxpRequest} {pool : RefPool Obj Hook}
    (henter : Server.Tasks.enter lang app.toApplication s.server s.started ⟨q, [.enters], []⟩ =
      { s.server with refPool := pool, tasks := s.server.tasks.set s.started ⟨request, [.called], []⟩ }) :
    s.start lang app = some { s with
      exchanges := s.exchanges.set s.started (Exchange.served app ⟨request, [.called], []⟩ x)
      server := { s.server with refPool := pool, tasks := s.server.tasks.set s.started ⟨request, [.called], []⟩ }
      started := s.started + 1 } := by
  have hset : (s.server.tasks.set s.started ⟨request, [.called], []⟩)[s.started]? =
      some (⟨request, [.called], []⟩ : Server.Tasks.Task Callable) :=
    List.getElem?_set_self (List.getElem?_eq_some_iff.mp hw.task).1
  have hmodify (f : Exchange Obj → Exchange Obj) : s.exchanges.modify s.started f = s.exchanges.set s.started (f x) := by
    rw [List.modify_eq_set_getElem?, hw.exchange]
    rfl
  rw [State.start, onServer, hw.step_eq, Option.map_some, Option.bind_some, henter]
  simp only [hset, Option.bind_some, List.head?_cons, modify, hmodify]

/-! ### Built-in callables -/

/-- A built-in callable leaves its results. -/
theorem Waits.good_called (h : s.Good lang app) {r : Call} (hw : s.Waits lang app x r q) (hcall : ¬ x.request.IsCall)
    {request : PxpRequest} {pool : RefPool Obj Hook} {results : List (Value Obj)} {row : Row (List UInt8)}
    (hs : s' = { s with
      exchanges := s.exchanges.set s.started { x with returned := some (.ok results), row }
      server := { s.server with refPool := pool, tasks := s.server.tasks.set s.started ⟨request, [.called], []⟩ }
      started := s.started + 1 })
    (hsession : request.session = q.session) (hindex : request.callableIndex = q.callableIndex)
    (hout : request.outcome = ⟨rowBytes x.request.tResult row, none⟩) (hd : Declared x.request.tResult results)
    (hput : List.Forall₂ (Value.Puts (Stores pool)) results row)
    (hfound : ∀ name, x.request = .getFunc name → ∃ found, app.funcMap (TypeScript.encodeText name) = some found ∧
      results = [(found.map Value.object).getD .null])
    (hpool : ∀ rest, s.owned = x.owned s.started s.started + rest →
      Holds lang pool (indices row + rest.map fun o => o.1.toNat) ∧
      ∀ o ∈ rest, objectAt pool o.1.toNat = objectAt s.server.refPool o.1.toNat) :
    s'.Good lang app ∧ s.Does s' 1 := by
  have hserves := hw.serves { x with returned := some (.ok results), row } rfl rfl hw.fresh.outcome hs
  obtain ⟨rest, howned, howned'⟩ := hserves.owned
  obtain ⟨hholds, hkeep⟩ := hpool rest howned
  have hnew : s'.owned = (refs s.started 0 row : Multiset Owned) + rest := by
    rw [howned', Exchange.owned]
    congr 1
    simp only [hw.fresh.outcome, Option.isSome_none, Bool.false_eq_true, if_false]
    cases hreq : x.request with
    | free value origin => simp
    | _ => simp
  refine ⟨hserves.good h (fun r' q' hv => ?_) ?_ fun o ho => ?_, hserves.does h hw.task (by simp [taskLeft])⟩
  · obtain rfl := Option.some.inj (hw.valid.packet.symm.trans hv.packet)
    obtain rfl := Option.some.inj (hw.valid.call.symm.trans hv.call)
    refine hserves.valid hv hw.fresh.outcome (Nat.lt_succ_self _) (fun callable decl args hr => ?_) (fun _ => rfl)
      (fun callable decl args hr => ?_) (fun name hr => ?_) (fun results' hret => ?_) (fun hr => absurd rfl (hr results)) ?_
    · exact absurd (hr ▸ trivial) hcall
    · exact absurd (hr ▸ trivial) hcall
    · obtain ⟨found, hf, rfl⟩ := hfound name hr
      exact ⟨found, hf, rfl⟩
    · obtain rfl := Except.ok.inj (Option.some.inj hret)
      exact ⟨hd, hput.imp fun _ _ => Value.Puts.mono fun _ _ hst => hst.1⟩
    · rw [hw.response]
      exact .settled hsession hindex rfl hout hw.fresh.outcome hw.isOpen
  · rw [hnew, Multiset.map_add, Multiset.map_coe, map_refs]
    exact hholds
  · rw [hnew, Multiset.mem_add] at ho
    rcases ho with ho | ho
    · obtain ⟨k, obj, hplace, hres, hst⟩ := stores_of_mem_refs hput (Multiset.mem_coe.mp ho)
      rw [hplace]
      exact ⟨obj, returnedAt_eq_some.mpr ⟨_, results, hserves.at_self.1, rfl, hres⟩, hst⟩
    · obtain ⟨obj, hret, hst⟩ := h.stores o (howned ▸ Multiset.mem_add.mpr (.inr ho))
      exact ⟨obj, hserves.grows.returnedAt hret, hst.keep (hkeep o ho)⟩

theorem declared_object (v : Value Obj) (hv : v = .null ∨ ∃ obj, v = .object obj) : Declared [.o] [v] := by
  rcases hv with rfl | ⟨obj, rfl⟩
  all_goals
    refine ⟨.cons trivial .nil, by simp [Value.Text], ?_⟩
    simp [Value.size, Value.cell, Wire.cellItem, Wire.Item.encode, Wire.Item.pieces]

theorem Waits.start_getFunc (h : s.Good lang app) {r : Call} (hw : s.Waits lang app x r q) {name : Utf16}
    (hreq : x.request = .getFunc name) (hroom : s.server.refPool.refPool.length + 257 ≤ 2 ^ 31) :
    ∃ s', s.start lang app = some s' ∧ s'.Good lang app ∧ s.Does s' 1 := by
  have hasks := hw.valid.asks
  rw [hreq] at hasks
  obtain ⟨hindex, hparameter, hfunc⟩ := hasks
  obtain ⟨-, hplain⟩ := packet_plain hw.valid.packet
  have hnocall : ¬ x.request.IsCall := by
    rw [hreq]
    exact id
  have hempty : x.owned s.started s.started = 0 := by
    simp [Exchange.owned, hw.fresh.row, hw.fresh.outcome, hreq, refs]
  obtain ⟨found, hfound⟩ := Option.ne_none_iff_exists'.mp hfunc
  cases found with
  | none =>
    have henter : Server.Tasks.enter lang app.toApplication s.server s.started ⟨q, [.enters], []⟩ = { s.server with
        refPool := s.server.refPool
        tasks := s.server.tasks.set s.started ⟨{ q with result := leBytes 4 0xffffffff }, [.called], []⟩ } := by
      simp [Server.Tasks.enter, hindex, Server.Tasks.getFunc, hfound, Server.Tasks.Server.put, Server.Tasks.Task.goes]
    have hserved : Exchange.served app ⟨{ q with result := leBytes 4 0xffffffff }, [.called], []⟩ x =
        { x with returned := some (.ok [.null]), row := [.null] } := by
      simp only [Exchange.served, hreq, hfound]
    have heq := hw.start_called henter
    rw [hserved] at heq
    refine ⟨_, heq, hw.good_called h hnocall rfl rfl rfl ?_ ?_ (.cons rfl .nil) (fun name' hr => ?_) fun rest hrest => ?_⟩
    · rw [hreq, Request.tResult, rowBytes_null, PxpRequest.outcome, hplain]
    · rw [hreq]
      exact declared_object _ (.inl rfl)
    · obtain rfl := Request.getFunc.inj (hreq.symm.trans hr)
      exact ⟨none, hparameter ▸ hfound, rfl⟩
    · rw [hempty, zero_add] at hrest
      refine ⟨?_, fun _ _ => rfl⟩
      rw [← hrest]
      simpa [indices, refs] using h.holds
  | some obj =>
    obtain ⟨pool, i, hget, hadds⟩ := getFunc_eq (r := q) h.holds hfound
    have hi : i < 2 ^ 31 := (hadds.holds.lt (Multiset.mem_cons_self _ _)).trans_le (hadds.length.trans hroom)
    have henter : Server.Tasks.enter lang app.toApplication s.server s.started ⟨q, [.enters], []⟩ = { s.server with
        refPool := pool
        tasks := s.server.tasks.set s.started ⟨{ q with result := leBytes 4 i }, [.called], []⟩ } := by
      simp [Server.Tasks.enter, hindex, hget, Server.Tasks.Server.put, Server.Tasks.Task.goes]
    have hnat : (BitVec.ofNat 32 i).toNat = i := by
      rw [BitVec.toNat_ofNat]
      omega
    have hserved : Exchange.served app ⟨{ q with result := leBytes 4 i }, [.called], []⟩ x =
        { x with returned := some (.ok [.object obj]), row := [.object (BitVec.ofNat 32 i)] } := by
      simp only [Exchange.served, hreq, hfound]
      rw [leValue_leBytes_of_lt (by omega)]
    have heq := hw.start_called henter
    rw [hserved] at heq
    refine ⟨_, heq, hw.good_called h hnocall rfl rfl rfl ?_ ?_ (.cons ⟨_, rfl, ?_⟩ .nil) (fun name' hr => ?_)
      fun rest hrest => ?_⟩
    · rw [hreq, Request.tResult, rowBytes_object, PxpRequest.outcome, hplain, hnat]
    · rw [hreq]
      exact declared_object _ (.inr ⟨obj, rfl⟩)
    · rw [Stores, hnat]
      exact ⟨hi, hadds.object⟩
    · obtain rfl := Request.getFunc.inj (hreq.symm.trans hr)
      exact ⟨some obj, hparameter ▸ hfound, rfl⟩
    · rw [hempty, zero_add] at hrest
      rw [← hrest]
      refine ⟨?_, fun o ho => hadds.keeps _ (Multiset.mem_map_of_mem _ ho)⟩
      have hindices : indices [.object (BitVec.ofNat 32 i)] = {i} := by simp [indices, refs, hnat]
      rw [hindices, Multiset.singleton_add]
      exact hadds.holds

/-! ### `freeRef` -/

theorem freeRefOffsets_word (lang : Lang) (value : Nat) : Server.Tasks.freeRefOffsets lang (leBytes 4 value) = [0] := by
  cases lang <;> simp [Server.Tasks.freeRefOffsets, List.range_succ]

theorem Waits.start_free (h : s.Good lang app) {r : Call} (hw : s.Waits lang app x r q) {value : BitVec 32}
    {origin : Nat × Nat} (hreq : x.request = .free value origin) :
    ∃ s', s.start lang app = some s' ∧ s'.Good lang app ∧ s.Does s' 1 := by
  have hasks := hw.valid.asks
  rw [hreq] at hasks
  obtain ⟨hindex, hparameter⟩ := hasks
  obtain ⟨hresult, hplain⟩ := packet_plain hw.valid.packet
  have hnocall : ¬ x.request.IsCall := by
    rw [hreq]
    exact id
  have howns : x.owned s.started s.started = {(value, origin)} := by
    simp [Exchange.owned, hw.fresh.row, hw.fresh.outcome, hreq, refs]
  have hmem : (value, origin) ∈ s.owned := mem_owned_of_free hw.exchange hreq le_rfl
  obtain ⟨obj, -, hst⟩ := h.stores _ hmem
  obtain ⟨pool, hook, hfree, hholds, hkeep⟩ := freeRef_eq h.holds (Multiset.mem_map_of_mem _ hmem)
  have hget : Server.Tasks.getRef lang value.toInt s.server.refPool = some value.toNat := by
    have hlt := h.holds.lt (Multiset.mem_map_of_mem _ hmem)
    rw [hst.toInt, Server.Tasks.getRef.eq_def, if_pos (Int.natCast_nonneg _), Int.toNat_natCast, if_pos hlt]
  have hfrees : Server.Tasks.freeRefs lang q.parameter (Server.Tasks.freeRefOffsets lang q.parameter) s.server.refPool =
      (pool, true) := by
    rw [hparameter, freeRefOffsets_word, Server.Tasks.freeRefs]
    simp only [getInt32_word, Option.bind_some, hget, hfree, Server.Tasks.freeRefs]
  have henter : Server.Tasks.enter lang app.toApplication s.server s.started ⟨q, [.enters], []⟩ = { s.server with
      refPool := pool
      tasks := s.server.tasks.set s.started ⟨q, [.called], []⟩ } := by
    simp [Server.Tasks.enter, hindex, hfrees, Server.Tasks.Server.put, Server.Tasks.Task.goes]
  have hserved : Exchange.served app ⟨q, [.called], []⟩ x = { x with returned := some (.ok []), row := [] } := by
    simp only [Exchange.served, hreq, ← hw.fresh.row]
  have heq := hw.start_called henter
  rw [hserved] at heq
  refine ⟨_, heq, hw.good_called h hnocall rfl rfl rfl ?_ ?_ .nil (fun name hr => ?_) fun rest hrest => ?_⟩
  · rw [hreq, Request.tResult, PxpRequest.outcome, hresult, hplain]
    rfl
  · rw [hreq]
    exact ⟨.nil, by simp, by simp⟩
  · cases hreq.symm.trans hr
  · rw [howns] at hrest
    have hmap : s.owned.map (fun o => o.1.toNat) = value.toNat ::ₘ rest.map fun o => o.1.toNat := by
      rw [hrest, Multiset.singleton_add, Multiset.map_cons]
    rw [hmap, Multiset.erase_cons_head] at hholds
    refine ⟨by simpa [indices, refs] using hholds, fun o ho => hkeep _ fun he => ?_⟩
    have hnodup := h.holds.nodup
    rw [hmap, Multiset.nodup_cons] at hnodup
    exact hnodup.1 (he ▸ Multiset.mem_map_of_mem _ ho)

/-! ### Calls -/

theorem Waits.start_call (h : s.Good lang app) {r : Call} (hw : s.Waits lang app x r q) {callable : Nat} {decl : Decl}
    {args : List (Value Nat)} (hreq : x.request = .call callable decl args) :
    ∃ s', s.start lang app = some s' ∧ s'.Good lang app ∧ s.Does s' 1 := by
  have hasks := hw.valid.asks
  rw [hreq] at hasks
  obtain ⟨value, row, hindex, hnonneg, hparameter, hd, hcallable, hrow, c, hc, hdecl⟩ := hasks
  obtain ⟨obj, hobj, hst⟩ := h.denotes_refers le_rfl hcallable
  have hinvokes : (s.server.object q.callableIndex).bind app.callable = some c := by
    have hobject : s.server.object q.callableIndex = some obj := by
      rw [hindex, hst.toInt]
      exact hst.2
    rw [hobject, Option.bind_some]
    rwa [callee, hobj, Option.bind_some] at hc
  have henter : Server.Tasks.enter lang app.toApplication s.server s.started ⟨q, [.enters], []⟩ = { s.server with
      refPool := s.server.refPool
      tasks := s.server.tasks.set s.started ⟨q, [.calls], [.invoked c q.parameter]⟩ } := by
    simp only [Server.Tasks.enter, if_pos (hindex ▸ hnonneg : 0 ≤ q.callableIndex), hinvokes]
    rfl
  have hputs := hrow.imp fun _ _ => Value.Puts.mono fun _ _ hr => h.denotes_refers (n := s.started) le_rfl hr
  have hat (i : Nat) (index : BitVec 32) (hr : ∃ obj, s.denotes i = some obj ∧ Stores s.server.refPool obj index) :
      ∃ obj, objectOf lang s.server.refPool index = some (.object obj) ∧ s.denotes i = some obj := by
    obtain ⟨obj, hobj, hst⟩ := hr
    exact ⟨obj, hst.objectOf, hobj⟩
  obtain ⟨given, hread, hgiven⟩ := readParameter_eq hd hputs (fun _ _ hst => hst.choose_spec.2.ne) hat
    ((s.client.sent[s.started]?.getD []).take 8)
  rw [← hparameter] at hread
  have hset : (s.server.tasks.set s.started ⟨q, [.calls], [.invoked c q.parameter]⟩)[s.started]? =
      some (⟨q, [.calls], [.invoked c q.parameter]⟩ : Server.Tasks.Task Callable) :=
    List.getElem?_set_self (List.getElem?_eq_some_iff.mp hw.task).1
  have hmodify (f : Exchange Obj → Exchange Obj) : s.exchanges.modify s.started f = s.exchanges.set s.started (f x) := by
    rw [List.modify_eq_set_getElem?, hw.exchange]
    rfl
  obtain ⟨s', hs'⟩ : ∃ s' : State Obj Callable Hook, s' = { s with
      exchanges := s.exchanges.set s.started { x with arguments := some given }
      server := { s.server with
        refPool := s.server.refPool
        tasks := s.server.tasks.set s.started ⟨q, [.calls], [.invoked c q.parameter]⟩ }
      started := s.started + 1 } := ⟨_, rfl⟩
  have heq : s.start lang app = some s' := by
    rw [State.start, onServer, hw.step_eq, Option.map_some, Option.bind_some, henter]
    simp only [hset, Option.bind_some, List.head?_cons, hdecl, hread, modify, hmodify, hs']
  have hserves := hw.serves { x with arguments := some given } rfl rfl hw.fresh.outcome hs'
  obtain ⟨rest, howned, howned'⟩ := hserves.owned
  have hsame := howned'.trans (howned.trans (by simp [Exchange.owned, hreq])).symm
  refine ⟨s', heq, hserves.good h (fun r' q' hv => ?_) (hsame ▸ h.holds) fun o ho => ?_,
    hserves.does h hw.task (by simp [taskLeft])⟩
  · obtain rfl := Option.some.inj (hw.valid.packet.symm.trans hv.packet)
    obtain rfl := Option.some.inj (hw.valid.call.symm.trans hv.call)
    refine hserves.valid hv hw.fresh.outcome (Nat.lt_succ_self _) (fun callable' decl' args' hr => ?_) (fun hr => ?_)
      (fun callable' decl' args' hr => ?_) (fun name hr => ?_) hv.puts (fun _ => hw.fresh.row) ?_
    · obtain ⟨rfl, rfl, rfl⟩ := Request.call.inj (hreq.symm.trans hr)
      exact ⟨c, hc, rfl⟩
    · exact absurd (hreq ▸ trivial) hr
    · obtain ⟨rfl, rfl, rfl⟩ := Request.call.inj (hreq.symm.trans hr)
      exact ⟨given, rfl, hgiven⟩
    · cases hreq.symm.trans hr
    · rw [hw.response]
      exact .running hw.fresh.returned hw.fresh.outcome hw.isOpen
  · rw [hsame] at ho
    obtain ⟨obj, hret, hst⟩ := h.stores o ho
    exact ⟨obj, hserves.grows.returnedAt hret, hst⟩

/-- A task that waits can start. -/
theorem Good.starts (h : s.Good lang app) (hlt : s.started < s.server.tasks.length)
    (hroom : s.server.refPool.refPool.length + 257 ≤ 2 ^ 31) :
    ∃ s', s.start lang app = some s' ∧ s'.Good lang app ∧ s.Does s' 1 := by
  obtain ⟨x, r, q, hw⟩ := h.waits hlt
  cases hreq : x.request with
  | getFunc name => exact hw.start_getFunc h hreq hroom
  | call callable decl args => exact hw.start_call h hreq
  | free value origin => exact hw.start_free h hreq

theorem Good.start (h : s.Good lang app) (hp : s.Proper app .start) (hs : s.start lang app = some s') :
    s'.Good lang app ∧ s.Does s' 1 := by
  have hlt : s.started < s.server.tasks.length := by
    obtain ⟨s₁, hstep, -⟩ := Option.bind_eq_some_iff.mp hs
    obtain ⟨server, hstep, -⟩ := Option.map_eq_some_iff.mp hstep
    obtain ⟨t, ht, -⟩ := Option.bind_eq_some_iff.mp hstep
    exact (List.getElem?_eq_some_iff.mp ht).1
  obtain ⟨s₁, heq, hgood⟩ := h.starts hlt hp
  obtain rfl := Option.some.inj (heq.symm.trans hs)
  exact hgood

end State

end PxpRpc.Session
