import PxpRpc.Session.Transport

/-!
# The outcome of an exchange

The client reads the response and takes the objects in it: what the response owned is owned by
new objects of the client.
-/
namespace PxpRpc.Session

open PxpRpc.Lib PxpRpc.Codec
open PxpRpc.Codec.Java (Cell Row ValueType)
open PxpRpc.Codec.Wire (cellHeard cellItem)
open PxpRpc.TypeScript (Call Failure)
open PxpRpc.Server.Tasks (Lang PxpRequest)

variable {Obj Callable Hook : Type} {lang : Lang} {app : Application Obj Callable Hook}
  {s s' : State Obj Callable Hook} {q : PxpRequest} {x : Exchange Obj} {n : Nat} {results : List (Value Obj)}

theorem declared_nil (hd : Declared [] results) : results = [] := List.forall₂_nil_left_iff.mp hd.matching

/-- A value of an `o` position is an object or `null`. -/
theorem declared_object_cases (hd : Declared [.o] results) : results = [.null] ∨ ∃ obj, results = [.object obj] := by
  obtain ⟨v, rest, hv, hrest, rfl⟩ := List.forall₂_cons_left_iff.mp hd.matching
  obtain rfl := List.forall₂_nil_left_iff.mp hrest
  cases v with
  | null => exact .inl rfl
  | object obj => exact .inr ⟨obj, rfl⟩
  | _ => exact absurd hv id

namespace State

/-- The client reads the row that was put, and takes its objects. -/
theorem outcome_eq (hd : Declared x.request.tResult results)
    (hput : List.Forall₂ (Value.Puts fun _ index => index.toNat < 2 ^ 31) results x.row) :
    s.outcome n x (rowBytes x.request.tResult x.row) =
      (.ok (Ret.ofRow (take n 0 x.row s.handles).1), (take n 0 x.row s.handles).2) := by
  have hne : ∀ (obj : Obj) (index : BitVec 32), index.toNat < 2 ^ 31 → index ≠ -1 := by
    rintro _ _ hlt rfl
    exact absurd hlt (by decide)
  cases hreq : x.request with
  | getFunc name =>
    rw [hreq] at hd
    rcases declared_object_cases hd with rfl | ⟨obj, rfl⟩
    · obtain ⟨cell, rest, hcell, hrest, hrow⟩ := List.forall₂_cons_left_iff.mp hput
      obtain rfl := List.forall₂_nil_left_iff.mp hrest
      obtain rfl : cell = .null := hcell
      have hbytes : rowBytes [.o] [.null] = leBytes 4 (-1 : BitVec 32).toNat := rowBytes_object (-1)
      simp only [outcome, hreq, hrow, Request.tResult, hbytes, getInt32_word, Option.map_some]
      rfl
    · obtain ⟨cell, rest, ⟨index, rfl, hlt⟩, hrest, hrow⟩ := List.forall₂_cons_left_iff.mp hput
      obtain rfl := List.forall₂_nil_left_iff.mp hrest
      have hint : index.toInt = index.toNat := BitVec.toInt_eq_toNat_of_lt (by omega)
      have hnot : ¬ index.toInt = -1 := by omega
      simp only [outcome, hreq, hrow, Request.tResult, rowBytes_object, getInt32_word, Option.map_some, if_neg hnot,
        BitVec.ofInt_toInt]
  | call callable decl args =>
    rw [hreq] at hd
    have hread := unserRet_eq (show Declared decl.tResult _ from hd) hput hne (leBytes 4 (BitVec.ofInt 32 x.sid).toNat)
    simp only [outcome, hreq, Request.tResult, hread]
  | free value origin =>
    rw [hreq] at hd
    obtain rfl := declared_nil hd
    have hrow : x.row = [] := List.forall₂_nil_left_iff.mp hput
    simp only [outcome, hreq, hrow]

theorem owned_newHandles (row : Row (List UInt8)) : (newHandles n 0 row).filterMap Handle.owned = refs n 0 row := by
  rw [newHandles, List.filterMap_map]
  exact List.filterMap_some

/-- A call of the base client that has ended, and whose outcome has not been looked at. -/
theorem resumed_of {r : Call} (hv : x.Valid app s n r q) (hr : r.outcome ≠ none) (ho : x.outcome = none) :
    ∃ t o, s.server.tasks[n]? = some t ∧ n < s.started ∧
      (t.stack = [.sends] ∨ t.stack = []) ∧ x.reply = some o ∧ r.outcome = some (answer o) ∧ s.responses.get n = none := by
  have hstage := hv.stage
  generalize hd : decide (n < s.started) = started, ht : s.server.tasks[n]? = t, hm : s.responses.get n = m at hstage
  have hnot : ¬ r.isOpen := fun hopen => hr (TypeScript.Call.isOpen_iff.mp hopen).1
  cases hstage with
  | resumed stack reply outcome result => exact ⟨_, _, rfl, of_decide_eq_true hd, stack, reply, result, rfl⟩
  | asked fresh isOpen => exact absurd isOpen hnot
  | arrived fresh isOpen => exact absurd isOpen hnot
  | running returned outcome isOpen => exact absurd isOpen hnot
  | settled session index reply same outcome isOpen => exact absurd isOpen hnot
  | answered stack reply outcome isOpen => exact absurd isOpen hnot
  | received stack reply outcome waits respFut => exact absurd waits hr
  | finished stack reply outcome result => exact absurd ho outcome

/-- The client has the outcome, and owns the references of the results. -/
structure Finished (s s' : State Obj Callable Hook) (n : Nat) (x : Exchange Obj) (outcome : Except Failure (Ret Nat)) :
    Prop where
  eq : s' = { s with
    exchanges := s.exchanges.set n { x with outcome := some outcome, known := s.handles.length }
    sids := s.sids.freeSid x.sid
    handles := s.handles ++ newHandles n 0 x.row }
  exchange : s.exchanges[n]? = some x
  waits : x.outcome = none

namespace Finished

variable {outcome : Except Failure (Ret Nat)} {r : Call}

theorem at_self (hf : s.Finished s' n x outcome) :
    s'.exchanges[n]? = some { x with outcome := some outcome, known := s.handles.length } := by
  rw [hf.eq]
  exact List.getElem?_set_self (List.getElem?_eq_some_iff.mp hf.exchange).1

theorem at_ne (hf : s.Finished s' n x outcome) {m : Nat} (hm : m ≠ n) : s'.exchanges[m]? = s.exchanges[m]? := by
  rw [hf.eq]
  exact List.getElem?_set_ne (Ne.symm hm)

theorem length (hf : s.Finished s' n x outcome) : s'.exchanges.length = s.exchanges.length := by
  rw [hf.eq, List.length_set]

theorem frame (hf : s.Finished s' n x outcome) : s'.client = s.client ∧ s'.server = s.server ∧ s'.started = s.started ∧
    s'.responses = s.responses := by
  rw [hf.eq]
  exact ⟨rfl, rfl, rfl, rfl⟩

theorem grows (hf : s.Finished s' n x outcome) : s.Grows s' where
  started := hf.frame.2.2.1.ge
  handles i h₁ hh := by
    refine ⟨h₁, ?_, rfl⟩
    rw [hf.eq]
    exact TypeScript.Client.getElem?_append_some hh
  exchanges m y hy := by
    by_cases hm : m = n
    · subst hm
      obtain rfl := Option.some.inj (hf.exchange.symm.trans hy)
      exact ⟨_, hf.at_self, rfl, fun _ hret => hret⟩
    · exact ⟨y, (hf.at_ne hm).trans hy, rfl, fun _ hret => hret⟩
  held o hheld := by
    obtain ⟨h₁, hmem, ho⟩ := hheld
    refine .inl ⟨h₁, ?_, ho⟩
    rw [hf.eq]
    exact List.mem_append_left _ hmem

theorem apart (hf : s.Finished s' n x outcome) : s.Apart s' n := by
  obtain ⟨hclient, hserver, hstarted, hresponses⟩ := hf.frame
  exact ⟨fun _ => hf.at_ne, fun _ _ => by rw [hclient], fun _ _ => by rw [hserver], fun _ _ => by rw [hresponses],
    fun _ _ => by rw [hstarted]⟩

/-- What the response owned is owned by the new objects. -/
theorem owned (hf : s.Finished s' n x outcome) : s'.owned = s.owned := by
  have hstarted := hf.frame.2.2.1
  have hat (m : Nat) (hm : m ≠ n) : s'.ownedAt m = s.ownedAt m := by rw [ownedAt, ownedAt, hf.at_ne hm, hstarted]
  obtain ⟨rest, he, he'⟩ := owned_change n hf.length hat (List.getElem?_eq_some_iff.mp hf.exchange).1
  have hheld : s'.held = s.held + (refs n 0 x.row : Multiset Owned) := by
    rw [held, held, hf.eq, List.filterMap_append, owned_newHandles, ← Multiset.coe_add]
  rw [he, he', hheld, ownedAt_eq hf.at_self, ownedAt_eq hf.exchange, hstarted]
  simp only [Exchange.owned, hf.waits, Option.isSome_some, Option.isSome_none, if_true, Bool.false_eq_true, if_false,
    zero_add]
  rw [add_assoc, add_assoc]

theorem does (hf : s.Finished s' n x outcome) : s.Does s' 1 := by
  obtain ⟨hclient, hserver, hstarted, -⟩ := hf.frame
  refine hf.apart.does hf.length (List.getElem?_eq_some_iff.mp hf.exchange).1 ?_
  rw [left, left, hf.at_self, hf.exchange, hclient, hserver, hstarted]
  simp only [Option.elim_some, hf.waits, Option.isSome_some, Option.isSome_none, if_true, Bool.false_eq_true, if_false]
  omega

/-- The sid is free again, and no other exchange under way has it. -/
theorem sids (hf : s.Finished s' n x outcome) (h : s.Good lang app) {m : Nat} {y : Exchange Obj}
    (hy : s'.exchanges[m]? = some y) : Client.Extend.sidStart ≤ y.sid ∧ y.sid ≤ Client.Extend.sidEnd ∧
      (y.outcome = none → y.sid ∈ s'.sids.usedSid) := by
  have hsids : s'.sids = s.sids.freeSid x.sid := by rw [hf.eq]
  rw [hsids]
  by_cases hm : m = n
  · subst hm
    obtain rfl := Option.some.inj (hf.at_self.symm.trans hy)
    obtain ⟨hs₁, hs₂, -⟩ := h.sids m x hf.exchange
    exact ⟨hs₁, hs₂, fun hnone => by cases hnone⟩
  · rw [hf.at_ne hm] at hy
    obtain ⟨hs₁, hs₂, hmem⟩ := h.sids m y hy
    refine ⟨hs₁, hs₂, fun hnone => Finset.mem_erase.mpr ⟨fun he => ?_, hmem hnone⟩⟩
    exact hm (h.distinct m n y x hy hf.exchange hnone hf.waits he)

/-- An exchange that is under way was under way. -/
theorem at_waiting (hf : s.Finished s' n x outcome) {m : Nat} {y : Exchange Obj} (hy : s'.exchanges[m]? = some y)
    (ho : y.outcome = none) : s.exchanges[m]? = some y := by
  by_cases hm : m = n
  · subst hm
    obtain rfl := Option.some.inj (hf.at_self.symm.trans hy)
    cases ho
  · exact (hf.at_ne hm).symm.trans hy

/-- The exchange is through. -/
theorem valid (hf : s.Finished s' n x outcome) (hv : x.Valid app s n r q) (hr : r.outcome ≠ none)
    (hsucceeds : ∀ ret, outcome = .ok ret → ∃ results values, x.returned = some (.ok results) ∧ ret = Ret.ofRow values ∧
      (objects values).Nodup ∧
      List.Forall₂ (Value.Arrives fun obj i => s'.denotes i = some obj ∧ s.handles.length ≤ i) results values)
    (hfails : ∀ failure, outcome = .error failure → ∃ text, failure = .remote text ∧ x.returned = some (.error text)) :
    ({ x with outcome := some outcome, known := s.handles.length } : Exchange Obj).Valid app s' n r q := by
  obtain ⟨t, o, ht, hstarted, hstack, hreply, -, hresponse⟩ := resumed_of hv hr hf.waits
  obtain ⟨hclient, hserver, hstart, hresponses⟩ := hf.frame
  have hagrees := hf.grows.agrees hv.toAgrees (hstart ▸ id) fun t ht _ => ⟨t, hserver ▸ ht, rfl⟩
  exact {
    invoked := hagrees.invoked
    uninvoked := hagrees.uninvoked
    arguments := hagrees.arguments
    found := hagrees.found
    succeeds := fun ret hret => hsucceeds ret (Option.some.inj hret)
    fails := fun failure hf => hfails failure (Option.some.inj hf)
    call := hclient ▸ hv.call
    sid := hv.sid
    packet := by
      rw [State.packet, hclient]
      exact hv.packet
    session := hv.session
    asks := hf.grows.asks (List.getElem?_eq_some_iff.mp hf.exchange).1 hv.asks
    stage := by
      rw [hserver, hresponses, hstart, ht, hresponse, decide_eq_true hstarted]
      exact .finished hstack hreply (fun hnone => by cases hnone) hr
    puts := hv.puts
    unput := hv.unput }

theorem good (hf : s.Finished s' n x outcome) (h : s.Good lang app)
    (hvalid : ∃ r q, ({ x with outcome := some outcome, known := s.handles.length } : Exchange Obj).Valid app s' n r q) :
    s'.Good lang app := by
  obtain ⟨hclient, hserver, hstarted, hresponses⟩ := hf.frame
  exact {
    running := hclient ▸ h.running
    receiving := hclient ▸ h.receiving
    serverRunning := hserver ▸ h.serverRunning
    serving := hserver ▸ h.serving
    regular := hclient ▸ h.regular
    polls := hclient ▸ h.polls
    calls := by
      rw [hclient, hf.length]
      exact h.calls
    sent := by
      rw [hclient, hf.length]
      exact h.sent
    tasks := by
      rw [hserver, hf.length]
      exact h.tasks
    started := by
      rw [hserver, hstarted]
      exact h.started
    keys := hresponses ▸ h.keys
    answers := by
      rw [hresponses, hf.length]
      exact h.answers
    cursor := by
      rw [hf.eq]
      exact h.cursor.step (show s.sids.step (.free x.sid) = some _ from rfl)
    sids := fun m y hy => hf.sids h hy
    distinct := fun m k y z hy hz hoy hoz he => h.distinct m k y z (hf.at_waiting hy hoy) (hf.at_waiting hz hoz) hoy hoz he
    exchange := by
      have hpacket (m : Nat) : s'.packet m = s.packet m := by rw [packet, packet, hclient]
      refine h.exchange_of hf.grows hf.apart (fun m _ => hpacket m) fun y hy => ?_
      obtain rfl := Option.some.inj (hf.at_self.symm.trans hy)
      exact hvalid
    holds := by
      rw [hf.owned, hserver]
      exact h.holds
    stores := fun o ho => by
      obtain ⟨obj, hret, hst⟩ := h.stores o (hf.owned ▸ ho)
      exact ⟨obj, hf.grows.returnedAt hret, hserver ▸ hst⟩ }

end Finished

/-- A callable that was rejected: no object comes. -/
theorem Good.finish_rejected (h : s.Good lang app) {r : Call} (hx : s.exchanges[n]? = some x) (hv : x.Valid app s n r q)
    (hr : r.outcome ≠ none) (ho : x.outcome = none) {text : List UInt8} (hret : x.returned = some (.error text))
    (hs : s' = { s with
      exchanges := s.exchanges.set n { x with outcome := some (.error (.remote text)), known := s.handles.length }
      sids := s.sids.freeSid x.sid }) : s'.Good lang app ∧ s.Does s' 1 := by
  have hrow := hv.unput (by simp [hret])
  have hf : s.Finished s' n x (.error (.remote text)) := ⟨by rw [hs, hrow]; simp [newHandles, refs], hx, ho⟩
  refine ⟨hf.good h ⟨r, q, hf.valid hv hr (fun ret he => by cases he) fun failure he => ?_⟩, hf.does⟩
  exact ⟨text, (Except.error.inj he).symm, hret⟩

/-- A callable that returned: the objects in its row are taken. -/
theorem Good.finish_returned (h : s.Good lang app) {r : Call} (hx : s.exchanges[n]? = some x) (hv : x.Valid app s n r q)
    (hr : r.outcome ≠ none) (ho : x.outcome = none) (hret : x.returned = some (.ok results))
    (hs : s' = { s with
      exchanges := s.exchanges.set n
        { x with outcome := some (.ok (Ret.ofRow (take n 0 x.row s.handles).1)), known := s.handles.length }
      sids := s.sids.freeSid x.sid
      handles := (take n 0 x.row s.handles).2 }) : s'.Good lang app ∧ s.Does s' 1 := by
  obtain ⟨hd, hput⟩ := hv.puts results hret
  obtain ⟨taken, htake, hobjects, harrives⟩ := take_eq n hput 0 s.handles
  rw [htake] at hs
  have hf : s.Finished s' n x (.ok (Ret.ofRow taken)) := ⟨hs, hx, ho⟩
  refine ⟨hf.good h ⟨r, q, hf.valid hv hr (fun ret he => ?_) fun failure he => by cases he⟩, hf.does⟩
  have hnodup : (objects taken).Nodup := hobjects ▸ List.nodup_range'
  refine ⟨results, taken, hret, (Except.ok.inj he).symm, hnodup,
    harrives.imp fun _ _ => Value.Arrives.mono fun obj i hi => ⟨?_, hi.1⟩⟩
  obtain ⟨-, handle, k, hh, horigin, hk⟩ := hi
  rw [hs]
  refine Option.bind_eq_some_iff.mpr ⟨handle, hh, returnedAt_eq_some.mpr ?_⟩
  rw [horigin, Nat.zero_add]
  exact ⟨_, results, List.getElem?_set_self (List.getElem?_eq_some_iff.mp hx).1, hret, hk⟩

theorem Good.finish (h : s.Good lang app) (hs : s.finish n = some s') : s'.Good lang app ∧ s.Does s' 1 := by
  obtain ⟨result, hresult, hs⟩ := Option.bind_eq_some_iff.mp hs
  obtain ⟨r, hr, hresult⟩ := Option.bind_eq_some_iff.mp hresult
  obtain ⟨x, hx, hs⟩ := Option.bind_eq_some_iff.mp hs
  split at hs
  · cases hs
  rename_i hout
  have ho : x.outcome = none := by simpa using hout
  obtain ⟨r', q, hv⟩ := h.exchange n x hx
  obtain rfl := Option.some.inj (hr.symm.trans hv.call)
  have hne : r.outcome ≠ none := by simp [hresult]
  obtain ⟨t, o, -, -, -, hreply, hanswer, -⟩ := resumed_of hv hne ho
  obtain rfl := Option.some.inj (hresult.symm.trans hanswer)
  have hmodify (f : Exchange Obj → Exchange Obj) : s.exchanges.modify n f = s.exchanges.set n (f x) := by
    rw [List.modify_eq_set_getElem?, hx]
    rfl
  cases hret : x.returned with
  | none => simp [Exchange.reply, hret] at hreply
  | some returned =>
    cases returned with
    | error text =>
      obtain rfl : o = ⟨[], some text⟩ := by simpa [Exchange.reply, hret] using hreply.symm
      simp only [answer, modify, hmodify] at hs
      exact h.finish_rejected hx hv hne ho hret (Option.some.inj hs).symm
    | ok results =>
      obtain ⟨hd, hput⟩ := hv.puts results hret
      obtain rfl : o = ⟨rowBytes x.request.tResult x.row, none⟩ := by simpa [Exchange.reply, hret] using hreply.symm
      simp only [answer, outcome_eq hd hput, modify, hmodify] at hs
      exact h.finish_returned hx hv hne ho hret (Option.some.inj hs).symm

end State

end PxpRpc.Session
