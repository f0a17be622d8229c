import PxpRpc.Session.Transport

/-!
# The client's own steps

The client asks for something, turns an object into a callable, and takes what a response has
brought. References change hands, and none gets lost.
-/
namespace PxpRpc.Session

open PxpRpc.Lib PxpRpc.Codec
open PxpRpc.Codec.Java (Row ValueType)
open PxpRpc.Client (Sid)
open PxpRpc.Client.Extend (sidStart sidEnd search RpcExtendClient1)
open PxpRpc.TypeScript (Call)
open PxpRpc.Server.Tasks (Lang PxpRequest)

variable {Obj Callable Hook : Type} {lang : Lang} {app : Application Obj Callable Hook}
  {s s' : State Obj Callable Hook} {q : PxpRequest} {x : Exchange Obj} {n : Nat}

/-! ### Sids -/

/-- Also behind an exception, a sid that is allocated is not in use. -/
theorem search_fresh {usedSid : Finset Int} {nextSid sid : Int} {reachEnd : Bool} (hend : nextSid ≤ sidEnd)
    (h : search usedSid nextSid reachEnd = .ok sid) : sid ≤ sidEnd ∧ sid ∉ usedSid := by
  fun_induction search usedSid nextSid reachEnd with
  | case1 nextSid hmem hlast => cases h
  | case2 nextSid hmem hlast _ _ ih => exact ih (by decide) h
  | case3 nextSid reachEnd hmem hlast ih => exact ih (by omega) h
  | case4 nextSid reachEnd hmem =>
    cases h
    exact ⟨hend, hmem⟩

theorem ofInt_inj {sid sid' : Int} (hs : sidStart ≤ sid) (he : sid ≤ sidEnd) (hs' : sidStart ≤ sid') (he' : sid' ≤ sidEnd)
    (h : BitVec.ofInt 32 sid = BitVec.ofInt 32 sid') : sid = sid' := by
  rw [← ofInt_toNat hs he, ← ofInt_toNat hs' he', h]

theorem parse_packet (sid callableIndex : BitVec 32) (parameter : List UInt8) :
    Server.Tasks.parse (leBytes 4 sid.toNat ++ leBytes 4 callableIndex.toNat ++ parameter) =
      some ⟨sid, callableIndex.toInt, parameter, [], none⟩ := by
  have hword (v : BitVec 32) : leValue (leBytes 4 v.toNat) = v.toNat := leValue_leBytes_of_lt (by simpa using v.isLt)
  have hsession : Pool.getUint32 (leBytes 4 sid.toNat ++ leBytes 4 callableIndex.toNat ++ parameter) 0 = some sid.toNat := by
    rw [Pool.getUint32, if_pos (by simp), List.drop_zero, List.append_assoc, List.take_left' (length_leBytes 4 _), hword]
  have hindex : Pool.getInt32 (leBytes 4 sid.toNat ++ leBytes 4 callableIndex.toNat ++ parameter) 4 =
      some callableIndex.toInt := by
    rw [Pool.getInt32, Pool.getUint32, if_pos (by simp; omega), List.append_assoc, List.drop_left' (length_leBytes 4 _),
      List.take_left' (length_leBytes 4 _), hword, Option.map_some, BitVec.ofNat_toNat, BitVec.setWidth_eq]
  have hrest : (leBytes 4 sid.toNat ++ leBytes 4 callableIndex.toNat ++ parameter).drop 8 = parameter :=
    List.drop_left' (by simp)
  rw [Server.Tasks.parse, hsession, Option.bind_some, hindex, Option.map_some, hrest, BitVec.ofNat_toNat, BitVec.setWidth_eq]

/-! ### Handles -/

theorem filterMap_set {α β : Type} {f : α → Option β} {b : α} (hb : f b = none) : ∀ {l : List α} {i : Nat} {a : α},
    l[i]? = some a → (((l.set i b).filterMap f : List β) : Multiset β) + ((f a).toList : List β) = (l.filterMap f : List β) := by
  intro l
  induction l with
  | nil => intro i a h; simp at h
  | cons c l ih =>
    intro i a h
    cases i with
    | zero =>
      obtain rfl : c = a := by simpa using h
      rw [List.set_cons_zero, List.filterMap_cons_none hb, Multiset.coe_add]
      cases hf : f c with
      | none => simp [List.filterMap_cons_none hf]
      | some d =>
        rw [List.filterMap_cons_some hf]
        exact Multiset.coe_eq_coe.mpr List.perm_append_comm
    | succ i =>
      rw [List.getElem?_cons_succ] at h
      rw [List.set_cons_succ]
      cases hf : f c with
      | none =>
        rw [List.filterMap_cons_none hf, List.filterMap_cons_none hf]
        exact ih h
      | some d =>
        rw [List.filterMap_cons_some hf, List.filterMap_cons_some hf, ← Multiset.cons_coe, Multiset.cons_add, ih h,
          Multiset.cons_coe]

/-- An object whose value has been taken away. -/
theorem mem_set_of_owned {handles : List Handle} {i : Nat} {h h₁ : Handle} {o : Owned} (hi : handles[i]? = some h)
    (hmem : h₁ ∈ handles) (ho : h₁.owned = some o) : h₁ ∈ handles.set i { h with value := none } ∨ h.owned = some o := by
  obtain ⟨j, hj⟩ := List.getElem?_of_mem hmem
  by_cases hij : j = i
  · subst hij
    obtain rfl := Option.some.inj (hi.symm.trans hj)
    exact .inr ho
  · exact .inl (List.mem_of_getElem? ((List.getElem?_set_ne (Ne.symm hij)).trans hj))

theorem getElem?_set_origin {handles : List Handle} {i j : Nat} {h h₁ : Handle} (hi : handles[i]? = some h)
    (hj : handles[j]? = some h₁) : ∃ h₂, (handles.set i { h with value := none })[j]? = some h₂ ∧ h₂.origin = h₁.origin := by
  by_cases hij : j = i
  · subst hij
    obtain rfl := Option.some.inj (hi.symm.trans hj)
    exact ⟨_, List.getElem?_set_self (List.getElem?_eq_some_iff.mp hi).1, rfl⟩
  · exact ⟨h₁, (List.getElem?_set_ne (Ne.symm hij)).trans hj, rfl⟩

namespace State

/-! ### Requests -/

/-- An exchange whose request has just been sent. -/
def begun (request : Request) (sid : Int) : Exchange Obj := ⟨request, sid, none, none, [], none, 0⟩

/-- The request has been sent under the sid. -/
def sends (s : State Obj Callable Hook) (sid : Int) (request : Request) (callableIndex : BitVec 32)
    (parameter : List UInt8) : State Obj Callable Hook :=
  { s with
    sids := ⟨insert sid s.sids.usedSid, Client.Extend.advance sid⟩
    client := s.client.call callableIndex parameter (BitVec.ofInt 32 sid)
    exchanges := s.exchanges ++ [begun request sid] }

theorem ask_ok {request : Request} {callableIndex : BitVec 32} {parameter : List UInt8} {sid : Int}
    (h : search s.sids.usedSid s.sids.nextSid false = .ok sid) :
    s.ask request callableIndex parameter = s.sends sid request callableIndex parameter := by
  rw [ask, Client.Extend.allocSid_ok h]
  rfl

theorem ask_error {request : Request} {callableIndex : BitVec 32} {parameter : List UInt8} {cursor : Int}
    (h : search s.sids.usedSid s.sids.nextSid false = .error cursor) :
    s.ask request callableIndex parameter = { s with sids := { s.sids with nextSid := cursor } } := by
  rw [ask, Client.Extend.allocSid_error h]

/-- No sid has been left. -/
theorem Good.noSid (h : s.Good lang app) {cursor : Int} (hs : search s.sids.usedSid s.sids.nextSid false = .error cursor) :
    ({ s with sids := { s.sids with nextSid := cursor } } : State Obj Callable Hook).Good lang app ∧
      s.Does { s with sids := { s.sids with nextSid := cursor } } 0 := by
  have hg : s.Grows { s with sids := { s.sids with nextSid := cursor } } :=
    ⟨le_rfl, fun i h₁ hh => ⟨h₁, hh, rfl⟩, fun n x hx => ⟨x, hx, rfl, fun _ hr => hr⟩, fun _ ho => .inl ho⟩
  have hcursor := h.cursor.step (show s.sids.step .alloc = some _ from rfl)
  rw [Client.Extend.allocSid_error hs] at hcursor
  refine ⟨⟨⟨h.running, h.receiving, h.serverRunning, h.serving⟩, h.regular, h.polls, h.calls, h.sent, h.tasks, h.started,
    h.keys, h.answers, hcursor, h.sids, h.distinct, fun n x hx => ?_, h.holds, h.stores⟩, rfl⟩
  obtain ⟨r, q, hv⟩ := h.exchange n x hx
  exact ⟨r, q, hg.valid hv (List.getElem?_eq_some_iff.mp hx).1 hv.call rfl rfl id (fun t ht _ => ⟨t, ht, rfl⟩) hv.stage⟩

/-- A request has been sent, and something may have become of the objects of the client. -/
structure Asked (s s' : State Obj Callable Hook) (sid : Int) (request : Request) (callableIndex : BitVec 32)
    (parameter : List UInt8) : Prop where
  search : search s.sids.usedSid s.sids.nextSid false = .ok sid
  client : s'.client = s.client.call callableIndex parameter (BitVec.ofInt 32 sid)
  exchanges : s'.exchanges = s.exchanges ++ [begun request sid]
  sids : s'.sids = ⟨insert sid s.sids.usedSid, Client.Extend.advance sid⟩
  server : s'.server = s.server
  started : s'.started = s.started
  responses : s'.responses = s.responses
  handles : ∀ (i : Nat) (h₁ : Handle), s.handles[i]? = some h₁ → ∃ h₂, s'.handles[i]? = some h₂ ∧ h₂.origin = h₁.origin
  held : ∀ o h₁, h₁ ∈ s.handles → h₁.owned = some o →
    (∃ h₂ ∈ s'.handles, h₂.owned = some o) ∨ request = .free o.1 o.2

namespace Asked

variable {sid : Int} {request : Request} {callableIndex : BitVec 32} {parameter : List UInt8} {m : Nat} {y : Exchange Obj}

theorem old (ha : s.Asked s' sid request callableIndex parameter) (hm : m < s.exchanges.length) :
    s'.exchanges[m]? = s.exchanges[m]? := by
  rw [ha.exchanges]
  exact List.getElem?_append_left hm

theorem new (ha : s.Asked s' sid request callableIndex parameter) :
    s'.exchanges[s.exchanges.length]? = some (begun request sid) := by
  rw [ha.exchanges]
  exact List.getElem?_concat_length

theorem length (ha : s.Asked s' sid request callableIndex parameter) : s'.exchanges.length = s.exchanges.length + 1 := by
  rw [ha.exchanges]
  exact List.length_append

theorem cases (ha : s.Asked s' sid request callableIndex parameter) (hy : s'.exchanges[m]? = some y) :
    s.exchanges[m]? = some y ∧ m < s.exchanges.length ∨ m = s.exchanges.length ∧ y = begun request sid := by
  have hm := (List.getElem?_eq_some_iff.mp hy).1
  rw [ha.length] at hm
  rcases Nat.lt_succ_iff_lt_or_eq.mp hm with hm | rfl
  · exact .inl ⟨(ha.old hm).symm.trans hy, hm⟩
  · exact .inr ⟨rfl, Option.some.inj (hy.symm.trans ha.new)⟩

theorem grows (ha : s.Asked s' sid request callableIndex parameter) : s.Grows s' where
  started := ha.started.ge
  handles := ha.handles
  exchanges _ y hy := ⟨y, (ha.old (List.getElem?_eq_some_iff.mp hy).1).trans hy, rfl, fun _ hr => hr⟩
  held o hheld := by
    obtain ⟨h₁, hmem, ho⟩ := hheld
    exact (ha.held o h₁ hmem ho).imp_right fun hr => ⟨s.exchanges.length, le_rfl, _, ha.new, hr⟩

theorem range (ha : s.Asked s' sid request callableIndex parameter) (h : s.Good lang app) :
    sidStart ≤ sid ∧ sid ≤ sidEnd ∧ sid ∉ s.sids.usedSid := by
  obtain ⟨hle, hfresh⟩ := search_fresh h.cursor.limit ha.search
  exact ⟨h.cursor.start_le ha.search, hle, hfresh⟩

/-- No exchange under way has the sid. -/
theorem sid_ne (ha : s.Asked s' sid request callableIndex parameter) (h : s.Good lang app)
    (hy : s.exchanges[m]? = some y) (ho : y.outcome = none) : y.sid ≠ sid :=
  fun he => (ha.range h).2.2 (he ▸ (h.sids m y hy).2.2 ho)

/-- The base client has one more call. -/
theorem call (ha : s.Asked s' sid request callableIndex parameter) (h : s.Good lang app) :
    s'.client.calls = s.client.calls ++ [⟨BitVec.ofInt 32 sid, false, none, none⟩] ∧ s'.client.polls = [] ∧
    s'.client.sent = s.client.sent ++
      [leBytes 4 (BitVec.ofInt 32 sid).toNat ++ leBytes 4 callableIndex.toNat ++ parameter] ∧
    s'.client.running = s.client.running ∧ s'.client.receiving = s.client.receiving := by
  obtain ⟨hstart, hle, -⟩ := ha.range h
  simp only [ha.client, TypeScript.Client.call, if_pos (ne_signal_of_lt (ofInt_lt hstart hle))]
  exact ⟨trivial, h.polls, trivial, trivial, trivial⟩

theorem packet (ha : s.Asked s' sid request callableIndex parameter) (h : s.Good lang app) (hm : m < s.exchanges.length) :
    s'.packet m = s.packet m := by
  rw [State.packet, State.packet, (ha.call h).2.2.1, List.getElem?_append_left (h.sent ▸ hm)]

theorem regular (ha : s.Asked s' sid request callableIndex parameter) (h : s.Good lang app) : s'.client.Regular := by
  have hfresh : s.client.FreshSid (.call callableIndex parameter (BitVec.ofInt 32 sid)) := fun _ => by
    refine ⟨fun r hr ho he => ?_, fun p hp => by rw [h.polls] at hp; cases hp⟩
    obtain ⟨m, hm⟩ := List.getElem?_of_mem hr
    obtain ⟨y, hy⟩ : ∃ y, s.exchanges[m]? = some y :=
      ⟨_, List.getElem?_eq_getElem (h.calls ▸ (List.getElem?_eq_some_iff.mp hm).1)⟩
    obtain ⟨r', q, hv⟩ := h.exchange m y hy
    obtain rfl := Option.some.inj (hm.symm.trans hv.call)
    obtain ⟨hs₁, hs₂, -⟩ := h.sids m y hy
    obtain ⟨hstart, hle, -⟩ := ha.range h
    have hout : y.outcome = none := hv.stage.outcome_of ho
    exact ha.sid_ne h hy hout (ofInt_inj hs₁ hs₂ hstart hle (hv.sid.symm.trans he))
  rw [ha.client]
  exact h.regular.step hfresh rfl

/-- The exchange has its eight steps to go. -/
theorem does (ha : s.Asked s' sid request callableIndex parameter) (h : s.Good lang app) : s.Does s' 0 := by
  have hcalls := (ha.call h).1
  have hat : ∑ m ∈ Finset.range s.exchanges.length, s'.left m = ∑ m ∈ Finset.range s.exchanges.length, s.left m := by
    refine Finset.sum_congr rfl fun m hm => ?_
    have hm := Finset.mem_range.mp hm
    rw [left, left, ha.old hm, hcalls, List.getElem?_append_left (h.calls ▸ hm), ha.server, ha.started]
  have hlast : s'.left s.exchanges.length = 8 := by
    have hcall : s'.client.calls[s.exchanges.length]? = some ⟨BitVec.ofInt 32 sid, false, none, none⟩ := by
      rw [hcalls, ← h.calls]
      exact List.getElem?_concat_length
    rw [left, hcall, ha.new, ha.server, List.getElem?_eq_none h.tasks, ha.started,
      if_neg (not_lt.mpr (h.started.trans h.tasks))]
    rfl
  rw [Does, pending, pending, ha.length, Finset.sum_range_succ, hat, hlast]
  omega

/-- What is owned is what was owned, if a request that is to free takes it from the client. -/
theorem owned (ha : s.Asked s' sid request callableIndex parameter)
    (howned : s'.held + (begun request sid : Exchange Obj).owned s.exchanges.length s.started = s.held) :
    s'.owned = s.owned := by
  have hat (m : Nat) (hm : m ∈ Finset.range s.exchanges.length) : s'.ownedAt m = s.ownedAt m := by
    rw [ownedAt, ownedAt, ha.old (Finset.mem_range.mp hm), ha.started]
  rw [State.owned, State.owned, ha.length, Finset.sum_range_succ, Finset.sum_congr rfl hat, ownedAt_eq ha.new, ha.started,
    ← howned]
  rw [add_right_comm, add_assoc]

/-- The packet is under way. -/
theorem valid_new (ha : s.Asked s' sid request callableIndex parameter) (h : s.Good lang app)
    (hasks : s'.Asks app s.exchanges.length request ⟨BitVec.ofInt 32 sid, callableIndex.toInt, parameter, [], none⟩) :
    (begun request sid : Exchange Obj).Valid app s' s.exchanges.length ⟨BitVec.ofInt 32 sid, false, none, none⟩
      ⟨BitVec.ofInt 32 sid, callableIndex.toInt, parameter, [], none⟩ := by
  obtain ⟨hcalls, -, hsent, -, -⟩ := ha.call h
  have hnotask : s'.server.tasks[s.exchanges.length]? = none := by
    rw [ha.server]
    exact List.getElem?_eq_none h.tasks
  have hnot : ¬ s.exchanges.length < s'.started := by
    rw [ha.started]
    exact not_lt.mpr (h.started.trans h.tasks)
  have hnoresponse : s'.responses.get s.exchanges.length = none := by
    rw [ha.responses]
    exact Table.get_eq_none.mpr fun hm => lt_irrefl _ (h.answers _ hm)
  exact {
    invoked := fun t ht => by cases hnotask.symm.trans ht
    uninvoked := fun t ht => by cases hnotask.symm.trans ht
    arguments := fun hlt => absurd hlt hnot
    found := fun hlt => absurd hlt hnot
    succeeds := fun _ ho => by cases ho
    fails := fun _ ho => by cases ho
    call := by
      rw [hcalls, ← h.calls]
      exact List.getElem?_concat_length
    sid := rfl
    packet := by rw [State.packet, hsent, ← h.sent, List.getElem?_concat_length, Option.bind_some, parse_packet]
    session := rfl
    asks := hasks
    stage := by
      rw [hnotask, hnoresponse, decide_eq_false hnot]
      exact .asked ⟨rfl, rfl, rfl, rfl⟩ rfl
    puts := fun _ hr => by cases hr
    unput := fun _ => rfl }

theorem exchange (ha : s.Asked s' sid request callableIndex parameter) (h : s.Good lang app)
    (hasks : s'.Asks app s.exchanges.length request ⟨BitVec.ofInt 32 sid, callableIndex.toInt, parameter, [], none⟩)
    (hy : s'.exchanges[m]? = some y) : ∃ r q, y.Valid app s' m r q := by
  rcases ha.cases hy with ⟨hy, hm⟩ | ⟨rfl, rfl⟩
  · obtain ⟨r, q, hv⟩ := h.exchange m y hy
    refine ⟨r, q, ha.grows.valid hv hm ?_ rfl (ha.packet h hm) (ha.started ▸ id) (fun t ht _ => ⟨t, ha.server ▸ ht, rfl⟩) ?_⟩
    · rw [(ha.call h).1, List.getElem?_append_left (h.calls ▸ hm)]
      exact hv.call
    · rw [ha.server, ha.responses, ha.started]
      exact hv.stage
  · exact ⟨_, _, ha.valid_new h hasks⟩

/-- The request has been sent, and what it is to free has been taken from the client. -/
theorem good (ha : s.Asked s' sid request callableIndex parameter) (h : s.Good lang app)
    (howned : s'.held + (begun request sid : Exchange Obj).owned s.exchanges.length s.started = s.held)
    (hasks : s'.Asks app s.exchanges.length request ⟨BitVec.ofInt 32 sid, callableIndex.toInt, parameter, [], none⟩) :
    s'.Good lang app := by
  obtain ⟨hcalls, hpolls, hsent, hrunning, hreceiving⟩ := ha.call h
  obtain ⟨hstart, hle, -⟩ := ha.range h
  exact {
    running := hrunning.trans h.running
    receiving := hreceiving.trans h.receiving
    serverRunning := ha.server ▸ h.serverRunning
    serving := ha.server ▸ h.serving
    regular := ha.regular h
    polls := hpolls
    calls := by
      rw [hcalls, ha.length, List.length_append, h.calls]
      rfl
    sent := by
      rw [hsent, ha.length, List.length_append, h.sent]
      rfl
    tasks := by
      rw [ha.server, ha.length]
      exact h.tasks.trans (Nat.le_succ _)
    started := by
      rw [ha.server, ha.started]
      exact h.started
    keys := by
      rw [ha.responses]
      exact h.keys
    answers := by
      rw [ha.responses, ha.length]
      exact fun m hm => (h.answers m hm).trans (Nat.lt_succ_self _)
    cursor := by
      have hcursor := h.cursor.step (show s.sids.step .alloc = some _ from rfl)
      rw [Client.Extend.allocSid_ok ha.search] at hcursor
      rw [ha.sids]
      exact hcursor
    sids := fun m y hy => by
      rw [ha.sids]
      rcases ha.cases hy with ⟨hy, -⟩ | ⟨rfl, rfl⟩
      · obtain ⟨hs₁, hs₂, hmem⟩ := h.sids m y hy
        exact ⟨hs₁, hs₂, fun ho => Finset.mem_insert_of_mem (hmem ho)⟩
      · exact ⟨hstart, hle, fun _ => Finset.mem_insert_self _ _⟩
    distinct := fun m k y z hy hz hoy hoz he => by
      rcases ha.cases hy with ⟨hy, -⟩ | ⟨rfl, rfl⟩ <;> rcases ha.cases hz with ⟨hz, -⟩ | ⟨rfl, rfl⟩
      · exact h.distinct m k y z hy hz hoy hoz he
      · exact absurd he (ha.sid_ne h hy hoy)
      · exact absurd he.symm (ha.sid_ne h hz hoz)
      · rfl
    exchange := fun m y hy => ha.exchange h hasks hy
    holds := by
      rw [ha.owned howned, ha.server]
      exact h.holds
    stores := fun o ho => by
      obtain ⟨obj, hret, hst⟩ := h.stores o (ha.owned howned ▸ ho)
      exact ⟨obj, ha.grows.returnedAt hret, ha.server ▸ hst⟩ }

end Asked

/-- What `sends` does, with the objects of the client. -/
theorem asked_sends {sid : Int} {request : Request} {callableIndex : BitVec 32} {parameter : List UInt8}
    {handles : List Handle} (hsearch : search s.sids.usedSid s.sids.nextSid false = .ok sid)
    (hhandles : ∀ (i : Nat) (h₁ : Handle), s.handles[i]? = some h₁ → ∃ h₂, handles[i]? = some h₂ ∧ h₂.origin = h₁.origin)
    (hheld : ∀ o h₁, h₁ ∈ s.handles → h₁.owned = some o → (∃ h₂ ∈ handles, h₂.owned = some o) ∨ request = .free o.1 o.2) :
    s.Asked { s.sends sid request callableIndex parameter with handles } sid request callableIndex parameter :=
  ⟨hsearch, rfl, rfl, rfl, rfl, rfl, rfl, hhandles, hheld⟩

/-- A request that takes nothing from the client. -/
theorem Good.ask (h : s.Good lang app) {request : Request} {callableIndex : BitVec 32} {parameter : List UInt8}
    (hfree : ∀ value origin, request ≠ .free value origin)
    (hasks : ∀ sid (s' : State Obj Callable Hook), s.Grows s' → s'.handles = s.handles → s'.Asks app s.exchanges.length request
      ⟨sid, callableIndex.toInt, parameter, [], none⟩) : (s.ask request callableIndex parameter).Good lang app ∧
      s.Does (s.ask request callableIndex parameter) 0 := by
  cases hsearch : search s.sids.usedSid s.sids.nextSid false with
  | error cursor =>
    rw [ask_error hsearch]
    exact h.noSid hsearch
  | ok sid =>
    have hasked : s.Asked (s.sends sid request callableIndex parameter) sid request callableIndex parameter :=
      asked_sends hsearch (fun i h₁ hh => ⟨h₁, hh, rfl⟩) fun o h₁ hmem ho => .inl ⟨h₁, hmem, ho⟩
    rw [ask_ok hsearch]
    refine ⟨hasked.good h ?_ (hasks _ _ hasked.grows rfl), hasked.does h⟩
    cases request with
    | free value origin => exact absurd rfl (hfree value origin)
    | _ => exact add_zero _

theorem Good.getFunc (h : s.Good lang app) {name : Utf16} (hp : s.Proper app (.getFunc name)) :
    (s.getFunc name).Good lang app ∧ s.Does (s.getFunc name) 0 := by
  rw [State.getFunc, if_pos h.running]
  exact h.ask (fun _ _ he => by cases he) fun _ _ _ _ => ⟨rfl, rfl, Option.isSome_iff_ne_none.mp hp⟩

/-- The index of a live object. -/
theorem Good.refers_live (h : s.Good lang app) (hhandles : s'.handles = s.handles) {i : Nat}
    (hlive : s.Live i) : s'.Refers n i (indexAt s.handles i) ∧ ∃ obj, Stores s.server.refPool obj (indexAt s.handles i) := by
  obtain ⟨handle, hh, hvalue⟩ := hlive
  obtain ⟨value, hv⟩ := Option.isSome_iff_exists.mp hvalue
  have hindex : indexAt s.handles i = value := by rw [indexAt, hh, Option.map_some, Option.getD_some, Handle.index, hv]; rfl
  have howned : handle.owned = some (value, handle.origin) := by rw [Handle.owned, hv, Option.map_some]
  have hmem : handle ∈ s.handles := List.mem_of_getElem? hh
  obtain ⟨obj, -, hst⟩ := h.stores _ (mem_owned_of_held hmem howned)
  rw [hindex]
  exact ⟨⟨handle, hhandles ▸ hh, fun _ => .inl ⟨handle, hhandles ▸ hmem, howned⟩⟩, obj, hst⟩

theorem Good.call (h : s.Good lang app) {callable : Nat} {decl : Decl} {args : List (Value Nat)}
    (hp : s.Proper app (.call callable decl args)) :
    (s.call callable decl args).Good lang app ∧ s.Does (s.call callable decl args) 0 := by
  obtain ⟨hd, hcallable, hargs, c, hc, hdecl⟩ := hp
  have hrow (P : Nat → BitVec 32 → Prop) (hP : ∀ i, s.Live i → P i (indexAt s.handles i)) :
      List.Forall₂ (Value.Puts P) args (args.map (Value.cell (indexAt s.handles))) := by
    rw [List.forall₂_map_right_iff, List.forall₂_same]
    intro v hv
    cases v with
    | object i => exact ⟨_, rfl, hP i (hargs _ hv)⟩
    | _ => rfl
  have hparameter := serArgs_eq hd
    (hrow (fun _ index => ∃ obj, Stores s.server.refPool obj index) fun i hi => (h.refers_live (n := 0) rfl hi).2)
    (fun _ _ hst => hst.choose_spec.ne) rfl
  rw [State.call, hparameter]
  simp only [h.running, if_true]
  refine h.ask (fun _ _ he => by cases he) fun sid s' hg hhandles => ?_
  obtain ⟨hrefers, obj, hst⟩ := h.refers_live (n := s.exchanges.length) hhandles hcallable
  refine ⟨_, _, rfl, ?_, rfl, hd, hrefers, hrow _ fun i hi => (h.refers_live hhandles hi).1, c, hg.callee hc, hdecl⟩
  rw [hst.toInt]
  exact Int.natCast_nonneg _

theorem Good.free (h : s.Good lang app) {i : Nat} (hs : s.free i = some s') :
    s'.Good lang app ∧ s.Does s' 0 := by
  obtain ⟨handle, hh, hs⟩ := Option.map_eq_some_iff.mp hs
  split at hs
  · exact hs ▸ ⟨h, rfl⟩
  rename_i value hv
  cases hsearch : search s.sids.usedSid s.sids.nextSid false with
  | error cursor =>
    rw [Client.Extend.allocSid_error hsearch] at hs
    exact hs ▸ h.noSid hsearch
  | ok sid =>
    have howned : handle.owned = some (value, handle.origin) := by rw [Handle.owned, hv, Option.map_some]
    simp only [Client.Extend.allocSid_ok hsearch, ask_ok hsearch] at hs
    have hasked : s.Asked { s.sends sid (.free value handle.origin) (-2) (leBytes 4 value.toNat) with
        handles := s.handles.set i { handle with value := none } } sid (.free value handle.origin) (-2)
        (leBytes 4 value.toNat) := by
      refine asked_sends hsearch (fun j h₁ hj => getElem?_set_origin hh hj) fun o h₁ hmem ho => ?_
      refine (mem_set_of_owned hh hmem ho).imp (fun hset => ⟨h₁, hset, ho⟩) fun he => ?_
      obtain rfl := Option.some.inj (howned.symm.trans he)
      rfl
    have hset := filterMap_set (f := Handle.owned) (b := { handle with value := none }) rfl hh
    rw [howned] at hset
    rw [← hs]
    refine ⟨hasked.good h ?_ ⟨rfl, rfl⟩, hasked.does h⟩
    simpa [Exchange.owned, begun, refs, held, h.started.trans h.tasks] using hset

theorem Good.asCallable (h : s.Good lang app) {i : Nat} (hs : s.asCallable i = some s') :
    s'.Good lang app ∧ s.Does s' 0 := by
  obtain ⟨handle, hh, rfl⟩ := Option.map_eq_some_iff.mp hs
  have hg : s.Grows { s with handles := s.handles.set i { handle with value := none } ++ [handle] } := by
    refine ⟨le_rfl, fun j h₁ hj => ?_, fun n x hx => ⟨x, hx, rfl, fun _ hr => hr⟩, fun o hheld => .inl ?_⟩
    · obtain ⟨h₂, hset, horigin⟩ := getElem?_set_origin hh hj
      exact ⟨h₂, TypeScript.Client.getElem?_append_some hset, horigin⟩
    · obtain ⟨h₁, hmem, ho⟩ := hheld
      rcases mem_set_of_owned hh hmem ho with hset | he
      · exact ⟨h₁, List.mem_append_left _ hset, ho⟩
      · exact ⟨handle, List.mem_append_right _ (List.mem_singleton_self _), he⟩
  have howned : ({ s with handles := s.handles.set i { handle with value := none } ++ [handle] } :
      State Obj Callable Hook).owned = s.owned := by
    refine owned_congr rfl ?_ fun _ => rfl
    have hset := filterMap_set (f := Handle.owned) (b := { handle with value := none }) rfl hh
    rw [held, held, List.filterMap_append, ← hset, ← Multiset.coe_add]
    congr 2
  refine ⟨⟨⟨h.running, h.receiving, h.serverRunning, h.serving⟩, h.regular, h.polls, h.calls, h.sent, h.tasks, h.started,
    h.keys, h.answers, h.cursor, h.sids, h.distinct, fun n x hx => ?_, howned ▸ h.holds, fun o ho => ?_⟩, rfl⟩
  · obtain ⟨r, q, hv⟩ := h.exchange n x hx
    exact ⟨r, q, hg.valid hv (List.getElem?_eq_some_iff.mp hx).1 hv.call rfl rfl id (fun t ht _ => ⟨t, ht, rfl⟩) hv.stage⟩
  · obtain ⟨obj, hret, hst⟩ := h.stores o (howned ▸ ho)
    exact ⟨obj, hg.returnedAt hret, hst⟩

end State

end PxpRpc.Session
