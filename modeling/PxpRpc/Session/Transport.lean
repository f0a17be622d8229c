import PxpRpc.Session.Invariant

/-!
# Packets on their way

The steps of a session in which an exchange gets from one stage to the next and nothing else
changes.
-/
namespace PxpRpc.Session

open PxpRpc.Lib PxpRpc.Client PxpRpc.Codec
open PxpRpc.TypeScript (Call Client)
open PxpRpc.Server.Tasks (Lang Outcome PxpRequest)

variable {Obj Callable Hook : Type} {lang : Lang} {app : Application Obj Callable Hook}
  {s s' : State Obj Callable Hook} {q : PxpRequest} {x : Exchange Obj}

/-! ### Messages -/

theorem read_word (sid : Sid) (bytes : List UInt8) : Sid.read (leBytes 4 sid.toNat ++ bytes) = sid := by
  rw [Sid.read, List.take_left' (length_leBytes 4 _), leValue_leBytes_of_lt (by simpa using sid.isLt), BitVec.ofNat_toNat,
    BitVec.setWidth_eq]

theorem drop_word (sid : Sid) (bytes : List UInt8) : (leBytes 4 sid.toNat ++ bytes).drop 4 = bytes :=
  List.drop_left' (length_leBytes 4 _)

theorem length_message (session : BitVec 32) (o : Outcome) : 4 ≤ (Server.Tasks.message session o).length := by
  unfold Server.Tasks.message
  split <;> simp

/-- The id in front of a response, and what is behind it. -/
theorem read_message (session : Sid) (o : Outcome) :
    Sid.read (Server.Tasks.message session o) = o.rejected.elim session (fun _ => session.error) ∧
      (Server.Tasks.message session o).drop 4 = o.rejected.getD o.result := by
  unfold Server.Tasks.message
  split
  · rename_i hr
    rw [hr]
    exact ⟨read_word _ _, drop_word _ _⟩
  · rename_i text hr
    rw [hr]
    exact ⟨read_word _ _, drop_word _ _⟩

theorem answers_message (session : Sid) (o : Outcome) : (Sid.read (Server.Tasks.message session o)).Answers session := by
  rw [(read_message session o).1]
  cases o.rejected with
  | none => exact .inl rfl
  | some text => exact .inr rfl

/-- The result of a response is that of the callable, or the text of its error. -/
theorem result_message {session : Sid} (hs : ¬ session.IsError) (o : Outcome) :
    Call.result (.ok (Sid.read (Server.Tasks.message session o), (Server.Tasks.message session o).drop 4)) = answer o := by
  obtain ⟨hid, hrest⟩ := read_message session o
  rw [hid, hrest, answer]
  cases o.rejected with
  | none => exact if_neg hs
  | some text => exact if_pos (Sid.isError_error hs)

/-! ### Words -/

theorem getInt32_word (v : BitVec 32) : Pool.getInt32 (leBytes 4 v.toNat) 0 = some v.toInt := by
  have hlen : 0 + 4 ≤ (leBytes 4 v.toNat).length := by simp
  rw [Pool.getInt32, Pool.getUint32, if_pos hlen, List.drop_zero, List.take_of_length_le (by simp),
    leValue_leBytes_of_lt (by simpa using v.isLt), Option.map_some, BitVec.ofNat_toNat, BitVec.setWidth_eq]

theorem rowBytes_object (index : BitVec 32) : rowBytes [.o] [.object index] = leBytes 4 index.toNat := by
  rw [rowBytes_of_ne (by decide)]
  simp [Wire.cellItem, Wire.encodeAll, Wire.Item.encode, Wire.Item.pieces]

/-! ### Sids -/

theorem ofInt_toNat {sid : Int} (hs : Client.Extend.sidStart ≤ sid) (he : sid ≤ Client.Extend.sidEnd) :
    ((BitVec.ofInt 32 sid).toNat : Int) = sid := by
  have h₁ : 1 ≤ sid := hs
  have h₂ : sid ≤ 0xffff := he
  rw [BitVec.toNat_ofInt]
  omega

theorem ofInt_lt {sid : Int} (hs : Client.Extend.sidStart ≤ sid) (he : sid ≤ Client.Extend.sidEnd) :
    (BitVec.ofInt 32 sid).toNat < 2 ^ 16 := by
  have h := ofInt_toNat hs he
  have h₂ : sid ≤ 0xffff := he
  omega

theorem not_isError_of_lt {sid : Sid} (h : sid.toNat < 2 ^ 16) : ¬ sid.IsError := by
  refine not_not.mpr (BitVec.eq_of_toNat_eq ?_)
  rw [BitVec.toNat_and]
  change sid.toNat &&& 2 ^ 31 = 0
  rw [Nat.and_two_pow, Nat.testBit_lt_two_pow (by omega)]
  rfl

theorem ne_signal_of_lt {sid : Sid} (h : sid.toNat < 2 ^ 16) : sid ≠ .signal := by
  rintro rfl
  exact absurd h (by decide)

namespace State

theorem Good.sid_lt (h : s.Good lang app) {n : Nat} (hx : s.exchanges[n]? = some x) :
    (BitVec.ofInt 32 x.sid).toNat < 2 ^ 16 := by
  obtain ⟨hs, he, -⟩ := h.sids n x hx
  exact ofInt_lt hs he

end State

/-! ### The client -/

/-- What a stage needs of the call of the base client. -/
theorem Stage.congr {started : Bool} {r r' : Call} {t : Option (Server.Tasks.Task Callable)} {m : Option (List UInt8)}
    (h : Stage q x started r t m) (ho : r'.outcome = r.outcome) (hf : r'.respFut = r.respFut) :
    Stage q x started r' t m := by
  have hopen : r'.isOpen = r.isOpen := by rw [Call.isOpen, Call.isOpen, ho, hf]
  cases h with
  | asked fresh isOpen => exact .asked fresh (hopen.trans isOpen)
  | arrived fresh isOpen => exact .arrived fresh (hopen.trans isOpen)
  | running returned outcome isOpen => exact .running returned outcome (hopen.trans isOpen)
  | settled session index reply same outcome isOpen =>
    exact .settled session index reply same outcome (hopen.trans isOpen)
  | answered stack reply outcome isOpen => exact .answered stack reply outcome (hopen.trans isOpen)
  | received stack reply outcome waits respFut =>
    exact .received stack reply outcome (ho.trans waits) (hf.trans respFut)
  | resumed stack reply outcome result => exact .resumed stack reply outcome (ho.trans result)
  | finished stack reply outcome result => exact .finished stack reply outcome (ho ▸ result)

/-- A call that waits has no outcome yet. -/
theorem Stage.outcome_of {started : Bool} {r : Call} {t : Option (Server.Tasks.Task Callable)} {m : Option (List UInt8)}
    (h : Stage q x started r t m) (ho : r.outcome = none) : x.outcome = none := by
  cases h with
  | asked fresh isOpen => exact fresh.outcome
  | arrived fresh isOpen => exact fresh.outcome
  | running returned outcome isOpen => exact outcome
  | settled session index reply same outcome isOpen => exact outcome
  | answered stack reply outcome isOpen => exact outcome
  | received stack reply outcome waits respFut => exact outcome
  | resumed stack reply outcome result => exact outcome
  | finished stack reply outcome result => exact absurd ho result

theorem Stage.sends_of {started : Bool} {r : Call} {t : Server.Tasks.Task Callable} {m : Option (List UInt8)}
    (h : Stage q x started r (some t) m) (hsends : t.stack.head? = some .sends) : t.stack = [.sends] := by
  have hcases (hst : t.stack = [.sends] ∨ t.stack = []) : t.stack = [.sends] := by
    refine hst.resolve_right fun hnil => ?_
    rw [hnil] at hsends
    cases hsends
  cases h with
  | arrived fresh isOpen => cases hsends
  | running returned outcome isOpen => cases hsends
  | settled session index reply same outcome isOpen => cases hsends
  | answered stack reply outcome isOpen => exact hcases stack
  | received stack reply outcome waits respFut => exact hcases stack
  | resumed stack reply outcome result => exact hcases stack
  | finished stack reply outcome result => exact hcases stack

namespace State.Good

/-- A step of the base client in which one call goes on. -/
theorem goes_client (h : s.Good lang app) {n : Nat} {r r' : Call} {c' : Client} {responses : Table Nat (List UInt8)}
    (hs : s' = { s with client := c', responses }) (hr : s.client.calls[n]? = some r)
    (hcalls : c'.calls = s.client.calls.set n r') (hsid : r'.sid = r.sid) (hleft : callLeft r' + 1 = callLeft r)
    (hregular : c'.Regular) (hpolls : c'.polls = s.client.polls) (hsent : c'.sent = s.client.sent)
    (hrunning : c'.running = s.client.running) (hreceiving : c'.receiving)
    (hkeys : responses.keys.Nodup) (hanswers : ∀ m ∈ responses.keys, m ∈ s.responses.keys)
    (hresponses : ∀ m, m ≠ n → responses.get m = s.responses.get m)
    (hstage : ∀ x q, x.Valid app s n r q → Stage q x (decide (n < s.started)) r' s.server.tasks[n]? (responses.get n)) :
    s'.Good lang app ∧ s.Does s' 1 := by
  subst hs
  have hlt : n < s.client.calls.length := (List.getElem?_eq_some_iff.mp hr).1
  have hself : c'.calls[n]? = some r' := by rw [hcalls, List.getElem?_set_self hlt]
  have ha : s.Apart { s with client := c', responses } n :=
    ⟨fun _ _ => rfl, fun m hm => by rw [hcalls, List.getElem?_set_ne (Ne.symm hm)], fun _ _ => rfl, hresponses,
      fun _ _ => Iff.rfl⟩
  refine ⟨h.goes ⟨rfl, rfl, rfl, rfl, rfl, hsent⟩ ⟨hrunning.trans h.running, hreceiving, h.serverRunning, h.serving⟩
    hregular (hpolls.trans h.polls) (by rw [hcalls, List.length_set]) h.tasks le_rfl hkeys
    (fun m hm => .inr (hanswers m hm)) ha (fun x r₀ q hv _ => ?_) (h.calls ▸ hlt), ha.does rfl (h.calls ▸ hlt) ?_⟩
  · obtain rfl := Option.some.inj (hr.symm.trans hv.call)
    exact ⟨r', hself, hsid, fun t ht _ => ⟨t, ht, rfl⟩, hstage x q hv⟩
  · rw [left, left, hr, hself]
    simp only [Option.elim_some]
    omega

theorem requestSent (h : s.Good lang app) {n : Nat} (hs : s.onClient (.callSent n true) = some s') :
    s'.Good lang app ∧ s.Does s' 1 := by
  obtain ⟨c', hc, rfl⟩ := Option.map_eq_some_iff.mp hs
  have hregular := h.regular.step (show s.client.FreshSid (.callSent n true) from trivial) hc
  obtain ⟨r, hr, hc⟩ := Option.bind_eq_some_iff.mp hc
  split at hc
  case isFalse => cases hc
  rename_i hwaits
  obtain rfl := Option.some.inj hc
  obtain ⟨hsent, ho⟩ : r.sent = false ∧ r.outcome = none := by simpa using hwaits
  refine h.goes_client rfl hr rfl rfl ?_ hregular rfl rfl rfl h.receiving h.keys (fun _ hm => hm) (fun _ _ => rfl)
    fun x q hv => hv.stage.congr rfl rfl
  simp only [callLeft, hsent, if_true, Bool.false_eq_true, if_false]
  omega

theorem resume (h : s.Good lang app) {n : Nat} (hs : s.onClient (.resume n) = some s') :
    s'.Good lang app ∧ s.Does s' 1 := by
  obtain ⟨c', hc, rfl⟩ := Option.map_eq_some_iff.mp hs
  have hregular := h.regular.step (show s.client.FreshSid (.resume n) from trivial) hc
  obtain ⟨r, hr, ho, hend, hcalls, hpolls, -⟩ := Client.resume_eq h.regular hc
  have hframe : c'.sent = s.client.sent ∧ c'.running = s.client.running ∧ c'.receiving = s.client.receiving := by
    obtain ⟨r', -, hc⟩ := Option.bind_eq_some_iff.mp hc
    split at hc
    · split at hc
      · cases hc
      · obtain rfl := Option.some.inj hc
        exact ⟨rfl, rfl, rfl⟩
      · obtain rfl := Option.some.inj hc
        exact ⟨rfl, rfl, rfl⟩
    · cases hc
  have hafter : r.after (.resume n) n = { r with outcome := r.respFut.map Call.result } := if_pos rfl
  rw [hafter] at hend hcalls
  have hleft : callLeft { r with outcome := r.respFut.map Call.result } + 1 = callLeft r := by
    cases hf : r.respFut with
    | none => simp [hf] at hend
    | some result => simp [callLeft, hf, ho]
  refine h.goes_client rfl hr hcalls rfl hleft hregular hpolls hframe.1 hframe.2.1 (hframe.2.2.trans h.receiving) h.keys
    (fun _ hm => hm) (fun _ _ => rfl) fun x q hv => ?_
  have hstage := hv.stage
  generalize decide (n < s.started) = started, s.server.tasks[n]? = t, s.responses.get n = m at hstage
  have hnot : ¬ r.isOpen := fun hopen => hend (by rw [(Call.isOpen_iff.mp hopen).2]; rfl)
  have hlt : r.sid.toNat < 2 ^ 16 := by
    obtain ⟨y, hy⟩ : ∃ y, s.exchanges[n]? = some y := by
      have hlt : n < s.exchanges.length := h.calls ▸ (List.getElem?_eq_some_iff.mp hr).1
      exact ⟨_, List.getElem?_eq_getElem hlt⟩
    obtain ⟨r₀, q₀, hv₀⟩ := h.exchange n y hy
    obtain rfl := Option.some.inj (hr.symm.trans hv₀.call)
    rw [hv₀.sid]
    exact h.sid_lt hy
  cases hstage with
  | received stack reply outcome waits respFut =>
    refine .resumed stack reply outcome ?_
    rw [respFut, Option.map_some, result_message (hv.session ▸ not_isError_of_lt hlt)]
  | resumed stack reply outcome result => exact absurd (ho.symm.trans result) (by simp)
  | finished stack reply outcome result => exact absurd ho result
  | asked fresh isOpen => exact absurd isOpen hnot
  | arrived fresh isOpen => exact absurd isOpen hnot
  | running returned outcome isOpen => exact absurd isOpen hnot
  | settled session index reply same outcome isOpen => exact absurd isOpen hnot
  | answered stack reply outcome isOpen => exact absurd isOpen hnot

theorem receive (h : s.Good lang app) (hs : s.receive = some s') : s'.Good lang app ∧ s.Does s' 1 := by
  rw [State.receive] at hs
  split at hs
  · cases hs
  rename_i n buf responses hq
  obtain ⟨c', hc, rfl⟩ := Option.map_eq_some_iff.mp hs
  rw [Client.step, if_pos h.receiving] at hc
  obtain rfl := Option.some.inj hc
  have hkeys : n ∉ Table.keys responses ∧ (Table.keys responses).Nodup := by
    have := h.keys
    rw [hq] at this
    exact List.nodup_cons.mp this
  have hget : s.responses.get n = some buf := by
    rw [hq]
    exact Table.get_of_mem (by rw [← hq]; exact h.keys) List.mem_cons_self
  have hlt : n < s.exchanges.length := h.answers n (Table.mem_keys (Table.mem_of_get hget))
  obtain ⟨x, hx⟩ : ∃ x, s.exchanges[n]? = some x := ⟨_, List.getElem?_eq_getElem hlt⟩
  obtain ⟨r, q, hv⟩ := h.exchange n x hx
  obtain ⟨o, hbuf, hopen⟩ : ∃ o, buf = Server.Tasks.message q.session o ∧ r.isOpen := by
    have hstage := hv.stage
    rw [hget] at hstage
    generalize decide (n < s.started) = started, s.server.tasks[n]? = t at hstage
    cases hstage with
    | answered stack reply outcome isOpen => exact ⟨_, rfl, isOpen⟩
  obtain ⟨ho, hf⟩ := Call.isOpen_iff.mp hopen
  have hsid : r.sid.toNat < 2 ^ 16 := hv.sid ▸ h.sid_lt hx
  have hans : (Sid.read buf).Answers r.sid := by
    rw [hbuf, ← hv.session]
    exact answers_message _ o
  have hmask := hans.mask (not_isError_of_lt hsid)
  have hsignal : Sid.read buf ≠ .signal := fun he => by
    rw [he] at hmask
    rw [← hmask] at hsid
    exact absurd hsid (by decide)
  have hentry := h.regular.get (h.regular.call n r hv.call ho)
  have hreceive := Client.receive_call (hbuf ▸ length_message _ _) hsignal (hmask ▸ hentry)
  have hregular := h.regular.receive buf
  have hcalls : (s.client.receive buf).calls =
      s.client.calls.set n { r with respFut := some (.ok (Sid.read buf, buf.drop 4)) } := by
    rw [hreceive]
    change s.client.calls.modify n _ = _
    rw [List.modify_eq_set_getElem?, hv.call, Option.map_eq_map, Option.map_some, Option.getD_some,
      Call.settle_of_open hopen]
  refine h.goes_client rfl hv.call hcalls rfl (by simp [callLeft, ho, hf]) hregular (by rw [hreceive]; rfl)
    (by rw [hreceive]; rfl) (by rw [hreceive]; rfl) (by rw [hreceive]; exact h.running) hkeys.2
    (fun m hm => by rw [hq]; exact List.mem_cons_of_mem _ hm) (fun m hm => ?_) fun y q' hv' => ?_
  · rw [hq, Table.get, Table.get, List.find?_cons_of_neg (by simpa using Ne.symm hm)]
  · have hnone : Table.get responses n = none := Table.get_eq_none.mpr hkeys.1
    have hstage := hv'.stage
    rw [hget] at hstage
    rw [hnone]
    generalize decide (n < s.started) = started, s.server.tasks[n]? = t at hstage ⊢
    cases hstage with
    | answered stack reply outcome isOpen => exact .received stack reply outcome ho rfl

/-! ### The server -/

/-- A step of the server in which one task goes on. -/
theorem goes_server (h : s.Good lang app) {n : Nat} {t t' : Server.Tasks.Task Callable} {responses : Table Nat (List UInt8)}
    (hs : s' = { s with server := s.server.put n t', responses }) (ht : s.server.tasks[n]? = some t)
    (hinvoked : invocations t' = invocations t) (hleft : taskLeft t' + 1 = taskLeft t)
    (hkeys : responses.keys.Nodup) (hanswers : ∀ m ∈ responses.keys, m = n ∨ m ∈ s.responses.keys)
    (hresponses : ∀ m, m ≠ n → responses.get m = s.responses.get m)
    (hstage : ∀ x r q, x.Valid app s n r q → Stage q x (decide (n < s.started)) r (some t') (responses.get n)) :
    s'.Good lang app ∧ s.Does s' 1 := by
  subst hs
  have hlt := (List.getElem?_eq_some_iff.mp ht).1
  have hself : (s.server.put n t').tasks[n]? = some t' := List.getElem?_set_self hlt
  have ha : s.Apart { s with server := s.server.put n t', responses } n :=
    ⟨fun _ _ => rfl, fun _ _ => rfl, fun m hm => List.getElem?_set_ne (Ne.symm hm), hresponses, fun _ _ => Iff.rfl⟩
  refine ⟨h.goes ⟨rfl, rfl, rfl, rfl, rfl, rfl⟩ ⟨h.running, h.receiving, h.serverRunning, h.serving⟩ h.regular
    h.polls rfl (by simpa [Server.Tasks.Server.put] using h.tasks) (by simp [Server.Tasks.Server.put]) hkeys hanswers ha
    (fun x r q hv _ => ⟨r, hv.call, rfl, fun t₁ ht₁ _ => ⟨t, ht, ?_⟩, ?_⟩) (hlt.trans_le h.tasks),
    ha.does rfl (hlt.trans_le h.tasks) ?_⟩
  · obtain rfl := Option.some.inj (hself.symm.trans ht₁)
    exact hinvoked
  · rw [hself]
    exact hstage x r q hv
  · rw [left, left, ht, hself]
    simp only [Option.elim_some]
    omega

theorem callableIndex_ne {n : Nat} {request : Request} (h : s.Asks app n request q) : q.callableIndex ≠ -3 := by
  cases request with
  | getFunc name =>
    rw [h.1]
    decide
  | free value origin =>
    rw [h.1]
    decide
  | call callable decl args =>
    obtain ⟨value, row, hi, hnonneg, -⟩ := h
    rw [hi]
    omega

theorem respond (h : s.Good lang app) {n : Nat} (hs : s.respond lang app n = some s') :
    s'.Good lang app ∧ s.Does s' 1 := by
  obtain ⟨t, ht, hs⟩ := Option.bind_eq_some_iff.mp hs
  split at hs
  case isFalse => cases hs
  rename_i hcalled
  have hlt := (List.getElem?_eq_some_iff.mp ht).1
  obtain ⟨x, hx⟩ : ∃ x, s.exchanges[n]? = some x := ⟨_, List.getElem?_eq_getElem (hlt.trans_le h.tasks)⟩
  obtain ⟨r, q, hv⟩ := h.exchange n x hx
  have hsettled {y : Exchange Obj} {r' : Call} {q' : PxpRequest} (hv : y.Valid app s n r' q') : ∃ o,
      t.stack = [.called] ∧ t.request.session = q'.session ∧ t.request.callableIndex = q'.callableIndex ∧
      t.request.outcome = o ∧ y.reply = some o ∧ y.outcome = none ∧ r'.isOpen ∧ n < s.started ∧
      s.responses.get n = none := by
    have hstage := hv.stage
    rw [ht] at hstage
    generalize hd : decide (n < s.started) = started, hm : s.responses.get n = m at hstage
    cases hstage with
    | settled session index reply same outcome isOpen =>
      exact ⟨_, rfl, session, index, same, reply, outcome, isOpen, of_decide_eq_true hd, rfl⟩
    | arrived fresh isOpen => cases hcalled
    | running returned outcome isOpen => cases hcalled
    | answered stack reply outcome isOpen => rcases stack with hst | hst <;> rw [hst] at hcalled <;> cases hcalled
    | received stack reply outcome waits respFut =>
      rcases stack with hst | hst <;> rw [hst] at hcalled <;> cases hcalled
    | resumed stack reply outcome result => rcases stack with hst | hst <;> rw [hst] at hcalled <;> cases hcalled
    | finished stack reply outcome result => rcases stack with hst | hst <;> rw [hst] at hcalled <;> cases hcalled
  obtain ⟨o, hstack, hsession, hindex, -, -, -, -, -, hnone⟩ := hsettled hv
  have hresp : Server.Tasks.respond t =
      (t.goes .sends).logs (.sent (Server.Tasks.message t.request.session t.request.outcome)) := by
    refine if_neg (not_or.mpr ⟨hindex ▸ callableIndex_ne hv.asks, ?_⟩)
    rw [hsession, hv.session, hv.sid]
    exact ne_signal_of_lt (h.sid_lt hx)
  have hstep : s.onServer lang app (.resumes n) =
      some { s with server := s.server.put n (Server.Tasks.respond t) } := by
    rw [onServer, Server.Tasks.step, ht, Option.bind_some, Server.Tasks.resume.eq_def, hstack]
    rfl
  have hput : (s.server.put n (Server.Tasks.respond t)).tasks[n]? = some (Server.Tasks.respond t) :=
    List.getElem?_set_self hlt
  rw [hstep, Option.bind_some, hput, Option.map_some, hresp] at hs
  have hhead : ((t.goes .sends).logs (.sent (Server.Tasks.message t.request.session t.request.outcome))).stack.head? =
      some .sends := rfl
  have hlast : ((t.goes .sends).logs (.sent (Server.Tasks.message t.request.session t.request.outcome))).history.getLast? =
      some (.sent (Server.Tasks.message t.request.session t.request.outcome)) := List.getLast?_concat
  simp only [hhead, hlast] at hs
  obtain rfl := Option.some.inj hs
  have hkeys : n ∉ s.responses.keys := Table.get_eq_none.mp hnone
  refine h.goes_server rfl ht ?_ ?_ ?_ (fun m hm => ?_) (fun m hm => ?_) fun y r' q' hv' => ?_
  · simp [invocations, Server.Tasks.Task.logs, Server.Tasks.Task.goes]
  · simp [taskLeft, Server.Tasks.Task.logs, Server.Tasks.Task.goes, hstack]
  · rw [Table.keys, List.map_append]
    exact h.keys.append (List.nodup_singleton n) (List.disjoint_singleton.mpr hkeys)
  · rw [Table.keys, List.map_append] at hm
    rcases List.mem_append.mp hm with hm | hm
    · exact .inr hm
    · exact .inl (List.mem_singleton.mp hm)
  · rw [Table.get, Table.get, List.find?_append]
    simp [Ne.symm hm]
  · obtain ⟨o, hstack, hsession, -, hsame, hreply, houtcome, hopen, hstarted, -⟩ := hsettled hv'
    have hget : Table.get (s.responses ++ [(n, Server.Tasks.message t.request.session t.request.outcome)]) n =
        some (Server.Tasks.message q'.session o) := by
      rw [Table.get, List.find?_append, List.find?_eq_none.mpr fun e he => ?_]
      · simp [hsession, hsame]
      · simpa using fun hk : e.1 = n => hkeys (hk ▸ List.mem_map_of_mem he)
    rw [hget, decide_eq_true hstarted]
    exact .answered (.inl (by rw [Server.Tasks.Task.logs, Server.Tasks.Task.goes, hstack]; rfl)) hreply houtcome hopen

/-- The response is out of the server's hands. -/
theorem responseSent (h : s.Good lang app) {n : Nat} (hs : s.onServer lang app (.sends n true) = some s') :
    s'.Good lang app ∧ s.Does s' 1 := by
  obtain ⟨server, hstep, rfl⟩ := Option.map_eq_some_iff.mp hs
  obtain ⟨t, ht, hstep⟩ := Option.bind_eq_some_iff.mp hstep
  split at hstep
  case isFalse => cases hstep
  rename_i hsends
  obtain rfl := Option.some.inj hstep
  have hlt := (List.getElem?_eq_some_iff.mp ht).1
  obtain ⟨x, hx⟩ : ∃ x, s.exchanges[n]? = some x := ⟨_, List.getElem?_eq_getElem (hlt.trans_le h.tasks)⟩
  obtain ⟨r₀, q₀, hv₀⟩ := h.exchange n x hx
  have hstack : t.stack = [.sends] := (ht ▸ hv₀.stage).sends_of hsends
  refine h.goes_server rfl ht rfl ?_ h.keys (fun _ hm => .inr hm) (fun _ _ => rfl) fun y r q hv => ?_
  · simp [taskLeft, Server.Tasks.Task.returns, hstack]
  have hstage := hv.stage
  rw [ht] at hstage
  have hreturns : t.returns.stack = [.sends] ∨ t.returns.stack = [] := by simp [Server.Tasks.Task.returns, hstack]
  generalize decide (n < s.started) = started, s.responses.get n = m at hstage
  cases hstage with
  | arrived fresh isOpen => cases hsends
  | running returned outcome isOpen => cases hsends
  | settled session index reply same outcome isOpen => cases hsends
  | answered stack reply outcome isOpen => exact .answered hreturns reply outcome isOpen
  | received stack reply outcome waits respFut => exact .received hreturns reply outcome waits respFut
  | resumed stack reply outcome result => exact .resumed hreturns reply outcome result
  | finished stack reply outcome result => exact .finished hreturns reply outcome result

theorem arrive (h : s.Good lang app) (hs : s.arrive lang app = some s') : s'.Good lang app ∧ s.Does s' 1 := by
  obtain ⟨frame, hframe, hs⟩ := Option.bind_eq_some_iff.mp hs
  obtain ⟨server, hstep, rfl⟩ := Option.map_eq_some_iff.mp hs
  have hlt : s.server.tasks.length < s.exchanges.length := h.sent ▸ (List.getElem?_eq_some_iff.mp hframe).1
  obtain ⟨x, hx⟩ : ∃ x, s.exchanges[s.server.tasks.length]? = some x := ⟨_, List.getElem?_eq_getElem hlt⟩
  obtain ⟨r, q, hv⟩ := h.exchange _ x hx
  have hparse : Server.Tasks.parse frame = some q := by
    have := hv.packet
    rwa [packet, hframe] at this
  rw [Server.Tasks.step, if_pos h.serving, Option.bind_some, hparse] at hstep
  obtain rfl := Option.some.inj hstep
  have hnew : (s.server.tasks ++ [(⟨q, [.enters], []⟩ : Server.Tasks.Task Callable)])[s.server.tasks.length]? =
      some ⟨q, [.enters], []⟩ := List.getElem?_concat_length
  have hnone : s.server.tasks[s.server.tasks.length]? = none := List.getElem?_eq_none le_rfl
  have hnot : ¬ s.server.tasks.length < s.started := not_lt.mpr h.started
  have ha : s.Apart { s with server := { s.server with
      serving := s.server.running
      tasks := s.server.tasks ++ [⟨q, [.enters], []⟩] } } s.server.tasks.length := by
    refine ⟨fun _ _ => rfl, fun _ _ => rfl, fun m hm => ?_, fun _ _ => rfl, fun _ _ => Iff.rfl⟩
    rw [List.getElem?_append]
    split
    · rfl
    · rw [List.getElem?_eq_none (by simp; omega), List.getElem?_eq_none (by omega)]
  refine ⟨h.goes ⟨rfl, rfl, rfl, rfl, rfl, rfl⟩ ⟨h.running, h.receiving, h.serverRunning, h.serverRunning⟩ h.regular
    h.polls rfl (by simpa using hlt) (by simp) h.keys (fun _ hm => .inr hm) ha (fun y r' q' hv' _ => ?_) hlt,
    ha.does rfl hlt ?_⟩
  · obtain rfl := Option.some.inj (hv.packet.symm.trans hv'.packet)
    refine ⟨r', hv'.call, rfl, fun t _ hst => absurd hst hnot, ?_⟩
    have hstage := hv'.stage
    rw [hnone, decide_eq_false hnot] at hstage
    rw [hnew, decide_eq_false hnot]
    generalize s.responses.get s.server.tasks.length = m at hstage ⊢
    cases hstage with
    | asked fresh isOpen => exact .arrived fresh isOpen
  · rw [left, left, hnone, hnew]
    simp only [Option.elim_some, Option.elim_none, taskLeft]
    omega

end State.Good

end PxpRpc.Session
