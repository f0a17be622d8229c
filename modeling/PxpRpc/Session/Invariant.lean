import PxpRpc.Session.Protocol
import PxpRpc.Session.References

/-!
# What holds between two steps of a session

Every exchange is at one stage between its request and its outcome. A reference in use belongs
to one owner: an object of the client, the request that frees it, or a response that has not
been taken.
-/
namespace PxpRpc.Session

open PxpRpc.Lib PxpRpc.Codec
open PxpRpc.Codec.Java (Cell Row ValueType)
open PxpRpc.Client (Sid)
open PxpRpc.Client.Extend (sidStart sidEnd)
open PxpRpc.TypeScript (Call Failure)
open PxpRpc.Server.Tasks (Activation Event Lang Outcome PxpRequest)

variable {Obj Callable Hook : Type} {lang : Lang} {app : Application Obj Callable Hook}

/-- A reference, with the place at which it was returned. -/
abbrev Owned := BitVec 32 × (Nat × Nat)

def Handle.owned (h : Handle) : Option Owned := h.value.map fun value => (value, h.origin)

/-- The types of what comes back. -/
def Request.tResult : Request → List ValueType
  | .getFunc _ => [.o]
  | .call _ decl _ => decl.tResult
  | .free _ _ => []

def Request.IsCall : Request → Prop
  | .call _ _ _ => True
  | _ => False

/-- What is left of a callable when it is through. -/
def Exchange.reply (x : Exchange Obj) : Option Outcome :=
  match x.returned with
  | none => none
  | some (.ok _) => some ⟨rowBytes x.request.tResult x.row, none⟩
  | some (.error text) => some ⟨[], some text⟩

/-- What the call of the base client ends with. -/
def answer (o : Outcome) : Except Failure (List UInt8) :=
  match o.rejected with
  | none => .ok o.result
  | some text => .error (.remote text)

/-- The callables that a task has invoked. -/
def invocations (t : Server.Tasks.Task Callable) : List Callable := t.history.filterMap fun e =>
  match e with
  | .invoked callable _ => some callable
  | _ => none

namespace Exchange

/-- The server has not begun with the request. -/
structure Fresh (x : Exchange Obj) : Prop where
  arguments : x.arguments = none
  returned : x.returned = none
  row : x.row = []
  outcome : x.outcome = none

/-- What the exchange owns: the reference that it is to free, until it starts, and those in its
results, until they are taken. -/
def owned (x : Exchange Obj) (n started : Nat) : Multiset Owned :=
  (if x.outcome.isSome then 0 else (refs n 0 x.row : Multiset Owned)) +
    match x.request with
    | .free value origin => if started ≤ n then {(value, origin)} else 0
    | _ => 0

end Exchange

namespace State

variable (s : State Obj Callable Hook)

def packet (n : Nat) : Option PxpRequest := s.client.sent[n]?.bind Server.Tasks.parse

/-- What a callable of the client stands for. -/
def callee (app : Application Obj Callable Hook) (i : Nat) : Option Callable := (s.denotes i).bind app.callable

/-- The reference is held by an object of the client, or freed by a request behind this one. -/
def Backed (n : Nat) (o : Owned) : Prop :=
  (∃ h ∈ s.handles, h.owned = some o) ∨
    ∃ m, n < m ∧ ∃ x, s.exchanges[m]? = some x ∧ x.request = .free o.1 o.2

/-- In a request the value stands for an object of the client, and is backed until it starts. -/
def Refers (n i : Nat) (value : BitVec 32) : Prop :=
  ∃ h, s.handles[i]? = some h ∧ (s.started ≤ n → s.Backed n (value, h.origin))

/-- What a packet says of its request. -/
def Asks (app : Application Obj Callable Hook) (n : Nat) (request : Request) (q : PxpRequest) : Prop :=
  match request with
  | .getFunc name => q.callableIndex = -1 ∧ q.parameter = TypeScript.encodeText name ∧ app.funcMap q.parameter ≠ none
  | .call callable decl args =>
    ∃ value row, q.callableIndex = value.toInt ∧ 0 ≤ value.toInt ∧ q.parameter = rowBytes decl.tParam row ∧
      Declared decl.tParam args ∧ s.Refers n callable value ∧ List.Forall₂ (Value.Puts (s.Refers n)) args row ∧
      ∃ c, s.callee app callable = some c ∧ app.decl c = decl
  | .free value _ => q.callableIndex = -2 ∧ q.parameter = leBytes 4 value.toNat

/-- The references that the client owns. -/
def held : Multiset Owned := (s.handles.filterMap Handle.owned : List Owned)

def ownedAt (n : Nat) : Multiset Owned :=
  match s.exchanges[n]? with
  | some x => x.owned n s.started
  | none => 0

def owned : Multiset Owned := s.held + ∑ n ∈ Finset.range s.exchanges.length, s.ownedAt n

end State

/-- How far an exchange has come: its packet is under way; its task waits, its callable runs or
is through; its response is under way, has been received, and has been handed on by the base
client; the client has its outcome. -/
inductive Stage (q : PxpRequest) (x : Exchange Obj) :
    Bool → Call → Option (Server.Tasks.Task Callable) → Option (List UInt8) → Prop
  | asked {r : Call} (fresh : x.Fresh) (isOpen : r.isOpen) : Stage q x false r none none
  | arrived {r : Call} (fresh : x.Fresh) (isOpen : r.isOpen) : Stage q x false r (some ⟨q, [.enters], []⟩) none
  | running {r : Call} {c : Callable} {parameter : List UInt8} (returned : x.returned = none)
      (outcome : x.outcome = none) (isOpen : r.isOpen) :
      Stage q x true r (some ⟨q, [.calls], [.invoked c parameter]⟩) none
  | settled {r : Call} {request : PxpRequest} {history : List (Event Callable)} {o : Outcome}
      (session : request.session = q.session) (index : request.callableIndex = q.callableIndex)
      (reply : x.reply = some o) (same : request.outcome = o) (outcome : x.outcome = none) (isOpen : r.isOpen) :
      Stage q x true r (some ⟨request, [.called], history⟩) none
  | answered {r : Call} {t : Server.Tasks.Task Callable} {o : Outcome} (stack : t.stack = [.sends] ∨ t.stack = [])
      (reply : x.reply = some o) (outcome : x.outcome = none) (isOpen : r.isOpen) :
      Stage q x true r (some t) (some (Server.Tasks.message q.session o))
  | received {r : Call} {t : Server.Tasks.Task Callable} {o : Outcome} (stack : t.stack = [.sends] ∨ t.stack = [])
      (reply : x.reply = some o) (outcome : x.outcome = none) (waits : r.outcome = none)
      (respFut : r.respFut = some (.ok (Sid.read (Server.Tasks.message q.session o),
        (Server.Tasks.message q.session o).drop 4))) : Stage q x true r (some t) none
  | resumed {r : Call} {t : Server.Tasks.Task Callable} {o : Outcome} (stack : t.stack = [.sends] ∨ t.stack = [])
      (reply : x.reply = some o) (outcome : x.outcome = none) (result : r.outcome = some (answer o)) :
      Stage q x true r (some t) none
  | finished {r : Call} {t : Server.Tasks.Task Callable} {o : Outcome} (stack : t.stack = [.sends] ∨ t.stack = [])
      (reply : x.reply = some o) (outcome : x.outcome ≠ none) (result : r.outcome ≠ none) :
      Stage q x true r (some t) none

namespace Exchange

/-- What the two ends have of an exchange fits together. -/
structure Agrees (app : Application Obj Callable Hook) (s : State Obj Callable Hook) (n : Nat) (x : Exchange Obj) :
    Prop where
  /-- A call invokes the callable of the object that the client means, and only once. -/
  invoked : ∀ t, s.server.tasks[n]? = some t → n < s.started → ∀ callable decl args,
    x.request = .call callable decl args → ∃ c, s.callee app callable = some c ∧ invocations t = [c]
  /-- Nothing else invokes one. -/
  uninvoked : ∀ t, s.server.tasks[n]? = some t → n < s.started → ¬ x.request.IsCall → invocations t = []
  /-- The callable is given what was passed. -/
  arguments : n < s.started → ∀ callable decl passed, x.request = .call callable decl passed →
    ∃ args, x.arguments = some args ∧ List.Forall₂ (Value.Arrives fun i obj => s.denotes i = some obj) passed args
  /-- `getFunc` gets what the table has under the name. -/
  found : n < s.started → ∀ name, x.request = .getFunc name → ∃ found,
    app.funcMap (TypeScript.encodeText name) = some found ∧ x.returned = some (.ok [(found.map Value.object).getD .null])
  /-- The client gets what was returned, and for each object a new one of its own. -/
  succeeds : ∀ ret, x.outcome = some (.ok ret) → ∃ results values, x.returned = some (.ok results) ∧
    ret = Ret.ofRow values ∧ (objects values).Nodup ∧
    List.Forall₂ (Value.Arrives fun obj i => s.denotes i = some obj ∧ x.known ≤ i) results values
  /-- It fails with the text with which the callable was rejected. -/
  fails : ∀ failure, x.outcome = some (.error failure) → ∃ text, failure = .remote text ∧
    x.returned = some (.error text)

/-- `r` is the call of the base client, and `q` the request in its packet. -/
structure Valid (app : Application Obj Callable Hook) (s : State Obj Callable Hook) (n : Nat) (x : Exchange Obj)
    (r : Call) (q : PxpRequest) : Prop extends x.Agrees app s n where
  call : s.client.calls[n]? = some r
  sid : r.sid = BitVec.ofInt 32 x.sid
  packet : s.packet n = some q
  session : q.session = r.sid
  asks : s.Asks app n x.request q
  stage : Stage q x (decide (n < s.started)) r s.server.tasks[n]? (s.responses.get n)
  puts : ∀ results, x.returned = some (.ok results) → Declared x.request.tResult results ∧
    List.Forall₂ (Value.Puts fun _ index => index.toNat < 2 ^ 31) results x.row
  unput : (∀ results, x.returned ≠ some (.ok results)) → x.row = []

end Exchange

namespace State

/-- The connection goes on. -/
structure Open (s : State Obj Callable Hook) : Prop where
  running : s.client.running
  receiving : s.client.receiving
  serverRunning : s.server.running
  serving : s.server.serving

structure Good (lang : Lang) (app : Application Obj Callable Hook) (s : State Obj Callable Hook) : Prop extends
    s.Open where
  regular : s.client.Regular
  polls : s.client.polls = []
  calls : s.client.calls.length = s.exchanges.length
  sent : s.client.sent.length = s.exchanges.length
  tasks : s.server.tasks.length ≤ s.exchanges.length
  started : s.started ≤ s.server.tasks.length
  keys : s.responses.keys.Nodup
  answers : ∀ n ∈ s.responses.keys, n < s.exchanges.length
  cursor : Client.Extend.Regular s.sids
  sids : ∀ (n : Nat) (x : Exchange Obj), s.exchanges[n]? = some x → sidStart ≤ x.sid ∧ x.sid ≤ sidEnd ∧
    (x.outcome = none → x.sid ∈ s.sids.usedSid)
  distinct : ∀ (n m : Nat) (x y : Exchange Obj), s.exchanges[n]? = some x → s.exchanges[m]? = some y →
    x.outcome = none → y.outcome = none → x.sid = y.sid → n = m
  exchange : ∀ (n : Nat) (x : Exchange Obj), s.exchanges[n]? = some x → ∃ r q, x.Valid app s n r q
  holds : Holds lang s.server.refPool (s.owned.map fun o => o.1.toNat)
  stores : ∀ o ∈ s.owned, ∃ obj, s.returnedAt o.2 = some obj ∧ Stores s.server.refPool obj o.1

/-! ### What the application and the user of the client keep to -/

/-- An object of the client that has been neither freed nor turned into a callable. -/
def Live (s : State Obj Callable Hook) (i : Nat) : Prop := ∃ h ∈ s.handles[i]?, h.value.isSome

def LiveArg (s : State Obj Callable Hook) : Value Nat → Prop
  | .object i => s.Live i
  | _ => True

/-- A name may be unknown, but its lookup does not raise. A callable is declared at the client
as it is at the server, the values that are passed and returned are of the types, and the
objects that are used are live. The indices of references stay below 2^31. -/
def Proper (app : Application Obj Callable Hook) (s : State Obj Callable Hook) : Op Obj → Prop
  | .getFunc name => (app.funcMap (TypeScript.encodeText name)).isSome
  | .call callable decl args => Declared decl.tParam args ∧ s.Live callable ∧ (∀ v ∈ args, s.LiveArg v) ∧
    ∃ c ∈ s.callee app callable, app.decl c = decl
  | .start => s.server.refPool.refPool.length + 257 ≤ 2 ^ 31
  | .resolve n results => s.server.refPool.refPool.length + 257 * results.length ≤ 2 ^ 31 ∧
    ∀ x ∈ s.exchanges[n]?, Declared x.request.tResult results
  | _ => True

instance (s : State Obj Callable Hook) (i : Nat) : Decidable (s.Live i) :=
  inferInstanceAs (Decidable (∃ h ∈ s.handles[i]?, h.value.isSome))

instance (s : State Obj Callable Hook) (v : Value Nat) : Decidable (s.LiveArg v) :=
  match v with
  | .object i => inferInstanceAs (Decidable (s.Live i))
  | .null | .int _ | .long _ | .float _ | .double _ | .bytes _ | .string _ | .boolean _ => isTrue trivial

instance (app : Application Obj Callable Hook) (s : State Obj Callable Hook) (op : Op Obj) : Decidable (s.Proper app op) :=
  match op with
  | .getFunc _ => inferInstanceAs (Decidable (_ = _))
  | .call callable decl args => inferInstanceAs (Decidable (Declared decl.tParam args ∧ s.Live callable ∧
      (∀ v ∈ args, s.LiveArg v) ∧ ∃ c ∈ s.callee app callable, app.decl c = decl))
  | .start => inferInstanceAs (Decidable (_ ≤ _))
  | .resolve n results => inferInstanceAs (Decidable
      (s.server.refPool.refPool.length + 257 * results.length ≤ 2 ^ 31 ∧
        ∀ x ∈ s.exchanges[n]?, Declared x.request.tResult results))
  | .free _ | .asCallable _ | .requestSent _ | .arrive | .reject _ _ | .respond _ | .responseSent _ | .receive
  | .resume _ | .finish _ => isTrue trivial

/-! ### What lasts -/

/-- What no step takes back. -/
structure Grows (s s' : State Obj Callable Hook) : Prop where
  started : s.started ≤ s'.started
  handles : ∀ (i : Nat) (h : Handle), s.handles[i]? = some h → ∃ h', s'.handles[i]? = some h' ∧ h'.origin = h.origin
  exchanges : ∀ (n : Nat) (x : Exchange Obj), s.exchanges[n]? = some x → ∃ x', s'.exchanges[n]? = some x' ∧
    x'.request = x.request ∧ ∀ returned, x.returned = some returned → x'.returned = some returned
  held : ∀ o, (∃ h ∈ s.handles, h.owned = some o) → (∃ h ∈ s'.handles, h.owned = some o) ∨
    ∃ m, s.exchanges.length ≤ m ∧ ∃ x, s'.exchanges[m]? = some x ∧ x.request = .free o.1 o.2

variable {s s' : State Obj Callable Hook}

theorem returnedAt_eq_some {place : Nat × Nat} {obj : Obj} : s.returnedAt place = some obj ↔ ∃ x results,
    s.exchanges[place.1]? = some x ∧ x.returned = some (.ok results) ∧ results[place.2]? = some (.object obj) := by
  rw [returnedAt, Option.bind_eq_some_iff]
  refine exists_congr fun x => ⟨?_, ?_⟩
  · rintro ⟨hx, h⟩
    split at h
    · rename_i results hr
      split at h
      · rename_i obj' ho
        exact ⟨results, hx, hr, ho.trans (congrArg (some ∘ Value.object) (Option.some.inj h))⟩
      · cases h
    · cases h
  · rintro ⟨results, hx, hr, ho⟩
    exact ⟨hx, by simp only [hr, ho]⟩

namespace Grows

theorem returnedAt (hg : s.Grows s') {place : Nat × Nat} {obj : Obj} (h : s.returnedAt place = some obj) :
    s'.returnedAt place = some obj := by
  obtain ⟨x, results, hx, hr, ho⟩ := returnedAt_eq_some.mp h
  obtain ⟨x', hx', -, hr'⟩ := hg.exchanges _ x hx
  exact returnedAt_eq_some.mpr ⟨x', results, hx', hr' _ hr, ho⟩

theorem denotes (hg : s.Grows s') {i : Nat} {obj : Obj} (h : s.denotes i = some obj) : s'.denotes i = some obj := by
  obtain ⟨h₁, hh, hr⟩ := Option.bind_eq_some_iff.mp h
  obtain ⟨h₂, hh', ho⟩ := hg.handles i h₁ hh
  exact Option.bind_eq_some_iff.mpr ⟨h₂, hh', ho ▸ hg.returnedAt hr⟩

theorem callee (hg : s.Grows s') {i : Nat} {c : Callable} (h : s.callee app i = some c) : s'.callee app i = some c := by
  obtain ⟨obj, ho, hc⟩ := Option.bind_eq_some_iff.mp h
  exact Option.bind_eq_some_iff.mpr ⟨obj, hg.denotes ho, hc⟩

theorem backed (hg : s.Grows s') {n : Nat} (hn : n < s.exchanges.length) {o : Owned} (h : s.Backed n o) :
    s'.Backed n o := by
  rcases h with h | ⟨m, hm, x, hx, hr⟩
  · refine (hg.held o h).imp_right fun hnew => ?_
    obtain ⟨m, hm, hx⟩ := hnew
    exact ⟨m, hn.trans_le hm, hx⟩
  · obtain ⟨x', hx', hr', -⟩ := hg.exchanges m x hx
    exact .inr ⟨m, hm, x', hx', hr'.trans hr⟩

theorem refers (hg : s.Grows s') {n : Nat} (hn : n < s.exchanges.length) {i : Nat} {value : BitVec 32}
    (h : s.Refers n i value) : s'.Refers n i value := by
  obtain ⟨h₁, hh, hb⟩ := h
  obtain ⟨h₂, hh', ho⟩ := hg.handles i h₁ hh
  exact ⟨h₂, hh', fun hs => ho ▸ hg.backed hn (hb (hg.started.trans hs))⟩

theorem asks (hg : s.Grows s') {n : Nat} (hn : n < s.exchanges.length) {request : Request} {q : PxpRequest}
    (h : s.Asks app n request q) : s'.Asks app n request q := by
  cases request with
  | getFunc name => exact h
  | free value origin => exact h
  | call callable decl args =>
    obtain ⟨value, row, hi, hnonneg, hp, hd, hr, hrow, c, hc, hdecl⟩ := h
    exact ⟨value, row, hi, hnonneg, hp, hd, hg.refers hn hr, hrow.imp fun _ _ => Value.Puts.mono fun _ _ => hg.refers hn,
      c, hg.callee hc, hdecl⟩

theorem agrees (hg : s.Grows s') {n : Nat} {x : Exchange Obj} (h : x.Agrees app s n)
    (hstarted : n < s'.started → n < s.started)
    (hinvoked : ∀ t, s'.server.tasks[n]? = some t → n < s.started →
      ∃ t₀, s.server.tasks[n]? = some t₀ ∧ invocations t = invocations t₀) : x.Agrees app s' n where
  invoked t ht hs callable decl args hr := by
    obtain ⟨t₀, ht₀, he⟩ := hinvoked t ht (hstarted hs)
    obtain ⟨c, hc, ht⟩ := h.invoked t₀ ht₀ (hstarted hs) callable decl args hr
    exact ⟨c, hg.callee hc, he.trans ht⟩
  uninvoked t ht hs hr := by
    obtain ⟨t₀, ht₀, he⟩ := hinvoked t ht (hstarted hs)
    exact he.trans (h.uninvoked t₀ ht₀ (hstarted hs) hr)
  arguments hs callable decl passed hr := by
    obtain ⟨args, ha, hp⟩ := h.arguments (hstarted hs) callable decl passed hr
    exact ⟨args, ha, hp.imp fun _ _ => Value.Arrives.mono fun _ _ => hg.denotes⟩
  found hs := h.found (hstarted hs)
  succeeds ret ho := by
    obtain ⟨results, values, hr, hv, hnodup, hall⟩ := h.succeeds ret ho
    exact ⟨results, values, hr, hv, hnodup,
      hall.imp fun _ _ => Value.Arrives.mono fun _ _ hi => ⟨hg.denotes hi.1, hi.2⟩⟩
  fails := h.fails

/-- An exchange that goes on as it is. -/
theorem valid (hg : s.Grows s') {n : Nat} {x : Exchange Obj} {r r' : Call} {q : PxpRequest}
    (h : x.Valid app s n r q) (hn : n < s.exchanges.length) (hcall : s'.client.calls[n]? = some r')
    (hsid : r'.sid = r.sid) (hpacket : s'.packet n = s.packet n) (hstarted : n < s'.started → n < s.started)
    (hinvoked : ∀ t, s'.server.tasks[n]? = some t → n < s.started →
      ∃ t₀, s.server.tasks[n]? = some t₀ ∧ invocations t = invocations t₀)
    (hstage : Stage q x (decide (n < s'.started)) r' s'.server.tasks[n]? (s'.responses.get n)) :
    x.Valid app s' n r' q where
  toAgrees := hg.agrees h.toAgrees hstarted hinvoked
  call := hcall
  sid := hsid.trans h.sid
  packet := hpacket.trans h.packet
  session := h.session.trans hsid.symm
  asks := hg.asks hn h.asks
  stage := hstage
  puts := h.puts
  unput := h.unput

end Grows

/-! ### What belongs to whom -/

theorem ownedAt_eq {n : Nat} {x : Exchange Obj} (hx : s.exchanges[n]? = some x) : s.ownedAt n = x.owned n s.started := by
  rw [ownedAt, hx]

theorem mem_owned_of_held {o : Owned} {h : Handle} (hh : h ∈ s.handles) (ho : h.owned = some o) : o ∈ s.owned :=
  Multiset.mem_add.mpr (.inl (Multiset.mem_coe.mpr (List.mem_filterMap.mpr ⟨h, hh, ho⟩)))

theorem ownedAt_le {n : Nat} (hn : n < s.exchanges.length) : s.ownedAt n ≤ s.owned :=
  le_add_left (Finset.single_le_sum (fun _ _ => zero_le) (Finset.mem_range.mpr hn))

/-- A request that has not started yet owns what it is to free. -/
theorem mem_owned_of_free {n : Nat} {x : Exchange Obj} (hx : s.exchanges[n]? = some x) {o : Owned}
    (hr : x.request = .free o.1 o.2) (hs : s.started ≤ n) : o ∈ s.owned := by
  refine Multiset.mem_of_le (ownedAt_le (List.getElem?_eq_some_iff.mp hx).1) ?_
  simp [ownedAt_eq hx, Exchange.owned, hr, hs]

theorem mem_owned_of_backed {n : Nat} (hs : s.started ≤ n) {o : Owned} (h : s.Backed n o) : o ∈ s.owned := by
  rcases h with ⟨h, hh, ho⟩ | ⟨m, hm, x, hx, hr⟩
  · exact mem_owned_of_held hh ho
  · exact mem_owned_of_free hx hr (hs.trans hm.le)

/-- Of the exchanges, one owns more or less than it did. -/
theorem owned_change (n : Nat) (hlen : s'.exchanges.length = s.exchanges.length)
    (hne : ∀ m, m ≠ n → s'.ownedAt m = s.ownedAt m) (hn : n < s.exchanges.length) :
    ∃ rest, s.owned = s.held + (s.ownedAt n + rest) ∧ s'.owned = s'.held + (s'.ownedAt n + rest) := by
  refine ⟨∑ m ∈ (Finset.range s.exchanges.length).erase n, s.ownedAt m, ?_, ?_⟩
  · rw [owned, Finset.add_sum_erase _ _ (Finset.mem_range.mpr hn)]
  · rw [owned, hlen, ← Finset.sum_congr rfl fun m hm => hne m (Finset.ne_of_mem_erase hm),
      Finset.add_sum_erase _ _ (Finset.mem_range.mpr hn)]

theorem owned_congr (hlen : s'.exchanges.length = s.exchanges.length) (hheld : s'.held = s.held)
    (h : ∀ m, s'.ownedAt m = s.ownedAt m) : s'.owned = s.owned := by
  rw [owned, owned, hlen, hheld, Finset.sum_congr rfl fun m _ => h m]

/-! ### What is left to do -/

/-- The steps left of a call of the base client: its request is sent, it is given its response,
and it goes on. -/
def callLeft (r : Call) : Nat :=
  (if r.sent then 0 else 1) + if r.outcome.isSome then 0 else if r.respFut.isSome then 1 else 2

/-- Those of a task, without its callable: its response is given to the io, and sent. -/
def taskLeft (t : Server.Tasks.Task Callable) : Nat :=
  match t.stack with
  | [] => 0
  | .sends :: _ => 1
  | _ => 2

/-- The steps left of an exchange: also, its packet arrives, its task starts, and the client
takes the outcome. -/
def left (s : State Obj Callable Hook) (n : Nat) : Nat :=
  s.client.calls[n]?.elim 0 callLeft + s.exchanges[n]?.elim 0 (fun x => if x.outcome.isSome then 0 else 1) +
    s.server.tasks[n]?.elim 3 taskLeft + if n < s.started then 0 else 1

def pending (s : State Obj Callable Hook) : Nat := ∑ n ∈ Finset.range s.exchanges.length, s.left n

/-- So much of the work is done; an exchange that begins brings eight steps. -/
def Does (s s' : State Obj Callable Hook) (k : Nat) : Prop :=
  s'.pending + k + 8 * s.exchanges.length = s.pending + 8 * s'.exchanges.length

/-! ### What a step does to the other exchanges -/

/-- A step that has to do with one exchange leaves the others as they are. -/
structure Apart (s s' : State Obj Callable Hook) (n : Nat) : Prop where
  exchanges : ∀ m, m ≠ n → s'.exchanges[m]? = s.exchanges[m]?
  calls : ∀ m, m ≠ n → s'.client.calls[m]? = s.client.calls[m]?
  tasks : ∀ m, m ≠ n → s'.server.tasks[m]? = s.server.tasks[m]?
  responses : ∀ m, m ≠ n → s'.responses.get m = s.responses.get m
  started : ∀ m, m ≠ n → (m < s'.started ↔ m < s.started)

theorem Apart.does {n k : Nat} (ha : s.Apart s' n) (hlen : s'.exchanges.length = s.exchanges.length)
    (hn : n < s.exchanges.length) (hleft : s'.left n + k = s.left n) : s.Does s' k := by
  have hsum : ∑ m ∈ (Finset.range s.exchanges.length).erase n, s'.left m =
      ∑ m ∈ (Finset.range s.exchanges.length).erase n, s.left m := by
    refine Finset.sum_congr rfl fun m hm => ?_
    have hm := Finset.ne_of_mem_erase hm
    rw [left, left, ha.exchanges m hm, ha.calls m hm, ha.tasks m hm, if_congr (ha.started m hm) rfl rfl]
  rw [Does, pending, pending, hlen, ← Finset.add_sum_erase _ s.left (Finset.mem_range.mpr hn),
    ← Finset.add_sum_erase _ s'.left (Finset.mem_range.mpr hn), hsum]
  omega

theorem Good.exchange_of (h : s.Good lang app) {n : Nat} (hg : s.Grows s') (ha : s.Apart s' n)
    (hpacket : ∀ m, m < s.exchanges.length → s'.packet m = s.packet m)
    (hn : ∀ x, s'.exchanges[n]? = some x → ∃ r q, x.Valid app s' n r q) (m : Nat) (x : Exchange Obj)
    (hx : s'.exchanges[m]? = some x) : ∃ r q, x.Valid app s' m r q := by
  by_cases hm : m = n
  · subst hm
    exact hn x hx
  · rw [ha.exchanges m hm] at hx
    obtain ⟨r, q, hv⟩ := h.exchange m x hx
    have hlt := (List.getElem?_eq_some_iff.mp hx).1
    refine ⟨r, q, hg.valid hv hlt ((ha.calls m hm).trans hv.call) rfl (hpacket m hlt) (ha.started m hm).mp
      (fun t ht hs => ?_) ?_⟩
    · exact ⟨t, ha.tasks m hm ▸ ht, rfl⟩
    · rw [ha.tasks m hm, ha.responses m hm, decide_eq_decide.mpr (ha.started m hm)]
      exact hv.stage

/-- Only the connection and the tasks go on. -/
structure Same (s s' : State Obj Callable Hook) : Prop where
  exchanges : s'.exchanges = s.exchanges
  handles : s'.handles = s.handles
  sids : s'.sids = s.sids
  started : s'.started = s.started
  refPool : s'.server.refPool = s.server.refPool
  sent : s'.client.sent = s.client.sent

theorem Same.grows (h : s.Same s') : s.Grows s' where
  started := h.started.ge
  handles _ h₁ hh := ⟨h₁, h.handles ▸ hh, rfl⟩
  exchanges _ x hx := ⟨x, h.exchanges ▸ hx, rfl, fun _ hr => hr⟩
  held _ ho := .inl (h.handles ▸ ho)

theorem Same.owned (h : s.Same s') : s'.owned = s.owned :=
  owned_congr (by rw [h.exchanges]) (by rw [held, held, h.handles]) fun m => by
    rw [ownedAt, ownedAt, h.exchanges, h.started]

/-- An exchange goes on to its next stage. -/
theorem Good.goes (h : s.Good lang app) {n : Nat} (hsame : s.Same s') (hopen : s'.Open) (hregular : s'.client.Regular)
    (hpolls : s'.client.polls = []) (hcalls : s'.client.calls.length = s.client.calls.length)
    (hlen : s'.server.tasks.length ≤ s.exchanges.length) (hstarted : s.server.tasks.length ≤ s'.server.tasks.length)
    (hkeys : s'.responses.keys.Nodup) (hanswers : ∀ m ∈ s'.responses.keys, m = n ∨ m ∈ s.responses.keys)
    (ha : s.Apart s' n) (hn : ∀ x r q, x.Valid app s n r q → s.exchanges[n]? = some x → ∃ r',
      s'.client.calls[n]? = some r' ∧ r'.sid = r.sid ∧
      (∀ t, s'.server.tasks[n]? = some t → n < s.started →
        ∃ t₀, s.server.tasks[n]? = some t₀ ∧ invocations t = invocations t₀) ∧
      Stage q x (decide (n < s.started)) r' s'.server.tasks[n]? (s'.responses.get n))
    (hlt : n < s.exchanges.length) : s'.Good lang app where
  toOpen := hopen
  regular := hregular
  polls := hpolls
  calls := by rw [hcalls, h.calls, hsame.exchanges]
  sent := by rw [hsame.sent, h.sent, hsame.exchanges]
  tasks := hsame.exchanges ▸ hlen
  started := hsame.started ▸ h.started.trans hstarted
  keys := hkeys
  answers m hm := by
    rw [hsame.exchanges]
    rcases hanswers m hm with rfl | hm
    · exact hlt
    · exact h.answers m hm
  cursor := hsame.sids ▸ h.cursor
  sids := by
    rw [hsame.exchanges, hsame.sids]
    exact h.sids
  distinct := by
    rw [hsame.exchanges]
    exact h.distinct
  exchange := by
    have hpacket (m : Nat) : s'.packet m = s.packet m := by rw [packet, packet, hsame.sent]
    refine h.exchange_of hsame.grows ha (fun m _ => hpacket m) fun x hx => ?_
    rw [hsame.exchanges] at hx
    obtain ⟨r, q, hv⟩ := h.exchange n x hx
    obtain ⟨r', hcall, hsid, hinvoked, hstage⟩ := hn x r q hv hx
    exact ⟨r', q, hsame.grows.valid hv hlt hcall hsid (hpacket n) (hsame.started ▸ id) hinvoked
      (by rwa [hsame.started])⟩
  holds := by
    rw [hsame.owned, hsame.refPool]
    exact h.holds
  stores o ho := by
    rw [hsame.owned] at ho
    rw [hsame.refPool]
    obtain ⟨obj, hr, hs⟩ := h.stores o ho
    exact ⟨obj, hsame.grows.returnedAt hr, hs⟩

end State

end PxpRpc.Session
