import PxpRpc.Client.SidAlloc

/-!
# What becomes of the sid of an operation

`getFunc`, `free`, a call and a poll each take a sid. A call gives it back when
it ends, in a `finally` clause; a poll keeps it until its callback is given an
error. An exception between the allocation and the `finally` clause, or in the
start of a poll, leaves the sid in use.
-/
namespace PxpRpc.Client.Extend

inductive Failure where
  | extend (error : RpcExtendError)
  | assertion
  | serialize
  | decode
  | remote (message : List UInt8)
  | io
deriving DecidableEq

variable {α β γ δ : Type}

/-- How the things end that an operation relies on, and what other operations do to the
client while this one waits. -/
structure World (α β : Type) where
  running : Bool
  serArgs : α → Except Failure (List UInt8)
  unserRet : List UInt8 → Except Failure β
  getFunc : String → Int → Except Failure Int
  freeRef : Int → Int → Except Failure Unit
  call : Option Int → List UInt8 → Int → Except Failure (List UInt8)
  poll : Option Int → List UInt8 → Int → Except Failure Unit
  meanwhile : RpcExtendClient1 → RpcExtendClient1

/-- The client and the object (its `value`), the sids that the operation has allocated and
freed, and what a poll has told `onResult`. -/
structure Progress (β : Type) where
  client : RpcExtendClient1
  value : Option Int
  allocated : List Int
  freed : List Int
  told : List (Except Failure β)

def Progress.init (client : RpcExtendClient1) (value : Option Int) : Progress β := ⟨client, value, [], [], []⟩

abbrev Op (β γ : Type) := ExceptT Failure (StateM (Progress β)) γ

def allocSid : Op β Int := do
  let p ← get
  match p.client.allocSid with
  | (.ok sid, client) =>
    set { p with client, allocated := p.allocated ++ [sid] }
    return sid
  | (.error error, client) =>
    set { p with client }
    throw (.extend error)

def freeSid (sid : Int) : Op β Unit :=
  modify fun p => { p with client := p.client.freeSid sid, freed := p.freed ++ [sid] }

def getValue : Op β (Option Int) := do
  return (← get).value

def setValue (value : Option Int) : Op β Unit := modify fun p => { p with value }

def throwIfNotRunning (w : World α β) : Op β Unit :=
  if w.running then pure () else throw (.extend ⟨"baseClient is not running."⟩)

/-- Other operations run until the answer is there. -/
def await (w : World α β) (answer : Except Failure γ) : Op β γ := do
  modify fun p => { p with client := w.meanwhile p.client }
  ofExcept answer

def onResult (result : Except Failure β) : Op β Unit := modify fun p => { p with told := p.told ++ [result] }

/-- What a poll hands to the base client. -/
abbrev Callback (β : Type) := Except Failure (List UInt8) → Op β Unit

def callback (w : World α β) (sid : Int) : Callback β
  | .error err => do
    freeSid sid
    onResult (.error err)
  | .ok result => do
    onResult (.ok (← ofExcept (w.unserRet result)))

namespace TypeScript

def getFunc (w : World α β) (name : String) : Op β (Option Int) := do
  throwIfNotRunning w
  let sid ← allocSid
  try
    let index ← await w (w.getFunc name sid)
    pure (if index = -1 then none else some index)
  finally
    freeSid sid

def free (w : World α β) : Op β Unit := do
  match ← getValue with
  | none => pure ()
  | some v =>
    let sid ← allocSid
    try
      setValue none
      await w (w.freeRef v sid)
    finally
      freeSid sid

def call (w : World α β) (args : α) : Op β β := do
  let buf ← ofExcept (w.serArgs args)
  let sid ← allocSid
  try
    throwIfNotRunning w
    let resp ← await w (w.call (← getValue) buf sid)
    ofExcept (w.unserRet resp)
  finally
    freeSid sid

/-- The base client sends the request without waiting. -/
def poll (w : World α β) (args : α) : Op β (Callback β) := do
  let _buf ← ofExcept (w.serArgs args)
  let sid ← allocSid
  throwIfNotRunning w
  return callback w sid

end TypeScript

namespace Python

def getFunc (w : World α β) (name : String) : Op β (Option Int) := do
  let sid ← allocSid
  try
    let index ← await w (w.getFunc name sid)
    pure (if index = -1 then none else some index)
  finally
    freeSid sid

def free (w : World α β) : Op β Unit := do
  match ← getValue with
  | none => pure ()
  | some val =>
    setValue none
    let sid ← allocSid
    try
      await w (w.freeRef val sid)
    finally
      freeSid sid

def assertValue : Op β Unit := do
  if (← getValue).isNone then throw .assertion

def call (w : World α β) (args : α) : Op β β := do
  assertValue
  throwIfNotRunning w
  let sid ← allocSid
  let packed ← ofExcept (w.serArgs args)
  try
    let result ← await w (w.call (← getValue) packed sid)
    ofExcept (w.unserRet result)
  finally
    freeSid sid

def poll (w : World α β) (args : α) : Op β (Callback β) := do
  assertValue
  throwIfNotRunning w
  let sid ← allocSid
  let packed ← ofExcept (w.serArgs args)
  await w (w.poll (← getValue) packed sid)
  return callback w sid

end Python

/-! ### Invocations -/

inductive Language where
  | typeScript
  | python
deriving DecidableEq, Repr

inductive Invocation (α : Type) where
  | getFunc (name : String)
  | free
  | call (args : α)
  | poll (args : α)

/-- What is left of an invocation when its function has ended: the callback of a poll. -/
def start (w : World α β) : Language → Invocation α → Op β (Option (Callback β))
  | .typeScript, .getFunc name => do let _ ← TypeScript.getFunc w name; return none
  | .typeScript, .free => do let _ ← TypeScript.free w; return none
  | .typeScript, .call args => do let _ ← TypeScript.call w args; return none
  | .typeScript, .poll args => some <$> TypeScript.poll w args
  | .python, .getFunc name => do let _ ← Python.getFunc w name; return none
  | .python, .free => do let _ ← Python.free w; return none
  | .python, .call args => do let _ ← Python.call w args; return none
  | .python, .poll args => some <$> Python.poll w args

def exec (op : Op β γ) (p : Progress β) : Except Failure γ × Progress β := op.run.run p

/-- The base client calls the callback; what this raises is not the operation's any more. -/
def tell (cb : Callback β) : List (Except Failure (List UInt8)) → Progress β → Progress β
  | [], p => p
  | answer :: rest, p => tell cb rest (exec (cb answer) p).2

/-- An invocation, with the answers that the callback of a poll has been given; and whether it has ended. -/
def invoke (w : World α β) (language : Language) (invocation : Invocation α)
    (answers : List (Except Failure (List UInt8))) (p : Progress β) : Progress β × Bool :=
  match exec (start w language invocation) p with
  | (.ok (some cb), p) => (tell cb answers p, answers.any fun answer => !answer.isOk)
  | (_, p) => (p, true)

/-- When the invocation has ended its sid has been freed once, and not before. -/
def ReturnsSid (w : World α β) (language : Language) (invocation : Invocation α)
    (answers : List (Except Failure (List UInt8))) (p : Progress β) : Prop :=
  let (p, ended) := invoke w language invocation answers p
  p.freed = if ended then p.allocated else []

/-! ### Execution -/

section Exec

variable (p : Progress β)

@[simp] theorem exec_pure (a : γ) : exec (pure a : Op β γ) p = (.ok a, p) := rfl

@[simp] theorem exec_throw (failure : Failure) : exec (throw failure : Op β γ) p = (.error failure, p) := rfl

@[simp] theorem exec_getValue : exec getValue p = (.ok p.value, p) := rfl

theorem exec_ofExcept (answer : Except Failure γ) : exec (ofExcept answer : Op β γ) p = (answer, p) := by
  cases answer <;> rfl

theorem exec_bind (op : Op β γ) (f : γ → Op β δ) : exec (op >>= f) p =
    match exec op p with
    | (.ok a, p) => exec (f a) p
    | (.error failure, p) => (.error failure, p) := by
  rcases h : exec op p with ⟨_ | a, p'⟩
  all_goals
    rw [exec] at h
    rw [exec, ExceptT.run_bind, StateT.run_bind, h]
    rfl

theorem exec_finally (op : Op β γ) (sid : Int) : exec (tryFinally op (freeSid sid)) p =
    ((exec op p).1, (exec (freeSid sid) (exec op p).2).2) := by
  have hrun : exec op p = op p := rfl
  rw [hrun]
  simp only [exec, tryFinally, tryFinally', StateT.run, ExceptT.run, ExceptT.mk, Functor.map, ExceptT.map, bind,
    StateT.bind, pure]
  rcases op p with ⟨_ | a, p'⟩ <;> rfl

theorem exec_allocSid : exec allocSid p =
    match p.client.allocSid with
    | (.ok sid, client) => (.ok sid, { p with client, allocated := p.allocated ++ [sid] })
    | (.error error, client) => (.error (.extend error), { p with client }) := by
  have hget : exec (get : Op β (Progress β)) p = (.ok p, p) := rfl
  rw [allocSid, exec_bind, hget]
  dsimp only
  rcases p.client.allocSid with ⟨_ | sid, client⟩ <;> rfl

theorem exec_throwIfNotRunning (w : World α β) : exec (throwIfNotRunning w) p =
    if w.running then (.ok (), p) else (.error (.extend ⟨"baseClient is not running."⟩), p) := by
  rw [throwIfNotRunning]
  split <;> rfl

theorem exec_assertValue : exec Python.assertValue p =
    if p.value.isNone then (.error .assertion, p) else (.ok (), p) := by
  rw [Python.assertValue, exec_bind, exec_getValue]
  dsimp only
  split <;> rfl

theorem exec_await (w : World α β) (answer : Except Failure γ) :
    exec (await w answer) p = (answer, { p with client := w.meanwhile p.client }) := by
  rw [await, exec_bind]
  exact exec_ofExcept _ answer

end Exec

/-! ### What operations do with sids -/

/-- The operation allocates and frees nothing. -/
def Keeps (op : Op β γ) : Prop :=
  ∀ p, (exec op p).2.allocated = p.allocated ∧ (exec op p).2.freed = p.freed

/-- What the operation allocates it frees, however it ends. -/
def Balanced (op : Op β γ) : Prop :=
  ∀ p, p.freed = p.allocated → (exec op p).2.freed = (exec op p).2.allocated

namespace Keeps

theorem pure (a : γ) : Keeps (pure a : Op β γ) := fun _ => ⟨rfl, rfl⟩

theorem throw (failure : Failure) : Keeps (throw failure : Op β γ) := fun _ => ⟨rfl, rfl⟩

theorem getValue : Keeps (getValue : Op β (Option Int)) := fun _ => ⟨rfl, rfl⟩

theorem setValue (value : Option Int) : Keeps (setValue value : Op β Unit) := fun _ => ⟨rfl, rfl⟩

theorem ofExcept (answer : Except Failure γ) : Keeps (ofExcept answer : Op β γ) := fun p => by
  rw [exec_ofExcept]
  exact ⟨rfl, rfl⟩

theorem throwIfNotRunning (w : World α β) : Keeps (throwIfNotRunning w) := by
  rw [Extend.throwIfNotRunning]
  split
  · exact pure ()
  · exact throw _

theorem bind {op : Op β γ} {f : γ → Op β δ} (hop : Keeps op) (hf : ∀ a, Keeps (f a)) : Keeps (op >>= f) := by
  intro p
  obtain ⟨ha, hfreed⟩ := hop p
  rw [exec_bind]
  rcases h : exec op p with ⟨_ | a, p'⟩
  · rw [h] at ha hfreed
    exact ⟨ha, hfreed⟩
  · rw [h] at ha hfreed
    exact ⟨(hf a p').1.trans ha, (hf a p').2.trans hfreed⟩

theorem await (w : World α β) (answer : Except Failure γ) : Keeps (await w answer) :=
  bind (fun _ => ⟨rfl, rfl⟩) fun _ => ofExcept answer

/-- The `finally` clause frees the sid however the body ends. -/
theorem finally_frees {op : Op β γ} (h : Keeps op) (sid : Int) (p : Progress β) :
    (exec (tryFinally op (freeSid sid)) p).2.allocated = p.allocated ∧
      (exec (tryFinally op (freeSid sid)) p).2.freed = p.freed ++ [sid] := by
  obtain ⟨ha, hf⟩ := h p
  rw [exec_finally]
  exact ⟨ha, by rw [← hf]; rfl⟩

theorem balanced {op : Op β γ} (h : Keeps op) : Balanced op := fun p hp => by
  rw [(h p).1, (h p).2, hp]

end Keeps

namespace Balanced

theorem bind {op : Op β γ} {f : γ → Op β δ} (hop : Balanced op) (hf : ∀ a, Balanced (f a)) :
    Balanced (op >>= f) := by
  intro p hp
  have ho := hop p hp
  rw [exec_bind]
  rcases h : exec op p with ⟨_ | a, p'⟩
  · rw [h] at ho
    exact ho
  · rw [h] at ho
    exact hf a p' ho

/-- The allocation and the `finally` clause, with nothing between them. -/
theorem guarded {op : Int → Op β γ} (h : ∀ sid, Keeps (op sid)) :
    Balanced (allocSid >>= fun sid => tryFinally (op sid) (freeSid sid)) := by
  intro p hp
  rw [exec_bind, exec_allocSid]
  rcases p.client.allocSid with ⟨_ | sid, client⟩
  · exact hp
  · obtain ⟨ha, hf⟩ := (h sid).finally_frees sid { p with client, allocated := p.allocated ++ [sid] }
    exact hf.trans (by rw [ha, hp])

end Balanced

theorem TypeScript.balanced_getFunc (w : World α β) (name : String) : Balanced (TypeScript.getFunc w name) :=
  (Keeps.throwIfNotRunning w).balanced.bind fun _ =>
    .guarded fun _ => (Keeps.await w _).bind fun _ => .pure _

theorem TypeScript.balanced_free (w : World α β) : Balanced (TypeScript.free w) := by
  refine Keeps.getValue.balanced.bind fun value => ?_
  cases value with
  | none => exact (Keeps.pure ()).balanced
  | some v => exact .guarded fun _ => (Keeps.setValue none).bind fun _ => .await w _

theorem TypeScript.balanced_call (w : World α β) (args : α) : Balanced (TypeScript.call w args) :=
  (Keeps.ofExcept _).balanced.bind fun _ => .guarded fun _ => (Keeps.throwIfNotRunning w).bind fun _ =>
    Keeps.getValue.bind fun _ => (Keeps.await w _).bind fun _ => .ofExcept _

theorem Python.balanced_getFunc (w : World α β) (name : String) : Balanced (Python.getFunc w name) :=
  .guarded fun _ => (Keeps.await w _).bind fun _ => .pure _

theorem Python.balanced_free (w : World α β) : Balanced (Python.free w) := by
  refine Keeps.getValue.balanced.bind fun value => ?_
  cases value with
  | none => exact (Keeps.pure ()).balanced
  | some v => exact (Keeps.setValue none).balanced.bind fun _ => .guarded fun _ => .await w _

/-! ### Calls and polls -/

/-- What stands before the allocation goes well. -/
def Takes (w : World α β) (value : Option Int) (args : α) : Language → Prop
  | .typeScript => (w.serArgs args).isOk
  | .python => value.isSome ∧ w.running

/-- What stands between the allocation and the end of `poll` goes well. -/
def Starts (w : World α β) (value : Option Int) (args : α) (sid : Int) : Language → Prop
  | .typeScript => w.running
  | .python => ∃ packed, w.serArgs args = .ok packed ∧ (w.poll value packed sid).isOk

/-- A Python call has parameters that can be serialized when it has taken a sid; a poll that has
taken one is started, and is given at most one error. -/
def Careful (w : World α β) (client : RpcExtendClient1) (value : Option Int) (language : Language)
    (answers : List (Except Failure (List UInt8))) : Invocation α → Prop
  | .getFunc _ => True
  | .free => True
  | .call args => language = .python → Takes w value args language → client.allocSid.1.isOk → (w.serArgs args).isOk
  | .poll args => Takes w value args language → ∀ sid, client.allocSid.1 = .ok sid →
      Starts w value args sid language ∧ answers.countP (fun answer => !answer.isOk) ≤ 1

theorem invoke_plain {w : World α β} {language : Language} {invocation : Invocation α} {op : Op β γ}
    (h : start w language invocation = do let _ ← op; return none) (answers : List (Except Failure (List UInt8)))
    (p : Progress β) : invoke w language invocation answers p = ((exec op p).2, true) := by
  rw [invoke, h, exec_bind]
  rcases exec op p with ⟨_ | a, p'⟩ <;> rfl

theorem returnsSid_plain_iff {w : World α β} {language : Language} {invocation : Invocation α} {op : Op β γ}
    (h : start w language invocation = do let _ ← op; return none) (answers : List (Except Failure (List UInt8)))
    (p : Progress β) : ReturnsSid w language invocation answers p ↔ (exec op p).2.freed = (exec op p).2.allocated := by
  rw [ReturnsSid, invoke_plain h]
  rfl

section Allocation

variable {p : Progress β}

theorem exec_allocated {sid : Int} (h : p.client.allocSid.1 = .ok sid) (f : Int → Op β γ) :
    exec (allocSid >>= f) p =
      exec (f sid) { p with client := p.client.allocSid.2, allocated := p.allocated ++ [sid] } := by
  rw [exec_bind, exec_allocSid]
  rcases ha : p.client.allocSid with ⟨_ | sid', client⟩ <;> rw [ha] at h <;> cases h
  rfl

theorem exec_noSid {error : RpcExtendError} (h : p.client.allocSid.1 = .error error) (f : Int → Op β γ) :
    exec (allocSid >>= f) p = (.error (.extend error), { p with client := p.client.allocSid.2 }) := by
  rw [exec_bind, exec_allocSid]
  rcases ha : p.client.allocSid with ⟨error' | _, client⟩ <;> rw [ha] at h <;> cases h
  rfl

theorem Python.exec_checked (w : World α β) (h : p.value.isSome ∧ w.running) (op : Op β γ) :
    exec (do Python.assertValue; throwIfNotRunning w; op) p = exec op p := by
  have hvalue : p.value.isNone = false := by rw [← Option.not_isSome, h.1]; rfl
  simp [exec_bind, exec_assertValue, exec_throwIfNotRunning, hvalue, h.2]

theorem Python.exec_unchecked (w : World α β) (h : ¬ (p.value.isSome ∧ w.running)) :
    ∃ failure, ∀ {γ : Type} (op : Op β γ),
      exec (do Python.assertValue; throwIfNotRunning w; op) p = (.error failure, p) := by
  cases hvalue : p.value with
  | none =>
    refine ⟨.assertion, fun op => ?_⟩
    rw [exec_bind, exec_assertValue, hvalue]
    rfl
  | some v =>
    have hstopped : w.running = false := by simpa [hvalue] using h
    refine ⟨.extend ⟨"baseClient is not running."⟩, fun op => ?_⟩
    simp [exec_bind, exec_assertValue, hvalue, exec_throwIfNotRunning, hstopped]

end Allocation

theorem Python.call_frees_iff (w : World α β) (args : α) (client : RpcExtendClient1) (value : Option Int) :
    (exec (Python.call w args) (.init client value)).2.freed =
        (exec (Python.call w args) (.init client value)).2.allocated ↔
      (Takes w value args .python → client.allocSid.1.isOk → (w.serArgs args).isOk) := by
  rw [Python.call]
  by_cases htakes : Takes w value args .python
  · rw [Python.exec_checked (p := .init client value) w htakes]
    cases halloc : client.allocSid.1 with
    | error error =>
      rw [exec_noSid halloc]
      exact ⟨fun _ _ h => absurd h Bool.false_ne_true, fun _ => rfl⟩
    | ok sid =>
      rw [exec_allocated halloc, exec_bind, exec_ofExcept]
      cases hargs : w.serArgs args with
      | error failure =>
        refine iff_of_false (by simp [Progress.init]) fun h => ?_
        exact absurd (h htakes rfl) Bool.false_ne_true
      | ok packed =>
        refine iff_of_true ?_ fun _ _ => rfl
        have hkeeps : Keeps (do
            let result ← await w (w.call (← getValue) packed sid)
            ofExcept (w.unserRet result)) :=
          Keeps.getValue.bind fun _ => (Keeps.await w _).bind fun _ => .ofExcept _
        obtain ⟨ha, hf⟩ := hkeeps.finally_frees sid
          { (Progress.init client value : Progress β) with client := client.allocSid.2, allocated := [sid] }
        exact hf.trans ha.symm
  · obtain ⟨failure, hexec⟩ := Python.exec_unchecked (p := .init client value) w htakes
    rw [hexec]
    exact iff_of_true rfl fun h => absurd h htakes

/-- The ways in which the function of a poll ends: without a sid, with one that it keeps for
itself, or with a callback that holds it. -/
def PollEnds (w : World α β) (client : RpcExtendClient1) (value : Option Int) (args : α) (language : Language)
    (r : Except Failure (Option (Callback β)) × Progress β) : Prop :=
  r.2.freed = [] ∧
  ((r.2.allocated = [] ∧ (∃ failure, r.1 = .error failure) ∧
      ¬ (Takes w value args language ∧ client.allocSid.1.isOk)) ∨
    ∃ sid, r.2.allocated = [sid] ∧ Takes w value args language ∧ client.allocSid.1 = .ok sid ∧
      ((∃ failure, r.1 = .error failure) ∧ ¬ Starts w value args sid language ∨
        r.1 = .ok (some (callback w sid)) ∧ Starts w value args sid language))

/-- As many sids are freed as there are errors. -/
theorem replicate_errors_iff {sid : Int} {answers : List (Except Failure (List UInt8))} :
    List.replicate (answers.countP fun answer => !answer.isOk) sid =
        (if answers.any fun answer => !answer.isOk then [sid] else []) ↔
      answers.countP (fun answer => !answer.isOk) ≤ 1 := by
  have hany : (answers.any fun answer => !answer.isOk) =
      decide (0 < answers.countP fun answer => !answer.isOk) := by
    rw [Bool.eq_iff_iff, List.any_eq_true, decide_eq_true_iff, List.countP_pos_iff]
  rw [hany]
  generalize (answers.countP fun answer => !answer.isOk) = n
  rcases n with _ | _ | n
  · simp
  · simp
  · simp [List.replicate_succ]

section Polls

variable (w : World α β) (args : α) (client : RpcExtendClient1) (value : Option Int)

theorem TypeScript.poll_ends :
    PollEnds w client value args .typeScript (exec (start w .typeScript (.poll args)) (.init client value)) := by
  rw [start, map_eq_pure_bind, exec_bind, TypeScript.poll, exec_bind, exec_ofExcept]
  cases hargs : w.serArgs args with
  | error failure => exact ⟨rfl, .inl ⟨rfl, ⟨_, rfl⟩, fun h => by simp [Takes, hargs, Except.isOk, Except.toBool] at h⟩⟩
  | ok buf =>
    have htakes : Takes w value args .typeScript := by rw [Takes, hargs]; rfl
    cases halloc : client.allocSid.1 with
    | error error =>
      dsimp only
      rw [exec_noSid halloc]
      exact ⟨rfl, .inl ⟨rfl, ⟨_, rfl⟩, fun h => absurd h.2 (by rw [halloc]; exact Bool.false_ne_true)⟩⟩
    | ok sid =>
      dsimp only
      rw [exec_allocated halloc, exec_bind, exec_throwIfNotRunning]
      cases hrunning : w.running with
      | false =>
        refine ⟨rfl, .inr ⟨sid, rfl, htakes, halloc, .inl ⟨⟨_, rfl⟩, ?_⟩⟩⟩
        rw [Starts, hrunning]
        exact Bool.false_ne_true
      | true => exact ⟨rfl, .inr ⟨sid, rfl, htakes, halloc, .inr ⟨rfl, hrunning⟩⟩⟩

theorem Python.poll_ends :
    PollEnds w client value args .python (exec (start w .python (.poll args)) (.init client value)) := by
  rw [start, map_eq_pure_bind, exec_bind, Python.poll]
  by_cases htakes : Takes w value args .python
  · rw [Python.exec_checked (p := .init client value) w htakes]
    cases halloc : client.allocSid.1 with
    | error error =>
      rw [exec_noSid halloc]
      exact ⟨rfl, .inl ⟨rfl, ⟨_, rfl⟩, fun h => absurd h.2 (by rw [halloc]; exact Bool.false_ne_true)⟩⟩
    | ok sid =>
      rw [exec_allocated halloc, exec_bind, exec_ofExcept]
      cases hargs : w.serArgs args with
      | error failure =>
        refine ⟨rfl, .inr ⟨sid, rfl, htakes, halloc, .inl ⟨⟨_, rfl⟩, fun ⟨packed, hpacked, _⟩ => ?_⟩⟩⟩
        rw [hargs] at hpacked
        cases hpacked
      | ok packed =>
        cases hsent : w.poll value packed sid with
        | error failure =>
          simp only [exec_bind, exec_getValue, exec_await, Progress.init, hsent]
          refine ⟨rfl, .inr ⟨sid, rfl, htakes, halloc, .inl ⟨⟨failure, rfl⟩, fun ⟨packed', hpacked, hok⟩ => ?_⟩⟩⟩
          rw [hargs] at hpacked
          cases hpacked
          rw [hsent] at hok
          exact Bool.false_ne_true hok
        | ok _ =>
          simp only [exec_bind, exec_getValue, exec_await, Progress.init, hsent]
          exact ⟨rfl, .inr ⟨sid, rfl, htakes, halloc, .inr ⟨rfl, packed, hargs, by rw [hsent]; rfl⟩⟩⟩
  · obtain ⟨failure, hexec⟩ := Python.exec_unchecked (p := .init client value) w htakes
    rw [hexec]
    exact ⟨rfl, .inl ⟨rfl, ⟨_, rfl⟩, fun h => htakes h.1⟩⟩

theorem tell_callback (sid : Int) (answers : List (Except Failure (List UInt8))) : ∀ p : Progress β,
    (tell (callback w sid) answers p).allocated = p.allocated ∧
      (tell (callback w sid) answers p).freed =
        p.freed ++ List.replicate (answers.countP fun answer => !answer.isOk) sid := by
  induction answers with
  | nil => intro p; simp [tell]
  | cons answer answers ih =>
    intro p
    cases answer with
    | error failure =>
      obtain ⟨ha, hf⟩ := ih (exec (callback w sid (.error failure)) p).2
      refine ⟨ha, hf.trans ?_⟩
      have hfreed : (exec (callback w sid (.error failure)) p).2.freed = p.freed ++ [sid] := rfl
      rw [hfreed, List.countP_cons_of_pos (by rfl), List.replicate_succ, List.append_assoc]
      rfl
    | ok result =>
      obtain ⟨ha, hf⟩ := ih (exec (callback w sid (.ok result)) p).2
      have hkeeps : Keeps (callback w sid (.ok result)) :=
        (Keeps.ofExcept _).bind fun _ => fun _ => ⟨rfl, rfl⟩
      refine ⟨ha.trans (hkeeps p).1, hf.trans ?_⟩
      rw [(hkeeps p).2, List.countP_cons_of_neg (by simp [Except.isOk, Except.toBool])]

theorem returnsSid_poll_iff {language : Language}
    (h : PollEnds w client value args language (exec (start w language (.poll args)) (.init client value)))
    (answers : List (Except Failure (List UInt8))) :
    ReturnsSid w language (.poll args) answers (.init client value) ↔
      Careful w client value language answers (.poll args) := by
  rw [ReturnsSid, invoke]
  generalize exec (start w language (.poll args)) (.init client value) = r at h ⊢
  obtain ⟨result, p⟩ := r
  obtain ⟨hf, ⟨ha, ⟨failure, hr⟩, hno⟩ | ⟨sid, ha, htakes, halloc, hends⟩⟩ := h
  · -- No sid was taken.
    obtain rfl : result = .error failure := hr
    refine iff_of_true (hf.trans ha.symm) fun htakes sid halloc => ?_
    exact absurd ⟨htakes, by rw [halloc]; rfl⟩ hno
  · have hcareful : Careful w client value language answers (.poll args) ↔
        Starts w value args sid language ∧ answers.countP (fun answer => !answer.isOk) ≤ 1 := by
      refine ⟨fun h => h htakes sid halloc, fun h _ sid' halloc' => ?_⟩
      obtain rfl : sid = sid' := Except.ok.inj (halloc.symm.trans halloc')
      exact h
    rw [hcareful]
    obtain ⟨⟨failure, hr⟩, hstarts⟩ | ⟨hr, hstarts⟩ := hends
    · obtain rfl : result = .error failure := hr
      refine iff_of_false (fun h => ?_) fun h => hstarts h.1
      exact absurd (hf.symm.trans (h.trans ha)) (List.cons_ne_nil _ _).symm
    · obtain rfl : result = .ok (some (callback w sid)) := hr
      obtain ⟨hallocated, hfreed⟩ := tell_callback w sid answers p
      rw [and_iff_right hstarts]
      dsimp only at hf ha ⊢
      rw [hallocated, hfreed, hf, ha, List.nil_append, replicate_errors_iff]

end Polls

/-- An invocation returns its sid once, when it ends, exactly when nothing raises between the
allocation and the clause or the callback that frees it, and no poll is told of two errors. -/
theorem invocation_returnsSid_iff (w : World α β) (language : Language) (invocation : Invocation α)
    (client : RpcExtendClient1) (value : Option Int) (answers : List (Except Failure (List UInt8))) :
    ReturnsSid w language invocation answers (.init client value) ↔
      Careful w client value language answers invocation := by
  cases invocation with
  | getFunc name =>
    refine iff_of_true ?_ trivial
    cases language with
    | typeScript => exact (returnsSid_plain_iff rfl answers _).mpr (TypeScript.balanced_getFunc w name _ rfl)
    | python => exact (returnsSid_plain_iff rfl answers _).mpr (Python.balanced_getFunc w name _ rfl)
  | free =>
    refine iff_of_true ?_ trivial
    cases language with
    | typeScript => exact (returnsSid_plain_iff rfl answers _).mpr (TypeScript.balanced_free w _ rfl)
    | python => exact (returnsSid_plain_iff rfl answers _).mpr (Python.balanced_free w _ rfl)
  | call args =>
    cases language with
    | typeScript =>
      refine iff_of_true ?_ fun h => by cases h
      exact (returnsSid_plain_iff rfl answers _).mpr (TypeScript.balanced_call w args _ rfl)
    | python =>
      rw [returnsSid_plain_iff rfl, Python.call_frees_iff]
      exact ⟨fun h _ => h, fun h => h rfl⟩
  | poll args =>
    cases language with
    | typeScript => exact returnsSid_poll_iff w args client value (TypeScript.poll_ends w args client value) answers
    | python => exact returnsSid_poll_iff w args client value (Python.poll_ends w args client value) answers

/-- A client whose receive loop has ended. -/
def stopped : World Unit Unit where
  running := false
  serArgs _ := .ok []
  unserRet _ := .ok ()
  getFunc _ _ := .error .io
  freeRef _ _ := .error .io
  call _ _ _ := .error .io
  poll _ _ _ := .error .io
  meanwhile client := client

/-- A poll on it raises and keeps the sid. -/
theorem stopped_leaks : ¬ ReturnsSid stopped .typeScript (.poll ()) [] (.init .init (some 3)) := by
  rw [returnsSid_poll_iff stopped () .init (some 3) (TypeScript.poll_ends _ _ _ _)]
  intro h
  have halloc : RpcExtendClient1.init.allocSid.1 = .ok sidStart := by
    rw [allocSid_ok (search_free (Finset.notMem_empty _))]
    rfl
  exact absurd (h rfl sidStart halloc).1 Bool.false_ne_true

end PxpRpc.Client.Extend
