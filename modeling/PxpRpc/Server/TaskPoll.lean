import PxpRpc.Server.Tasks

/-!
# Polls in the TypeScript and the Python server

A poll keeps to its turns: it invokes its callable with the same parameter every time,
responds to each invocation, and ends with the first one that is rejected.
-/
namespace PxpRpc.Server.Tasks

open PxpRpc.Lib
open PxpRpc.Pool

variable {Obj Callable Hook : Type} {lang : Lang} {app : Application Obj Callable}
  {s s' : Server Obj Callable Hook} {t : Task Callable} {i : Input Obj Hook} {id : Nat}

/-! ### Steps of other tasks -/

/-- The task that an input is for. -/
def Input.task : Input Obj Hook → Option Nat
  | .resumes id | .settles id _ | .sends id _ => some id
  | _ => none

@[simp] theorem tasks_close : s.close.tasks = s.tasks := by
  unfold Server.close
  split <;> rfl

@[simp] theorem running_close : s.close.running = false := by
  unfold Server.close
  split
  · rfl
  · exact Bool.eq_false_of_not_eq_true ‹_›

@[simp] theorem running_raise : (raise s id t).running = false := running_close

/-- A step of one task: it may close the server, but does not open it again. -/
def Within (s s' : Server Obj Callable Hook) (id : Nat) : Prop :=
  (∃ t, s'.tasks = s.tasks.set id t) ∧ (s'.running → s.running)

theorem within_put {s₁ : Server Obj Callable Hook} (ht : s₁.tasks = s.tasks) (hr : s₁.running → s.running) :
    Within s (s₁.put id t) id :=
  ⟨⟨t, congrArg (·.set id t) ht⟩, hr⟩

theorem within_raise {s₁ : Server Obj Callable Hook} (ht : s₁.tasks = s.tasks) : Within s (raise s₁ id t) id :=
  within_put (by rw [tasks_close, ht]) (by simp)

theorem within_enter : Within s (enter lang app s id t) id := by
  unfold enter
  dsimp only
  split_ifs
  · split
    · exact within_put rfl fun h => h
    · exact within_raise rfl
  · split
    · exact within_put rfl fun h => h
    · exact within_raise rfl
  · split
    · exact within_put rfl fun h => h
    · exact within_raise rfl
  · exact within_put tasks_close (by simp)
  · exact within_put rfl fun h => h
  · split
    · exact within_put rfl fun h => h
    · exact within_raise rfl
  · exact within_raise rfl

theorem within_resume (h : resume lang app s id t = some s') : Within s s' id := by
  unfold resume at h
  split at h
  · obtain rfl := Option.some.inj h
    exact within_enter
  · obtain rfl := Option.some.inj h
    exact within_put rfl fun h => h
  · obtain rfl := Option.some.inj h
    exact within_put rfl fun h => h
  · obtain rfl := Option.some.inj h
    exact within_put rfl fun h => h
  · cases h

/-- What every step does: an input for a task changes that task only, any other one leaves
all of them as they are; a server that has been closed stays so. -/
theorem step_frame (h : step lang app s i = some s') :
    (∀ id < s.tasks.length, i.task ≠ some id → s'.tasks[id]? = s.tasks[id]?) ∧ (s'.running → s.running) := by
  have hwithin : ∀ {id}, i.task = some id → Within s s' id →
      (∀ id < s.tasks.length, i.task ≠ some id → s'.tasks[id]? = s.tasks[id]?) ∧ (s'.running → s.running) := by
    rintro id' hi ⟨⟨t, ht⟩, hr⟩
    refine ⟨fun id _ hne => ?_, hr⟩
    rw [ht, List.getElem?_set_ne fun he => hne (hi.trans (congrArg some he))]
  cases i with
  | receives buf =>
    simp only [step] at h
    split_ifs at h
    split at h
    · obtain rfl := Option.some.inj h
      exact ⟨fun id hlt _ => List.getElem?_append_left hlt, fun hr => hr⟩
    · obtain rfl := Option.some.inj h
      exact ⟨fun id _ _ => by rw [tasks_close], by simp⟩
  | resumes id' =>
    obtain ⟨t, -, h⟩ := Option.bind_eq_some_iff.mp h
    exact hwithin rfl (within_resume h)
  | settles id' outcome =>
    obtain ⟨t, -, h⟩ := Option.bind_eq_some_iff.mp h
    split_ifs at h
    cases outcome with
    | some o =>
      obtain rfl := Option.some.inj h
      exact hwithin rfl (within_put rfl fun h => h)
    | none =>
      obtain rfl := Option.some.inj h
      exact hwithin rfl (within_raise rfl)
  | sends id' sent =>
    obtain ⟨t, -, h⟩ := Option.bind_eq_some_iff.mp h
    split_ifs at h
    · obtain rfl := Option.some.inj h
      exact hwithin rfl (within_put rfl fun h => h)
    · obtain rfl := Option.some.inj h
      exact hwithin rfl (within_raise rfl)
  | allocates object onFree =>
    obtain ⟨p, -, h⟩ := Option.bind_eq_some_iff.mp h
    obtain ⟨refPool, -, rfl⟩ := Option.map_eq_some_iff.mp h
    exact ⟨fun _ _ _ => rfl, fun hr => hr⟩
  | frees j =>
    obtain ⟨p, -, rfl⟩ := Option.map_eq_some_iff.mp h
    exact ⟨fun _ _ _ => rfl, fun hr => hr⟩
  | closes =>
    obtain rfl := Option.some.inj h
    exact ⟨fun _ _ _ => by rw [tasks_close], by simp⟩

/-! ### The turns of a poll -/

section Turns

variable (session : BitVec 32) (c : Callable) (parameter : List UInt8)

/-- The response to an invocation: the session, lowest byte first, then the result, or for
an invocation that was rejected the text of the error, with the upper bit of the session flipped. -/
def response (o : Outcome) : List UInt8 :=
  let error : BitVec 8 := if o.rejected.isSome then 0x80 else 0
  ⟨session.extractLsb' 0 8⟩ :: ⟨session.extractLsb' 8 8⟩ :: ⟨session.extractLsb' 16 8⟩ ::
    ⟨session.extractLsb' 24 8 ^^^ error⟩ :: o.rejected.getD o.result

/-- One invocation and the response to it; a signal gets none. -/
def turn (o : Outcome) : List (Event Callable) :=
  .invoked c parameter :: .settled o :: if session = 0xffffffff then [] else [.sent (response session o)]

def turns (os : List Outcome) : List (Event Callable) := os.flatMap (turn session c parameter)

theorem turns_append_one (os : List Outcome) (o : Outcome) :
    turns session c parameter (os ++ [o]) = turns session c parameter os ++ turn session c parameter o := by
  simp [turns]

def Accepted (os : List Outcome) : Prop := ∀ o ∈ os, o.rejected = none

instance (os : List Outcome) : Decidable (Accepted os) := inferInstanceAs (Decidable (∀ o ∈ os, _))

/-- The reference is that of the callable. -/
def Holds (app : Application Obj Callable) (k : Int) (c : Callable) (s : Server Obj Callable Hook) : Prop :=
  (s.object k).bind app.callable = some c

instance [DecidableEq Callable] (app : Application Obj Callable) (k : Int) (s : Server Obj Callable Hook) :
    Decidable (Holds app k c s) := inferInstanceAs (Decidable (_ = _))

/-- Going on by itself the task comes to this history. -/
def Comes (lang : Lang) (app : Application Obj Callable) (s : Server Obj Callable Hook) (id : Nat)
    (history : List (Event Callable)) : Prop :=
  ∃ n s' t, run (step lang app) s (List.replicate n (.resumes id)) = some s' ∧ s'.tasks[id]? = some t ∧
    t.history = history

/-- What a poll has done: whole turns, none of them rejected, and then it goes on to the next
invocation, or the callable runs, or it goes on to the response, or the response is being
sent; or it has done whole turns of which the last one was rejected. -/
inductive Polls (lang : Lang) (app : Application Obj Callable) (k : Int) (s : Server Obj Callable Hook) (id : Nat) :
    Task Callable → Prop
  | between {t : Task Callable} (os : List Outcome) : Accepted os → t.history = turns session c parameter os →
      (Holds app k c s → Comes lang app s id (turns session c parameter os ++ [.invoked c parameter])) →
      Polls lang app k s id t
  | invoking {t : Task Callable} (os : List Outcome) : Accepted os → t.stack.head? = some .calls →
      t.history = turns session c parameter os ++ [.invoked c parameter] → Polls lang app k s id t
  | responding {t : Task Callable} (os : List Outcome) (o : Outcome) : Accepted os →
      t.history = turns session c parameter os ++ [.invoked c parameter, .settled o] →
      Comes lang app s id (turns session c parameter (os ++ [o])) → Polls lang app k s id t
  | sending {t : Task Callable} (os : List Outcome) (o : Outcome) : Accepted os → t.stack.head? = some .sends →
      t.history = turns session c parameter (os ++ [o]) → Polls lang app k s id t
  | ended {t : Task Callable} (os : List Outcome) (o : Outcome) : Accepted os → o.rejected.isSome →
      t.history = turns session c parameter (os ++ [o]) → Polls lang app k s id t

/-- Where the task of a poll stands, from the arrival of its request on. -/
inductive Stage (k : Int) : Task Callable → Prop
  | arrived {bytes result : List UInt8} {rejected : Option (List UInt8)} : getInt32 bytes 0 = some k →
      bytes.drop 4 = parameter → Stage k ⟨⟨session, -5, bytes, result, rejected⟩, [.enters], []⟩
  | looping {os : List Outcome} {result : List UInt8} {rejected : Option (List UInt8)} : Accepted os →
      Stage k ⟨⟨session, k, parameter, result, rejected⟩, [.loops, .called], turns session c parameter os⟩
  | entering {os : List Outcome} : Accepted os →
      Stage k ⟨⟨session, k, parameter, [], none⟩, [.enters, .polled, .called], turns session c parameter os⟩
  | invoking {os : List Outcome} : Accepted os →
      Stage k ⟨⟨session, k, parameter, [], none⟩, [.calls, .polled, .called],
        turns session c parameter os ++ [.invoked c parameter]⟩
  | responding {os : List Outcome} {o : Outcome} : Accepted os →
      Stage k ⟨⟨session, k, parameter, o.result, o.rejected⟩, [.called, .polled, .called],
        turns session c parameter os ++ [.invoked c parameter, .settled o]⟩
  | sending {os : List Outcome} {o : Outcome} : Accepted os →
      Stage k ⟨⟨session, k, parameter, o.result, o.rejected⟩, [.sends, .polled, .called],
        turns session c parameter (os ++ [o])⟩
  | polled {os : List Outcome} {o : Outcome} : Accepted os →
      Stage k ⟨⟨session, k, parameter, o.result, o.rejected⟩, [.polled, .called],
        turns session c parameter (os ++ [o])⟩
  | ended {os : List Outcome} {o : Outcome} {r : PxpRequest} {stack : List Activation} : Accepted os →
      o.rejected.isSome → r.callableIndex = -3 → stack = [.called] ∨ stack = [] →
      Stage k ⟨r, stack, turns session c parameter (os ++ [o])⟩

end Turns

variable {session : BitVec 32} {k : Int} {c : Callable} {parameter : List UInt8}

theorem Accepted.append_one {os : List Outcome} {o : Outcome} (h : Accepted os) (ho : o.rejected = none) :
    Accepted (os ++ [o]) := by
  intro p hp
  rcases List.mem_append.mp hp with hp | hp
  · exact h p hp
  · rw [List.mem_singleton.mp hp]
    exact ho

theorem accepted_nil : Accepted [] := fun _ ho => absurd ho List.not_mem_nil

theorem leBytes_word (w : BitVec 32) : leBytes 4 w.toNat =
    [⟨w.extractLsb' 0 8⟩, ⟨w.extractLsb' 8 8⟩, ⟨w.extractLsb' 16 8⟩, ⟨w.extractLsb' 24 8⟩] := by
  have hbyte : ∀ i, (⟨w.extractLsb' i 8⟩ : UInt8) = UInt8.ofNat (w.toNat / 2 ^ i) := by
    intro i
    apply UInt8.toNat_inj.mp
    rw [UInt8.toNat_ofNat', ← Nat.shiftRight_eq_div_pow]
    exact BitVec.extractLsb'_toNat i 8 w
  rw [hbyte, hbyte, hbyte, hbyte]
  norm_num [leBytes, Nat.div_div_eq_div_mul]

/-- What is sent is the response. -/
theorem message_eq_response (o : Outcome) : message session o = response session o := by
  cases ho : o.rejected with
  | none =>
    simp only [message, response, ho, leBytes_word]
    simp
  | some text =>
    simp only [message, response, ho, leBytes_word, BitVec.extractLsb'_xor]
    simp

/-- The response to an invocation completes its turn. -/
theorem history_respond (hk : 0 ≤ k) (os : List Outcome) (o : Outcome) (stack : List Activation) :
    (respond ⟨⟨session, k, parameter, o.result, o.rejected⟩, stack,
      turns session c parameter os ++ [.invoked c parameter, .settled o]⟩).history =
      turns session c parameter (os ++ [o]) := by
  have hne : k ≠ -3 := by omega
  rw [turns_append_one]
  by_cases hs : session = 0xffffffff
  · rw [respond, if_pos (.inr hs), turn, if_pos hs]
    rfl
  · rw [respond, if_neg (not_or_intro hne hs), turn, if_neg hs]
    simp [Task.goes, Task.logs, PxpRequest.outcome, message_eq_response]

/-! ### Going on -/

/-- Where the task stands is one of the points it comes to. -/
theorem Comes.here (ht : s.tasks[id]? = some t) : Comes lang app s id t.history :=
  ⟨0, s, t, rfl, ht, rfl⟩

/-- What the task comes to after its next step. -/
theorem Comes.after {u : Task Callable} {history : List (Event Callable)} (ht : s.tasks[id]? = some t)
    (hs : resume lang app s id t = some (s.put id u)) (h : Comes lang app (s.put id u) id history) :
    Comes lang app s id history := by
  obtain ⟨n, s', t'', hrun, ht'', hh⟩ := h
  refine ⟨n + 1, s', t'', ?_, ht'', hh⟩
  rw [List.replicate_succ, run_cons, step, ht, Option.bind_some, hs]
  exact hrun

theorem getElem?_put (ht : s.tasks[id]? = some t) (t' : Task Callable) : (s.put id t').tasks[id]? = some t' :=
  List.getElem?_set_self (List.getElem?_eq_some_iff.mp ht).1

section

variable {os : List Outcome} {history : List (Event Callable)} {stack : List Activation}

/-- The lookup finds the callable, and the callable is invoked. -/
theorem comes_entering (hk : 0 ≤ k) (hc : Holds app k c s)
    (ht : s.tasks[id]? = some ⟨⟨session, k, parameter, [], none⟩, .enters :: stack, history⟩) :
    Comes lang app s id (history ++ [.invoked c parameter]) := by
  have hc : (s.object k).bind app.callable = some c := hc
  refine Comes.after (u := ⟨⟨session, k, parameter, [], none⟩, .calls :: stack, history ++ [.invoked c parameter]⟩) ht ?_
    (Comes.here (getElem?_put ht _))
  simp only [resume, enter, if_pos hk, hc]
  rfl

/-- The loop goes round once more. -/
theorem comes_looping {result : List UInt8} {rejected : Option (List UInt8)} (hk : 0 ≤ k) (hr : s.running)
    (hc : Holds app k c s)
    (ht : s.tasks[id]? = some ⟨⟨session, k, parameter, result, rejected⟩, .loops :: stack, history⟩) :
    Comes lang app s id (history ++ [.invoked c parameter]) := by
  refine Comes.after (u := ⟨⟨session, k, parameter, [], none⟩, .enters :: .polled :: stack, history⟩) ht ?_
    (comes_entering hk hc (getElem?_put ht _))
  simp only [resume, loop, if_pos hr]
  rfl

end

theorem Stage.polls (hk : 0 ≤ k) (hr : s.running) (ht : s.tasks[id]? = some t) (h : Stage session c parameter k t) :
    Polls session c parameter lang app k s id t := by
  cases h with
  | @arrived bytes result rejected hidx hdrop =>
    refine .between [] accepted_nil rfl fun hc => ?_
    refine Comes.after (u := ⟨⟨session, k, parameter, result, rejected⟩, [.loops, .called], []⟩) ht ?_
      (comes_looping hk hr hc (getElem?_put ht _))
    simp only [resume, enter, hidx, hdrop]
    rfl
  | looping ha => exact .between _ ha rfl fun hc => comes_looping hk hr hc ht
  | entering ha => exact .between _ ha rfl fun hc => comes_entering hk hc ht
  | invoking ha => exact .invoking _ ha rfl rfl
  | @responding os o ha =>
    refine .responding _ _ ha rfl ?_
    rw [← history_respond hk os o [.called, .polled, .called]]
    exact Comes.after ht rfl (Comes.here (getElem?_put ht _))
  | sending ha => exact .sending _ _ ha rfl rfl
  | @polled os o ha =>
    cases ho : o.rejected with
    | some text => exact .ended _ _ ha (by rw [ho]; rfl) rfl
    | none =>
      refine .between _ (ha.append_one ho) rfl fun hc => ?_
      refine Comes.after (u := ⟨⟨session, k, parameter, o.result, o.rejected⟩, [.loops, .called], _⟩) ht ?_
        (comes_looping hk hr hc (getElem?_put ht _))
      simp only [resume, ho]
      rfl
  | ended ha ho _ _ => exact .ended _ _ ha ho rfl

/-! ### The steps of a poll -/

/-- Where `processRequest` looks up what a poll is to invoke. -/
def looksUp : List Activation := [.enters, .polled, .called]

/-- If the reference is that of the callable where it is looked up, a poll that goes on
comes to its next stage. -/
theorem Stage.resume (hk : 0 ≤ k) (h : Stage session c parameter k t) (hc : t.stack = looksUp → Holds app k c s)
    (hs : Tasks.resume lang app s id t = some s') (hr : s.running) :
    ∃ t', s' = s.put id t' ∧ Stage session c parameter k t' := by
  have hne : k ≠ -3 := by omega
  cases h with
  | arrived hidx hdrop =>
    obtain rfl := Option.some.inj hs
    simp only [enter, hidx]
    exact ⟨_, rfl, by rw [hdrop]; exact .looping accepted_nil⟩
  | looping ha =>
    obtain rfl := Option.some.inj hs
    refine ⟨_, rfl, ?_⟩
    rw [loop, if_pos hr]
    exact .entering ha
  | entering ha =>
    obtain rfl := Option.some.inj hs
    have hc : (s.object k).bind app.callable = some c := hc rfl
    simp only [enter, if_pos hk, hc]
    exact ⟨_, rfl, .invoking ha⟩
  | invoking ha => cases hs
  | responding ha =>
    rename_i os o
    obtain rfl := Option.some.inj hs
    refine ⟨_, rfl, ?_⟩
    have hh := @history_respond _ session k c parameter hk os o [.called, .polled, .called]
    by_cases hsig : session = 0xffffffff
    · rw [respond, if_pos (.inr hsig)] at hh ⊢
      simp only [Task.returns] at hh ⊢
      rw [hh]
      exact .polled ha
    · rw [respond, if_neg (not_or_intro hne hsig)] at hh ⊢
      simp only [Task.logs, Task.goes] at hh ⊢
      rw [hh]
      exact .sending ha
  | sending ha => cases hs
  | polled ha =>
    rename_i os o
    obtain rfl := Option.some.inj hs
    refine ⟨_, rfl, ?_⟩
    cases ho : o.rejected with
    | none =>
      rw [if_neg (by simp)]
      exact .looping (ha.append_one ho)
    | some text =>
      rw [if_pos (by simp)]
      exact .ended ha (by rw [ho]; rfl) rfl (.inl rfl)
  | ended ha ho hi hstack =>
    rcases hstack with rfl | rfl
    · obtain rfl := Option.some.inj hs
      refine ⟨_, rfl, ?_⟩
      rw [respond, if_pos (.inl hi)]
      exact .ended ha ho hi (.inr rfl)
    · cases hs

theorem Stage.settle {o : Outcome} (h : Stage session c parameter k t) (hcalls : t.stack.head? = some .calls) :
    Stage session c parameter k (Tasks.settle t o) := by
  cases h with
  | invoking ha =>
    simp only [Tasks.settle, Task.logs, Task.goes, List.tail_cons, List.append_assoc, List.singleton_append]
    exact .responding ha
  | ended ha ho hi hstack => rcases hstack with rfl | rfl <;> simp at hcalls
  | _ => simp at hcalls

theorem Stage.returns (h : Stage session c parameter k t) (hsends : t.stack.head? = some .sends) :
    Stage session c parameter k t.returns := by
  cases h with
  | sending ha => exact .polled ha
  | ended ha ho hi hstack => rcases hstack with rfl | rfl <;> simp at hsends
  | _ => simp at hsends

/-- Where the task looks its callable up, the reference is that of the callable. -/
def Finds (app : Application Obj Callable) (k : Int) (c : Callable) (id : Nat) (s : Server Obj Callable Hook)
    (i : Input Obj Hook) : Prop :=
  i.task = some id → s.tasks[id]?.map (fun t => t.stack) = some looksUp → Holds app k c s

instance [DecidableEq Callable] : Decidable (Finds app k c id s i) := inferInstanceAs (Decidable (_ → _ → _))

/-- A step of the server, whatever task it is of, keeps the poll at some stage. -/
theorem Stage.step (hk : 0 ≤ k) (h : ∃ t, s.tasks[id]? = some t ∧ Stage session c parameter k t)
    (hc : Finds app k c id s i) (hs : Tasks.step lang app s i = some s') (hr : s'.running) :
    ∃ t, s'.tasks[id]? = some t ∧ Stage session c parameter k t := by
  obtain ⟨t, ht, hstage⟩ := h
  obtain ⟨hlt, -⟩ := List.getElem?_eq_some_iff.mp ht
  have hset : ∀ t', (s.tasks.set id t')[id]? = some t' := fun t' => List.getElem?_set_self hlt
  by_cases hi : i.task = some id
  · cases i with
    | resumes id' =>
      have hc : s.tasks[id]?.map (fun t => t.stack) = some looksUp → Holds app k c s := hc hi
      obtain rfl : id' = id := Option.some.inj hi
      simp only [Tasks.step, ht, Option.bind_some] at hs
      have hc : t.stack = looksUp → Holds app k c s := fun he => hc (by rw [ht, Option.map_some, he])
      obtain ⟨t', rfl, hstage'⟩ := hstage.resume hk hc hs ((within_resume hs).2 hr)
      exact ⟨t', hset t', hstage'⟩
    | settles id' outcome =>
      obtain rfl : id' = id := Option.some.inj hi
      simp only [Tasks.step, ht, Option.bind_some] at hs
      split_ifs at hs with hcalls
      cases outcome with
      | some o =>
        obtain rfl := Option.some.inj hs
        exact ⟨_, hset _, hstage.settle hcalls⟩
      | none =>
        obtain rfl := Option.some.inj hs
        simp at hr
    | sends id' sent =>
      obtain rfl : id' = id := Option.some.inj hi
      simp only [Tasks.step, ht, Option.bind_some] at hs
      split_ifs at hs with hsends
      · obtain rfl := Option.some.inj hs
        exact ⟨_, hset _, hstage.returns hsends⟩
      · obtain rfl := Option.some.inj hs
        simp at hr
    | _ => cases hi
  · exact ⟨t, by rw [(step_frame hs).1 id hlt hi, ht], hstage⟩

/-! ### Runs -/

/-- A poll request on the reference `k`, in a message. -/
def IsPoll (buf : List UInt8) (session : BitVec 32) (k : Int) (parameter : List UInt8) : Prop :=
  ∃ r, parse buf = some r ∧ r.session = session ∧ r.callableIndex = -5 ∧ getInt32 r.parameter 0 = some k ∧
    r.parameter.drop 4 = parameter

theorem Stage.receive {buf : List UInt8} (hb : IsPoll buf session k parameter)
    (hs : Tasks.step lang app s (.receives (some buf)) = some s') :
    ∃ t, s'.tasks[s.tasks.length]? = some t ∧ Stage session c parameter k t := by
  obtain ⟨⟨session', callableIndex, bytes, result, rejected⟩, hparse, rfl, rfl, hidx, hdrop⟩ := hb
  simp only [Tasks.step, Option.bind_some, hparse] at hs
  split_ifs at hs
  obtain rfl := Option.some.inj hs
  exact ⟨_, List.getElem?_concat_length, .arrived hidx hdrop⟩

/-- Whatever the other requests and the application do, as long as the reference of a poll
is that of its callable and nothing closes the server, the poll keeps to its turns. -/
theorem poll_keepsTurns {buf : List UInt8} {s₀ s₁ : Server Obj Callable Hook} {ins : List (Input Obj Hook)}
    (hb : IsPoll buf session k parameter) (hk : 0 ≤ k)
    (h₁ : step lang app s₀ (.receives (some buf)) = some s₁)
    (hc : Along (step lang app) (fun s _ => Holds app k c s) s₁ ins)
    (hrun : run (step lang app) s₁ ins = some s) (hr : s.running) :
    ∃ t, s.tasks[s₀.tasks.length]? = some t ∧ Polls session c parameter lang app k s s₀.tasks.length t := by
  have hstage : s.running → ∃ t, s.tasks[s₀.tasks.length]? = some t ∧ Stage session c parameter k t :=
    run_invariant
      (J := fun s => s.running → ∃ t, s.tasks[s₀.tasks.length]? = some t ∧ Stage session c parameter k t)
      (fun _ _ _ hJ hc hs hr => Stage.step hk (hJ ((step_frame hs).2 hr)) (fun _ _ => hc) hs hr)
      (fun _ => Stage.receive hb h₁) hc hrun
  obtain ⟨t, ht, hstage⟩ := hstage hr
  exact ⟨t, ht, hstage.polls hk hr ht⟩

/-- One object, which can be called. -/
def oneCallable : Application Unit Unit := ⟨fun _ => some none, some⟩

def oneServer : Server Unit Unit Unit :=
  (step .typeScript oneCallable Server.init (.allocates () none)).getD Server.init

/-- A poll on reference 0 in session 1. -/
def onePoll : List UInt8 := [1, 0, 0, 0, 0xfb, 0xff, 0xff, 0xff, 0, 0, 0, 0, 7]

def polledServer : Server Unit Unit Unit :=
  (step .typeScript oneCallable oneServer (.receives (some onePoll))).getD Server.init

/-- An invocation that is accepted, a request for the info in between, and one that is rejected. -/
def twoTurns : List (Input Unit Unit) :=
  [.resumes 0, .resumes 0, .resumes 0, .receives (some [2, 0, 0, 0, 0xfc, 0xff, 0xff, 0xff]), .settles 0 (some ⟨[5], none⟩),
    .resumes 1, .resumes 0, .resumes 1, .sends 0 true, .resumes 0, .sends 1 true, .resumes 0, .resumes 0,
    .settles 0 (some ⟨[], some [6]⟩), .resumes 0, .sends 0 true, .resumes 0, .resumes 0]

theorem poll_twoTurns : ∃ s, run (step .typeScript oneCallable) polledServer twoTurns = some s ∧
    ∃ t, s.tasks[oneServer.tasks.length]? = some t ∧
      Polls 1 () [7] .typeScript oneCallable 0 s oneServer.tasks.length t := by
  have hb : IsPoll onePoll 1 0 [7] :=
    ⟨⟨1, -5, [0, 0, 0, 0, 7], [], none⟩, by decide +kernel, rfl, rfl, by decide +kernel, rfl⟩
  have h₁ : step .typeScript oneCallable oneServer (.receives (some onePoll)) = some polledServer := by
    decide +kernel
  have hc : Along (step .typeScript oneCallable) (fun s _ => Holds oneCallable 0 () s) polledServer twoTurns := by
    decide +kernel
  obtain ⟨s, hs, hr⟩ : ∃ s, run (step .typeScript oneCallable) polledServer twoTurns = some s ∧ s.running = true :=
    exists_run (by decide +kernel)
  exact ⟨s, hs, poll_keepsTurns hb le_rfl h₁ hc hs hr⟩

end PxpRpc.Server.Tasks
