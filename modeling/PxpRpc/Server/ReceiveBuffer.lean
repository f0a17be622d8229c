import PxpRpc.Server.Poll
import PxpRpc.Server.Signal

/-!
# Who frees a receive buffer

The address of the parameter is moved over the header and, in a poll, over the
index of the callable, and moved back before the request is finished; a callable
may replace it by NULL.
-/
namespace PxpRpc.Server

open PxpRpc.Lib PxpRpc.Lib.Callback

/-- The function works on the parameter of a poll behind the index of the callable. -/
def NextStep.shifted : NextStep → Bool
  | .stepPoll2 | .stepPoll3 => true
  | _ => false

def Code.shifted (req : Request) : Code → Bool
  | .nextStep _ | .writeResult _ => req.nextStep.any NextStep.shifted
  | .step f _ => f.shifted
  | .pollCall _ | .poll3 _ => true
  | _ => false

def Code.isPoll (req : Request) : Code → Bool
  | .nextStep _ | .writeResult _ => req.nextStep.any NextStep.polls
  | .step f _ => f.polls
  | .pollCall _ | .poll3 _ => true
  | _ => false

def Event.takes (r : Nat) : Event → Bool
  | .resumed q o => q = r && o.ownsParameter
  | _ => false

/-- A callable has taken the buffer of the request for its own. -/
def owned (r : Nat) (log : List Event) : Bool := log.any (Event.takes r)

/-- No callable of a poll takes the parameter buffer for its own. -/
def LeavesPolls (c : Config) : Move Entry → Prop
  | .enter (.resume r o) => o.ownsParameter → (c.state.request r).nextStep ≠ some .stepPoll2
  | _ => True

theorem leavesPolls_enter {c : Config} {e : Entry} : LeavesPolls c (.enter e) ↔
    ∀ p ∈ e.resumed, p.2.ownsParameter → (c.state.request p.1).nextStep ≠ some .stepPoll2 := by
  cases e <;> simp [LeavesPolls, Entry.resumed]

instance : ∀ (c : Config) (m : Move Entry), Decidable (LeavesPolls c m) :=
  decidableMove (fun _ _ _ => isTrue trivial) (fun _ _ => decidable_of_iff _ leavesPolls_enter.symm)
    (fun _ => trivial) (fun _ _ _ => trivial) (fun _ => trivial)

/-! ### The invariant -/

/-- The address of the parameter of a request with buffer `b`. -/
structure Based (b : Nat) (owned poll shifted : Bool) (a : Addr) : Prop where
  poll : owned → poll = false
  addr : a = if owned then .null else ⟨some b, if shifted then 12 else 8⟩

/-- Where the address is now, and that it has not been freed unless it is finished. -/
structure Keeps (r b : Nat) (c : ServCo) (stack : Stack) : Prop where
  code : ∀ k, .code k ∈ stack → k.request = some r →
    Based b (owned r c.log) (k.isPoll (c.request r)) (k.shifted (c.request r)) (c.request r).parameter.base
  invoked : r ∈ c.invoked → Based b (owned r c.log) ((c.request r).nextStep.any NextStep.polls)
    ((c.request r).nextStep.any NextStep.shifted) (c.request r).parameter.base ∧
    (c.request r).nextStep ≠ some .stepPoll1 ∧ (c.request r).nextStep ≠ some .stepPoll3
  sending : ∀ f, (r, f) ∈ c.sending →
    Based b (owned r c.log) f.polls f.shifted (c.request r).parameter.base
  freed : c.log.count (.bufFree b) = if .finished r ∈ c.log ∧ owned r c.log = false then 1 else 0
  frame : .finished r ∉ c.log → (c.frames b).isSome

/-- Every request has been received into a buffer of its own. -/
structure Boxed (c : ServCo) (stack : Stack) : Prop where
  received : ∀ r < c.nextRequest, ∃ b frame, .received r ⟨some b, 0⟩ frame ∈ c.log
  bound : ∀ r b frame, .received r ⟨some b, 0⟩ frame ∈ c.log → b < c.nextFrame
  apart : ∀ r q base frame frame', .received r base frame ∈ c.log → .received q base frame' ∈ c.log → r = q
  unfreed : ∀ b, c.nextFrame ≤ b → .bufFree b ∉ c.log
  fresh : stack.head? = some (.code .step2) → c.receiveError = none →
    (∀ r frame, .received r c.recvBuf.base frame ∉ c.log) ∧
      ∀ b, c.recvBuf.base = ⟨some b, 0⟩ → .bufFree b ∉ c.log

section

variable {r b : Nat} {c c' : ServCo} {k : Code} {stack rest items : Stack}

theorem owned_eventsOf (log : List Event) : owned r (eventsOf r log) = owned r log := by
  simp only [owned, eventsOf, List.any_filter]
  congr 1
  funext ev
  cases ev <;> simp [Event.takes, Event.isOf]

theorem based_iff {o p s : Bool} {a : Addr} :
    Based b o p s a ↔ (o → p = false) ∧ a = if o then .null else ⟨some b, if s then 12 else 8⟩ :=
  ⟨fun h => ⟨h.1, h.2⟩, fun h => ⟨h.1, h.2⟩⟩

/-- The address goes from one piece of the code of a request to the next. -/
theorem based_runs (h : Keeps r b c (.code k :: rest)) (hone : Alone r c rest) (hk : k.request = some r)
    (hr : Runs c k c' items) :
    (∀ k, .code k ∈ items → k.request = some r →
      Based b (owned r c.log) (k.isPoll (c'.request r)) (k.shifted (c'.request r)) (c'.request r).parameter.base) ∧
    (r ∈ c'.invoked → Based b (owned r c.log) ((c'.request r).nextStep.any NextStep.polls)
      ((c'.request r).nextStep.any NextStep.shifted) (c'.request r).parameter.base ∧
      (c'.request r).nextStep ≠ some .stepPoll1 ∧ (c'.request r).nextStep ≠ some .stepPoll3) ∧
    (∀ f, (r, f) ∈ c'.sending → Based b (owned r c.log) f.polls f.shifted (c'.request r).parameter.base) := by
  obtain ⟨hpoll, haddr⟩ := h.code k List.mem_cons_self hk
  have hinvoked := hone.invoked
  have hsending := hone.sending
  cases ho : owned r c.log <;>
  cases hr <;>
    first
    | cases hk; done
    | obtain rfl := Option.some.inj hk
      simp_all [based_iff, Code.isPoll, Code.shifted, NextStep.polls, NextStep.shifted, Code.request, prepareRequest,
        Addr.add, block_flip, flip_nextStep]

theorem owned_runs (hr : Runs c k c' items) (q : Nat) : owned q c'.log = owned q c.log := by
  cases hr <;> simp [owned, Event.takes]

theorem owned_same (h : eventsOf r c'.log = eventsOf r c.log) : owned r c'.log = owned r c.log := by
  rw [← owned_eventsOf, h, owned_eventsOf]

theorem finished_same (h : eventsOf r c'.log = eventsOf r c.log) : .finished r ∈ c'.log ↔ .finished r ∈ c.log := by
  rw [← mem_eventsOf (r := r) (by simp [Event.isOf]), h, mem_eventsOf (by simp [Event.isOf])]

/-- Code that does not finish a request frees no buffer. -/
theorem freed_runs (hr : Runs c k c' items) (hk : ∀ q, k ≠ .finish2 q) :
    c'.log.count (.bufFree b) = c.log.count (.bufFree b) ∧ (∀ q, .finished q ∈ c'.log ↔ .finished q ∈ c.log) ∧
      c'.frames = c.frames := by
  refine ⟨?_, fun q => ?_, ?_⟩
  · cases hr with
    | finishOwned | finishFree => exact absurd rfl (hk _)
    | _ => simp [List.count_append, apply_ite (List.count _)]
  · cases hr with
    | finishOwned | finishFree => exact absurd rfl (hk _)
    | _ => simp
  · cases hr with
    | finishOwned | finishFree => exact absurd rfl (hk _)
    | _ => rfl

theorem finished_top (hc : Counted c (.code k :: rest)) (hk : k.request = some r) : .finished r ∉ c.log := by
  have hf := hc.finished r
  have hcount := count_top hc hk
  intro hm
  have := List.count_pos_iff.mpr hm
  split at hf <;> omega

/-- The address that is about to be freed. -/
theorem finish_addr (h : Keeps r b c (.code (.finish2 r) :: rest)) {b' : Nat}
    (hb : (c.request r).parameter.base = ⟨some b', 8⟩) : b' = b ∧ owned r c.log = false := by
  have haddr := (h.code _ List.mem_cons_self rfl).addr
  rw [hb, show Code.shifted (c.request r) (.finish2 r) = false from rfl] at haddr
  split at haddr
  · cases haddr
  · rename_i ho
    exact ⟨by simpa using haddr, by simpa using ho⟩

theorem finish_owned (h : Keeps r b c (.code (.finish2 r) :: rest)) (hb : c.block r = none) : owned r c.log = true := by
  have haddr := (h.code _ List.mem_cons_self rfl).addr
  by_contra ho
  rw [if_neg ho] at haddr
  rw [ServCo.block, haddr] at hb
  cases hb

theorem keeps_runs (h : Keeps r b c (.code k :: rest)) (hc : Counted c (.code k :: rest)) (hk : k.request = some r)
    (hr : Runs c k c' items) : Keeps r b c' (items ++ rest) := by
  have hone := alone_top hc hk
  have howned := owned_runs hr r
  obtain ⟨hcode, hinvoked, hsending⟩ := based_runs h hone hk hr
  have hunfinished := finished_top hc hk
  refine ⟨fun k' hm hk' => ?_, howned ▸ hinvoked, howned ▸ hsending, ?_, ?_⟩
  · rw [howned]
    rcases List.mem_append.mp hm with hm | hm
    · exact hcode k' hm hk'
    · exact absurd hk' (hone.code k' hm)
  · rw [howned]
    have hfreed := h.freed
    rw [if_neg (fun hn => hunfinished hn.1)] at hfreed
    by_cases hfin : k = .finish2 r
    · subst hfin
      cases hr with
      | finishOwned hb =>
        have ho := finish_owned h hb
        simpa [List.count_append, apply_ite (List.count _), ho] using hfreed
      | finishFree hb hf =>
        obtain ⟨rfl, ho⟩ := finish_addr h hb
        simp [List.count_append, apply_ite (List.count _), ho, hfreed]
    · have hne : ∀ q, k ≠ .finish2 q := by
        rintro q rfl
        obtain rfl := Option.some.inj hk
        exact hfin rfl
      obtain ⟨hcount, hmem, -⟩ := @freed_runs b _ _ _ _ hr hne
      rw [hcount, hfreed, if_neg (fun hn => hunfinished ((hmem r).mp hn.1))]
  · intro hn
    by_cases hfin : ∃ q, k = .finish2 q
    · obtain ⟨q, rfl⟩ := hfin
      obtain rfl := Option.some.inj hk
      cases hr <;> simp at hn
    · obtain ⟨-, -, hframes⟩ := @freed_runs b _ _ _ _ hr fun q he => hfin ⟨q, he⟩
      rw [hframes]
      exact h.frame hunfinished

/-- Another request frees its own buffer. -/
theorem keeps_other (h : Keeps r b c stack) {stack' : Stack} (hs : SameFor r c c')
    (hcode : ∀ k, .code k ∈ stack' → .code k ∈ stack ∨ k.request ≠ some r)
    (hfreed : c'.log.count (.bufFree b) = c.log.count (.bufFree b)) (hframes : c'.frames b = c.frames b) :
    Keeps r b c' stack' where
  code k hm hk := by
    rw [owned_same hs.log, hs.request]
    exact h.code k ((hcode k hm).resolve_right (absurd hk ·)) hk
  invoked hm := by
    rw [owned_same hs.log, hs.request]
    refine h.invoked (List.count_pos_iff.mp ?_)
    rw [← hs.invoked]
    exact List.count_pos_iff.mpr hm
  sending f hm := by
    rw [owned_same hs.log, hs.request]
    exact h.sending f ((hs.sending f).mp hm)
  freed := by
    rw [owned_same hs.log, hfreed, h.freed]
    simp only [finished_same hs.log]
  frame hn := by
    rw [hframes]
    exact h.frame fun hm => hn ((finished_same hs.log).mpr hm)

theorem boxed_runs (h : Boxed c (.code k :: rest)) (hb : Buffers c (.code k :: rest))
    (hr : Runs c k c' items) : Boxed c' (items ++ rest) := by
  have hitems : .code .step2 ∉ items ++ rest := by
    have hrest : .code .step2 ∉ rest := hb.top
    cases hr <;> simpa using hrest
  have hframe := nextFrame_runs hr
  obtain ⟨hreceived, hbound, hapart, hunfreed, hfresh⟩ := h
  by_cases hk : k = .step2
  · subst hk
    cases hr with
    | step2Closed | step2Error => exact ⟨hreceived, hbound, hapart, hunfreed, fun hh => absurd hh (head_ne hitems)⟩
    | @step2 session callableIndex frame hc he hs hi hf hm =>
      obtain ⟨b, hfr⟩ := hb.fresh rfl he
      obtain ⟨hnew, hfree⟩ := hfresh rfl he
      have hmem : ∀ ev : Event, ev ≠ .released → (ev ∈ ((({ c with lastError := c.receiveError }.emit
          (.received c.nextRequest c.recvBuf.base frame)).addRequest session callableIndex).counted 1).log ↔
            ev ∈ c.log ∨ ev = .received c.nextRequest c.recvBuf.base frame) := by
        intro ev hev
        simp
        grind
      refine ⟨fun r hr => ?_, fun r b' frame' hm => ?_, fun r q base f f' hm hm' => ?_, fun b' hb' hm => ?_,
        fun hh => absurd hh (head_ne hitems)⟩
      · have hr : r < c.nextRequest + 1 := hr
        by_cases hr' : r = c.nextRequest
        · exact ⟨b, frame, (hmem _ (by simp)).mpr (.inr (by rw [hr', hfr.base]))⟩
        · obtain ⟨b', f, hm⟩ := hreceived r (by omega)
          exact ⟨b', f, (hmem _ (by simp)).mpr (.inl hm)⟩
      · rcases (hmem _ (by simp)).mp hm with hm | hm
        · exact hbound r b' frame' hm
        · have : (⟨some b', 0⟩ : Addr) = c.recvBuf.base := (Event.received.inj hm).2.1
          rw [hfr.base] at this
          have hb' : b' = b := by simpa using this
          rw [hb']
          exact hfr.bound
      · rcases (hmem _ (by simp)).mp hm with hm | hm <;> rcases (hmem _ (by simp)).mp hm' with hm' | hm'
        · exact hapart r q base f f' hm hm'
        · rw [(Event.received.inj hm').2.1] at hm
          exact absurd hm (hnew r f)
        · rw [(Event.received.inj hm).2.1] at hm'
          exact absurd hm' (hnew q f')
        · rw [(Event.received.inj hm).1, (Event.received.inj hm').1]
      · rcases (hmem _ (by simp)).mp hm with hm | hm
        · exact hunfreed b' hb' hm
        · cases hm
  · have hsame : ∀ r base frame, .received r base frame ∈ c'.log ↔ .received r base frame ∈ c.log := by
      intro r base frame
      cases hr with
      | step2Closed | step2Error | step2 => exact absurd rfl hk
      | _ => simp
    have hnext : c'.nextRequest = c.nextRequest := by
      cases hr with
      | step2Closed | step2Error | step2 => exact absurd rfl hk
      | _ => rfl
    refine ⟨fun r hr' => ?_, fun r b' f hm => ?_, fun r q base f f' hm hm' => ?_, fun b' hb' hm => ?_,
      fun hh => absurd hh (head_ne hitems)⟩
    · obtain ⟨b', f, hm⟩ := hreceived r (hnext ▸ hr')
      exact ⟨b', f, (hsame _ _ _).mpr hm⟩
    · rw [hframe]
      exact hbound r b' f ((hsame _ _ _).mp hm)
    · exact hapart r q base f f' ((hsame _ _ _).mp hm) ((hsame _ _ _).mp hm')
    · rw [hframe] at hb'
      refine hunfreed b' hb' ?_
      cases hr with
      | @finishFree q b'' hq hf =>
        have := hb.bound q b'' (by simp [ServCo.block, hq])
        simp at hm
        exact hm.resolve_right (by omega)
      | _ => simpa [apply_ite (Event.bufFree _ ∈ ·)] using hm

theorem boxed_enter {e : Entry} (h : Boxed c stack) (hb : Buffers c stack)
    (henv : EnvControls stack) (he : Enters c e c' items) : Boxed c' (items ++ stack) := by
  have hhead := head_ne (not_mem_of_envControls hb henv)
  obtain ⟨hreceived, hbound, hapart, hunfreed, hfresh⟩ := h
  cases he with
  | recvDone hr hf =>
    refine ⟨hreceived, fun r b f hm => (hbound r b f hm).trans (Nat.lt_succ_self _), hapart,
      fun b hb => hunfreed b (Nat.le_of_succ_le hb), fun _ _ => ⟨fun r f hm => ?_, fun b hb => ?_⟩⟩
    · exact absurd (hbound r _ f hm) (Nat.lt_irrefl _)
    · obtain rfl : c.nextFrame = b := by simpa using hb
      exact hunfreed _ le_rfl
  | recvError => exact ⟨hreceived, hbound, hapart, hunfreed, fun _ he => by cases he⟩
  | resume hr =>
    refine ⟨fun r hr => ?_, fun r b f hm => ?_, fun r q base f f' hm hm' => ?_, fun b hb hm => ?_, fun hh => by cases hh⟩
    · obtain ⟨b, f, hm⟩ := hreceived r hr
      exact ⟨b, f, by simp [hm]⟩
    · exact hbound r b f (by simpa using hm)
    · exact hapart r q base f f' (by simpa using hm) (by simpa using hm')
    · exact hunfreed b hb (by simpa using hm)
  | allocRef | sendError => exact ⟨hreceived, hbound, hapart, hunfreed, fun hh => absurd hh hhead⟩
  | _ => exact ⟨hreceived, hbound, hapart, hunfreed, fun hh => by cases hh⟩

/-- The io and the callables leave the address as it is, but for a callable that takes the buffer. -/
theorem keeps_enter {e : Entry} (h : Keeps r b c stack) (hbound : b < c.nextFrame) (hcounted : Counted c' (items ++ stack))
    (hc : CallsOnce ⟨c, stack⟩ (.enter e)) (hl : LeavesPolls ⟨c, stack⟩ (.enter e)) (he : Enters c e c' items) :
    Keeps r b c' (items ++ stack) := by
  have hitems : ∀ k', (∀ k, .code k ∈ items → k.request ≠ some r) → .code k' ∈ items ++ stack →
      .code k' ∈ stack ∨ k'.request ≠ some r := by
    intro k' hk hm
    rcases List.mem_append.mp hm with hm | hm
    · exact .inr (hk k' hm)
    · exact .inl hm
  cases he with
  | @resume q o hlt =>
    by_cases hq : q = r
    · subst hq
      obtain ⟨⟨hpoll, haddr⟩, hne⟩ := h.invoked hc
      have hone := alone_top hcounted rfl
      have hown : owned q (c.log ++ [.resumed q o]) = (owned q c.log || o.ownsParameter) := by
        simp [owned, Event.takes]
      have hnopoll : o.ownsParameter = true → (c.request q).nextStep.any NextStep.polls = false := by
        intro ho
        have hne' := hl ho
        cases hf : (c.request q).nextStep with
        | none => rfl
        | some f =>
          rw [hf] at hne hne'
          cases f <;> simp_all [NextStep.polls]
      refine ⟨fun k hm hk => ?_, fun hm => absurd hm hone.invoked, fun f hm => absurd hm (hone.sending f), ?_, ?_⟩
      · rcases List.mem_cons.mp hm with he | hm
        · obtain rfl := Item.code.inj he
          simp only [ServCo.emit_log, ServCo.setRequest_log]
          refine ⟨fun ho => ?_, ?_⟩
          · rw [hown] at ho
            rcases Bool.or_eq_true _ _ |>.mp ho with ho | ho
            · simpa [Code.isPoll, Request.complete] using hpoll ho
            · simpa [Code.isPoll, Request.complete] using hnopoll ho
          · rw [hown]
            cases ho : o.ownsParameter <;> simp [Request.complete, Code.shifted, haddr, ho]
        · exact absurd hk (hone.code k hm)
      · have hfreed := h.freed
        have hunfinished := finished_top hcounted rfl
        rw [ServCo.emit_log] at hunfinished ⊢
        have hun : .finished q ∉ c.log := fun hm => hunfinished (List.mem_append_left _ hm)
        rw [if_neg (fun hn => hun hn.1)] at hfreed
        rw [if_neg (fun hn => hunfinished hn.1)]
        simpa [List.count_append] using hfreed
      · intro hn
        exact h.frame fun hm => hn (List.mem_append_left _ hm)
    · refine keeps_other h ⟨?_, ?_, fun f => Iff.rfl, rfl, ?_⟩ (fun k' hm => hitems k' ?_ hm) ?_ rfl
      · simp [Ne.symm hq]
      · simp [List.count_erase, hq]
      · simp [eventsOf, Event.isOf, hq]
      · intro k hk
        obtain rfl : k = .nextStep q := by simpa using hk
        simpa [Code.request] using hq
      · simp [List.count_append]
  | @sendDone q f hm =>
    by_cases hq : q = r
    · subst hq
      have hone := alone_top hcounted rfl
      have hbased := h.sending f hm
      refine ⟨fun k hm hk => ?_, fun hm => absurd hm hone.invoked, fun f hm => absurd hm (hone.sending f), h.freed, h.frame⟩
      rcases List.mem_cons.mp hm with he | hm
      · obtain rfl := Item.code.inj he
        exact hbased
      · exact absurd hk (hone.code k hm)
    · refine keeps_other h ⟨rfl, rfl, fun f' => ?_, rfl, rfl⟩ (fun k' hm => hitems k' ?_ hm) rfl rfl
      · exact List.mem_erase_of_ne (by simp [Ne.symm hq])
      · intro k hk
        obtain rfl : k = .step f q := by simpa using hk
        simpa [Code.request] using hq
  | @recvDone frame hr hlt =>
    refine keeps_other h ⟨rfl, rfl, fun f => Iff.rfl, rfl, rfl⟩ (fun k' hm => hitems k' ?_ hm) rfl ?_
    · intro k hk
      obtain rfl : k = .step2 := by simpa using hk
      simp [Code.request]
    · exact Function.update_of_ne (by omega) _ _
  | allocRef | sendError =>
    exact keeps_other h ⟨rfl, rfl, fun f => Iff.rfl, rfl, rfl⟩ (fun k' hm => .inl hm) rfl rfl
  | _ =>
    refine keeps_other h ⟨rfl, rfl, fun f => Iff.rfl, rfl, rfl⟩ (fun k' hm => hitems k' ?_ hm) rfl rfl
    intro k hk
    simp_all [Code.request]

end

/-! ### Whole runs -/

structure Kept (c : ServCo) (stack : Stack) : Prop where
  counted : Counted c stack
  named : Named c stack
  buffers : Buffers c stack
  boxed : Boxed c stack
  keeps : ∀ r b frame, .received r ⟨some b, 0⟩ frame ∈ c.log → Keeps r b c stack
  stored : ∀ r base frame, .received r base frame ∈ c.log → ∃ b, base = ⟨some b, 0⟩

theorem kept_new (funcmap : Option (List UInt8 → Option Nat)) (onClosed : Bool) :
    Kept (new funcmap onClosed).state (new funcmap onClosed).stack := by
  refine ⟨counted_new funcmap onClosed, named_new funcmap onClosed, buffers_new funcmap onClosed, ?_, ?_, ?_⟩
  · constructor <;> simp [new]
  · simp [new]
  · simp [new]

section

variable {r b : Nat} {c c' : ServCo} {k : Code} {rest items : Stack}

theorem keeps_step2 (h : Kept c (.code .step2 :: rest)) (hcounted : Counted c' (items ++ rest)) {frame : List UInt8}
    (hf : .received c.nextRequest ⟨some b, 0⟩ frame ∈ c'.log) (hr : Runs c .step2 c' items) :
    Keeps c.nextRequest b c' (items ++ rest) := by
  obtain ⟨b', hb⟩ := received_step2 h.named h.buffers hf hr
  obtain rfl : b = b' := by simpa using hb.stored
  obtain ⟨-, hfree⟩ := h.boxed.fresh rfl (by
    cases hr with
    | step2 hc he => exact he
    | step2Closed | step2Error =>
      have hm := hf
      rw [← mem_eventsOf (r := c.nextRequest) (by simp [Event.isOf]), h.named.log _ le_rfl] at hm
      cases hm)
  have hlog : owned c.nextRequest c'.log = false := by
    rw [← owned_eventsOf, hb.log]
    rfl
  have hunfinished : .finished c.nextRequest ∉ c'.log := by
    intro hm
    rw [← mem_eventsOf (r := c.nextRequest) (by simp [Event.isOf]), hb.log] at hm
    simp at hm
  refine ⟨fun k hm hk => ?_, fun hm => ?_, fun f hm => ?_, ?_, fun _ => by rw [hb.buffer]; rfl⟩
  · rw [hb.items] at hm
    have hm : k = .nextStep c.nextRequest ∨ k = .step1 ∨ .code k ∈ rest := by simpa using hm
    rcases hm with rfl | rfl | hm
    · have hshifted : (c'.request c.nextRequest).nextStep.any NextStep.shifted = false := by
        rw [hb.request]
        simp only [prepareRequest, handler, Request.zero]
        split
        · rfl
        · split <;> rfl
      refine ⟨fun ho => ?_, ?_⟩
      · rw [hlog] at ho
        cases ho
      · rw [hlog, Code.shifted, hshifted, hb.request]
        rfl
    · cases hk
    · exact absurd (h.named.code k (List.mem_cons_of_mem _ hm) _ hk) (Nat.lt_irrefl _)
  · exact absurd (h.named.invoked _ (hb.invoked ▸ hm)) (Nat.lt_irrefl _)
  · exact absurd (h.named.sending _ (hb.sending ▸ hm)) (Nat.lt_irrefl _)
  · rw [if_neg fun hn => hunfinished hn.1, (freed_runs hr (by simp)).1]
    exact List.count_eq_zero.mpr (hfree b hb.fresh.base)

theorem kept_runs (h : Kept c (.code k :: rest)) (ht : k.touches → c.live) (hr : Runs c k c' items) :
    Kept c' (items ++ rest) := by
  have hcounted := counted_runs h.counted ht hr
  refine ⟨hcounted, named_runs h.named hr, buffers_runs h.buffers hr, boxed_runs h.boxed h.buffers hr,
    fun r b frame hf => ?_, fun r base frame hf => ?_⟩
  · by_cases hk : k.request = some r
    · have hm : .received r ⟨some b, 0⟩ frame ∈ c.log := by
        cases hr <;> simp_all [Code.request]
      exact keeps_runs (h.keeps r b frame hm) h.counted hk hr
    · by_cases hnew : k = .step2 ∧ r = c.nextRequest
      · obtain ⟨rfl, rfl⟩ := hnew
        exact keeps_step2 h hcounted hf hr
      · have hother : k = .step2 → r ≠ c.nextRequest := fun he hn => hnew ⟨he, hn⟩
        have hsame := sameFor_runs hk hother hr
        have hm : .received r ⟨some b, 0⟩ frame ∈ c.log := by
          rw [← mem_eventsOf (r := r) (by simp [Event.isOf]), ← hsame.log]
          exact (mem_eventsOf (by simp [Event.isOf])).mpr hf
        have hcode : ∀ k', .code k' ∈ items ++ rest → .code k' ∈ .code k :: rest ∨ k'.request ≠ some r := by
          intro k' hm'
          rcases List.mem_append.mp hm' with hm' | hm'
          · exact .inr (request_runs hk hother hr k' hm')
          · exact .inl (List.mem_cons_of_mem _ hm')
        by_cases hfin : ∃ q, k = .finish2 q
        · obtain ⟨q, rfl⟩ := hfin
          have hne : q ≠ r := fun he => hk (by rw [he]; rfl)
          obtain ⟨bq, fq, hq⟩ := h.boxed.received q (h.named.code _ List.mem_cons_self q rfl)
          have hapart : bq ≠ b := by
            rintro rfl
            exact hne (h.boxed.apart q r _ fq frame hq hm)
          cases hr with
          | finishOwned hb =>
            refine keeps_other (h.keeps r b frame hm) hsame hcode ?_ rfl
            simp [List.count_append, apply_ite (List.count _)]
          | @finishFree _ b' hb hf =>
            obtain ⟨rfl, -⟩ := finish_addr (h.keeps q bq fq hq) hb
            refine keeps_other (h.keeps r b frame hm) hsame hcode ?_ ?_
            · simp [List.count_append, apply_ite (List.count _), hapart]
            · exact Function.update_of_ne (Ne.symm hapart) _ _
        · obtain ⟨hcount, -, hframes⟩ := @freed_runs b _ _ _ _ hr fun q he => hfin ⟨q, he⟩
          exact keeps_other (h.keeps r b frame hm) hsame hcode hcount (congrFun hframes b)
  · by_cases hk : k = .step2
    · subst hk
      cases hr with
      | step2Closed | step2Error => exact h.stored r base frame hf
      | @step2 session callableIndex frame' hc he hs hi hf' hn =>
        obtain ⟨b, hb⟩ := h.buffers.fresh rfl he
        simp at hf
        rcases hf with hf | hf
        · exact h.stored r base frame hf
        · exact ⟨b, hf.2.1.trans hb.base⟩
    · refine h.stored r base frame ?_
      cases hr with
      | step2Closed | step2Error | step2 => exact absurd rfl hk
      | _ => simpa using hf

end

theorem kept_preserves : program.Preserves (fun c m => CallsOnce c m ∧ LeavesPolls c m) fun c => Kept c.state c.stack where
  exec h _ he := kept_runs h (exec_guard he).1 (exec_runs he)
  ret := by
    intro c e rest h _
    refine ⟨counted_ret h.counted, named_ret h.named, buffers_ret h.buffers,
      ⟨h.boxed.received, h.boxed.bound, h.boxed.apart, h.boxed.unfreed, fun hh => absurd hh (head_ne h.buffers.top)⟩,
      fun r b frame hf => ?_, h.stored⟩
    have hk := h.keeps r b frame hf
    exact ⟨fun k hm => hk.code k (List.mem_cons_of_mem _ hm), hk.invoked, hk.sending, hk.freed, hk.frame⟩
  enter := by
    intro c stack e c' items henv h hg he
    have he := enter_enters he
    have hcounted := counted_enter h.counted hg.1 he
    have hreceived : ∀ r base frame, .received r base frame ∈ c'.log → .received r base frame ∈ c.log := by
      intro r base frame hf
      cases he <;> simp_all
    refine ⟨hcounted, named_enter h.named he, buffers_enter h.buffers henv he, boxed_enter h.boxed h.buffers henv he,
      fun r b frame hf => ?_, fun r base frame hf => h.stored r base frame (hreceived r base frame hf)⟩
    have hf := hreceived r _ frame hf
    exact keeps_enter (h.keeps r b frame hf) (h.boxed.bound r b frame hf) hcounted hg.1 hg.2 he

/-! ### What is promised of a buffer -/

/-- The buffer is freed when its request is finished and not before, unless a callable has
taken it; and nothing else is ever about to be freed for the request. -/
structure FreesOnce (r b : Nat) (c : Config) : Prop where
  before : .finished r ∉ c.state.log → c.state.log.count (.bufFree b) = 0
  once : .finished r ∈ c.state.log → c.state.log.count (.bufFree b) = if owned r c.state.log then 0 else 1
  noFault : ∀ rest, c.stack = .code (.finish2 r) :: rest → exec (.finish2 r) c.state ≠ none

theorem keeps_freesOnce {c : Config} {r b : Nat} (hc : Counted c.state c.stack) (h : Keeps r b c.state c.stack) :
    FreesOnce r b c where
  before hn := by rw [h.freed, if_neg fun hm => hn hm.1]
  once hm := by
    rw [h.freed]
    cases owned r c.state.log <;> simp [hm]
  noFault rest hst := by
    obtain ⟨c, stack⟩ := c
    obtain rfl : stack = .code (.finish2 r) :: rest := hst
    obtain ⟨hmem, hlive⟩ := counted_top hc (r := r) rfl
    have hcount := hc.refCount
    have hbound := hc.bound
    have hpos := List.length_pos_of_mem hmem
    have hrange : -2 ^ 31 ≤ c.refCount + -1 ∧ c.refCount + -1 < 2 ^ 31 := by
      dsimp only at hcount hbound
      split at hcount <;> omega
    have haddr := (h.code _ List.mem_cons_self rfl).addr
    have hframe := h.frame (finished_top hc rfl)
    dsimp only at haddr hframe hmem hlive ⊢
    rw [show Code.shifted (c.request r) (.finish2 r) = false from rfl] at haddr
    rw [exec.eq_def, if_neg (by simp [hlive, Code.request, hmem])]
    cases ho : owned r c.log with
    | true =>
      rw [ho, if_pos rfl] at haddr
      simp [finish2, haddr, ServCo.refCountAdd]
      omega
    | false =>
      rw [ho] at haddr
      have hne : (c.request r).parameter.base ≠ .null := by simp [haddr, Addr.null]
      simp only [finish2]
      rw [if_pos hne, haddr, ServCo.bufFree]
      simp [Addr.add, hframe, ServCo.refCountAdd]
      omega

theorem buffer_freesOnce (funcmap : Option (List UInt8 → Option Nat)) (onClosed : Bool) (ms : List (Move Entry))
    (c : Config) (hc : Along program.step CallsOnce (new funcmap onClosed) ms)
    (hl : Along program.step LeavesPolls (new funcmap onClosed) ms)
    (h : run program.step (new funcmap onClosed) ms = some c) (r : Nat) (base : Addr) (frame : List UInt8)
    (hf : .received r base frame ∈ c.state.log) : ∃ b, base = ⟨some b, 0⟩ ∧ FreesOnce r b c := by
  have hkept := kept_preserves.run (kept_new funcmap onClosed) (hc.and hl) h
  obtain ⟨b, rfl⟩ := hkept.stored r base frame hf
  exact ⟨b, rfl, keeps_freesOnce hkept.counted (hkept.keeps r b frame hf)⟩

theorem polled_freesOnce : ∃ c, run program.step (new none false) polled = some c ∧
    .finished 0 ∈ c.state.log ∧ FreesOnce 0 0 c := by
  have hr : ∃ c, run program.step (new none false) polled = some c ∧
      .received 0 ⟨some 0, 0⟩ pollFrame ∈ c.state.log ∧ .finished 0 ∈ c.state.log := exists_run (by decide +kernel)
  obtain ⟨c, hc, hf, hfin⟩ := hr
  obtain ⟨b, hb, h⟩ := buffer_freesOnce none false polled c (by decide +kernel) (by decide +kernel) hc 0 _ pollFrame hf
  obtain rfl : 0 = b := by simpa using hb
  exact ⟨c, hc, hfin, h⟩

/-- The callable of a poll takes the buffer; twelve before NULL is about to be freed. -/
theorem takesParameter_frees : ∃ c, run program.step (new none false) takesParameter = some c ∧
    Along program.step CallsOnce (new none false) takesParameter ∧
    .received 0 ⟨some 0, 0⟩ pollFrame ∈ c.state.log ∧ owned 0 c.state.log ∧
    (c.state.request 0).parameter.base.add (-8) = ⟨none, -12⟩ ∧ ¬ FreesOnce 0 0 c := by
  have hr : ∃ c, run program.step (new none false) takesParameter = some c ∧
      .received 0 ⟨some 0, 0⟩ pollFrame ∈ c.state.log ∧ owned 0 c.state.log ∧
      (c.state.request 0).parameter.base.add (-8) = ⟨none, -12⟩ ∧
      c.stack = [.code (.finish2 0)] ∧ (exec (.finish2 0) c.state).isNone := exists_run (by decide +kernel)
  obtain ⟨c, hc, hf, ho, ha, hst, hn⟩ := hr
  exact ⟨c, hc, by decide +kernel, hf, ho, ha, fun h => h.noFault _ hst (Option.isNone_iff_eq_none.mp hn)⟩

end PxpRpc.Server
