import PxpRpc.Server.Confined

/-!
# Waiting for a callable

`next_step` of a request goes on after a call, until the callable has called it;
then it goes on after a send. Code of the request is left to run only in between.
-/
namespace PxpRpc.Server

open PxpRpc.Lib PxpRpc.Lib.Callback

/-- The server waits for the callable of the request. -/
structure Awaits (c : ServCo) (stack : Stack) (r : Nat) : Prop where
  allocated : r ∈ c.allocated
  nextStep : (c.request r).nextStep = some .stepCall2 ∨ (c.request r).nextStep = some .stepPoll2
  idle : ∀ k, .code k ∈ stack → k.request ≠ some r

/-- The function is called when a response has been sent. -/
def NextStep.sends : NextStep → Bool
  | .finishRequest | .stepPoll3 => true
  | _ => false

def Event.isInvoked (r : Nat) : Event → Bool
  | .invoked q _ _ => q = r
  | _ => false

def Event.isResumed (r : Nat) : Event → Bool
  | .resumed q _ => q = r
  | _ => false

/-- A request is completed once for each time its callable is invoked, before the next time and before
it is finished. -/
structure CompletesOnce (log : List Event) : Prop where
  once : ∀ past r o, past ++ [.resumed r o] <+: log →
    past.countP (Event.isResumed r) < past.countP (Event.isInvoked r) ∧ .finished r ∉ past
  each : ∀ r, log.countP (Event.isInvoked r) ≤ log.countP (Event.isResumed r) + 1

theorem CompletesOnce.resumed_le {log : List Event} (h : CompletesOnce log) (r : Nat) :
    log.countP (Event.isResumed r) ≤ log.countP (Event.isInvoked r) := by
  have honce := h.once
  clear h
  induction log using List.reverseRecOn with
  | nil => exact le_rfl
  | append_singleton log e ih =>
    have hlog := ih fun past q o hp => honce past q o (hp.trans (List.prefix_append _ _))
    rw [List.countP_append, List.countP_append]
    by_cases he : ∃ o, e = .resumed r o
    · obtain ⟨o, rfl⟩ := he
      have := (honce log r o List.prefix_rfl).1
      simp [Event.isResumed, Event.isInvoked]
      omega
    · have hz : Event.isResumed r e = false := by
        cases e with
        | resumed q o => exact decide_eq_false fun hq => he ⟨o, by rw [hq]⟩
        | _ => rfl
      rw [List.countP_singleton, hz]
      simp
      omega

/-! ### The invariant -/

structure Waiting (c : ServCo) (stack : Stack) : Prop where
  counted : Counted c stack
  named : Named c stack
  asked : Asked c
  sending : ∀ p ∈ c.sending, p.2.sends
  writes : ∀ r, .code (.writeResult r) ∈ stack → (c.request r).nextStep.any NextStep.sends
  closes : ∀ r, .code (.step .stepClose1 r) ∈ stack → (c.request r).nextStep = some .stepClose1
  awaited : ∀ r, Awaits c stack r → r ∈ c.invoked
  outstanding : ∀ r, c.log.countP (Event.isInvoked r) = c.log.countP (Event.isResumed r) + c.invoked.count r
  once : ∀ past r o, past ++ [.resumed r o] <+: c.log →
    past.countP (Event.isResumed r) < past.countP (Event.isInvoked r) ∧ .finished r ∉ past

theorem waiting_new (funcmap : Option (List UInt8 → Option Nat)) (onClosed : Bool) :
    Waiting (new funcmap onClosed).state (new funcmap onClosed).stack where
  counted := counted_new funcmap onClosed
  named := named_new funcmap onClosed
  asked _ hm := absurd hm List.not_mem_nil
  sending _ hm := absurd hm List.not_mem_nil
  writes _ hm := absurd hm List.not_mem_nil
  closes _ hm := absurd hm List.not_mem_nil
  awaited _ h := absurd h.allocated List.not_mem_nil
  outstanding _ := rfl
  once past r o h := by
    have := List.prefix_nil.mp h
    simp at this

/-- Events that complete nothing. -/
theorem once_append {log events : List Event}
    (h : ∀ past r o, past ++ [.resumed r o] <+: log →
      past.countP (Event.isResumed r) < past.countP (Event.isInvoked r) ∧ .finished r ∉ past)
    (he : ∀ r o, .resumed r o ∉ events) (past : List Event) (r : Nat) (o : Outcome)
    (hp : past ++ [.resumed r o] <+: log ++ events) :
    past.countP (Event.isResumed r) < past.countP (Event.isInvoked r) ∧ .finished r ∉ past := by
  induction events using List.reverseRecOn with
  | nil => exact h past r o (by simpa using hp)
  | append_singleton events e ih =>
    refine ih (fun r o hm => he r o (List.mem_append_left _ hm)) ?_
    rw [← List.append_assoc, List.prefix_concat_iff] at hp
    refine hp.resolve_left fun heq => ?_
    have hlast := (List.append_inj' heq rfl).2
    exact he r o (List.mem_append_right _ (hlast ▸ List.mem_cons_self))

section

variable {c c' : ServCo} {k : Code} {rest items : Stack}

/-- The events of a piece of code. -/
theorem log_runs (h : Runs c k c' items) : ∃ events, c'.log = c.log ++ events ∧ ∀ r o, .resumed r o ∉ events := by
  have hreleased : ∀ (p : Prop) [Decidable p] r o, .resumed r o ∉ if p then [Event.released] else [] := by
    intro p _ r o
    split <;> simp
  cases h with
  | step2 | finishOwned => exact ⟨_, List.append_assoc _ _ _, by simp [hreleased]⟩
  | @finishFree r b =>
    refine ⟨[.bufFree b] ++ ((if c.refCount + -1 = 0 then [.released] else []) ++ [.finished r]), ?_, by simp [hreleased]⟩
    simp only [ServCo.emit_log, ServCo.counted_log, ServCo.emit_refCount, List.append_assoc]
  | _ => first
    | exact ⟨[], (List.append_nil _).symm, by simp⟩
    | exact ⟨[_], rfl, by simp⟩
    | exact ⟨_, rfl, fun r o => hreleased _ r o⟩

theorem awaited_runs (h : Waiting c (.code k :: rest)) (hr : Runs c k c' items) (r : Nat)
    (ha : Awaits c' (items ++ rest) r) : r ∈ c'.invoked := by
  by_cases hk : k.request = some r
  · -- code of the request is left, unless it has been given away or is over
    have hidle : ∀ k', .code k' ∈ items → k'.request ≠ some r := fun k' hm => ha.idle k' (List.mem_append_left _ hm)
    have hcount := count_top h.counted hk
    have hnext := ha.nextStep
    have hall := ha.allocated
    cases hr with
    | stepCall1 | pollCall =>
      obtain rfl := Option.some.inj hk
      exact List.mem_cons_self
    | writeResultClosed | writeResult =>
      obtain rfl := Option.some.inj hk
      have hw := h.writes _ List.mem_cons_self
      rw [← flip_nextStep] at hw
      rcases hnext with hn | hn <;> simp at hn <;> simp [hn, NextStep.sends] at hw
    | stepClose1 =>
      obtain rfl := Option.some.inj hk
      have hc := h.closes _ List.mem_cons_self
      rcases hnext with hn | hn <;> rw [hn] at hc <;> cases hc
    | finishOwned | finishFree =>
      obtain rfl := Option.some.inj hk
      have hm := List.count_pos_iff.mpr hall
      simp only [ServCo.emit_allocated, List.count_erase_self] at hm
      omega
    | _ => simp_all [Code.request]
  · have hmade : k = .step2 → r ≠ c.nextRequest := by
      rintro rfl rfl
      cases hr with
      | step2 => exact ha.idle (.nextStep c.nextRequest) (by simp) rfl
      | _ => exact absurd (h.named.allocated _ ha.allocated) (lt_irrefl _)
    have hsame := sameFor_runs hk hmade hr
    have hold : Awaits c (.code k :: rest) r := {
      allocated := List.count_pos_iff.mp (hsame.allocated ▸ List.count_pos_iff.mpr ha.allocated)
      nextStep := hsame.request ▸ ha.nextStep
      idle := fun k' hm => by
        rcases List.mem_cons.mp hm with he | hm
        · obtain rfl := Item.code.inj he
          exact hk
        · exact ha.idle k' (List.mem_append_right _ hm) }
    exact List.count_pos_iff.mp (hsame.invoked ▸ List.count_pos_iff.mpr (h.awaited r hold))

/-- Code below the one that runs is of other requests. -/
theorem request_below (hc : Counted c (.code k :: rest)) (hn : Named c (.code k :: rest)) (hr : Runs c k c' items) {r : Nat}
    {k' : Code} (hm : .code k' ∈ rest) (hk : k'.request = some r) : c'.request r = c.request r := by
  have hne : k.request ≠ some r := fun he => (alone_top hc he).code k' hm hk
  have hlt := hn.code k' (List.mem_cons_of_mem _ hm) r hk
  exact (sameFor_runs hne (fun _ => hlt.ne) hr).request

theorem writes_runs (h : Waiting c (.code k :: rest)) (hr : Runs c k c' items) (r : Nat)
    (hm : .code (.writeResult r) ∈ items ++ rest) : (c'.request r).nextStep.any NextStep.sends := by
  rcases List.mem_append.mp hm with hm | hm
  · cases hr with
    | stepCall2 | stepPoll2 =>
      obtain rfl : r = _ := by simpa using hm
      simp [NextStep.sends]
    | _ => simp at hm
  · rw [request_below h.counted h.named hr hm rfl]
    exact h.writes r (List.mem_cons_of_mem _ hm)

theorem closes_runs (h : Waiting c (.code k :: rest)) (hr : Runs c k c' items) (r : Nat)
    (hm : .code (.step .stepClose1 r) ∈ items ++ rest) : (c'.request r).nextStep = some .stepClose1 := by
  rcases List.mem_append.mp hm with hm | hm
  · cases hr with
    | nextStep hf =>
      obtain ⟨rfl, rfl⟩ : NextStep.stepClose1 = _ ∧ r = _ := by simpa using hm
      exact hf
    | _ => simp at hm
  · rw [request_below h.counted h.named hr hm rfl]
    exact h.closes r (List.mem_cons_of_mem _ hm)

theorem sends_runs (h : Waiting c (.code k :: rest)) (hr : Runs c k c' items) : ∀ p ∈ c'.sending, p.2.sends := by
  intro p hp
  cases hr with
  | writeResult hc hf =>
    rcases List.mem_cons.mp hp with rfl | hp
    · have hw := h.writes _ List.mem_cons_self
      rw [hf] at hw
      exact hw
    · exact h.sending p hp
  | _ => exact h.sending p hp

theorem outstanding_runs (h : Waiting c (.code k :: rest)) (hr : Runs c k c' items) (r : Nat) :
    c'.log.countP (Event.isInvoked r) = c'.log.countP (Event.isResumed r) + c'.invoked.count r := by
  have hold := h.outstanding r
  cases hr <;> first
    | exact hold
    | simp [Event.isInvoked, Event.isResumed, apply_ite (List.countP _), List.count_cons] at hold ⊢
      omega

theorem waiting_runs (h : Waiting c (.code k :: rest)) (ht : k.touches → c.live) (hr : Runs c k c' items) :
    Waiting c' (items ++ rest) where
  counted := counted_runs h.counted ht hr
  named := named_runs h.named hr
  asked := asked_runs h.counted h.named h.asked hr
  sending := sends_runs h hr
  writes := writes_runs h hr
  closes := closes_runs h hr
  awaited := awaited_runs h hr
  outstanding := outstanding_runs h hr
  once := by
    obtain ⟨events, he, hn⟩ := log_runs hr
    rw [he]
    exact once_append h.once hn

end

/-! ### Whole runs -/

theorem waiting_ret {c : ServCo} {e : Ext} {rest : Stack} (h : Waiting c (.ext e :: rest)) : Waiting c rest where
  counted := counted_ret h.counted
  named := named_ret h.named
  asked := h.asked
  sending := h.sending
  writes r hm := h.writes r (List.mem_cons_of_mem _ hm)
  closes r hm := h.closes r (List.mem_cons_of_mem _ hm)
  awaited r ha := h.awaited r ⟨ha.allocated, ha.nextStep, fun k hm => by
    rcases List.mem_cons.mp hm with he | hm
    · cases he
    · exact ha.idle k hm⟩
  outstanding := h.outstanding
  once := h.once

section

variable {c c' : ServCo} {stack items : Stack}

/-- The callable calls `next_step`. -/
theorem waiting_resume {r : Nat} {o : Outcome} (h : Waiting c stack) (hi : r ∈ c.invoked)
    (he : Enters c (.resume r o) c' items) : Waiting c' (items ++ stack) := by
  have hcounted := counted_enter h.counted (show CallsOnce ⟨c, stack⟩ (.enter (.resume r o)) from hi) he
  have hnamed := named_enter h.named he
  have hasked := asked_enter h.asked he
  cases he with
  | resume hlt =>
    have hother : ∀ k q, .code k ∈ stack → k.request = some q →
        Function.update c.request r ((c.request r).complete o) q = c.request q := by
      intro k q hm hk
      refine Function.update_of_ne (fun he => ?_) _ _
      exact invoked_code h.counted hm hk (he ▸ hi)
    refine ⟨hcounted, hnamed, hasked, h.sending, fun q hm => ?_, fun q hm => ?_, fun q ha => ?_, fun q => ?_,
      fun past q o' hp => ?_⟩
    · have hm : Item.code (.writeResult q) ∈ stack := by simpa using hm
      show (Function.update c.request r _ q).nextStep.any NextStep.sends
      rw [hother _ q hm rfl]
      exact h.writes q hm
    · have hm : Item.code (.step .stepClose1 q) ∈ stack := by simpa using hm
      show (Function.update c.request r _ q).nextStep = _
      rw [hother _ q hm rfl]
      exact h.closes q hm
    · have hne : r ≠ q := fun he => ha.idle (.nextStep r) List.mem_cons_self (congrArg some he)
      have hnext := ha.nextStep
      have hold : q ∈ c.invoked := h.awaited q ⟨ha.allocated, by simpa [hne.symm] using hnext,
        fun k hm => ha.idle k (List.mem_cons_of_mem _ hm)⟩
      exact (List.mem_erase_of_ne hne.symm).mpr hold
    · have hold := h.outstanding q
      have hpos := List.count_pos_iff.mpr hi
      by_cases hq : r = q
      · subst hq
        simp [Event.isInvoked, Event.isResumed] at hold ⊢
        omega
      · simpa [Event.isInvoked, Event.isResumed, hq, List.count_erase, Ne.symm hq] using hold
    · rcases List.prefix_concat_iff.mp hp with heq | hp
      · obtain ⟨hpast, hlast⟩ := List.append_inj' heq rfl
        replace hpast : past = c.log := hpast
        subst hpast
        obtain ⟨rfl, -⟩ : q = r ∧ o' = o := by simpa using hlast
        have hold := h.outstanding q
        have hpos := List.count_pos_iff.mpr hi
        have hheld := h.counted.held q
        have hfin := h.counted.finished q
        refine ⟨by omega, fun hm => ?_⟩
        have := List.count_pos_iff.mpr hm
        unfold pending at hheld
        split at hfin <;> omega
      · exact h.once past q o' hp

theorem waiting_enter {e : Entry} (h : Waiting c stack) (hg : CallsOnce ⟨c, stack⟩ (.enter e))
    (he : Enters c e c' items) : Waiting c' (items ++ stack) := by
  have hcounted := counted_enter h.counted hg he
  have hnamed := named_enter h.named he
  cases he with
  | resume hlt => exact waiting_resume h hg (.resume hlt)
  | @sendDone r f hm =>
    have hf := h.sending _ hm
    refine ⟨hcounted, hnamed, h.asked, fun p hp => h.sending p (List.mem_of_mem_erase hp), fun q hm => ?_, fun q hm => ?_,
      fun q ha => ?_, h.outstanding, h.once⟩
    · exact h.writes q (by simpa using hm)
    · refine h.closes q ((List.mem_cons.mp hm).resolve_left fun he => ?_)
      obtain ⟨rfl, rfl⟩ : NextStep.stepClose1 = f ∧ q = r := by simpa using he
      cases hf
    · exact h.awaited q ⟨ha.allocated, ha.nextStep, fun k hm => ha.idle k (List.mem_cons_of_mem _ hm)⟩
  | _ =>
    refine ⟨hcounted, hnamed, h.asked, h.sending, fun q hm => h.writes q (by simpa using hm),
      fun q hm => h.closes q (by simpa using hm), fun q ha => ?_, h.outstanding, h.once⟩
    exact h.awaited q ⟨ha.allocated, ha.nextStep, fun k hm => ha.idle k (List.mem_append_right _ hm)⟩

end

theorem Waiting.completesOnce {c : ServCo} {stack : Stack} (h : Waiting c stack) : CompletesOnce c.log where
  once := h.once
  each r := by
    have hold := h.outstanding r
    have hheld := h.counted.held r
    have hfin := h.counted.finished r
    unfold pending at hheld
    split at hfin <;> omega

end PxpRpc.Server
