import PxpRpc.Server.LifeCycle

/-!
# What the server does for other requests

Requests share the context, but each has its own memory: code of one request
leaves the others, their buffers and their part of the history as they were.
-/
namespace PxpRpc.Server

open PxpRpc.Lib PxpRpc.Lib.Callback

/-- The event is one of request `r`. -/
def Event.isOf (r : Nat) : Event → Bool
  | .received q _ _ | .invoked q _ _ | .resumed q _ | .sent q _ _ | .polled q _ | .finishing q _ | .finished q => q = r
  | .bufFree _ | .freed _ | .released => false

/-- The history of a request. -/
def eventsOf (r : Nat) (log : List Event) : List Event := log.filter (Event.isOf r)

@[simp] theorem eventsOf_append (r : Nat) (log log' : List Event) :
    eventsOf r (log ++ log') = eventsOf r log ++ eventsOf r log' := by
  simp [eventsOf]

theorem mem_eventsOf {r : Nat} {log : List Event} {ev : Event} (h : ev.isOf r) : ev ∈ eventsOf r log ↔ ev ∈ log := by
  simp [eventsOf, h]

/-- The context goes on as it was for request `r`. -/
structure SameFor (r : Nat) (c c' : ServCo) : Prop where
  request : c'.request r = c.request r
  invoked : c'.invoked.count r = c.invoked.count r
  sending : ∀ f, (r, f) ∈ c'.sending ↔ (r, f) ∈ c.sending
  allocated : c'.allocated.count r = c.allocated.count r
  log : eventsOf r c'.log = eventsOf r c.log

section

variable {c c' : ServCo} {k : Code} {items : Stack} {r : Nat}

theorem sameFor_runs (hk : k.request ≠ some r) (hr : k = .step2 → r ≠ c.nextRequest) (h : Runs c k c' items) :
    SameFor r c c' := by
  constructor <;> cases h <;>
    simp_all [Code.request, eventsOf, Event.isOf, List.count_cons, List.count_erase, Function.update_apply] <;>
    grind

/-- Requests made by the code of other requests have other numbers. -/
theorem request_runs (hk : k.request ≠ some r) (hr : k = .step2 → r ≠ c.nextRequest) (h : Runs c k c' items) :
    ∀ k', .code k' ∈ items → k'.request ≠ some r := by
  cases h <;> simp_all [Code.request]
  grind

end

/-! ### Numbers of requests -/

/-- Only requests that have been made are gone on with, and only they have a history. -/
structure Named (c : ServCo) (stack : Stack) : Prop where
  allocated : ∀ r ∈ c.allocated, r < c.nextRequest
  code : ∀ k, .code k ∈ stack → ∀ r, k.request = some r → r < c.nextRequest
  invoked : ∀ r ∈ c.invoked, r < c.nextRequest
  sending : ∀ p ∈ c.sending, p.1 < c.nextRequest
  log : ∀ r, c.nextRequest ≤ r → eventsOf r c.log = []

theorem named_new (funcmap : Option (List UInt8 → Option Nat)) (onClosed : Bool) :
    Named (new funcmap onClosed).state (new funcmap onClosed).stack := by
  constructor <;> simp [new, eventsOf]

theorem nextRequest_runs {c c' : ServCo} {k : Code} {items : Stack} (h : Runs c k c' items) :
    c.nextRequest ≤ c'.nextRequest := by
  cases h <;> simp

theorem named_log {c c' : ServCo} {k : Code} {rest items : Stack} (hn : Named c (.code k :: rest))
    (h : Runs c k c' items) (q : Nat) (hq : c'.nextRequest ≤ q) : eventsOf q c'.log = [] := by
  have hl := hn.log q ((nextRequest_runs h).trans hq)
  by_cases hk' : k = .step2
  · subst hk'
    cases h with
    | step2 hc he hs hi hf hn =>
      simp [eventsOf] at hl hq ⊢
      grind [Event.isOf]
    | _ => exact hl
  · rw [(sameFor_runs (fun he => ?_) (fun he => absurd he hk') h).log, hl]
    have := hn.code k List.mem_cons_self q he
    have := nextRequest_runs h
    omega

theorem named_runs {c c' : ServCo} {k : Code} {rest items : Stack} (hn : Named c (.code k :: rest))
    (h : Runs c k c' items) : Named c' (items ++ rest) := by
  have hk := hn.code k List.mem_cons_self
  have hle := nextRequest_runs h
  refine ⟨fun r hr => ?_, fun k' hm r hr => ?_, fun r hr => ?_, fun q hq => ?_, named_log hn h⟩
  · have hold := hn.allocated r
    cases h <;> simp at hr ⊢ <;> grind [List.mem_of_mem_erase]
  · rcases List.mem_append.mp hm with hm | hm
    · cases h <;> simp at hm ⊢ <;> grind [Code.request]
    · exact (hn.code k' (List.mem_cons_of_mem _ hm) r hr).trans_le hle
  · have hold := hn.invoked r
    cases h <;> simp at hr ⊢ <;> grind [Code.request]
  · have hold := hn.sending q
    cases h <;> simp at hq ⊢ <;> grind [Code.request]

theorem named_ret {c : ServCo} {e : Ext} {rest : Stack} (hn : Named c (.ext e :: rest)) : Named c rest where
  allocated := hn.allocated
  code k hm := hn.code k (List.mem_cons_of_mem _ hm)
  invoked := hn.invoked
  sending := hn.sending
  log := hn.log

theorem named_enter {c c' : ServCo} {e : Entry} {stack items : Stack} (hn : Named c stack)
    (h : Enters c e c' items) : Named c' (items ++ stack) := by
  obtain ⟨hallocated, hcode, hinvoked, hsending, hlog⟩ := hn
  cases h with
  | @resume r o hr =>
    refine ⟨hallocated, fun k hm q hq => ?_, fun q hq => hinvoked q (List.mem_of_mem_erase hq), hsending, fun q hq => ?_⟩
    · have hm : k = .nextStep r ∨ .code k ∈ stack := by simpa using hm
      rcases hm with rfl | hm
      · obtain rfl := Option.some.inj hq
        exact hr
      · exact hcode k hm q hq
    · have hq : c.nextRequest ≤ q := hq
      have hne : r ≠ q := by omega
      simpa [eventsOf, Event.isOf, hne] using hlog q hq
  | @sendDone r f hs =>
    refine ⟨hallocated, fun k hm q hq => ?_, hinvoked, fun p hp => hsending p (List.mem_of_mem_erase hp), hlog⟩
    have hm : k = .step f r ∨ .code k ∈ stack := by simpa using hm
    rcases hm with rfl | hm
    · obtain rfl := Option.some.inj hq
      exact hsending _ hs
    · exact hcode k hm q hq
  | _ =>
    refine ⟨hallocated, fun k hm q hq => ?_, hinvoked, hsending, hlog⟩
    refine hcode k ?_ q hq
    grind [Code.request]

/-! ### Buffers -/

/-- The block that holds the parameter of a request. -/
def ServCo.block (c : ServCo) (r : Nat) : Option Nat := (c.request r).parameter.base.block

/-- The received frame is in a buffer of its own. -/
structure Fresh (c : ServCo) (b : Nat) : Prop where
  bound : b < c.nextFrame
  base : c.recvBuf.base = ⟨some b, 0⟩
  frame : ∃ frame, c.frames b = some frame ∧ frame.length < 2 ^ 32 ∧
    c.recvBuf.length = BitVec.ofNat 32 frame.length
  apart : ∀ r, c.block r ≠ some b

structure Buffers (c : ServCo) (stack : Stack) : Prop where
  bound : ∀ r b, c.block r = some b → b < c.nextFrame
  apart : ∀ r q b, r ≠ q → c.block r = some b → c.block q ≠ some b
  fresh : stack.head? = some (.code .step2) → c.receiveError = none → ∃ b, Fresh c b
  top : .code .step2 ∉ stack.tail

theorem buffers_new (funcmap : Option (List UInt8 → Option Nat)) (onClosed : Bool) :
    Buffers (new funcmap onClosed).state (new funcmap onClosed).stack := by
  constructor <;> simp [new, ServCo.block, Request.zero, Addr.null]

section

variable {c c' : ServCo} {k : Code} {rest items : Stack} {r : Nat}

theorem block_flip (req : Request) : req.flip.parameter = req.parameter := by
  rw [Request.flip]
  split <;> rfl

/-- Only a new request gets a buffer. -/
theorem block_runs (h : Runs c k c' items) (hk : k ≠ .step2) (q : Nat) : c'.block q = c.block q := by
  cases h with
  | step2 => exact absurd rfl hk
  | _ =>
    simp [ServCo.block, Function.update_apply]
    try grind [block_flip, Addr.add, prepareRequest]

theorem block_step2 (h : Runs c .step2 c' items) (he : ∃ b, Fresh c b) :
    c'.block = c.block ∨ ∃ b, Fresh c b ∧ c'.block = Function.update c.block c.nextRequest (some b) := by
  cases h with
  | step2Closed hc => exact .inl rfl
  | step2Error hc he => exact .inl rfl
  | step2 hc he' hs hi hf hn =>
    obtain ⟨b, hb⟩ := he
    refine .inr ⟨b, hb, funext fun q => ?_⟩
    by_cases hq : q = c.nextRequest <;> simp [ServCo.block, hq, prepareRequest, hb.base, Addr.add]

/-- The frame of another request stays in its buffer. -/
theorem frames_runs (hb : Buffers c (.code k :: rest)) (hk : k.request ≠ some r) (h : Runs c k c' items) {b : Nat}
    (hr : c.block r = some b) : c'.frames b = c.frames b := by
  cases h with
  | @finishFree q b' hq hf =>
    have hne : q ≠ r := fun he => hk (by rw [he]; rfl)
    have : b' ≠ b := by
      rintro rfl
      exact hb.apart q r b' hne (by simp [ServCo.block, hq]) hr
    simp [this.symm]
  | _ => rfl

theorem nextFrame_runs (h : Runs c k c' items) : c'.nextFrame = c.nextFrame := by
  cases h <;> rfl

theorem buffers_runs (hb : Buffers c (.code k :: rest)) (h : Runs c k c' items) :
    Buffers c' (items ++ rest) := by
  have hrest : .code .step2 ∉ rest := hb.top
  have hitems : .code .step2 ∉ items := by cases h <;> simp
  have hnone : .code .step2 ∉ items ++ rest := by simp [hrest, hitems]
  have hblock : c'.block = c.block ∨ ∃ b, Fresh c b ∧ c'.block = Function.update c.block c.nextRequest (some b) := by
    by_cases hk' : k = .step2
    · subst hk'
      by_cases he : c.receiveError = none
      · exact block_step2 h (hb.fresh rfl he)
      · refine .inl ?_
        cases h with
        | step2 hc he' hs hi hf hn => exact absurd he' he
        | _ => rfl
    · exact .inl (funext fun q => block_runs h hk' q)
  refine ⟨fun q b hq => ?_, fun q q' b hne hq => ?_, fun hhead => ?_, fun hm => ?_⟩
  · rw [nextFrame_runs h]
    rcases hblock with hs | ⟨b', hf, hs⟩
    · exact hb.bound q b (hs ▸ hq)
    · rw [hs, Function.update_apply] at hq
      split at hq
      · rw [← Option.some.inj hq]
        exact hf.bound
      · exact hb.bound q b hq
  · rcases hblock with hs | ⟨b', hf, hs⟩
    · rw [hs] at hq ⊢
      exact hb.apart q q' b hne hq
    · have ha := hf.apart
      rw [hs, Function.update_apply] at hq ⊢
      split at hq
      · rw [if_neg (by omega), ← Option.some.inj hq]
        exact ha q'
      · split
        · rintro he
          exact ha q (by rw [hq, he])
        · exact hb.apart q q' b hne hq
  · exact absurd (List.mem_of_mem_head? hhead) hnone
  · exact hnone (List.mem_of_mem_tail hm)

end

theorem head_ne {stack : Stack} (h : .code .step2 ∉ stack) : stack.head? ≠ some (.code .step2) :=
  fun hm => h (List.mem_of_mem_head? hm)

theorem buffers_ret {c : ServCo} {e : Ext} {rest : Stack} (hb : Buffers c (.ext e :: rest)) : Buffers c rest where
  bound := hb.bound
  apart := hb.apart
  fresh hh := absurd hh (head_ne hb.top)
  top hm := hb.top (List.mem_of_mem_tail hm)

theorem not_mem_of_envControls {c : ServCo} {stack : Stack} (hb : Buffers c stack) (he : EnvControls stack) :
    .code .step2 ∉ stack := by
  intro hm
  cases stack with
  | nil => cases hm
  | cons i rest =>
    rcases List.mem_cons.mp hm with rfl | hm
    · exact he
    · exact hb.top hm

/-- What the environment may change: the buffers of requests are lost, never gained. -/
theorem buffers_of_le {c c' : ServCo} {stack items : Stack} (hb : Buffers c stack) (he : EnvControls stack)
    (hframe : c.nextFrame ≤ c'.nextFrame)
    (hblock : ∀ r b, c'.block r = some b → c.block r = some b)
    (hfresh : (items ++ stack).head? = some (.code .step2) → c'.receiveError = none → ∃ b, Fresh c' b)
    (htop : .code .step2 ∉ items.tail) : Buffers c' (items ++ stack) where
  bound r b hr := (hb.bound r b (hblock r b hr)).trans_le hframe
  apart r q b hne hr hq := hb.apart r q b hne (hblock r b hr) (hblock q b hq)
  fresh := hfresh
  top hm := by
    have hstack := not_mem_of_envControls hb he
    cases items with
    | nil => exact hstack (List.mem_of_mem_tail hm)
    | cons i items =>
      rcases List.mem_append.mp hm with hm | hm
      · exact htop hm
      · exact hstack hm

theorem buffers_enter {c c' : ServCo} {e : Entry} {stack items : Stack} (hb : Buffers c stack)
    (henv : EnvControls stack) (he : Enters c e c' items) : Buffers c' (items ++ stack) := by
  have hhead := head_ne (not_mem_of_envControls hb henv)
  cases he with
  | @recvDone frame hr hf =>
    refine buffers_of_le hb henv (Nat.le_succ _) (fun _ _ h => h) (fun _ _ => ?_) (by simp)
    refine ⟨c.nextFrame, Nat.lt_succ_self _, rfl, ⟨frame, by simp, hf, rfl⟩, fun r hr => ?_⟩
    exact absurd (hb.bound r _ hr) (Nat.lt_irrefl _)
  | recvError hr => exact buffers_of_le hb henv le_rfl (fun _ _ h => h) (fun _ h => by cases h) (by simp)
  | @resume r o hr =>
    refine buffers_of_le hb henv le_rfl (fun q b hq => ?_) (fun h _ => by cases h) (by simp)
    by_cases hq' : q = r
    · subst hq'
      cases ho : o.ownsParameter <;> simp_all [ServCo.block, Request.complete, Addr.null]
    · simpa [ServCo.block, hq'] using hq
  | allocRef | sendError => exact buffers_of_le hb henv le_rfl (fun _ _ h => h) (fun h _ => absurd h hhead) (by simp)
  | _ => exact buffers_of_le hb henv le_rfl (fun _ _ h => h) (fun h _ => by cases h) (by simp)

/-! ### Received frames -/

/-- The word at a byte offset of a frame. -/
def word (frame : List UInt8) (i : Nat) : BitVec 32 := BitVec.ofNat 32 (leValue ((frame.drop i).take 4))

theorem read_frame {c : ServCo} {b i n : Nat} {frame : List UInt8} (hf : c.frames b = some frame) (hi : i + n ≤ frame.length) :
    c.read ⟨some b, i⟩ n = some ((frame.drop i).take n) := by
  rw [ServCo.read]
  simp only [hf, Option.bind_some]
  rw [if_pos ⟨by omega, by omega⟩, Int.toNat_natCast]

theorem readWord_frame {c : ServCo} {b i : Nat} {frame : List UInt8} (hf : c.frames b = some frame) (hi : i + 4 ≤ frame.length) :
    c.readWord ⟨some b, i⟩ = some (word frame i) := by
  rw [ServCo.readWord, read_frame hf hi, Option.map_some, word]

/-- A frame that is too short for a word is not read. -/
theorem length_of_readWord {c : ServCo} {b i : Nat} {frame : List UInt8} {w : BitVec 32} (hf : c.frames b = some frame)
    (hw : c.readWord ⟨some b, i⟩ = some w) : i + 4 ≤ frame.length := by
  rw [ServCo.readWord, ServCo.read] at hw
  simp only [hf, Option.bind_some, Option.map_eq_some_iff, Option.ite_none_right_eq_some] at hw
  obtain ⟨bytes, ⟨h, -⟩, -⟩ := hw
  omega

/-- A frame has become a request. -/
structure Received (b : Nat) (base : Addr) (frame : List UInt8) (c c' : ServCo) (items : Stack) : Prop where
  fresh : Fresh c b
  stored : base = ⟨some b, 0⟩
  buffer : c'.frames b = some frame
  length : 8 ≤ frame.length ∧ frame.length < 2 ^ 32
  request : c'.request c.nextRequest = prepareRequest { Request.zero with
    session := word frame 0
    callableIndex := word frame 4
    parameter := ⟨⟨some b, 8⟩, BitVec.ofNat 32 frame.length - 8⟩ }
  items : items = [.code (.nextStep c.nextRequest), .code .step1]
  invoked : c'.invoked = c.invoked
  sending : c'.sending = c.sending
  log : eventsOf c.nextRequest c'.log = [.received c.nextRequest base frame]

theorem received_step2 {c c' : ServCo} {rest items : Stack} (hn : Named c (.code .step2 :: rest))
    (hb : Buffers c (.code .step2 :: rest)) {base : Addr} {frame : List UInt8}
    (hf : .received c.nextRequest base frame ∈ c'.log) (hr : Runs c .step2 c' items) :
    ∃ b, Received b base frame c c' items := by
  have hlog := hn.log c.nextRequest le_rfl
  have hnot : .received c.nextRequest base frame ∉ c.log := by
    intro hm
    rw [← mem_eventsOf (r := c.nextRequest) (by simp [Event.isOf]), hlog] at hm
    cases hm
  cases hr with
  | step2Closed hc => exact absurd hf hnot
  | step2Error hc he => exact absurd hf hnot
  | @step2 session callableIndex frame' hc he hsession hindex hframe hbound =>
    obtain ⟨b, hfresh⟩ := hb.fresh rfl he
    obtain ⟨bytes, hbytes, hlt, hlen⟩ := hfresh.frame
    have hframe' : frame' = bytes := by
      have hread := @read_frame c b 0 bytes.length bytes hbytes (by omega)
      rw [hfresh.base, hlen, BitVec.toNat_ofNat, Nat.mod_eq_of_lt hlt] at hframe
      have := hframe.symm.trans hread
      simpa using this
    obtain ⟨rfl, rfl⟩ : base = c.recvBuf.base ∧ frame = frame' := by
      have : Event.received c.nextRequest base frame ∈ c.log ∨ base = c.recvBuf.base ∧ frame = frame' := by
        simpa [apply_ite (Event.received c.nextRequest base frame ∈ ·)] using hf
      exact this.resolve_left hnot
    subst hframe'
    rw [hfresh.base] at hsession hindex
    have hlength : 4 + 4 ≤ frame.length := length_of_readWord hbytes hindex
    obtain rfl := Option.some.inj (hsession.symm.trans (readWord_frame hbytes (i := 0) (by omega)))
    obtain rfl := Option.some.inj (hindex.symm.trans (readWord_frame hbytes (i := 4) (by omega)))
    refine ⟨b, hfresh, hfresh.base, hbytes, ⟨hlength, hlt⟩, ?_, rfl, rfl, rfl, ?_⟩
    · simp [hfresh.base, hlen, Addr.add]
    · simp [eventsOf] at hlog
      simp [eventsOf, Event.isOf, apply_ite (List.filter _)]
      exact hlog

end PxpRpc.Server
