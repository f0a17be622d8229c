import PxpRpc.Uv.Stream

/-!
# The bytes that reads of a stream return

While a read is being resolved it is still the first in its queue and its bytes are
still in the buffer.
-/
namespace PxpRpc.Uv.Stream

open PxpRpc.Lib PxpRpc.Lib.Callback

/-! ### What reads return -/

def Outcome.data : Outcome → List UInt8
  | .bytes bs => bs
  | _ => []

/-- The results of the reads completed so far, in the order in which they were called. -/
def UvStreamWrap.results (s : UvStreamWrap) : List UInt8 :=
  (s.log.mergeSort fun e e' => decide (e.1.p ≤ e'.1.p)).flatMap fun e => e.2.data

/-- libuv delivers data, and reads are requested. -/
def Data : Move Entry → Prop
  | .enter .read => True
  | .enter (.nread (.data _)) => True
  | .enter _ => False
  | _ => True

/-- The reads return what has been received; when nothing is in progress they have returned
all of it but what is buffered, and nothing is buffered while a read waits. -/
structure Streams (c : Config) : Prop where
  returned : c.state.results <+: c.state.received
  whole : c.stack = [] → c.state.results ++ c.state.readBuf = c.state.received
  settled : c.stack = [] → c.state.readBuf = [] ∨ c.state.readWaiting = []
  noFault : ¬ program.Faults c

/-- No read is called, and no data come, while a read is being resolved; when data come no
more than a mebibyte is buffered. -/
def Steady (c : Config) : Move Entry → Prop
  | .enter .read => .code .clear ∉ c.stack
  | .enter (.nread (.data bs)) =>
      .code .clear ∉ c.stack ∧ (bs = [] ∨ c.state.readBuf.length ≤ 1024 * 1024)
  | _ => True

def Entry.data : Entry → Option (List UInt8)
  | .nread (.data bs) => some bs
  | _ => none

theorem data_enter {e : Entry} : Data (.enter e) ↔ e = .read ∨ e.data.isSome := by
  cases e with
  | nread r => cases r <;> simp [Data, Entry.data]
  | _ => simp [Data, Entry.data]

theorem steady_enter {c : Config} {e : Entry} : Steady c (.enter e) ↔
    (e = .read → .code .clear ∉ c.stack) ∧
    ∀ bs ∈ e.data, .code .clear ∉ c.stack ∧ (bs = [] ∨ c.state.readBuf.length ≤ 1024 * 1024) := by
  cases e with
  | nread r => cases r <;> simp [Steady, Entry.data]
  | _ => simp [Steady, Entry.data]

instance : ∀ m : Move Entry, Decidable (Data m)
  | .run | .ret => isTrue trivial
  | .enter _ => decidable_of_iff _ data_enter.symm

instance : ∀ (c : Config) (m : Move Entry), Decidable (Steady c m) :=
  decidableMove (fun _ _ _ => isTrue trivial) (fun _ _ => decidable_of_iff _ steady_enter.symm)
    (fun _ => trivial) (fun _ _ _ => trivial) (fun _ => trivial)

/-! ### The invariant -/

/-- How many reads are resolved and still in the queue. -/
def clears (stack : Stack) : Nat := stack.count (.code .clear)

/-- The data that come. -/
def coming : Stack → List UInt8
  | .code (.pushData (.data bs)) :: _ => bs
  | _ => []

/-- The read that is called. -/
def pulling : Stack → List Nat
  | .code (.pullData p) :: _ => [p]
  | _ => []

/-- What runs at the top of the stack. -/
def Code.streams : Code → Prop
  | .pushData (.data _) | .processing | .clear | .fail | .pullData _ => True
  | _ => False

/-- The data are still to be handed out. -/
def processes : Stack → Prop
  | .code .processing :: _ => True
  | .code (.pullData _) :: _ => True
  | _ => False

structure Flows (s : UvStreamWrap) (stack : Stack) : Prop where
  starts : ∀ k, .code k ∈ stack.tail → k = .clear
  top : ∀ k rest, stack = .code k :: rest → k.streams ∧ clears rest = 0
  resolved : clears stack ≤ 1 ∧ clears stack ≤ s.readWaiting.length
  errcode : s.errcode = 0
  order : (s.log.map (fun e => e.1.p) ++ s.readWaiting.drop (clears stack) ++ pulling stack).Pairwise (· < ·)
  called : ∀ p ∈ s.log.map (fun e => e.1.p) ++ s.readWaiting.drop (clears stack) ++ pulling stack, p < s.calls
  bytes : s.log.flatMap (fun e => e.2.data) ++ (if clears stack = 0 then s.readBuf else []) ++ coming stack = s.received
  settled : ¬ processes stack → clears stack = 0 → s.readBuf = [] ∨ s.readWaiting = []
  fits : ∀ bs rest, stack = .code (.pushData (.data bs)) :: rest → bs = [] ∨ s.readBuf.length ≤ 1024 * 1024

theorem flows_opened : Flows opened.state opened.stack := by
  constructor <;> simp [opened, clears, coming, pulling]

section

variable (op : Op) (rest : Stack)

@[simp] theorem clears_nil : clears [] = 0 := rfl

@[simp] theorem clears_cons_ext : clears (.ext op :: rest) = clears rest := by
  simp [clears]

@[simp] theorem clears_cons_clear : clears (.code .clear :: rest) = clears rest + 1 := by
  simp [clears]

theorem clears_cons_code {k : Code} (h : k ≠ .clear) : clears (.code k :: rest) = clears rest := by
  simp [clears, h]

end

variable {s s' : UvStreamWrap} {k : Code} {rest items stack : Stack}

/-- Nothing comes, is called or is to be handed out. -/
structure Still (stack : Stack) : Prop where
  coming : coming stack = []
  pulling : pulling stack = []
  processes : ¬ processes stack
  fits : ∀ bs rest, stack ≠ .code (.pushData (.data bs)) :: rest

/-- Below the top of the stack there is only clearing. -/
theorem still_of_clear (h : ∀ k, .code k ∈ stack → k = .clear) : Still stack := by
  cases stack with
  | nil => constructor <;> simp [coming, pulling, processes]
  | cons i rest =>
    cases i with
    | ext op => constructor <;> simp [coming, pulling, processes]
    | code k =>
      obtain rfl := h k List.mem_cons_self
      constructor <;> simp [coming, pulling, processes]

/-- Nothing but clearing is left on a stack without it. -/
theorem no_code (h : ∀ k, .code k ∈ stack → k = .clear) (hz : clears stack = 0) (k : Code) (rest : Stack) :
    stack ≠ .code k :: rest := by
  rintro rfl
  obtain rfl := h k List.mem_cons_self
  rw [clears_cons_clear] at hz
  cases hz

/-! ### One step -/

theorem Flows.no_clears (hf : Flows s (.code k :: rest)) (hk : k ≠ .clear) : clears (.code k :: rest) = 0 := by
  rw [clears_cons_code _ hk]
  exact (hf.top k rest rfl).2

/-- Code that does not clear starts with every read in the queue unanswered, and with all that
has not been returned in the buffer. -/
theorem Flows.plain (hf : Flows s (.code k :: rest)) (hk : k ≠ .clear) :
    (s.log.map (fun e => e.1.p) ++ s.readWaiting ++ pulling (.code k :: rest)).Pairwise (· < ·) ∧
    (∀ p ∈ s.log.map (fun e => e.1.p) ++ s.readWaiting ++ pulling (.code k :: rest), p < s.calls) ∧
    s.log.flatMap (fun e => e.2.data) ++ s.readBuf ++ coming (.code k :: rest) = s.received := by
  have hz := hf.no_clears hk
  have ho := hf.order
  have hc := hf.called
  have hb := hf.bytes
  rw [hz, List.drop_zero] at ho hc
  rw [if_pos hz] at hb
  exact ⟨ho, hc, hb⟩

/-- The stack when a piece of code is done and leaves no other. -/
theorem Flows.finish (hf : Flows s (.code k :: rest)) (hk : k ≠ .clear)
    (hcoming : coming (.code k :: rest) = []) (hpulling : pulling (.code k :: rest) = [])
    (hset : s.readBuf = [] ∨ s.readWaiting = []) : Flows s rest := by
  have hz : clears rest = 0 := (hf.top k rest rfl).2
  have hrest : Still rest := still_of_clear hf.starts
  obtain ⟨ho, hc, hb⟩ := hf.plain hk
  rw [hpulling] at ho hc
  rw [hcoming] at hb
  refine ⟨fun k hm => hf.starts k (List.mem_of_mem_tail hm), fun k' rest' he => absurd he (no_code hf.starts hz k' rest'),
    by simp [hz], hf.errcode, ?_, ?_, ?_, fun _ _ => hset, fun bs rest' he => absurd he (hrest.fits bs rest')⟩
  · rw [hz, hrest.pulling]
    exact ho
  · rw [hz, hrest.pulling]
    exact hc
  · rw [hz, hrest.coming]
    exact hb

/-- The stack when a piece of code goes on with another. -/
theorem Flows.next {k' : Code} (hf : Flows s (.code k :: rest)) (hk : k' ≠ .clear) (hs : k'.streams)
    (ho : (s'.log.map (fun e => e.1.p) ++ s'.readWaiting).Pairwise (· < ·))
    (hc : ∀ p ∈ s'.log.map (fun e => e.1.p) ++ s'.readWaiting, p < s'.calls)
    (hb : s'.log.flatMap (fun e => e.2.data) ++ s'.readBuf = s'.received) (herr : s'.errcode = 0)
    (hcoming : coming (.code k' :: rest) = []) (hpulling : pulling (.code k' :: rest) = [])
    (hset : k' = .processing ∨ s'.readBuf = [] ∨ s'.readWaiting = []) : Flows s' (.code k' :: rest) := by
  have hz : clears rest = 0 := (hf.top k rest rfl).2
  have hclears : clears (.code k' :: rest) = 0 := by rw [clears_cons_code _ hk, hz]
  refine ⟨hf.starts, fun k'' rest' he => ?_, by simp [hclears], herr, ?_, ?_, ?_, fun hp _ => ?_, fun bs rest' he => ?_⟩
  · obtain ⟨rfl, rfl⟩ : k' = k'' ∧ rest = rest' := by simpa using he
    exact ⟨hs, hz⟩
  · rw [hclears, hpulling, List.append_nil]
    exact ho
  · rw [hclears, hpulling, List.append_nil]
    exact hc
  · rw [hclears, hcoming, List.append_nil]
    exact hb
  · rcases hset with rfl | hset
    · exact absurd trivial hp
    · exact hset
  · rw [he] at hcoming
    exact .inl hcoming

theorem flows_pushData {bs : List UInt8} (hf : Flows s (.code (.pushData (.data bs)) :: rest))
    (h : exec (.pushData (.data bs)) s = some (s', items)) : Flows s' (items ++ rest) := by
  cases bs with
  | nil =>
    obtain ⟨rfl, rfl⟩ := Prod.mk.inj (Option.some.inj h)
    exact hf.finish (by simp) rfl rfl (hf.settled id (hf.no_clears (by simp)))
  | cons b bs =>
    have hfit : s.readBuf.length ≤ 1024 * 1024 := (hf.fits _ rest rfl).resolve_left (by simp)
    obtain ⟨ho, hc, hb⟩ := hf.plain (by simp)
    simp only [pulling, coming, List.append_nil, List.append_assoc] at ho hc hb
    rw [exec.eq_def] at h
    dsimp only at h
    rw [if_neg (by omega)] at h
    obtain ⟨rfl, rfl⟩ := Prod.mk.inj (Option.some.inj h)
    exact hf.next (by simp) trivial ho hc hb hf.errcode rfl rfl (.inl rfl)

/-- A read is given the whole buffer, or there is none or nothing to give. -/
theorem flows_processing (hf : Flows s (.code .processing :: rest)) (h : exec .processing s = some (s', items)) :
    Flows s' (items ++ rest) := by
  have hz : clears rest = 0 := (hf.top _ rest rfl).2
  obtain ⟨ho, hc, hb⟩ := hf.plain (by simp)
  simp only [pulling, coming, List.append_nil] at ho hc hb
  rw [exec.eq_def] at h
  dsimp only at h
  split at h
  · rename_i hw
    obtain ⟨rfl, rfl⟩ := Prod.mk.inj (Option.some.inj h)
    exact hf.next (by simp) trivial ho hc hb hf.errcode rfl rfl (.inr (.inr hw))
  · rename_i p readWaiting hw
    split at h
    · rename_i hnil
      obtain ⟨rfl, rfl⟩ := Prod.mk.inj (Option.some.inj h)
      exact hf.next (by simp) trivial ho hc hb hf.errcode rfl rfl (.inr (.inl hnil))
    · obtain ⟨rfl, rfl⟩ := Prod.mk.inj (Option.some.inj h)
      have hone : clears (.ext ⟨.read, p⟩ :: .code .clear :: rest) = 1 := by simp [hz]
      rw [hw] at ho hc
      refine ⟨fun k hm => ?_, fun k rest' he => by simp at he, ?_, hf.errcode, ?_, ?_, ?_, fun _ h0 => ?_,
        fun bs rest' he => by simp at he⟩
      · rcases List.mem_cons.mp hm with he | hm
        · exact Item.code.inj he
        · exact hf.starts k hm
      · simp [hz, UvStreamWrap.complete, hw]
      · simpa [hz, UvStreamWrap.complete, hw, pulling] using ho
      · simpa [hz, UvStreamWrap.complete, hw, pulling] using hc
      · simpa [hz, UvStreamWrap.complete, coming, Outcome.data, List.flatMap_append] using hb
      · rw [List.cons_append, List.singleton_append, hone] at h0
        cases h0

theorem flows_clear (hf : Flows s (.code .clear :: rest)) (h : exec .clear s = some (s', items)) :
    Flows s' (items ++ rest) := by
  have hz : clears rest = 0 := (hf.top _ rest rfl).2
  have ho := hf.order
  have hc := hf.called
  have hb := hf.bytes
  rw [clears_cons_clear, hz] at ho hc hb
  simp only [pulling, coming, List.append_nil] at ho hc hb
  rw [exec.eq_def] at h
  dsimp only at h
  split at h
  · cases h
  · rename_i p readWaiting hw
    obtain ⟨rfl, rfl⟩ := Prod.mk.inj (Option.some.inj h)
    rw [hw] at ho hc
    exact hf.next (by simp) trivial ho hc hb hf.errcode rfl rfl (.inr (.inl rfl))

theorem flows_fail (hf : Flows s (.code .fail :: rest)) (h : exec .fail s = some (s', items)) :
    Flows s' (items ++ rest) := by
  rw [exec.eq_def] at h
  dsimp only at h
  rw [if_neg (by rw [hf.errcode]; decide)] at h
  obtain ⟨rfl, rfl⟩ := Prod.mk.inj (Option.some.inj h)
  exact hf.finish (by simp) rfl rfl (hf.settled id (hf.no_clears (by simp)))

theorem flows_pullData {p : Nat} (hf : Flows s (.code (.pullData p) :: rest))
    (h : exec (.pullData p) s = some (s', items)) : Flows s' (items ++ rest) := by
  obtain ⟨ho, hc, hb⟩ := hf.plain (by simp)
  simp only [pulling, coming, List.append_nil, List.append_assoc] at ho hc hb
  obtain ⟨rfl, rfl⟩ := Prod.mk.inj (Option.some.inj h)
  exact hf.next (by simp) trivial ho hc hb hf.errcode rfl rfl (.inl rfl)

theorem flows_exec (hf : Flows s (.code k :: rest)) (h : exec k s = some (s', items)) : Flows s' (items ++ rest) := by
  have hk := (hf.top k rest rfl).1
  cases k with
  | pushData nread =>
    cases nread with
    | data bs => exact flows_pushData hf h
    | error errcode => exact hk.elim
  | processing => exact flows_processing hf h
  | clear => exact flows_clear hf h
  | fail => exact flows_fail hf h
  | pullData p => exact flows_pullData hf h
  | _ => exact hk.elim

theorem flows_ret {op : Op} (hf : Flows s (.ext op :: rest)) : Flows s rest := by
  have hrest : Still rest := still_of_clear hf.starts
  have hr := hf.resolved
  have ho := hf.order
  have hc := hf.called
  have hb := hf.bytes
  simp only [clears_cons_ext, pulling, coming, List.append_nil] at hr ho hc hb
  refine ⟨fun k hm => hf.starts k (List.mem_of_mem_tail hm), fun k rest' he => ?_, hr, hf.errcode, ?_, ?_, ?_,
    fun _ hz => hf.settled id (by rw [clears_cons_ext]; exact hz), fun bs rest' he => absurd he (hrest.fits bs rest')⟩
  · obtain rfl := hf.starts k (he ▸ List.mem_cons_self)
    rw [he, clears_cons_clear] at hr
    exact ⟨trivial, by omega⟩
  · rw [hrest.pulling, List.append_nil]
    exact ho
  · rw [hrest.pulling, List.append_nil]
    exact hc
  · rw [hrest.coming, List.append_nil]
    exact hb

/-- Where the environment is in control there is only clearing on the stack. -/
theorem Flows.clear_of_controls (hf : Flows s stack) (hc : EnvControls stack) : ∀ k, .code k ∈ stack → k = .clear := by
  cases stack with
  | nil => exact fun k hm => absurd hm List.not_mem_nil
  | cons i rest =>
    cases i with
    | code k => exact hc.elim
    | ext op => exact fun k hm => hf.starts k (by simpa using hm)

theorem flows_enter {e : Entry} (hc : EnvControls stack) (hf : Flows s stack) (hd : Data (.enter e))
    (hs : Steady ⟨s, stack⟩ (.enter e)) (h : enter e s = some (s', items)) : Flows s' (items ++ stack) := by
  have hcode := hf.clear_of_controls hc
  have hstill : Still stack := still_of_clear hcode
  have ho := hf.order
  have hcalled := hf.called
  have hb := hf.bytes
  rw [hstill.pulling, List.append_nil] at ho hcalled
  rw [hstill.coming, List.append_nil] at hb
  cases e with
  | read =>
    have hz : clears stack = 0 := List.count_eq_zero.mpr hs
    rw [hz, List.drop_zero] at ho hcalled
    rw [if_pos hz] at hb
    obtain ⟨rfl, rfl⟩ := Prod.mk.inj (Option.some.inj h)
    have hclears : clears (.code (.pullData s.calls) :: stack) = 0 := by rw [clears_cons_code _ (by simp), hz]
    refine ⟨hcode, fun k rest he => ?_, ?_, hf.errcode, ?_, ?_, ?_, fun hp => absurd trivial hp, fun bs rest he => by
      cases he⟩
    · obtain ⟨rfl, rfl⟩ : .pullData s.calls = k ∧ stack = rest := by simpa using he
      exact ⟨trivial, hz⟩
    · rw [List.singleton_append, hclears]
      simp
    · rw [List.singleton_append, hclears, List.drop_zero]
      exact List.pairwise_append.mpr ⟨ho, List.pairwise_singleton _ _, fun p hp q hq => by
        rw [List.mem_singleton.mp hq]
        exact hcalled p hp⟩
    · intro p hp
      rw [List.singleton_append, hclears, List.drop_zero] at hp
      rcases List.mem_append.mp hp with hp | hp
      · exact Nat.lt_succ_of_lt (hcalled p hp)
      · rw [List.mem_singleton.mp hp]
        exact Nat.lt_succ_self _
    · rw [List.singleton_append, hclears, if_pos rfl]
      simpa [UvStreamWrap.call, coming] using hb
  | nread nread =>
    cases nread with
    | error errcode => exact hd.elim
    | data bs =>
      obtain ⟨hclear, hfit⟩ := hs
      have hz : clears stack = 0 := List.count_eq_zero.mpr hclear
      rw [hz, List.drop_zero] at ho hcalled
      rw [if_pos hz] at hb
      obtain ⟨rfl, rfl⟩ := Prod.mk.inj (Option.some.inj h)
      have hclears : clears (.code (.pushData (.data bs)) :: stack) = 0 := by rw [clears_cons_code _ (by simp), hz]
      refine ⟨hcode, fun k rest he => ?_, ?_, hf.errcode, ?_, ?_, ?_, fun _ _ => hf.settled hstill.processes hz,
        fun bs' rest he => ?_⟩
      · obtain ⟨rfl, rfl⟩ : .pushData (.data bs) = k ∧ stack = rest := by simpa using he
        exact ⟨trivial, hz⟩
      · rw [List.singleton_append, hclears]
        simp
      · rw [List.singleton_append, hclears, List.drop_zero]
        simpa [pulling] using ho
      · rw [List.singleton_append, hclears, List.drop_zero]
        simpa [pulling] using hcalled
      · rw [List.singleton_append, hclears, if_pos rfl]
        exact congrArg (· ++ bs) hb
      · obtain ⟨rfl, -⟩ : bs = bs' ∧ stack = rest := by simpa using he
        exact hfit
  | _ => exact hd.elim

theorem flows_preserves : program.Preserves (fun c m => Data m ∧ Steady c m) fun c => Flows c.state c.stack where
  exec hf _ he := flows_exec hf he
  ret hf _ := flows_ret hf
  enter hc hf hm he := flows_enter hc hf hm.1 hm.2 he

/-! ### Runs -/

theorem flows_noFault {c : Config} (hf : Flows c.state c.stack) : ¬ program.Faults c := by
  obtain ⟨s, stack⟩ := c
  rintro ⟨k, rest, rfl, he⟩
  have hk := (hf.top k rest rfl).1
  change exec k s = none at he
  rw [exec.eq_def] at he
  cases k with
  | pushData nread =>
    cases nread with
    | error errcode => exact hk.elim
    | data bs =>
      cases bs with
      | nil => cases he
      | cons b bs =>
        dsimp only at he
        split at he <;> cases he
  | processing =>
    dsimp only at he
    split at he
    · cases he
    · split at he <;> cases he
  | clear =>
    have hr := hf.resolved.2
    rw [clears_cons_clear] at hr
    dsimp only at he
    split at he
    · rename_i hw
      simp [hw] at hr
    · cases he
  | fail =>
    dsimp only at he
    split at he <;> cases he
  | pullData p => cases he
  | _ => exact hk.elim

theorem streams_of_flows {c : Config} (hf : Flows c.state c.stack) : Streams c := by
  have hsorted : c.state.log.Pairwise fun e e' => e.1.p ≤ e'.1.p := by
    have ho := (List.pairwise_append.mp (List.pairwise_append.mp hf.order).1).1
    exact (List.pairwise_map.mp ho).imp Nat.le_of_lt
  have hres : c.state.results = c.state.log.flatMap fun e => e.2.data := by
    unfold UvStreamWrap.results
    rw [List.mergeSort_of_pairwise (by simpa using hsorted)]
  refine ⟨?_, fun hs => ?_, fun hs => ?_, flows_noFault hf⟩
  · rw [hres, ← hf.bytes, List.append_assoc]
    exact List.prefix_append _ _
  · have hb := hf.bytes
    rw [hs] at hb
    rw [hres]
    simpa [coming] using hb
  · exact hf.settled (by rw [hs]; exact id) (by rw [hs]; rfl)

/-- Where no read is called too early and nothing is discarded, the reads return what is
received. -/
theorem streams_run (ms : List (Move Entry)) (c : Config) (hm : ∀ m ∈ ms, Data m)
    (h : run program.step opened ms = some c) (hs : Along program.step Steady opened ms) : Streams c :=
  streams_of_flows (flows_preserves.run flows_opened ((Along.of_forall hm).and hs) h)

/-- Two reads wait for data, which come in three chunks; the third read is late. -/
theorem streams_three : ∃ c, run program.step opened [.enter .read, .run, .run, .run, .enter .read, .run, .run, .run,
    .enter (.nread (.data [1, 2])), .run, .run, .ret, .run, .run, .enter (.nread (.data [3])), .run, .run, .ret, .run,
    .run, .enter (.nread (.data [4])), .run, .run, .run, .enter .read, .run, .run, .ret, .run, .run] = some c ∧
    c.state.results = [1, 2, 3, 4] ∧ Streams c := by
  obtain ⟨c, hc, hstack, hbuf, hrec⟩ : ∃ c, run program.step opened [.enter .read, .run, .run, .run, .enter .read, .run,
      .run, .run, .enter (.nread (.data [1, 2])), .run, .run, .ret, .run, .run, .enter (.nread (.data [3])), .run, .run,
      .ret, .run, .run, .enter (.nread (.data [4])), .run, .run, .run, .enter .read, .run, .run, .ret, .run,
      .run] = some c ∧ c.stack = [] ∧ c.state.readBuf = [] ∧ c.state.received = [1, 2, 3, 4] := exists_run (by decide)
  have hs := streams_run _ c (by decide) hc (by decide)
  refine ⟨c, hc, ?_, hs⟩
  have := hs.whole hstack
  rwa [hbuf, hrec, List.append_nil] at this

/-- A read called when another is resolved is left without the bytes, which that one is given
twice. -/
theorem streams_again : ∃ c, run program.step opened [.enter (.nread (.data [1])), .run, .run, .run, .enter .read, .run,
    .run, .enter .read, .run, .run] = some c ∧ ¬ Streams c := by
  obtain ⟨c, hc, hlog, hrec⟩ : ∃ c, run program.step opened [.enter (.nread (.data [1])), .run, .run, .run, .enter .read,
      .run, .run, .enter .read, .run, .run] = some c ∧
      c.state.log = [(⟨.read, 0⟩, .bytes [1]), (⟨.read, 0⟩, .bytes [1])] ∧ c.state.received = [1] :=
    exists_run (by decide)
  refine ⟨c, hc, fun h => ?_⟩
  have hres : c.state.results = [1, 1] := by
    unfold UvStreamWrap.results
    rw [hlog, List.mergeSort_of_pairwise (by decide)]
    rfl
  have hp := h.returned.length_le
  rw [hres, hrec] at hp
  simp at hp

end PxpRpc.Uv.Stream
