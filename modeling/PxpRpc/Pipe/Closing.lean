import PxpRpc.Pipe.Accounting

/-!
# Closing a pipe connection

`_pxprpcPipeConnectionClosing` and the first half of `_pxprpcPipePump` touch the
connection again after their callbacks. Nothing goes wrong as long as the close
that leaves both ends closed is not called from inside one of them.
-/
namespace PxpRpc.Pipe

open PxpRpc.Lib PxpRpc.Lib.Callback

/-! ### Kinds of code -/

/-- The code is at the start of a call of the user. -/
def Code.isCall : Code → Bool
  | .send .. | .receive .. | .close .. => true
  | _ => false

/-- The code is the rest of a call that goes on to touch the connection. -/
def Code.resumes (k : Code) : Bool := k.touches && !k.isCall

def Code.isPump : Code → Bool
  | .pump _ => true
  | _ => false

/-- The code is part of `_pxprpcPipeConnectionClosing`. -/
def Code.closes : Code → Bool
  | .closeRecv .. | .closeSend .. | .closeNext .. | .closeFree => true
  | _ => false

/-- The send requests allocated are those queued and those held by a pump. -/
def Conn.allocated (c : Conn) (stack : Stack) : Prop := ∀ s p,
  c.heap.count (.send s p) = c.queued (.send s p) + total (holds (.send s p)) stack

/-- The packet that side `s` would be given has a length of 32 bits. -/
def Fits (c : Conn) (s : Side) : Prop :=
  match (c.ends s).recv, (c.ends s.other).send with
  | some _, r :: _ => r.buf.flatten.length < 2 ^ 32
  | _, _ => True

def resumes : Item Code Op → Bool
  | .code k => k.resumes
  | .ext _ => false

/-- Calls are made on a connection that is still allocated, no end is closed twice,
and the second end is not closed inside a call that goes on to touch the connection. -/
def Careful (c : Config) : Move Entry → Prop
  | .run =>
      match c.stack with
      | .code (.send ..) :: _ | .code (.receive ..) :: _ => c.state.live
      | .code (.close s) :: rest =>
          c.state.live ∧ (c.state.ends s).closed = false ∧
            ((c.state.ends s.other).closed → ∀ i ∈ rest, resumes i = false)
      | .code (.pump s) :: _ => Fits c.state s
      | _ => True
  | _ => True

instance (c : Conn) (s : Side) : Decidable (Fits c s) := by
  unfold Fits
  split <;> infer_instance

instance (c : Config) (m : Move Entry) : Decidable (Careful c m) := by
  unfold Careful
  split
  · split <;> infer_instance
  · infer_instance

/-! ### The invariant -/

/-- No pump runs inside of closing. -/
def Stack.Ordered (stack : Stack) : Prop :=
  stack.Pairwise fun i j => ∀ k k', i = .code k → j = .code k' → k.isPump → k'.closes = false

/-- Once an end is closed, a receive that waits is one that closing is about to complete. -/
def Conn.RecvDrained (c : Conn) (stack : Stack) : Prop :=
  c.anyClosed → ∀ s, (c.ends s).recv = none ∨ .code (.closeRecv s) ∈ stack

structure Sound (c : Conn) (stack : Stack) : Prop where
  balanced : Balanced c stack
  allocated : c.allocated stack
  fresh : ∀ op, c.log.count (.called op) ≤ 1 ∧ (Event.called op ∈ c.log → op.p < c.calls)
  heads : Heads c stack
  loop : ∀ s, total (loops s) stack ≤ 1
  closed : ∀ k, .code k ∈ stack → k.closes → c.anyClosed
  /-- no pump runs inside of closing -/
  order : stack.Pairwise fun i j => ∀ k k', i = .code k → j = .code k' → k.isPump → k'.closes = false
  drained : c.anyClosed → ∀ s, ((c.ends s).recv = none ∨ .code (.closeRecv s) ∈ stack) ∧
    ((c.ends s).send = [] ∨ total (loops s) stack = 1)
  live : c.live → Event.freed ∉ c.log ∧ (c.bothClosed → .code .closeFree ∈ stack ∧
    stack.Pairwise fun i j => ∀ k, i = .code .closeFree → j = .code k → k.resumes = false)
  dead : c.live = false → c.bothClosed ∧ c.log.count .freed = 1 ∧ ∀ k, .code k ∈ stack → k.resumes = false

theorem sound_connect : Sound connect.state connect.stack := by
  refine ⟨fun op => ?_, fun s p => rfl, fun op => ?_, ?_, ?_, ?_, ?_, ?_, ?_, ?_⟩
  · cases op <;> rfl
  · simp [connect]
  all_goals simp [connect, Heads, Conn.anyClosed, Conn.bothClosed]

/-! ### One piece of code -/

section

variable {c c' : Conn} {k : Code} {rest items : Stack}

/-- Only closing an end changes which ends are closed. -/
theorem closed_runs (h : Runs c k c' items) (hk : ∀ s, k ≠ .close s) (t : Side) :
    (c'.ends t).closed = (c.ends t).closed := by
  cases h with
  | close hl => exact absurd rfl (hk _)
  | _ => simp; try grind

theorem anyClosed_runs (h : Runs c k c' items) (hk : ∀ s, k ≠ .close s) : c'.anyClosed = c.anyClosed := by
  rw [Conn.anyClosed, closed_runs h hk, closed_runs h hk, Conn.anyClosed]

theorem bothClosed_runs (h : Runs c k c' items) (hk : ∀ s, k ≠ .close s) : c'.bothClosed = c.bothClosed := by
  rw [Conn.bothClosed, closed_runs h hk, closed_runs h hk, Conn.bothClosed]

theorem anyClosed_close (c : Conn) (s : Side) : (connectionClose s c).1.anyClosed := by
  cases s <;> simp [Conn.anyClosed]

/-- Inside of closing no packet is transferred. -/
theorem anyClosed_pump {s : Side} {p : Nat} (horder : Stack.Ordered (.code (.pump s) :: rest))
    (hd : c.RecvDrained (.code (.pump s) :: rest)) (hr : (c.ends s).recv = some p) : c.anyClosed = false := by
  by_contra hany
  rcases hd (by simpa using hany) s with hn | hm
  · rw [hn] at hr
    cases hr
  · have hm : .code (.closeRecv s) ∈ rest := by simpa using hm
    have := (List.pairwise_cons.mp horder).1 _ hm (.pump s) (.closeRecv s) rfl rfl rfl
    cases this

theorem recvDrained_runs (horder : Stack.Ordered (.code k :: rest)) (hd : c.RecvDrained (.code k :: rest))
    (h : Runs c k c' items) : c'.RecvDrained (items ++ rest) := by
  intro hany t
  by_cases hk : ∃ s, k = .close s
  · obtain ⟨s, rfl⟩ := hk
    cases h with
    | close hl => exact .inr (by cases t <;> simp [closing])
  · rw [anyClosed_runs h fun s he => hk ⟨s, he⟩] at hany
    have hdt := hd hany t
    cases h with
    | close hl => exact absurd ⟨_, rfl⟩ hk
    | sendQueued hl hc => simp [hc] at hany
    | receivePending hl hr hc => simp [hc] at hany
    | pumpTransfer hl hr hq hh hbuf => simp [anyClosed_pump horder hd hr] at hany
    | @closeRecv s p hl hr => by_cases hts : t = s <;> simp_all
    | @closeRecvIdle s hl hr => by_cases hts : t = s <;> simp_all
    | @sendClosed s p buf hl hc => by_cases hts : t = s <;> simp_all
    | @receiveFailed s p error hl hc => by_cases hts : t = s <;> simp_all
    | @closeNext s r hl hh => by_cases hts : t = s <;> simp_all
    | _ => simpa using hdt

/-- No part of closing is active when an end is about to be closed. -/
theorem close_rest {s : Side} (hs : Sound c (.code (.close s) :: rest))
    (hc : Careful ⟨c, .code (.close s) :: rest⟩ .run) : ∀ k, .code k ∈ rest → k.closes = false := by
  intro k hk
  by_contra hcl
  have hcl : k.closes = true := by simpa using hcl
  have hany := hs.closed k (List.mem_cons_of_mem _ hk) hcl
  obtain ⟨-, hopen, hother⟩ := hc
  have hoc : (c.ends s.other).closed = true := by
    cases s <;> simp_all [Conn.anyClosed, Side.other]
  have := hother hoc _ hk
  cases k <;> simp_all [resumes, Code.resumes, Code.closes, Code.touches, Code.isCall]

theorem loops_eq_zero {s : Side} (h : ∀ k, .code k ∈ rest → k.closes = false) : total (loops s) rest = 0 := by
  refine total_eq_zero fun i hi => ?_
  cases i with
  | ext op => rfl
  | code k =>
    have := h k hi
    cases k <;> simp_all [loops, Code.closes]

theorem allocated_runs (hs : Sound c (.code k :: rest)) (h : Runs c k c' items) : c'.allocated (items ++ rest) := by
  intro t q
  have hop := hs.allocated t q
  cases h with
  | @closeNext s r hl hm =>
    obtain ⟨send, hq⟩ := hs.heads s r List.mem_cons_self
    simp [holds, Conn.queued, hq, behind_cons, List.count_erase] at hop ⊢
    grind
  | @pumpTransfer s p r send buf hl hr hq hm hbuf =>
    have hne := other_ne s
    simp [holds, Conn.queued] at hop ⊢
    grind
  | _ =>
    simp [holds, Conn.queued, pump, closing, List.count_erase, List.count_cons] at hop ⊢
    try grind

theorem heads_runs (hs : Sound c (.code k :: rest)) (h : Runs c k c' items) : Heads c' (items ++ rest) := by
  intro t q hm
  have hold : ∀ t q, .code (.closeNext t q) ∈ rest → ∃ send, (c.ends t).send = q :: send :=
    fun t q hm => hs.heads t q (List.mem_cons_of_mem _ hm)
  cases h with
  | @sendQueued s p buf hl hc =>
    obtain ⟨send, hq⟩ := hold t q (by simpa [pump] using hm)
    simp
    grind
  | @pumpTransfer s p r send buf hl hr hq hh hbuf =>
    have hm : .code (.closeNext t q) ∈ rest := by simpa using hm
    have hany := hs.closed _ (List.mem_cons_of_mem _ hm) rfl
    rw [anyClosed_pump hs.order (fun ha s => (hs.drained ha s).1) hr] at hany
    cases hany
  | @closeSend s r send hl hq hh =>
    have hm : (t = s ∧ q = r) ∨ .code (.closeNext t q) ∈ rest := by simpa using hm
    rcases hm with ⟨rfl, rfl⟩ | hm
    · exact ⟨send, hq⟩
    · exact hold t q hm
  | @closeNext s r hl hh =>
    have hm : .code (.closeNext t q) ∈ rest := by simpa using hm
    by_cases hts : t = s
    · -- the loop of a side is active only once
      have hloop := hs.loop s
      have hone : 1 ≤ total (loops s) rest :=
        List.single_le_sum (by simp) 1 (List.mem_map.mpr ⟨_, hm, by simp [loops, hts]⟩)
      simp [loops] at hloop
      omega
    · simpa [hts] using hold t q hm
  | _ =>
    obtain ⟨send, hq⟩ := hold t q (by simpa [pump, closing] using hm)
    simp_all
    try grind

theorem loop_runs (hs : Sound c (.code k :: rest)) (hc : Careful ⟨c, .code k :: rest⟩ .run)
    (h : Runs c k c' items) (s : Side) : total (loops s) (items ++ rest) ≤ 1 := by
  have hl := hs.loop s
  cases h with
  | close hl =>
    have hz := @loops_eq_zero rest s (close_rest hs hc)
    cases s <;> simp [closing, loops, hz]
  | _ =>
    simp [loops, pump] at hl ⊢
    try omega

theorem closed_step (hcl : ∀ k', .code k' ∈ .code k :: rest → k'.closes → c.anyClosed) (h : Runs c k c' items) :
    ∀ k', .code k' ∈ items ++ rest → k'.closes → c'.anyClosed := by
  intro k' hm hk'
  by_cases hk : ∃ s, k = .close s
  · obtain ⟨s, rfl⟩ := hk
    cases h with
    | close hl => exact anyClosed_close c s
  · rw [anyClosed_runs h fun s he => hk ⟨s, he⟩]
    rcases List.mem_append.mp hm with hm | hm
    · refine hcl k List.mem_cons_self ?_
      cases h with
      | close hl => exact absurd ⟨_, rfl⟩ hk
      | sendQueued hl hc => rcases (by simpa [pump] using hm) with rfl | rfl <;> cases hk'
      | receivePending hl hr hc => rcases (by simpa [pump] using hm) with rfl | rfl <;> cases hk'
      | pumpTransfer hl hr hq hh hbuf =>
        obtain rfl := by simpa using hm
        cases hk'
      | pumpReq hh =>
        obtain rfl := by simpa using hm
        cases hk'
      | closeSend hl hq hh => rfl
      | closeNext hl hh => rfl
      | _ => simp at hm
    · exact hcl k' (List.mem_cons_of_mem _ hm) hk'

theorem order_runs (hcl : ∀ k', .code k' ∈ .code k :: rest → k'.closes → c.anyClosed)
    (hord : (Item.code k :: rest).Pairwise fun i j => ∀ k k', i = .code k → j = .code k' → k.isPump → k'.closes = false)
    (h : Runs c k c' items) :
    (items ++ rest).Pairwise fun i j => ∀ k k', i = .code k → j = .code k' → k.isPump → k'.closes = false := by
  have hrest := (List.pairwise_cons.mp hord).2
  by_cases hany : c.anyClosed
  · -- then nothing starts a pump
    have hitems : ∀ i ∈ items, ∀ k', i = .code k' → k'.isPump = false := by
      cases h <;> simp_all [closing, Code.isPump]
    refine List.pairwise_append.mpr ⟨?_, hrest, ?_⟩
    · refine List.Pairwise.imp_of_mem (R := fun _ _ => True) (fun hi _ _ k k' hik _ hp => ?_)
        (List.pairwise_of_forall fun _ _ => trivial)
      rw [hitems _ hi k hik] at hp
      cases hp
    · intro i hi j hj k k' hik hjk hp
      rw [hitems i hi k hik] at hp
      cases hp
  · -- then no closing is active below
    have hnone : ∀ k', .code k' ∈ rest → k'.closes = false := by
      intro k' hm
      by_contra hk'
      exact hany (hcl k' (List.mem_cons_of_mem _ hm) (by simpa using hk'))
    refine List.pairwise_append.mpr ⟨?_, hrest, ?_⟩
    · cases h <;> simp [pump, closing, Code.isPump, Code.closes]
    · intro i hi j hj k k' hik hjk hp
      exact hnone k' (hjk ▸ hj)

theorem drained_runs (hs : Sound c (.code k :: rest)) (h : Runs c k c' items)
    (hloop : ∀ s, total (loops s) (items ++ rest) ≤ 1) (hany : c'.anyClosed) (t : Side) :
    ((c'.ends t).recv = none ∨ .code (.closeRecv t) ∈ items ++ rest) ∧
      ((c'.ends t).send = [] ∨ total (loops t) (items ++ rest) = 1) := by
  have hrecv : c.RecvDrained (.code k :: rest) := fun ha s => (hs.drained ha s).1
  refine ⟨recvDrained_runs hs.order hrecv h hany t, ?_⟩
  have hcl := hloop t
  by_cases hk : ∃ s, k = .close s
  · obtain ⟨s, rfl⟩ := hk
    cases h with
    | close hl => exact .inr (by cases t <;> simp [closing, loops] at hcl ⊢ <;> omega)
  · rw [anyClosed_runs h fun s he => hk ⟨s, he⟩] at hany
    have hd := (hs.drained hany t).2
    cases h with
    | close hl => exact absurd ⟨_, rfl⟩ hk
    | sendQueued hl hc => simp [hc] at hany
    | receivePending hl hr hc => simp [hc] at hany
    | pumpTransfer hl hr hq hh hbuf => simp [anyClosed_pump hs.order hrecv hr] at hany
    | @closeSendIdle s hl hq => by_cases hts : t = s <;> simp_all [loops]
    | @closeSend s r send hl hq hh => by_cases hts : t = s <;> simp_all [loops]
    | @closeNext s r hl hh =>
      by_cases hts : t = s
      · subst hts
        simp [loops] at hd hcl ⊢
        exact .inr (by omega)
      · simpa [hts, loops] using hd
    | @closeRecv s p hl hr => by_cases hts : t = s <;> simp_all [loops]
    | @sendClosed s p buf hl hc => by_cases hts : t = s <;> simp_all [loops]
    | @receiveFailed s p error hl hc => by_cases hts : t = s <;> simp_all [loops]
    | _ => simpa [loops] using hd

theorem live_runs (hs : Sound c (.code k :: rest)) (hc : Careful ⟨c, .code k :: rest⟩ .run)
    (h : Runs c k c' items) (hlive : c'.live) : Event.freed ∉ c'.log ∧ (c'.bothClosed →
      .code .closeFree ∈ items ++ rest ∧
      (items ++ rest).Pairwise fun i j => ∀ k, i = .code .closeFree → j = .code k → k.resumes = false) := by
  have hl : c.live := by
    cases h <;> simp_all
  obtain ⟨hfreed, hboth⟩ := hs.live hl
  have hlog : Event.freed ∉ c'.log := by
    cases h <;> simp_all
  refine ⟨hlog, fun hb => ?_⟩
  by_cases hk : ∃ s, k = .close s
  · obtain ⟨s, rfl⟩ := hk
    cases h with
    | close =>
      obtain ⟨-, hopen, hother⟩ := hc
      have hoc : (c.ends s.other).closed = true := by
        cases s <;> simpa [Conn.bothClosed, Side.other] using hb
      have hrest : ∀ k, .code k ∈ rest → k.resumes = false := fun k hk => hother hoc _ hk
      refine ⟨by simp [closing], List.pairwise_append.mpr ⟨by simp [closing], ?_, ?_⟩⟩
      · refine List.Pairwise.imp_of_mem (R := fun _ _ => True) (fun _ hj _ k' _ hjk => ?_)
          (List.pairwise_of_forall fun _ _ => trivial)
        exact hrest k' (hjk ▸ hj)
      · intro i hi j hj k' hik hjk
        exact hrest k' (hjk ▸ hj)
  · have hk' : ∀ s, k ≠ .close s := fun s he => hk ⟨s, he⟩
    rw [bothClosed_runs h hk'] at hb
    obtain ⟨hmem, hpair⟩ := hboth hb
    have hne : k ≠ .closeFree := by
      rintro rfl
      cases h with
      | closeFree => simp at hlive
      | closeKeep hl hnb => simp [hnb] at hb
    have hnew : ∀ i ∈ items, i ≠ .code .closeFree := by
      cases h with
      | close hl => exact absurd rfl (hk' _)
      | _ => simp [pump]
    have hmem' : .code .closeFree ∈ rest := by
      rcases List.mem_cons.mp hmem with he | hm
      · exact absurd (Item.code.inj he).symm hne
      · exact hm
    refine ⟨List.mem_append_right _ hmem', List.pairwise_append.mpr
      ⟨?_, (List.pairwise_cons.mp hpair).2, fun i hi j _ k' hik => absurd hik (hnew i hi)⟩⟩
    exact List.Pairwise.imp_of_mem (R := fun _ _ => True) (fun hi _ _ k' hik => absurd hik (hnew _ hi))
      (List.pairwise_of_forall fun _ _ => trivial)

theorem dead_runs (hs : Sound c (.code k :: rest)) (h : Runs c k c' items) (hdead : c'.live = false) :
    c'.bothClosed ∧ c'.log.count .freed = 1 ∧ ∀ k, .code k ∈ items ++ rest → k.resumes = false := by
  by_cases hl : c.live
  · cases h with
    | closeFree _ hb =>
      obtain ⟨hfreed, hboth⟩ := hs.live hl
      refine ⟨hb, ?_, fun k hk => ?_⟩
      · simp [List.count_eq_zero.mpr hfreed]
      · exact (List.pairwise_cons.mp (hboth hb).2).1 _ hk k rfl rfl
    | _ => simp_all
  · have hl' : c.live = false := by simpa using hl
    obtain ⟨hb, hcount, hres⟩ := hs.dead hl'
    have hrest : ∀ k, .code k ∈ rest → k.resumes = false := fun k hk => hres k (List.mem_cons_of_mem _ hk)
    cases h with
    | @pumpReq s r hh =>
      refine ⟨hb, by simpa [List.count_append] using hcount, fun k hk => ?_⟩
      have hk : k = .pumpFree s r ∨ .code k ∈ rest := by simpa using hk
      rcases hk with rfl | hk
      · rfl
      · exact hrest k hk
    | pumpFree hh => exact ⟨hb, hcount, hrest⟩
    | _ => simp_all

theorem fresh_runs (hs : Sound c (.code k :: rest)) (h : Runs c k c' items) (op : Op) :
    c'.log.count (.called op) ≤ 1 ∧ (Event.called op ∈ c'.log → op.p < c'.calls) := by
  have hf := hs.fresh op
  cases h <;> simp_all [List.count_append]

theorem sound_runs (hs : Sound c (.code k :: rest)) (hc : Careful ⟨c, .code k :: rest⟩ .run)
    (h : Runs c k c' items) : Sound c' (items ++ rest) where
  balanced := balanced_runs hs.balanced hs.heads h
  allocated := allocated_runs hs h
  fresh := fresh_runs hs h
  heads := heads_runs hs h
  loop := loop_runs hs hc h
  closed := closed_step hs.closed h
  order := order_runs hs.closed hs.order h
  drained := drained_runs hs h (loop_runs hs hc h)
  live := live_runs hs hc h
  dead := dead_runs hs h

end

/-! ### Whole runs -/

theorem sound_ret {c : Conn} {op : Op} {rest : Stack} (hs : Sound c (.ext op :: rest)) : Sound c rest where
  balanced op' := by simpa [waits, unlinks] using hs.balanced op'
  allocated t q := by simpa [holds] using hs.allocated t q
  fresh := hs.fresh
  heads t q hm := hs.heads t q (List.mem_cons_of_mem _ hm)
  loop t := by simpa [loops] using hs.loop t
  closed k hm := hs.closed k (List.mem_cons_of_mem _ hm)
  order := (List.pairwise_cons.mp hs.order).2
  drained hany t := by simpa [loops] using hs.drained hany t
  live hl := by simpa using hs.live hl
  dead hl := by simpa using hs.dead hl

/-- A call adds its own code to the stack, and the event of the call to the history. -/
theorem sound_call {c c' : Conn} {k : Code} {stack : Stack} (hs : Sound c stack) (hk : k.isCall)
    (hends : c'.ends = c.ends) (hlive : c'.live = c.live) (hheap : c'.heap = c.heap)
    (hbal : Balanced c' (.code k :: stack))
    (hfresh : ∀ op, c'.log.count (.called op) ≤ 1 ∧ (Event.called op ∈ c'.log → op.p < c'.calls))
    (hfreed : c'.log.count .freed = c.log.count .freed) : Sound c' (.code k :: stack) := by
  have hres : k.resumes = false := by cases k <;> simp_all [Code.isCall, Code.resumes]
  have hcl : k.closes = false := by cases k <;> simp_all [Code.isCall, Code.closes]
  have hpump : k.isPump = false := by cases k <;> simp_all [Code.isCall, Code.isPump]
  have hloop : ∀ s, loops s (.code k) = 0 := fun s => by cases k <;> simp_all [Code.isCall, loops]
  have hholds : ∀ op, holds op (.code k) = 0 := fun op => by cases k <;> simp_all [Code.isCall, holds]
  have hany : c'.anyClosed = c.anyClosed := by simp [Conn.anyClosed, hends]
  have hboth : c'.bothClosed = c.bothClosed := by simp [Conn.bothClosed, hends]
  refine ⟨hbal, fun t q => ?_, hfresh, fun t q hm => ?_, fun s => ?_, fun k' hm hk' => ?_, ?_, fun ha t => ?_,
    fun hl => ?_, fun hd => ?_⟩
  · simpa [hheap, hholds, Conn.queued, hends] using hs.allocated t q
  · rcases List.mem_cons.mp hm with he | hm
    · obtain rfl := Item.code.inj he
      cases hcl
    · rw [hends]
      exact hs.heads t q hm
  · simpa [hloop] using hs.loop s
  · rw [hany]
    rcases List.mem_cons.mp hm with he | hm
    · obtain rfl := Item.code.inj he
      rw [hcl] at hk'
      cases hk'
    · exact hs.closed k' hm hk'
  · refine List.pairwise_cons.mpr ⟨fun j _ k₁ k₂ h₁ _ hp => ?_, hs.order⟩
    obtain rfl := Item.code.inj h₁
    rw [hpump] at hp
    cases hp
  · rw [hany] at ha
    rw [hends]
    obtain ⟨hr, hq⟩ := hs.drained ha t
    exact ⟨hr.imp_right (List.mem_cons_of_mem _), by simpa [hloop] using hq⟩
  · rw [hlive] at hl
    obtain ⟨hf, hb⟩ := hs.live hl
    refine ⟨?_, fun hbc => ?_⟩
    · rw [← List.count_eq_zero, hfreed]
      exact List.count_eq_zero.mpr hf
    · rw [hboth] at hbc
      obtain ⟨hm, hp⟩ := hb hbc
      refine ⟨List.mem_cons_of_mem _ hm, List.pairwise_cons.mpr ⟨fun j _ k' h₁ _ => ?_, hp⟩⟩
      obtain rfl := Item.code.inj h₁
      cases hk
  · rw [hlive] at hd
    obtain ⟨hb, hc, hr⟩ := hs.dead hd
    refine ⟨hboth ▸ hb, hfreed ▸ hc, fun k' hm => ?_⟩
    rcases List.mem_cons.mp hm with he | hm
    · obtain rfl := Item.code.inj he
      exact hres
    · exact hr k' hm

/-- The argument of a new call is new. -/
theorem count_called_new {c : Conn} {stack : Stack} (hs : Sound c stack) {op : Op} (hp : op.p = c.calls) :
    c.log.count (.called op) = 0 := by
  refine List.count_eq_zero.mpr fun hm => ?_
  have := (hs.fresh op).2 hm
  omega

theorem fresh_call {c : Conn} {stack : Stack} (hs : Sound c stack) {op : Op} (hp : op.p = c.calls) (op' : Op) :
    (c.log ++ [Event.called op]).count (.called op') ≤ 1 ∧
      (Event.called op' ∈ c.log ++ [Event.called op] → op'.p < c.calls + 1) := by
  have hf := hs.fresh op'
  have hn := count_called_new hs hp
  by_cases he : op = op'
  · subst he
    simp [hn, hp]
  · refine ⟨by simpa [List.count_append, he] using hf.1, fun hm => ?_⟩
    have hm : Event.called op' ∈ c.log := by simpa [Ne.symm he] using hm
    have := hf.2 hm
    omega

theorem sound_enter {c c' : Conn} {e : Entry} {stack items : Stack} (hs : Sound c stack)
    (h : enter e c = some (c', items)) : Sound c' (items ++ stack) := by
  cases e with
  | send s buf =>
    obtain ⟨rfl, rfl⟩ := Prod.mk.inj (Option.some.inj h)
    refine sound_call hs rfl rfl rfl rfl (fun op => ?_) (fun op => ?_) (by simp [List.count_append])
    · have hb := hs.balanced op
      cases op <;> simp [waits, unlinks, Conn.completions, Conn.queued, Event.completes] at hb ⊢ <;> grind
    · simpa [List.count_append, List.count_cons] using @fresh_call c stack hs (.send s c.calls) rfl op
  | receive s =>
    obtain ⟨rfl, rfl⟩ := Prod.mk.inj (Option.some.inj h)
    refine sound_call hs rfl rfl rfl rfl (fun op => ?_) (fresh_call hs rfl) (by simp [List.count_append])
    have hb := hs.balanced op
    cases op <;> simp [waits, unlinks, Conn.completions, Conn.queued, Event.completes] at hb ⊢ <;> grind
  | close s =>
    obtain ⟨rfl, rfl⟩ := Prod.mk.inj (Option.some.inj h)
    refine sound_call hs rfl rfl rfl rfl (fun op => ?_) hs.fresh rfl
    simpa [waits, unlinks] using hs.balanced op

theorem sound_preserves : program.Preserves Careful fun c => Sound c.state c.stack where
  exec hs hc he := sound_runs hs hc (exec_runs he)
  ret hs _ := sound_ret hs
  enter _ hs _ he := sound_enter hs he

/-! ### No fault -/

theorem mem_heap_of_queued {c : Conn} {stack : Stack} (hs : Sound c stack) {s : Side} {r : IoReq}
    {send : List IoReq} (hq : (c.ends s).send = r :: send) : .send s r.p ∈ c.heap := by
  have h := hs.allocated s r.p
  rw [Conn.queued, hq, List.countP_cons_of_pos (by simp)] at h
  exact List.count_pos_iff.mp (by omega)

theorem mem_heap_of_held {c : Conn} {k : Code} {rest : Stack} (hs : Sound c (.code k :: rest)) {s : Side}
    {r : IoReq} (hk : holds (.send s r.p) (.code k) = 1) : .send s r.p ∈ c.heap := by
  have h := hs.allocated s r.p
  rw [total_cons, hk] at h
  exact List.count_pos_iff.mp (by omega)

theorem exec_isSome {c : Conn} {k : Code} {rest : Stack} (hs : Sound c (.code k :: rest))
    (hc : Careful ⟨c, .code k :: rest⟩ .run) : exec k c ≠ none := by
  have hcall : k.isCall → c.live := by
    intro hk
    cases k <;> simp_all [Code.isCall, Careful]
  have hl : (k.touches && !c.live) = false := by
    cases hlive : c.live with
    | true => simp
    | false =>
      have hres := (hs.dead hlive).2.2 k List.mem_cons_self
      rw [Code.resumes] at hres
      cases hk : k.isCall with
      | true => rw [hcall hk] at hlive; cases hlive
      | false => simpa [hk] using hres
  rw [exec.eq_def, if_neg (by simp [hl])]
  cases k with
  | pump s =>
    dsimp only
    rw [pumpTo.eq_def]
    split
    · rename_i p r send hr hq
      have hfit : r.buf.flatten.length < 2 ^ 32 := by simpa [Careful, Fits, hr, hq] using hc
      rw [if_pos (mem_heap_of_queued hs hq), transferBuffer_eq hfit]
      simp
    · simp
  | pumpReq s r =>
    dsimp only
    rw [if_pos (mem_heap_of_held hs (by simp [holds]))]
    simp
  | pumpFree s r =>
    dsimp only
    rw [if_pos (mem_heap_of_held hs (by simp [holds]))]
    simp
  | closeRecv s =>
    dsimp only
    split <;> simp
  | closeSend s =>
    dsimp only
    split
    · simp
    · rename_i r send hq
      rw [if_pos (mem_heap_of_queued hs hq)]
      simp
  | closeNext s r =>
    obtain ⟨send, hq⟩ := hs.heads s r List.mem_cons_self
    dsimp only
    rw [if_pos (mem_heap_of_queued hs hq)]
    simp
  | closeFree =>
    dsimp only
    split <;> simp
  | _ => simp

/-! ### What closing promises -/

/-- Every callback is called once, by the time the outermost call has returned on a
closed connection; the connection is freed once, when both ends are closed; and no
code touches what has been freed. -/
structure Closes (c : Config) : Prop where
  once : ∀ op, c.state.completions op ≤ c.state.log.count (.called op)
  all : c.stack = [] → c.state.anyClosed → ∀ op, c.state.completions op = c.state.log.count (.called op)
  called : ∀ op, c.state.log.count (.called op) ≤ 1
  freed : c.state.log.count .freed ≤ 1 ∧ (Event.freed ∈ c.state.log → c.state.bothClosed)
  freedAll : c.stack = [] → c.state.bothClosed → Event.freed ∈ c.state.log
  noFault : Careful c .run → ¬ program.Faults c

theorem unlinks_le_loops (s : Side) (p : Nat) (i : Item Code Op) : unlinks (.send s p) i ≤ loops s i := by
  cases i with
  | ext op => exact le_rfl
  | code k =>
    cases k <;> simp [unlinks, loops]
    split_ifs <;> simp_all

/-- A send that is completed and still to be unlinked is linked. -/
theorem unlinks_le_queued {c : Conn} {stack : Stack} (hs : Sound c stack) (op : Op) :
    total (unlinks op) stack ≤ c.queued op := by
  cases op with
  | receive s p =>
    rw [total_eq_zero fun i _ => ?_]
    · exact Nat.zero_le _
    · rcases i with k | op
      · cases k <;> simp [unlinks]
      · rfl
  | send s p =>
    rcases Nat.eq_zero_or_pos (total (unlinks (.send s p)) stack) with hz | hpos
    · omega
    · have hle : total (unlinks (.send s p)) stack ≤ 1 :=
        (List.sum_le_sum fun i _ => unlinks_le_loops s p i).trans (hs.loop s)
      obtain ⟨i, hi, hne⟩ : ∃ i ∈ stack, unlinks (.send s p) i ≠ 0 := by
        by_contra hall
        push Not at hall
        rw [total_eq_zero hall] at hpos
        omega
      obtain ⟨r, rfl, rfl⟩ : ∃ r, i = .code (.closeNext s r) ∧ p = r.p := by
        rcases i with k | op
        · cases k <;> simp [unlinks] at hne
          exact ⟨_, by rw [← hne.1], hne.2⟩
        · exact absurd rfl hne
      obtain ⟨send, hq⟩ := hs.heads s r hi
      rw [Conn.queued, hq, List.countP_cons_of_pos (by simp)]
      omega

theorem sound_closes {c : Config} (hs : Sound c.state c.stack) : Closes c where
  once op := by
    have hb := hs.balanced op
    have hu := unlinks_le_queued hs op
    omega
  all hstack hany op := by
    have hb := hs.balanced op
    rw [hstack, total_nil, total_nil] at hb
    have hq : c.state.queued op = 0 := by
      have hd := hs.drained hany
      cases op with
      | send s p =>
        have hq : (c.state.ends s).send = [] := by simpa [hstack] using (hd s).2
        simp [Conn.queued, hq]
      | receive s p =>
        have hr : (c.state.ends s).recv = none := by simpa [hstack] using (hd s).1
        simp [Conn.queued, hr]
    omega
  called op := (hs.fresh op).1
  freed := by
    cases hl : c.state.live with
    | true =>
      have hf := (hs.live hl).1
      exact ⟨by rw [List.count_eq_zero.mpr hf]; exact Nat.zero_le _, fun hm => absurd hm hf⟩
    | false =>
      obtain ⟨hb, hc, -⟩ := hs.dead hl
      exact ⟨hc.le, fun _ => hb⟩
  freedAll hstack hboth := by
    cases hl : c.state.live with
    | true =>
      have hm := ((hs.live hl).2 hboth).1
      rw [hstack] at hm
      cases hm
    | false =>
      have hc := (hs.dead hl).2.1
      exact List.count_pos_iff.mp (by omega)
  noFault hc := by
    obtain ⟨c, stack⟩ := c
    rintro ⟨k, rest, rfl, hn⟩
    exact exec_isSome hs hc hn

theorem careful_closes (ms : List (Move Entry)) (c : Config) (hc : Along program.step Careful connect ms)
    (h : run program.step connect ms = some c) : Closes c :=
  sound_closes (sound_preserves.run sound_connect hc h)

/-- A packet is sent and received, a second one is sent, and both ends are closed. -/
def orderly : List (Move Entry) :=
  [.enter (.receive .server), .run, .run, .run, .enter (.send .client [[1], [2]]), .run, .run, .run, .ret, .run,
    .ret, .run, .enter (.send .client [[3]]), .run, .run, .run, .enter (.close .client), .run, .run, .run, .run,
    .run, .ret, .run, .run, .run, .enter (.close .server), .run, .run, .run, .run, .run, .run]

theorem orderly_closes : ∃ c, run program.step connect orderly = some c ∧ c.state.live = false ∧ Closes c := by
  obtain ⟨c, hc⟩ := Option.isSome_iff_exists.mp (show (run program.step connect orderly).isSome by decide)
  refine ⟨c, hc, ?_, careful_closes orderly c (by decide) hc⟩
  have hl : (run program.step connect orderly).map (fun c => c.state.live) = some false := by decide
  rw [hc] at hl
  exact Option.some.inj hl

/-- The server has sent a packet, the client closes, and the server closes its end
in the callback of the send. -/
def reentered : List (Move Entry) :=
  [.enter (.send .server [[1]]), .run, .run, .run, .enter (.close .client), .run, .run, .run, .run,
    .enter (.close .server), .run, .run, .run, .run, .ret, .run, .run, .run, .run, .ret]

/-- The callback has run twice, the connection is freed, and the outer closing goes on. -/
theorem reentered_faults : ∃ c, run program.step connect reentered = some c ∧
    c.state.completions (.send .server 0) = 2 ∧ Event.freed ∈ c.state.log ∧ program.Faults c :=
  ⟨_, rfl, by decide, by decide, _, _, rfl, rfl⟩

end PxpRpc.Pipe
