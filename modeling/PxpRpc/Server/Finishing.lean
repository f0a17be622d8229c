import PxpRpc.Pool.Pointers
import PxpRpc.Server.OnFree
import PxpRpc.Server.ReceiveBuffer

/-!
# Every request is finished

A request is gone on with until it is finished, as long as the context is open
when its answer is written and everything the server runs in the meantime is
defined: what it reads of frames, calls, and follows of its pool.
-/
namespace PxpRpc.Server

open PxpRpc.Lib PxpRpc.Lib.Callback PxpRpc.Pool PxpRpc.Pool.Native

/-- The callables have called `next_step`, the io has completed its sends, and none of
the code of a request is left to run. -/
structure Settled (c : Config) : Prop where
  invoked : c.state.invoked = []
  sending : c.state.sending = []
  stack : ∀ k, .code k ∈ c.stack → k.request = none

/-- No request is finished twice and the context is not released twice, or before its
owner deletes it. Until it is released the code that is run next is defined, and it gets
to an end. Once everything is settled every request is finished, and the context
has the reference of its owner and no other. -/
structure Finishes (c : Config) : Prop where
  once : ∀ r, c.state.log.countP (Event.isFinishing r) ≤ 1 ∧ c.state.log.count (.finished r) ≤ 1
  noFault : c.state.live → ¬ program.Faults c
  ends : ∃ n, run program.step c (List.replicate n .run) = none
  all : Settled c → ∀ r < c.state.nextRequest,
    c.state.log.countP (Event.isFinishing r) = 1 ∧ c.state.log.count (.finished r) = 1
  refCount : Settled c → c.state.refCount = (if c.state.owner then 1 else 0) + total deletes c.stack
  released : c.state.log.count .released ≤ 1 ∧ (.released ∈ c.state.log → c.state.owner = false)
  releasedAll : Settled c → c.state.owner = false → total deletes c.stack = 0 → c.state.log.count .released = 1
  held : ∀ k rest r, c.stack = .code k :: rest → k.request = some r → r ∈ c.state.allocated ∧ c.state.live

/-! ### Assumptions on the steps of a run -/

/-- Requests do not overflow `refCount`. Nothing is allocated before the start, `ref_pool_size` does not
overflow, the pool is not moved while an entry is freed, and only indices below `ref_pool_size` are freed. -/
def Manages (c : Config) : Move Entry → Prop
  | .run =>
      match c.stack with
      | .code .step2 :: _ => c.state.refCount + 1 < 2 ^ 31
      | .code (.step .stepGetFunc1 _) :: rest => Allocates c.state.pool rest
      | _ => True
  | .enter .start => c.state.pool.refPool = [] ∧ c.state.pool.freeRefEntry = none
  | .enter (.allocRef _ _) => Allocates c.state.pool c.stack
  | .enter (.freeRef index) => index < c.state.pool.refPoolSize.toNat
  | _ => True

/-- The step can be taken, and it drops no request. -/
structure Handles (c : Config) (m : Move Entry) : Prop where
  answers : AnswersOpen c m
  accepts : Accepts c m
  leaves : LeavesPolls c m
  manages : Manages c m

def Entry.freed : Entry → Option Nat
  | .freeRef index => some index
  | _ => none

theorem manages_code {c : ServCo} {k : Code} {rest : Stack} : Manages ⟨c, .code k :: rest⟩ .run ↔
    (k = .step2 → c.refCount + 1 < 2 ^ 31) ∧
    ∀ r ∈ k.request, k = .step .stepGetFunc1 r → Allocates c.pool rest := by
  cases k with
  | step f r => cases f <;> simp [Manages, Code.request]
  | _ => simp [Manages, Code.request]

theorem manages_enter {c : Config} {e : Entry} : Manages c (.enter e) ↔
    (e = .start → c.state.pool.refPool = [] ∧ c.state.pool.freeRefEntry = none) ∧
    (e.allocates → Allocates c.state.pool c.stack) ∧ ∀ index ∈ e.freed, index < c.state.pool.refPoolSize.toNat := by
  cases e <;> simp [Manages, Entry.allocates, Entry.freed]

instance : ∀ (c : Config) (m : Move Entry), Decidable (Manages c m) :=
  decidableMove (fun _ _ _ => decidable_of_iff _ manages_code.symm) (fun _ _ => decidable_of_iff _ manages_enter.symm)
    (fun _ => trivial) (fun _ _ _ => trivial) (fun _ => trivial)

instance (c : Config) (m : Move Entry) : Decidable (Handles c m) :=
  decidable_of_iff (AnswersOpen c m ∧ Accepts c m ∧ LeavesPolls c m ∧ Manages c m)
    ⟨fun h => ⟨h.1, h.2.1, h.2.2.1, h.2.2.2⟩, fun h => ⟨h.1, h.2, h.3, h.4⟩⟩

/-! ### The pool -/

/-- The entry that code works on. -/
def Code.entry : Code → Option Ptr
  | .freeRef ref | .freePush ref | .closeUnset ref => some ref
  | _ => none

def entries : Stack → List Ptr
  | [] => []
  | .code k :: rest => k.entry.toList ++ entries rest
  | .ext _ :: rest => entries rest

/-- What the code follows and works on are entries of the pool. -/
structure Pooled (c : ServCo) (stack : Stack) : Prop where
  linked : Linked c.pool
  valid : ∀ ref ∈ entries stack, c.pool.Valid ref
  starting : .code .start ∈ stack → c.pool.refPool = [] ∧ c.pool.freeRefEntry = none

theorem pooled_new (funcmap : Option (List UInt8 → Option Nat)) (onClosed : Bool) :
    Pooled (new funcmap onClosed).state (new funcmap onClosed).stack where
  linked := Linked.empty 0
  valid _ hm := absurd hm List.not_mem_nil
  starting hm := absurd hm List.not_mem_nil

section

variable {c c' : ServCo} {k : Code} {ref : Ptr} {rest stack items : Stack}

@[simp] theorem entries_nil : entries [] = [] := rfl

@[simp] theorem entries_code : entries (.code k :: rest) = k.entry.toList ++ entries rest := rfl

@[simp] theorem entries_ext {e : Ext} : entries (.ext e :: rest) = entries rest := rfl

theorem entries_append : entries (items ++ stack) = entries items ++ entries stack := by
  induction items with
  | nil => rfl
  | cons item items ih =>
    cases item with
    | code k => simp [ih]
    | ext e => exact ih

theorem entries_waits (hw : ∀ k, .code k ∈ stack → k.waits) : entries stack = freeing stack := by
  induction stack with
  | nil => rfl
  | cons item stack ih =>
    have ih := ih fun k hm => hw k (List.mem_cons_of_mem _ hm)
    cases item with
    | ext e => exact ih
    | code k =>
      rw [entries_code, ih]
      have hk := hw k List.mem_cons_self
      cases k with
      | freeRef ref => simp [Code.waits] at hk
      | _ => rfl

/-- An allocation leaves the entries where they are that code works on. -/
theorem valid_alloc {pool pool' : RefPool Obj Nat} {index : Nat} (h : Linked pool) (ha : Allocates pool stack)
    (hv : ∀ ref ∈ entries stack, pool.Valid ref) (hw : ∀ k, .code k ∈ stack → k.waits)
    (he : serverAllocRef pool = some (pool', ref, index)) :
    Linked pool' ∧ ∀ ref ∈ entries stack, pool'.Valid ref := by
  obtain ⟨pool₁, ref₁, i, halloc, hlinked, -, hkeep⟩ := h.serverAllocRef ha.1
  obtain ⟨rfl, -⟩ := Prod.mk.inj (Option.some.inj (halloc.symm.trans he))
  refine ⟨hlinked, fun ref hm => ?_⟩
  by_cases hf : pool.freeRefEntry = none
  · rw [entries_waits hw, ha.2 hf] at hm
    cases hm
  · exact hkeep hf ref (hv ref hm)

theorem Pooled.next (h : Linked c'.pool) (hv : ∀ ref ∈ entries rest, c'.pool.Valid ref)
    (hi : ∀ ref ∈ entries items, c'.pool.Valid ref) (hs : .code .start ∉ items ++ rest) : Pooled c' (items ++ rest) where
  linked := h
  valid ref hm := by
    rw [entries_append] at hm
    exact (List.mem_append.mp hm).elim (hi ref) (hv ref)
  starting hm := absurd hm hs

/-- Code that has nothing to do with the pool. -/
theorem entries_runs (hr : Runs c k c' items) (hk : k.keepsPool ∨ k = .close) (hf : ∀ r i, k ≠ .freeRefs r i) :
    c'.pool = c.pool ∧ entries items = [] := by
  cases hr with
  | freeRefs | freeRefsDone => exact absurd rfl (hf _ _)
  | start | stepGetFunc1 | closeRefs | closeRefsHook | closeRefsDone | closeUnset | freeRef | freeRefHook | freePush =>
    exact absurd (hk.resolve_right nofun) Bool.false_ne_true
  | _ => exact ⟨rfl, rfl⟩

theorem pooled_start (h : Pooled c (.code .start :: rest)) (hr : Runs c .start c' items)
    (hs : .code .start ∉ items ++ rest) : Pooled c' (items ++ rest) := by
  obtain ⟨hnil, hnone⟩ := h.starting List.mem_cons_self
  cases hr with
  | start =>
    refine Pooled.next ?_ (fun ref hm => ?_) (by simp [Code.entry]) hs
    · show Linked ⟨c.pool.block + 1, [], 0, c.pool.freeRefEntry⟩
      rw [hnone]
      exact Linked.empty _
    · have hlt := (h.valid ref hm).2
      rw [hnil] at hlt
      exact absurd hlt (Nat.not_lt_zero _)

theorem pooled_getFunc {r : Nat} (h : Pooled c (.code (.step .stepGetFunc1 r) :: rest)) (ha : Allocates c.pool rest)
    (hw : ∀ k, .code k ∈ rest → k.waits) (he : exec (.step .stepGetFunc1 r) c = some (c', items))
    (hs : .code .start ∉ items ++ rest) : Pooled c' (items ++ rest) := by
  obtain ⟨⟨-, -, rfl⟩, hsame | ⟨pool, ref2, index, e, func, halloc, -, hset⟩⟩ := exec_getFunc he
  · exact Pooled.next (hsame ▸ h.linked) (hsame ▸ h.valid) (by simp [Code.entry]) hs
  · obtain ⟨hl, hv⟩ := valid_alloc h.linked ha h.valid hw halloc
    obtain ⟨hl, hkeep⟩ := hl.setRef hset
    exact Pooled.next hl (fun ref hm => hkeep ref (hv ref hm)) (by simp [Code.entry]) hs

theorem pooled_freeRefs {r i : Nat} (h : Pooled c (.code (.freeRefs r i) :: rest)) (hc : Confined c (.freeRefs r i))
    (hr : Runs c (.freeRefs r i) c' items) (hs : .code .start ∉ items ++ rest) : Pooled c' (items ++ rest) := by
  cases hr with
  | @freeRefs _ _ index hi hread =>
    obtain ⟨index', hread', hlt⟩ := hc.2 hi
    obtain rfl := Option.some.inj (hread.symm.trans hread')
    exact Pooled.next h.linked h.valid (by simpa [Code.entry] using h.linked.serverGetRef hlt) hs
  | freeRefsDone => exact Pooled.next h.linked h.valid (by simp [Code.entry]) hs

theorem pooled_closeRefs {i : Nat} (h : Pooled c (.code (.closeRefs i) :: rest))
    (he : exec (.closeRefs i) c = some (c', items)) (hs : .code .start ∉ items ++ rest) : Pooled c' (items ++ rest) := by
  obtain ⟨hlt, e, hd, ⟨hook, -, rfl, rfl⟩ | ⟨-, pool, hset, rfl, rfl⟩⟩ | ⟨-, rfl, rfl⟩ := exec_closeRefs he
  · exact Pooled.next h.linked h.valid (by simpa [Code.entry] using h.linked.serverGetRef hlt) hs
  · obtain ⟨hl, hkeep⟩ := h.linked.setRef hset
    exact Pooled.next hl (fun ref hm => hkeep ref (h.valid ref hm)) (by simp [Code.entry]) hs
  · exact Pooled.next h.linked h.valid (by simp [Code.entry]) hs

theorem pooled_exec (hs : Safe c (.code k :: rest)) (h : Pooled c (.code k :: rest)) (hc : Confined c k)
    (hm : Manages ⟨c, .code k :: rest⟩ .run) (he : exec k c = some (c', items)) : Pooled c' (items ++ rest) := by
  have hr := exec_runs he
  have hstart := start_runs hs hr
  have hv : ∀ ref ∈ entries rest, c.pool.Valid ref := fun ref hm => h.valid ref (List.mem_append_right _ hm)
  have hother : (k.keepsPool ∨ k = .close) → (∀ r i, k ≠ .freeRefs r i) → Pooled c' (items ++ rest) := by
    intro hk hf
    obtain ⟨hpool, hentries⟩ := entries_runs hr hk hf
    exact Pooled.next (hpool ▸ h.linked) (hpool ▸ hv) (by simp [hentries]) hstart
  cases k with
  | start => exact pooled_start h hr hstart
  | step f r =>
    cases f with
    | stepGetFunc1 => exact pooled_getFunc h hm hs.waits he hstart
    | _ => exact hother (.inl rfl) nofun
  | freeRefs r i => exact pooled_freeRefs h hc hr hstart
  | closeRefs i => exact pooled_closeRefs h he hstart
  | closeUnset ref =>
    obtain ⟨pool, hset, rfl, rfl⟩ := exec_closeUnset he
    obtain ⟨hl, hkeep⟩ := h.linked.setRef hset
    exact Pooled.next hl (fun ref hm => hkeep ref (hv ref hm)) (by simp) hstart
  | freePush ref =>
    obtain ⟨pool, hpush, rfl, rfl⟩ := exec_freePush he
    obtain ⟨hl, hkeep⟩ := h.linked.pushRef hpush
    exact Pooled.next hl (fun ref hm => hkeep ref (hv ref hm)) (by simp) hstart
  | freeRef ref =>
    have href := h.valid ref (by simp [Code.entry])
    obtain ⟨e, -, ⟨hook, -, rfl, rfl⟩ | ⟨-, rfl, rfl⟩⟩ := exec_freeRef he
    · exact Pooled.next h.linked hv (by simpa [Code.entry] using href) hstart
    · exact Pooled.next h.linked hv (by simpa [Code.entry] using href) hstart
  | close => exact hother (.inr rfl) nofun
  | _ => exact hother (.inl rfl) nofun

theorem pooled_enter {e : Entry} (h : Pooled c stack) (hw : ∀ k, .code k ∈ stack → k.waits)
    (hm : Manages ⟨c, stack⟩ (.enter e)) (he : enter e c = some (c', items)) : Pooled c' (items ++ stack) := by
  have hstart : .code .start ∉ stack := fun hm => absurd (hw _ hm) (by decide)
  cases enter_enters he with
  | start => exact ⟨h.linked, h.valid, fun _ => hm⟩
  | @allocRef object onFree pool hl =>
    rw [enter.eq_def] at he
    dsimp only at he
    rw [if_pos hl] at he
    obtain ⟨⟨pool₁, ref, i⟩, ha, he⟩ := Option.bind_eq_some_iff.mp he
    obtain ⟨pool₂, hset, he⟩ := Option.map_eq_some_iff.mp he
    obtain rfl : pool₂ = pool := congrArg (fun p : ServCo × Stack => p.1.pool) he
    obtain ⟨hlinked, hv⟩ := valid_alloc h.linked hm h.valid hw ha
    obtain ⟨hlinked, hkeep⟩ := hlinked.setRef hset
    exact Pooled.next hlinked (fun ref hm => hkeep ref (hv ref hm)) (by simp) hstart
  | @freeRef index =>
    exact Pooled.next h.linked h.valid (by simpa [Code.entry] using h.linked.serverGetRef hm) (by simpa using hstart)
  | _ => exact Pooled.next h.linked h.valid (by simp [Code.entry]) (by simpa using hstart)

end

/-! ### The code is defined -/

section

variable {c : ServCo} {k : Code} {rest : Stack}

theorem refCountAdd_isSome {c : ServCo} {n : Int} (hlo : -2 ^ 31 ≤ c.refCount + n) (hhi : c.refCount + n < 2 ^ 31) :
    ∃ c', c.refCountAdd n = some c' := ⟨_, if_pos ⟨hlo, hhi⟩⟩

/-- A well-formed frame is read to its end. -/
theorem step2_isSome (hb : Buffers c (.code .step2 :: rest)) (ha : Accepts ⟨c, .code .step2 :: rest⟩ .run)
    (hm : c.refCount + 1 < 2 ^ 31) (hn : 0 ≤ c.refCount) : (step2 c).isSome := by
  rw [step2.eq_def]
  split
  · rfl
  · rename_i hc
    dsimp only
    split
    · rfl
    · rename_i he
      have he : c.receiveError = none := by simpa using he
      obtain ⟨b, hf⟩ := hb.fresh rfl he
      obtain ⟨frame, hframe, hlt, hlen⟩ := hf.frame
      have hw : WellFormed c frame := by
        refine ha (Bool.eq_false_iff.mpr hc) he frame ?_
        unfold ServCo.frame
        rw [hf.base]
        exact hframe
      have h8 := hw.header
      have hsession : c.readWord c.recvBuf.base = some (word frame 0) := by
        rw [hf.base]
        exact @readWord_frame c b 0 frame hframe (by omega)
      have hindex : c.readWord (c.recvBuf.base.add 4) = some (word frame 4) := by
        rw [hf.base]
        exact @readWord_frame c b 4 frame hframe (by omega)
      have hread : c.read c.recvBuf.base c.recvBuf.length.toNat = some frame := by
        rw [hf.base, hlen, BitVec.toNat_ofNat, Nat.mod_eq_of_lt hlt]
        simpa using @read_frame c b 0 frame.length frame hframe (by omega)
      obtain ⟨c', hc'⟩ := @refCountAdd_isSome (({ c with lastError := c.receiveError }.emit
        (.received c.nextRequest c.recvBuf.base frame)).addRequest (word frame 0) (word frame 4)) 1
        (by show _ ≤ c.refCount + 1; omega) hm
      exact Option.isSome_iff_exists.mpr ⟨_, Option.bind_eq_some_iff.mpr ⟨_, hsession,
        Option.bind_eq_some_iff.mpr ⟨_, hindex, Option.bind_eq_some_iff.mpr ⟨_, hread,
          Option.map_eq_some_iff.mpr ⟨c', hc', rfl⟩⟩⟩⟩⟩

theorem getFunc_isSome {r : Nat} (hl : Linked c.pool) (hg : Grows c.pool) (hr : c.Readable r) :
    (getFunc r c).isSome := by
  obtain ⟨name, hname⟩ := Option.isSome_iff_exists.mp hr
  rw [getFunc.eq_def]
  split
  · rfl
  · rename_i get _
    rw [hname, Option.bind_some]
    split
    · rfl
    · obtain ⟨pool, ref2, index, ha, -, hv, -⟩ := hl.serverAllocRef hg
      obtain ⟨e, hd⟩ := hv.deref
      obtain ⟨pool', hs⟩ := hv.store { e with object := some (.callable _) }
      rw [ha, Option.bind_some]
      dsimp only
      rw [hd, Option.bind_some, hs]
      rfl

theorem closeRefs_isSome {i : Nat} (hl : Linked c.pool) : (closeRefs i c).isSome := by
  rw [closeRefs.eq_def]
  split
  · rename_i hi
    have hv := hl.serverGetRef hi
    obtain ⟨e, hd⟩ := hv.deref
    obtain ⟨pool, hs⟩ := hv.store { e with object := none }
    dsimp only
    rw [hd, Option.bind_some]
    split
    · rfl
    · rw [hs]
      rfl
  · rfl

/-- On a context that is live all code but that of requests is defined. -/
theorem exec_isSome (hs : Safe c (.code k :: rest)) (hp : Pooled c (.code k :: rest))
    (ha : Accepts ⟨c, .code k :: rest⟩ .run) (hm : Manages ⟨c, .code k :: rest⟩ .run) (hl : c.live) (hk : k.request = none) :
    (exec k c).isSome := by
  have hcount := hs.counted.refCount
  have hbound := hs.counted.bound
  have hn : 0 ≤ c.refCount := by split at hcount <;> omega
  rw [exec.eq_def, if_neg (by simp [hl, hk])]
  cases k with
  | step2 => exact step2_isSome hs.buffers ha hm hn
  | step1 | close =>
    dsimp only
    split <;> rfl
  | closeRefs i => exact closeRefs_isSome hp.linked
  | closeUnset ref =>
    have hv := hp.valid ref (by simp [Code.entry])
    obtain ⟨e, hd⟩ := hv.deref
    obtain ⟨pool, hs⟩ := hv.store { e with object := none, onFree := none }
    dsimp only
    rw [hd, Option.bind_some, hs]
    rfl
  | freeRef ref =>
    obtain ⟨e, hd⟩ := (hp.valid ref (by simp [Code.entry])).deref
    dsimp only
    rw [hd]
    rfl
  | freePush ref =>
    obtain ⟨pool, hs⟩ := (hp.valid ref (by simp [Code.entry])).pushRef
    dsimp only
    rw [hs]
    rfl
  | deleteCount =>
    obtain ⟨c', hc'⟩ := @refCountAdd_isSome c (-1) (by omega) (by omega)
    dsimp only
    rw [hc']
    rfl
  | start | closeIo | closeCb | delete => rfl
  | _ => cases hk

/-- What is run until the context is released. -/
theorem exec_defined (hs : Safe c (.code k :: rest)) (hkept : Kept c (.code k :: rest)) (hp : Pooled c (.code k :: rest))
    (ha : Accepts ⟨c, .code k :: rest⟩ .run) (hm : Manages ⟨c, .code k :: rest⟩ .run) (hl : c.live) :
    (exec k c).isSome := by
  have hc := safe_confined hs ha
  cases hk : k.request with
  | none => exact exec_isSome hs hp ha hm hl hk
  | some r =>
    by_cases hh : k.handles
    · exact confined_exec hs.counted hc hh
    · cases k with
      | step f q =>
        cases f with
        | stepGetFunc1 =>
          obtain ⟨hmem, -⟩ := counted_top hs.counted hk
          obtain rfl := Option.some.inj hk
          obtain ⟨p, hg⟩ := Option.isSome_iff_exists.mp (getFunc_isSome hp.linked hm.1 hc)
          rw [exec.eq_def, if_neg (by simp [hl, Code.request, hmem])]
          dsimp only [step]
          rw [hg]
          rfl
        | _ => exact absurd rfl hh
      | finish2 q =>
        have hq := hs.named.code _ List.mem_cons_self q rfl
        obtain ⟨b, frame, hf⟩ := hkept.boxed.received q hq
        have hfree := keeps_freesOnce (c := ⟨c, .code (.finish2 q) :: rest⟩) hs.counted (hkept.keeps q b frame hf)
        exact Option.isSome_iff_ne_none.mpr (hfree.noFault rest rfl)
      | _ => first | exact absurd rfl hh | cases hk

end

/-! ### The code comes to an end -/

/-- More than what is run for the code before the environment is in control again, with a pool
of fewer than `m` entries and parameters of fewer than `n` bytes. -/
def Code.weight (m n : Nat) : Code → Nat
  | .freeRefs _ i => 3 * (n - i) + 2 * m + 9
  | .closeRefs i => 2 * (m - i) + 3
  | .close => 2 * m + 4
  | .delete | .step .stepClose1 _ => 2 * m + 6
  | .step .finishRequest _ => 2 * m + 7
  | .step .stepCall2 _ | .poll3 _ => 2 * m + 8
  | .step .stepGetFunc1 _ | .step .stepGetInfo1 _ => 2 * m + 9
  | .step .stepPoll3 _ => 4 * m + 13
  | .step .stepFreeRef1 _ => 3 * n + 2 * m + 10
  | .nextStep _ => 3 * n + 4 * m + 14
  | .step2 => 3 * n + 4 * m + 16
  | .start | .freeRef _ | .finish1 _ | .closeIo | .step .stepPoll2 _ | .step .stepPoll1 _ => 2
  | _ => 1

def weigh (m n : Nat) : Item Code Ext → Nat
  | .code k => k.weight m n
  | .ext _ => 0

theorem weight_exec {c c' : ServCo} {k : Code} {items : Stack} {m n : Nat} (hm : c.pool.refPoolSize.toNat ≤ m)
    (hn : ∀ r, (c.request r).parameter.length.toNat ≤ n) (h : exec k c = some (c', items)) :
    total (weigh m n) items < weigh m n (.code k) := by
  cases exec_runs h with
  | nextStep =>
    rename_i f _
    cases f <;> simp [weigh, Code.weight] <;> omega
  | @freeRefs r i index hi =>
    have := hn r
    simp [weigh, Code.weight]
    omega
  | closeRefs | closeRefsHook =>
    obtain ⟨hi, -⟩ | ⟨-, -, he⟩ := exec_closeRefs h
    · simp [weigh, Code.weight]
      omega
    · cases he
  | _ =>
    simp [weigh, Code.weight]
    try omega

theorem code_ends (c : Config) :
    run program.step c (List.replicate (total (weigh (2 ^ 16) (2 ^ 32)) c.stack + 1) .run) = none :=
  Program.run_replicate (fun _ s _ _ he => weight_exec s.pool.refPoolSize.isLt.le
    (fun r => (s.request r).parameter.length.isLt.le) he) le_rfl

/-! ### Whole runs -/

theorem finishing_preserves : program.Preserves (fun c m => CallsOnce c m ∧ Handles c m) fun c =>
    Accounted c.state c.stack ∧ Safe c.state c.stack ∧ Kept c.state c.stack ∧ Pooled c.state c.stack where
  exec h hg he :=
    ⟨accounted_preserves.exec h.1 ⟨hg.1, hg.2.answers⟩ he, safe_preserves.exec h.2.1 ⟨hg.1, hg.2.accepts⟩ he,
      kept_preserves.exec h.2.2.1 ⟨hg.1, hg.2.leaves⟩ he,
      pooled_exec h.2.1 h.2.2.2 (safe_confined h.2.1 hg.2.accepts) hg.2.manages he⟩
  ret h hg :=
    ⟨accounted_ret h.1, safe_ret h.2.1, kept_preserves.ret h.2.2.1 ⟨hg.1, hg.2.leaves⟩, h.2.2.2.linked, h.2.2.2.valid,
      fun hm => h.2.2.2.starting (List.mem_cons_of_mem _ hm)⟩
  enter henv h hg he :=
    ⟨accounted_preserves.enter henv h.1 ⟨hg.1, hg.2.answers⟩ he, safe_preserves.enter henv h.2.1 ⟨hg.1, hg.2.accepts⟩ he,
      kept_preserves.enter henv h.2.2.1 ⟨hg.1, hg.2.leaves⟩ he,
      pooled_enter h.2.2.2 (waits_of_envControls h.2.1.waits henv) hg.2.manages he⟩

/-! ### What is promised of a request -/

theorem Accounted.allocated {c : Config} (h : Accounted c.state c.stack) (hs : Settled c) : c.state.allocated = [] := by
  refine List.eq_nil_iff_forall_not_mem.mpr fun r hr => ?_
  have hq := h.all r
  have hz : total (holds r) c.stack = 0 := by
    refine total_eq_zero fun i hi => ?_
    cases i with
    | ext e => rfl
    | code k => simp [holds, hs.stack k hi]
  have : 0 < c.state.allocated.count r := List.count_pos_iff.mpr hr
  simp [pending, hz, hs.invoked, hs.sending] at hq
  omega

theorem accounted_finishes {c : Config} (h : Accounted c.state c.stack)
    (hd : c.state.live → ¬ program.Faults c) : Finishes c := by
  have hle : ∀ r, total (finishes r) c.stack ≤ pending c.state c.stack r := by
    intro r
    refine le_trans (List.sum_le_sum fun i _ => ?_) ((Nat.le_add_right _ _).trans (Nat.le_add_right _ _))
    rcases i with k | e
    · cases k <;> simp [finishes, holds, Code.request]
    · exact le_rfl
  refine ⟨fun r => ?_, hd, ⟨_, code_ends c⟩,
    fun hs r hr => ?_, fun hs => ?_, ?_, fun hs ho hd => ?_, fun k rest r hst hk => ?_⟩
  · have hh := h.held r
    have hf := h.finished r
    have hg := h.finishing r
    have := hle r
    split at hf <;> omega
  · have ha := h.allocated hs
    have hh := h.held r
    have hf := h.finished r
    have hg := h.finishing r
    have := hle r
    rw [ha] at hh hf
    simp [hr] at hf hh
    omega
  · simpa [h.allocated hs] using h.refCount
  · have hr := h.released
    have hc := h.refCount
    refine ⟨by split at hr <;> omega, fun hm => ?_⟩
    have : 0 < c.state.log.count .released := List.count_pos_iff.mpr hm
    by_contra ho
    rw [h.live] at hr
    have hne : c.state.refCount ≠ 0 := by
      rw [if_pos (by simpa using ho)] at hc
      omega
    rw [if_pos (by simpa using hne)] at hr
    omega
  · have hr := h.released
    have hc := h.refCount
    rw [h.live] at hr
    simp [h.allocated hs, ho, hd] at hc
    simpa [hc] using hr
  · exact counted_top (c := c.state) (hst ▸ h.toCounted) hk

/-- In every run, as far as each step can be taken and drops no request, every request is finished. -/
theorem handled_finishes (funcmap : Option (List UInt8 → Option Nat)) (onClosed : Bool) (ms : List (Move Entry))
    (c : Config) (hc : Along program.step CallsOnce (new funcmap onClosed) ms)
    (ha : Along program.step Handles (new funcmap onClosed) ms)
    (h : run program.step (new funcmap onClosed) ms = some c) (hn : Handles c .run) : Finishes c := by
  obtain ⟨hacc, hs, hk, hp⟩ := finishing_preserves.run ⟨accounted_new funcmap onClosed, safe_new funcmap onClosed,
    kept_new funcmap onClosed, pooled_new funcmap onClosed⟩ (hc.and ha) h
  refine accounted_finishes hacc fun hlive => ?_
  rintro ⟨k, rest, hst, he⟩
  obtain ⟨s, stack⟩ := c
  obtain rfl : stack = .code k :: rest := hst
  exact Option.isSome_iff_ne_none.mp (exec_defined hs hk hp hn.accepts hn.manages hlive) he

/-- A call is answered late. -/
def answered : List (Move Entry) :=
  [.enter .start, .run, .run, .ret, .enter (.allocRef (.callable 7) none),
    .enter (.recvDone [1, 0, 0, 0, 0, 0, 0, 0]), .run, .run, .run, .ret, .run, .ret,
    .enter (.resume 0 ⟨false, ⟨[1], []⟩, some 3, none, false⟩), .run, .run, .run,
    .enter (.sendDone 0 .finishRequest), .run, .run, .ret, .run, .ret]

/-- The context is deleted: the loop over a reference pool of 64 entries, and the rest. -/
def deleted : List (Move Entry) :=
  .enter .delete :: List.replicate 67 .run ++ [.run, .ret, .run, .run]

theorem answered_finishes : ∃ c, run program.step (new none false) (answered ++ deleted) = some c ∧
    c.state.log.count .released = 1 ∧ Finishes c := by
  have hr : ∃ c, run program.step (new none false) (answered ++ deleted) = some c ∧
      c.state.log.count .released = 1 ∧ Handles c .run := exists_run (by decide +kernel)
  obtain ⟨c, hc, hone, hn⟩ := hr
  exact ⟨c, hc, hone, handled_finishes none false _ c (by decide +kernel) (by decide +kernel) hc hn⟩

/-- A close request is received, and the context is deleted afterwards. -/
def closeRequested : List (Move Entry) :=
  [.enter .start, .run, .run, .ret, .enter (.recvDone [1, 0, 0, 0, 0xfd, 0xff, 0xff, 0xff]), .run, .run, .run,
    .run, .run, .run, .ret, .run, .run, .enter .delete, .run, .run, .run]

/-- A request for a builtin that there is not. -/
def unknownBuiltin : List (Move Entry) :=
  [.enter .start, .run, .run, .ret, .enter (.recvDone [1, 0, 0, 0, 0xfa, 0xff, 0xff, 0xff]), .run]

/-- Nothing is left to do, but the request to close was never finished and keeps the context;
the request for an unknown builtin cannot be gone on with. -/
theorem requests_leak :
    (∃ c, run program.step (new none false) closeRequested = some c ∧
      Along program.step CallsOnce (new none false) closeRequested ∧ Settled c ∧ c.stack = [] ∧
      c.state.owner = false ∧ c.state.refCount = 1 ∧ ¬ Finishes c) ∧
    ∃ c, run program.step (new none false) unknownBuiltin = some c ∧
      Along program.step CallsOnce (new none false) unknownBuiltin ∧ c.state.allocated = [0] ∧
      (c.state.request 0).nextStep = none ∧ ¬ Finishes c := by
  constructor
  · have hr : ∃ c, run program.step (new none false) closeRequested = some c ∧
        (c.state.invoked = [] ∧ c.state.sending = [] ∧ c.stack = []) ∧ c.state.owner = false ∧
        c.state.refCount = 1 ∧ c.state.log.count .released = 0 := exists_run (by decide +kernel)
    obtain ⟨c, hc, ⟨hi, hs, hst⟩, ho, hn, hrel⟩ := hr
    have hset : Settled c := ⟨hi, hs, fun k hk => by simp [hst] at hk⟩
    refine ⟨c, hc, by decide +kernel, hset, hst, ho, hn, fun h => ?_⟩
    have := h.releasedAll hset ho (by rw [hst]; rfl)
    omega
  · have hr : ∃ c, run program.step (new none false) unknownBuiltin = some c ∧ c.state.allocated = [0] ∧
        (c.state.request 0).nextStep = none ∧ c.stack = [.code (.nextStep 0), .code .step1] ∧ c.state.live ∧
        (exec (.nextStep 0) c.state).isNone := exists_run (by decide +kernel)
    obtain ⟨c, hc, ha, hf, hst, hlive, he⟩ := hr
    refine ⟨c, hc, by decide +kernel, ha, hf, fun h => ?_⟩
    exact h.noFault hlive ⟨_, _, hst, Option.isNone_iff_eq_none.mp he⟩

end PxpRpc.Server
