import PxpRpc.Server.Poll

/-!
# What a frame makes the server read, index and call

`_pxprpc__step2` and the handlers take the lengths and the indices of a frame as
they come. A frame that is well formed where it is received keeps the server
inside the frame and inside the pool, up to the last of its indices.
-/
namespace PxpRpc.Server

open PxpRpc.Lib PxpRpc.Lib.Callback PxpRpc.Pool PxpRpc.Pool.Native

/-- The index is below `ref_pool_size`, and there is a callable at it. -/
def ServCo.Callable (c : ServCo) (index : BitVec 32) : Prop :=
  index.toNat < c.pool.refPoolSize.toNat ∧ (c.callable index).isSome

/-- All of the parameter is inside a received frame. -/
def ServCo.Readable (c : ServCo) (r : Nat) : Prop :=
  (c.read (c.request r).parameter.base (c.request r).parameter.length.toNat).isSome

/-- What the code reads is inside the frame, what it indexes is below `ref_pool_size`,
what it calls is there. -/
def Confined (c : ServCo) : Code → Prop
  | .step2 => c.closed ∨ c.receiveError.isSome ∨ (c.read c.recvBuf.base 8).isSome
  | .nextStep r | .writeResult r => (c.request r).nextStep.isSome
  | .step .stepCall1 r => c.Callable (c.request r).callableIndex ∧ c.Readable r
  | .step .stepGetFunc1 r => c.Readable r
  | .step .stepPoll1 r => (c.readWord (c.request r).parameter.base).isSome
  | .pollCall r => c.Callable (c.request r).callableIndex
  | .freeRefs r i =>
      i < 2 ^ 31 ∧ (i < (c.request r).parameter.length.toNat →
        ∃ index, c.readWord ((c.request r).parameter.base.add i) = some index ∧
          index.toNat < c.pool.refPoolSize.toNat)
  | _ => True

/-- Code of a request, but for what the pool and the io have to do with it. -/
def Code.handles : Code → Bool
  | .step .stepGetFunc1 _ | .finish2 _ => false
  | k => k.request.isSome

/-- The code that is run is confined, and code of a request has a defined next step. -/
def StaysConfined (c : Config) : Move Entry → Prop
  | .run =>
      match c.stack with
      | .code k :: _ => Confined c.state k ∧ (k.handles → (exec k c.state).isSome)
      | _ => True
  | _ => True

/-! ### Assumptions on the steps of a run -/

/-- The frame names what the context has. -/
structure WellFormed (c : ServCo) (frame : List UInt8) : Prop where
  header : 8 ≤ frame.length
  builtin : -5 ≤ (word frame 4).toInt
  call : 0 ≤ (word frame 4).toInt → c.Callable (word frame 4)
  freeRef : word frame 4 = -2#32 → 4 ∣ frame.length ∧ frame.length < 2 ^ 31 + 8 ∧
    ∀ i < frame.length, 4 ∣ i → 8 + i < frame.length → (word frame (8 + i)).toNat < c.pool.refPoolSize.toNat
  poll : word frame 4 = -5#32 → 12 ≤ frame.length

/-- The frame that has been received. -/
def ServCo.frame (c : ServCo) : Option (List UInt8) := c.recvBuf.base.block.bind c.frames

/-- A freeRef request is being processed. -/
def Freeing (stack : Stack) : Bool :=
  stack.any fun
    | .code (.freeRefs _ _) => true
    | _ => false

/-- `ref_pool_size` does not overflow with the next allocation. -/
def Grows (pool : RefPool Obj Nat) : Prop := pool.freeRefEntry = none → pool.refPoolSize.toNat + 64 < 2 ^ 16

/-- Frames that are processed are well formed, a poll that goes on finds a callable, and
`ref_pool_size` does not overflow while a freeRef request is processed. -/
def Accepts (c : Config) : Move Entry → Prop
  | .run =>
      match c.stack with
      | .code .step2 :: _ =>
          c.state.closed = false → c.state.receiveError = none → ∀ frame ∈ c.state.frame, WellFormed c.state frame
      | .code (.pollCall r) :: _ => c.state.Callable (c.state.request r).callableIndex
      | .code (.step .stepGetFunc1 _) :: rest => Freeing rest → Grows c.state.pool
      | _ => True
  | .enter (.allocRef _ _) => Freeing c.stack → Grows c.state.pool
  | _ => True

instance (c : ServCo) (index : BitVec 32) : Decidable (c.Callable index) := by
  unfold ServCo.Callable
  infer_instance

instance (c : ServCo) (r : Nat) : Decidable (c.Readable r) := by
  unfold ServCo.Readable
  infer_instance

instance decidableIndexLt (o : Option (BitVec 32)) (n : Nat) : Decidable (∃ index, o = some index ∧ index.toNat < n) :=
  match o with
  | none => isFalse (by simp)
  | some index => decidable_of_iff (index.toNat < n) (by simp)

def Entry.allocates : Entry → Bool
  | .allocRef _ _ => true
  | _ => false

/-- The request and the offset of the next index of a freeRef request. -/
def Code.index : Code → Option (Nat × Nat)
  | .freeRefs r i => some (r, i)
  | _ => none

section

variable {c : ServCo} {k : Code} {rest : Stack}

theorem confined_iff : Confined c k ↔
    (k = .step2 → c.closed ∨ c.receiveError.isSome ∨ (c.read c.recvBuf.base 8).isSome) ∧
    (∀ r ∈ k.request, (k = .nextStep r ∨ k = .writeResult r → (c.request r).nextStep.isSome) ∧
      (k = .step .stepCall1 r → c.Callable (c.request r).callableIndex ∧ c.Readable r) ∧
      (k = .step .stepGetFunc1 r → c.Readable r) ∧
      (k = .step .stepPoll1 r → (c.readWord (c.request r).parameter.base).isSome) ∧
      (k = .pollCall r → c.Callable (c.request r).callableIndex)) ∧
    ∀ p ∈ k.index, p.2 < 2 ^ 31 ∧ (p.2 < (c.request p.1).parameter.length.toNat →
      ∃ index, c.readWord ((c.request p.1).parameter.base.add p.2) = some index ∧
        index.toNat < c.pool.refPoolSize.toNat) := by
  cases k with
  | step f r => cases f <;> simp [Confined, Code.request, Code.index]
  | _ => simp [Confined, Code.request, Code.index]

theorem accepts_code : Accepts ⟨c, .code k :: rest⟩ .run ↔
    (k = .step2 → c.closed = false → c.receiveError = none → ∀ frame ∈ c.frame, WellFormed c frame) ∧
    ∀ r ∈ k.request, (k = .pollCall r → c.Callable (c.request r).callableIndex) ∧
      (k = .step .stepGetFunc1 r → Freeing rest → Grows c.pool) := by
  cases k with
  | step f r => cases f <;> simp [Accepts, Code.request]
  | _ => simp [Accepts, Code.request]

theorem accepts_enter {c : Config} {e : Entry} :
    Accepts c (.enter e) ↔ (e.allocates → Freeing c.stack → Grows c.state.pool) := by
  cases e <;> simp [Accepts, Entry.allocates]

end

instance (c : ServCo) (k : Code) : Decidable (Confined c k) := decidable_of_iff _ confined_iff.symm

instance : ∀ (c : Config) (m : Move Entry), Decidable (StaysConfined c m) :=
  decidableMove (fun c k _ => inferInstanceAs (Decidable (Confined c k ∧ (k.handles → (exec k c).isSome))))
    (fun _ _ => isTrue trivial) (fun _ => trivial) (fun _ _ _ => trivial) (fun _ => trivial)

instance (pool : RefPool Obj Nat) : Decidable (Grows pool) := by
  unfold Grows
  infer_instance

instance (c : ServCo) (frame : List UInt8) : Decidable (WellFormed c frame) :=
  decidable_of_iff
    (8 ≤ frame.length ∧ -5 ≤ (word frame 4).toInt ∧ (0 ≤ (word frame 4).toInt → c.Callable (word frame 4)) ∧
      (word frame 4 = -2#32 → 4 ∣ frame.length ∧ frame.length < 2 ^ 31 + 8 ∧
        ∀ i < frame.length, 4 ∣ i → 8 + i < frame.length → (word frame (8 + i)).toNat < c.pool.refPoolSize.toNat) ∧
      (word frame 4 = -5#32 → 12 ≤ frame.length))
    ⟨fun h => ⟨h.1, h.2.1, h.2.2.1, h.2.2.2.1, h.2.2.2.2⟩, fun h => ⟨h.1, h.2, h.3, h.4, h.5⟩⟩

instance : ∀ (c : Config) (m : Move Entry), Decidable (Accepts c m) :=
  decidableMove (fun _ _ _ => decidable_of_iff _ accepts_code.symm) (fun _ _ => decidable_of_iff _ accepts_enter.symm)
    (fun _ => trivial) (fun _ _ _ => trivial) (fun _ => trivial)

/-! ### The invariant -/

/-- The frame of a request whose parameter has not been moved. -/
structure Payload (c : ServCo) (r : Nat) (frame : List UInt8) : Prop where
  parameter : ∃ b, (c.request r).parameter = ⟨⟨some b, 8⟩, BitVec.ofNat 32 frame.length - 8⟩ ∧ c.frames b = some frame
  length : 8 ≤ frame.length ∧ frame.length < 2 ^ 32

/-- The indices of a freeRef request are inside the pool. -/
def FreesInside (c : ServCo) (r : Nat) : Prop :=
  ∃ frame, Payload c r frame ∧ 4 ∣ frame.length ∧ frame.length < 2 ^ 31 + 8 ∧
    ∀ i, 4 ∣ i → 8 + i < frame.length → (word frame (8 + i)).toNat < c.pool.refPoolSize.toNat

/-- What the first function of a request relies on. -/
def Parsed (c : ServCo) (r : Nat) : NextStep → Prop
  | .stepCall1 => c.Callable (c.request r).callableIndex ∧ ∃ frame, Payload c r frame
  | .stepGetFunc1 => ∃ frame, Payload c r frame
  | .stepFreeRef1 => FreesInside c r
  | .stepPoll1 => ∃ frame, Payload c r frame ∧ 12 ≤ frame.length
  | _ => True

/-- The function is one that a request goes on with after a call. -/
def NextStep.late : NextStep → Bool
  | .stepCall2 | .finishRequest | .stepPoll2 | .stepPoll3 => true
  | _ => false

/-- What a piece of code relies on. -/
def Checked (c : ServCo) : Code → Prop
  | .nextStep r => ∃ f, (c.request r).nextStep = some f ∧ Parsed c r f
  | .step f r => Parsed c r f
  | .writeResult r => (c.request r).nextStep.any NextStep.late
  | .freeRefs r i => 4 ∣ i ∧ i < 2 ^ 31 ∧ FreesInside c r
  | _ => True

/-- Code that is left for later relies on the indices of a freeRef request at most. -/
def Code.waits : Code → Bool
  | .nextStep _ | .step _ _ | .writeResult _ | .start | .freeRef _ => false
  | _ => true

/-- What requests go on with when their callable calls `next_step`. -/
def Asked (c : ServCo) : Prop :=
  ∀ r ∈ c.invoked, (c.request r).nextStep = some .stepCall2 ∨ (c.request r).nextStep = some .stepPoll2

/-- Nothing has been received. -/
structure Unstarted (c : ServCo) (stack : Stack) : Prop where
  receiving : c.receiving = false
  nextRequest : c.nextRequest = 0
  step1 : .code .step1 ∉ stack
  step2 : .code .step2 ∉ stack

structure Safe (c : ServCo) (stack : Stack) : Prop where
  counted : Counted c stack
  named : Named c stack
  buffers : Buffers c stack
  checked : ∀ k, .code k ∈ stack → Checked c k
  waits : ∀ k, .code k ∈ stack.tail → k.waits
  asked : Asked c
  sending : ∀ p ∈ c.sending, p.2.late
  started : c.started = false ∨ .code .start ∈ stack → Unstarted c stack
  begun : .code .start ∈ stack → c.started

theorem safe_new (funcmap : Option (List UInt8 → Option Nat)) (onClosed : Bool) :
    Safe (new funcmap onClosed).state (new funcmap onClosed).stack where
  counted := counted_new funcmap onClosed
  named := named_new funcmap onClosed
  buffers := buffers_new funcmap onClosed
  checked _ hm := absurd hm List.not_mem_nil
  waits _ hm := absurd hm List.not_mem_nil
  asked _ hm := absurd hm List.not_mem_nil
  sending _ hm := absurd hm List.not_mem_nil
  started _ := ⟨rfl, rfl, List.not_mem_nil, List.not_mem_nil⟩
  begun hm := absurd hm List.not_mem_nil

/-! ### The size of the pool -/

section

variable {pool pool' : RefPool Obj Nat} {p : Ptr}

theorem size_store {e : PxpRef Obj Nat Ptr} (h : pool.store p e = some pool') : pool'.refPoolSize = pool.refPoolSize := by
  obtain ⟨e', -, rfl⟩ := Option.map_eq_some_iff.mp h
  rfl

theorem size_pushRef (h : pushRef p pool = some pool') : pool'.refPoolSize = pool.refPoolSize := by
  obtain ⟨pool₁, hs, rfl⟩ := Option.map_eq_some_iff.mp h
  show pool₁.refPoolSize = _
  exact size_store hs

theorem size_serverAllocRef {i : Nat} (h : serverAllocRef pool = some (pool', p, i)) (hg : Grows pool) :
    pool.refPoolSize.toNat ≤ pool'.refPoolSize.toNat := by
  rw [serverAllocRef.eq_def] at h
  obtain ⟨freeref, -, h⟩ := Option.bind_eq_some_iff.mp h
  obtain ⟨ref, -, h⟩ := Option.map_eq_some_iff.mp h
  obtain ⟨rfl, -⟩ := Prod.mk.inj h
  cases hf : pool.freeRefEntry with
  | some f => exact le_rfl
  | none =>
    have hlt := hg hf
    have hsize : (expandRefPool pool).refPoolSize = BitVec.ofNat 16 (pool.refPoolSize.toNat + 64) := rfl
    show pool.refPoolSize.toNat ≤ (expandRefPool pool).refPoolSize.toNat
    rw [hsize, BitVec.toNat_ofNat, Nat.mod_eq_of_lt hlt]
    omega

theorem size_setRef {object : Option Obj} {onFree : Option Nat} (h : setRef pool p object onFree = some pool') :
    pool'.refPoolSize = pool.refPoolSize := by
  obtain ⟨e, -, h⟩ := Option.bind_eq_some_iff.mp h
  exact size_store h

end

theorem size_getFunc {c c' : ServCo} {r : Nat} {index : BitVec 32} (h : getFunc r c = some (c', index)) (hg : Grows c.pool) :
    c.pool.refPoolSize.toNat ≤ c'.pool.refPoolSize.toNat := by
  rw [getFunc.eq_def] at h
  split at h
  · obtain ⟨rfl, -⟩ := Prod.mk.inj (Option.some.inj h)
    exact le_rfl
  · obtain ⟨name, -, h⟩ := Option.bind_eq_some_iff.mp h
    split at h
    · obtain ⟨rfl, -⟩ := Prod.mk.inj (Option.some.inj h)
      exact le_rfl
    · obtain ⟨⟨pool, ref2, i⟩, ha, h⟩ := Option.bind_eq_some_iff.mp h
      obtain ⟨e, -, h⟩ := Option.bind_eq_some_iff.mp h
      obtain ⟨pool', hs, h⟩ := Option.map_eq_some_iff.mp h
      obtain ⟨rfl, -⟩ := Prod.mk.inj h
      rw [size_store hs]
      exact size_serverAllocRef ha hg

theorem size_closeRefs {c c' : ServCo} {i : Nat} {items : Stack} (h : closeRefs i c = some (c', items)) :
    c'.pool.refPoolSize = c.pool.refPoolSize := by
  rw [closeRefs.eq_def] at h
  split at h
  · obtain ⟨e, -, h⟩ := Option.bind_eq_some_iff.mp h
    split at h
    · obtain ⟨rfl, -⟩ := Prod.mk.inj (Option.some.inj h)
      rfl
    · obtain ⟨pool, hs, h⟩ := Option.map_eq_some_iff.mp h
      obtain ⟨rfl, -⟩ := Prod.mk.inj h
      exact size_store hs
  · obtain ⟨rfl, -⟩ := Prod.mk.inj (Option.some.inj h)
    rfl

/-- No code makes the pool smaller, but for the start of the context. -/
theorem size_exec {c c' : ServCo} {k : Code} {items : Stack} (h : exec k c = some (c', items)) (hk : k ≠ .start)
    (hg : ∀ r, k = .step .stepGetFunc1 r → Grows c.pool) :
    c.pool.refPoolSize.toNat ≤ c'.pool.refPoolSize.toNat := by
  have hr := exec_runs h
  rw [exec.eq_def] at h
  split at h
  · cases h
  · cases hr with
    | start => exact absurd rfl hk
    | @stepGetFunc1 r pool index =>
      obtain ⟨⟨c₁, index'⟩, hf, h⟩ := Option.map_eq_some_iff.mp h
      have hc : c₁.pool = pool := by simpa using congrArg (fun p : ServCo × Stack => p.1.pool) h
      have := size_getFunc hf (hg r rfl)
      rwa [hc] at this
    | closeRefs | closeRefsHook | closeRefsDone => exact (congrArg BitVec.toNat (size_closeRefs h)).ge
    | closeUnset =>
      obtain ⟨e, -, h⟩ := Option.bind_eq_some_iff.mp h
      obtain ⟨pool, hs, h⟩ := Option.map_eq_some_iff.mp h
      obtain rfl : pool = _ := congrArg (fun p : ServCo × Stack => p.1.pool) h
      exact (congrArg BitVec.toNat (size_store hs)).ge
    | freePush =>
      obtain ⟨pool, hs, h⟩ := Option.map_eq_some_iff.mp h
      obtain rfl : pool = _ := congrArg (fun p : ServCo × Stack => p.1.pool) h
      exact (congrArg BitVec.toNat (size_pushRef hs)).ge
    | _ => exact le_rfl

theorem size_enter {c c' : ServCo} {e : Entry} {items : Stack} (h : enter e c = some (c', items))
    (hg : ∀ object onFree, e = .allocRef object onFree → Grows c.pool) :
    c.pool.refPoolSize.toNat ≤ c'.pool.refPoolSize.toNat := by
  have he := enter_enters h
  cases he with
  | allocRef hl =>
    rw [enter.eq_def] at h
    dsimp only at h
    rw [if_pos hl] at h
    obtain ⟨⟨pool, ref, i⟩, ha, h⟩ := Option.bind_eq_some_iff.mp h
    obtain ⟨pool', hs, h⟩ := Option.map_eq_some_iff.mp h
    obtain rfl : pool' = _ := congrArg (fun p : ServCo × Stack => p.1.pool) h
    dsimp only
    rw [size_setRef hs]
    exact size_serverAllocRef ha (hg _ _ rfl)
  | _ => exact le_rfl

/-! ### The frame of a request -/

section

variable {c c' : ServCo} {r : Nat} {frame : List UInt8}

theorem Payload.base (h : Payload c r frame) :
    ∃ b, (c.request r).parameter.base = ⟨some b, 8⟩ ∧ c.frames b = some frame ∧
      (c.request r).parameter.length.toNat = frame.length - 8 := by
  obtain ⟨b, hp, hf⟩ := h.parameter
  obtain ⟨h8, hlt⟩ := h.length
  refine ⟨b, by rw [hp], hf, ?_⟩
  rw [hp, BitVec.toNat_sub, BitVec.toNat_ofNat, Nat.mod_eq_of_lt hlt]
  simp
  omega

theorem Payload.readable (h : Payload c r frame) : c.Readable r := by
  obtain ⟨b, hb, hf, hl⟩ := h.base
  have h8 := h.length.1
  unfold ServCo.Readable
  rw [hb, hl]
  exact Option.isSome_iff_exists.mpr ⟨_, @read_frame c b 8 (frame.length - 8) frame hf (by omega)⟩

theorem Payload.readWord (h : Payload c r frame) {i : Nat} (hi : 8 + i + 4 ≤ frame.length) :
    c.readWord ((c.request r).parameter.base.add i) = some (word frame (8 + i)) := by
  obtain ⟨b, hb, hf, -⟩ := h.base
  rw [hb]
  have := @readWord_frame c b (8 + i) frame hf hi
  simpa [Addr.add] using this

/-- Another request is received, answered or finished. -/
theorem Payload.other (h : Payload c r frame) (hr : c'.request r = c.request r)
    (hf : ∀ b, c.block r = some b → c'.frames b = c.frames b) : Payload c' r frame := by
  obtain ⟨b, hp, hframe⟩ := h.parameter
  refine ⟨⟨b, by rw [hr, hp], ?_⟩, h.length⟩
  rw [hf b (by rw [ServCo.block, hp]), hframe]

theorem FreesInside.other (h : FreesInside c r) (hr : c'.request r = c.request r)
    (hf : ∀ b, c.block r = some b → c'.frames b = c.frames b)
    (hs : c.pool.refPoolSize.toNat ≤ c'.pool.refPoolSize.toNat) : FreesInside c' r := by
  obtain ⟨frame, hp, hd, hl, hi⟩ := h
  exact ⟨frame, hp.other hr hf, hd, hl, fun i hi4 hlt => (hi i hi4 hlt).trans_le hs⟩

theorem callable_pool (hp : c'.pool = c.pool) (index : BitVec 32) : c'.Callable index ↔ c.Callable index := by
  unfold ServCo.Callable ServCo.callable
  rw [hp]

end

/-- The codes of the handlers. -/
theorem handler_cases {index : BitVec 32} (h : -5 ≤ index.toInt) (f : Option NextStep) :
    (0 ≤ index.toInt ∧ handler index f = some .stepCall1) ∨ (index = -1#32 ∧ handler index f = some .stepGetFunc1) ∨
    (index = -2#32 ∧ handler index f = some .stepFreeRef1) ∨ handler index f = some .stepClose1 ∨
    handler index f = some .stepGetInfo1 ∨ (index = -5#32 ∧ handler index f = some .stepPoll1) := by
  by_cases h0 : 0 ≤ index.toInt
  · exact .inl ⟨h0, if_pos h0⟩
  · have hi : index.toInt = -1 ∨ index.toInt = -2 ∨ index.toInt = -3 ∨ index.toInt = -4 ∨ index.toInt = -5 := by omega
    have heq : ∀ j : BitVec 32, index.toInt = j.toInt → index = j := fun j hj => BitVec.eq_of_toInt_eq hj
    rcases hi with hi | hi | hi | hi | hi
    · obtain rfl := heq (-1#32) hi
      exact .inr (.inl ⟨rfl, rfl⟩)
    · obtain rfl := heq (-2#32) hi
      exact .inr (.inr (.inl ⟨rfl, rfl⟩))
    · obtain rfl := heq (-3#32) hi
      exact .inr (.inr (.inr (.inl rfl)))
    · obtain rfl := heq (-4#32) hi
      exact .inr (.inr (.inr (.inr (.inl rfl))))
    · obtain rfl := heq (-5#32) hi
      exact .inr (.inr (.inr (.inr (.inr ⟨rfl, rfl⟩))))

/-- A well-formed frame becomes a request that can be gone on with. -/
theorem checked_step2 {c c' : ServCo} {rest items : Stack} (hs : Safe c (.code .step2 :: rest))
    (ha : Accepts ⟨c, .code .step2 :: rest⟩ .run) (hr : Runs c .step2 c' items) :
    ∀ k, .code k ∈ items → Checked c' k := by
  cases hr with
  | step2Closed hc => simp
  | step2Error hc he => simp [Checked]
  | @step2 session callableIndex frame hc he hsession hindex hframe hbound =>
    have hr := Runs.step2 hc he hsession hindex hframe hbound
    obtain ⟨b, hb⟩ := @received_step2 c _ rest _ hs.named hs.buffers c.recvBuf.base frame (by simp) hr
    set c' := ((({ c with lastError := c.receiveError }.emit (.received c.nextRequest c.recvBuf.base frame)).addRequest
      session callableIndex).counted 1) with hc'
    have hf : c.frame = some frame := by
      unfold ServCo.frame
      rw [hb.stored]
      exact hb.buffer
    have hw : WellFormed c frame := ha hc he frame hf
    have hindex : (c'.request c.nextRequest).callableIndex = word frame 4 := by rw [hb.request]; rfl
    have hnext : (c'.request c.nextRequest).nextStep = handler (word frame 4) none := by rw [hb.request]; rfl
    have hpayload : Payload c' c.nextRequest frame := ⟨⟨b, by rw [hb.request]; rfl, hb.buffer⟩, hb.length⟩
    intro k hm
    have hm : k = .nextStep c.nextRequest ∨ k = .step1 := by simpa using hm
    rcases hm with rfl | rfl
    · show ∃ f, (c'.request c.nextRequest).nextStep = some f ∧ Parsed c' c.nextRequest f
      rw [hnext]
      obtain ⟨h0, hh⟩ | ⟨-, hh⟩ | ⟨h2, hh⟩ | hh | hh | ⟨h5, hh⟩ := handler_cases hw.builtin none
      · refine ⟨_, hh, ?_, frame, hpayload⟩
        rw [hindex]
        exact (callable_pool rfl _).mpr (hw.call h0)
      · exact ⟨_, hh, frame, hpayload⟩
      · obtain ⟨hd, hl, hi⟩ := hw.freeRef h2
        exact ⟨_, hh, frame, hpayload, hd, hl, fun i hi4 hlt => hi i (by omega) hi4 hlt⟩
      · exact ⟨_, hh, trivial⟩
      · exact ⟨_, hh, trivial⟩
      · exact ⟨_, hh, frame, hpayload, hw.poll h5⟩
    · trivial

section

variable {c c' : ServCo} {k : Code} {rest items : Stack}

/-- What a piece of code relies on holds for the code it leaves. -/
theorem checked_runs (hs : Safe c (.code k :: rest)) (ha : Accepts ⟨c, .code k :: rest⟩ .run) (hr : Runs c k c' items) :
    ∀ k', .code k' ∈ items → Checked c' k' := by
  by_cases hk : k = .step2
  · subst hk
    exact checked_step2 hs ha hr
  · have hc := hs.checked k List.mem_cons_self
    cases hr with
    | step2Closed | step2Error | step2 => exact absurd rfl hk
    | nextStep hf =>
      obtain ⟨f, hf', hp⟩ := hc
      obtain rfl := Option.some.inj (hf.symm.trans hf')
      simpa [Checked] using hp
    | stepFreeRef1 =>
      have hc : FreesInside c _ := hc
      simpa [Checked] using hc
    | @freeRefs r i index hi hw =>
      obtain ⟨hd, -, hf⟩ := hc
      have hf' := hf
      obtain ⟨frame, hp, hd', hl, -⟩ := hf'
      obtain ⟨b, -, -, hlen⟩ := hp.base
      have h8 := hp.length.1
      intro k' hm
      have hm : k' = .freeRef (serverGetRef c.pool index.toNat) ∨ k' = .freeRefs r (i + 4) := by simpa using hm
      rcases hm with rfl | rfl
      · trivial
      · exact ⟨by omega, by omega, hf⟩
    | _ => simp [Checked, Parsed, NextStep.late]

/-- Code that waits goes on as it was left. -/
theorem checked_waits (hs : Safe c (.code k :: rest)) (hr : Runs c k c' items)
    (hsize : c.pool.refPoolSize.toNat ≤ c'.pool.refPoolSize.toNat) : ∀ k', .code k' ∈ rest → Checked c' k' := by
  intro k' hm
  have hw := hs.waits k' hm
  have hc := hs.checked k' (List.mem_cons_of_mem _ hm)
  cases k' with
  | freeRefs r i =>
    obtain ⟨hd, hi, hf⟩ := hc
    have hk : k.request ≠ some r := by
      intro hk
      exact (alone_top hs.counted hk).code _ hm rfl
    have hr' : k = .step2 → r ≠ c.nextRequest := by
      rintro -
      exact (hs.named.code _ (List.mem_cons_of_mem _ hm) r rfl).ne
    exact ⟨hd, hi, hf.other (sameFor_runs hk hr' hr).request (fun b hb => frames_runs hs.buffers hk hr hb) hsize⟩
  | nextStep | step | writeResult => simp [Code.waits] at hw
  | _ => trivial

theorem waits_runs (hw : ∀ k, .code k ∈ rest → k.waits) (hr : Runs c k c' items) :
    ∀ k', .code k' ∈ (items ++ rest).tail → k'.waits := by
  intro k' hm
  cases items with
  | nil => exact hw k' (List.mem_of_mem_tail hm)
  | cons item items =>
    rcases List.mem_append.mp hm with hm | hm
    · cases hr <;> simp at hm <;> grind [Code.waits]
    · exact hw k' hm

theorem asked_runs (hc : Counted c (.code k :: rest)) (hn : Named c (.code k :: rest)) (h : Asked c)
    (hr : Runs c k c' items) : Asked c' := by
  intro r hm
  by_cases hk : k.request = some r
  · have hone := (alone_top hc hk).invoked
    cases hr with
    | stepCall1 | pollCall =>
      obtain rfl := Option.some.inj hk
      simp
    | _ => exact absurd hm hone
  · have hmem : r ∈ c.invoked := by
      cases hr with
      | stepCall1 | pollCall =>
        have hne : r ≠ _ := fun he => hk (congrArg some he.symm)
        simpa [hne] using hm
      | _ => exact hm
    have hsame := sameFor_runs hk (fun _ => (hn.invoked r hmem).ne) hr
    rw [hsame.request]
    exact h r hmem

theorem asked_enter {e : Entry} (h : Asked c) (he : Enters c e c' items) : Asked c' := by
  cases he with
  | @resume q o hr =>
    intro r hm
    have := h r (List.mem_of_mem_erase hm)
    by_cases hq : r = q
    · subst hq
      simpa [Request.complete] using this
    · simpa [hq] using this
  | _ => exact h

theorem sending_runs (hs : Safe c (.code k :: rest)) (hr : Runs c k c' items) : ∀ p ∈ c'.sending, p.2.late := by
  have hold := hs.sending
  have hc := hs.checked k List.mem_cons_self
  cases hr with
  | @writeResult r f hclosed hf =>
    have hf' : f.late := by
      have hc : (c.request r).nextStep.any NextStep.late := hc
      simpa [hf] using hc
    intro p hm
    have hm : p = (r, f) ∨ p ∈ c.sending := by simpa using hm
    rcases hm with rfl | hm
    · exact hf'
    · exact hold p hm
  | _ => exact hold

theorem start_runs (hs : Safe c (.code k :: rest)) (hr : Runs c k c' items) : .code .start ∉ items ++ rest := by
  intro hm
  rcases List.mem_append.mp hm with hm | hm
  · cases hr <;> simp at hm
  · exact absurd (hs.waits _ hm) (by decide)

/-- Only the start of the context makes it receive. -/
theorem started_runs (hs : Safe c (.code k :: rest)) (hr : Runs c k c' items) (h : c'.started = false) :
    Unstarted c' (items ++ rest) := by
  have hstarted : c.started = false := by cases hr <;> exact h
  obtain ⟨hrecv, hnext, h1, h2⟩ := hs.started (.inl hstarted)
  have hrequest : ∀ r, k.request ≠ some r := fun r hr' => by
    have := hs.named.code k List.mem_cons_self r hr'
    omega
  have hstart : k ≠ .start := by
    rintro rfl
    rw [hs.begun List.mem_cons_self] at hstarted
    cases hstarted
  have hstep1 : k ≠ .step1 := fun hk => h1 (hk ▸ List.mem_cons_self)
  have hstep2 : k ≠ .step2 := fun hk => h2 (hk ▸ List.mem_cons_self)
  have h1' : .code .step1 ∉ rest := fun hm => h1 (List.mem_cons_of_mem _ hm)
  have h2' : .code .step2 ∉ rest := fun hm => h2 (List.mem_cons_of_mem _ hm)
  cases hr <;> first
    | exact absurd rfl hstart
    | exact absurd rfl hstep1
    | exact absurd rfl hstep2
    | exact absurd rfl (hrequest _)
    | exact ⟨hrecv, hnext, by simpa using h1', by simpa using h2'⟩

theorem safe_exec (hs : Safe c (.code k :: rest)) (ha : Accepts ⟨c, .code k :: rest⟩ .run)
    (he : exec k c = some (c', items)) : Safe c' (items ++ rest) := by
  have hr := exec_runs he
  refine ⟨counted_runs hs.counted (exec_guard he).1 hr, named_runs hs.named hr, buffers_runs hs.buffers hr,
    fun k' hm => ?_, waits_runs hs.waits hr, asked_runs hs.counted hs.named hs.asked hr, sending_runs hs hr, fun h => ?_,
    fun hm => absurd hm (start_runs hs hr)⟩
  · rcases List.mem_append.mp hm with hm' | hm'
    · exact checked_runs hs ha hr k' hm'
    · by_cases hf : Freeing rest
      · refine checked_waits hs hr (size_exec he ?_ ?_) k' hm'
        · rintro rfl
          obtain ⟨item, hitem, hmatch⟩ := List.any_eq_true.mp hf
          have hu := hs.started (.inr List.mem_cons_self)
          split at hmatch
          · rename_i r i
            have := hs.named.code _ (List.mem_cons_of_mem _ hitem) r rfl
            rw [hu.nextRequest] at this
            omega
          · cases hmatch
        · rintro r rfl
          exact ha hf
      · have hw := hs.waits k' hm'
        cases k' with
        | freeRefs r i => exact absurd (List.any_eq_true.mpr ⟨_, hm', rfl⟩) hf
        | nextStep | step | writeResult | start => simp [Code.waits] at hw
        | _ => trivial
  · exact started_runs hs hr (h.resolve_right (start_runs hs hr))

theorem safe_ret {e : Ext} (hs : Safe c (.ext e :: rest)) : Safe c rest where
  counted := counted_ret hs.counted
  named := named_ret hs.named
  buffers := buffers_ret hs.buffers
  checked k hm := hs.checked k (List.mem_cons_of_mem _ hm)
  waits k hm := hs.waits k (List.mem_of_mem_tail hm)
  asked := hs.asked
  sending := hs.sending
  started h :=
    have hu := hs.started (h.imp_right (List.mem_cons_of_mem _))
    ⟨hu.receiving, hu.nextRequest, fun hm => hu.step1 (List.mem_cons_of_mem _ hm),
      fun hm => hu.step2 (List.mem_cons_of_mem _ hm)⟩
  begun hm := hs.begun (List.mem_cons_of_mem _ hm)

/-- The request of code that waits is not with a callable. -/
theorem invoked_code {stack : Stack} (hc : Counted c stack) {r : Nat} (hm : .code k ∈ stack) (hk : k.request = some r) :
    r ∉ c.invoked := by
  intro hi
  have hh := hc.held r
  have hf := hc.finished r
  have htotal : total (holds r) stack ≠ 0 := fun hz => by
    have := total_eq_zero_iff.mp hz _ hm
    simp [holds, hk] at this
  have := List.count_pos_iff.mpr hi
  unfold pending at hh
  split at hf <;> omega

/-- The environment leaves alone what the code that waits relies on. -/
theorem checked_env {stack : Stack} {e : Entry} (hs : Safe c stack) (hw : ∀ k, .code k ∈ stack → k.waits)
    (hc : CallsOnce ⟨c, stack⟩ (.enter e)) (ha : Accepts ⟨c, stack⟩ (.enter e)) (he : enter e c = some (c', items)) :
    ∀ k, .code k ∈ stack → Checked c' k := by
  intro k hm
  have hwk := hw k hm
  have hck := hs.checked k hm
  cases k with
  | freeRefs r i =>
    obtain ⟨hd, hi, hf⟩ := hck
    have hfreeing : Freeing stack := List.any_eq_true.mpr ⟨_, hm, rfl⟩
    have hsize := size_enter he (by
      rintro object onFree rfl
      exact ha hfreeing)
    have hinvoked := invoked_code hs.counted hm rfl
    refine ⟨hd, hi, hf.other ?_ ?_ hsize⟩
    · cases enter_enters he with
      | @resume q o hlt =>
        have hne : r ≠ q := by
          rintro rfl
          exact hinvoked hc
        simp [hne]
      | _ => rfl
    · intro b hb
      cases enter_enters he with
      | recvDone hr hl => exact Function.update_of_ne (hs.buffers.bound r b hb).ne _ _
      | _ => rfl
  | nextStep | step | writeResult => simp [Code.waits] at hwk
  | _ => trivial

theorem waits_of_envControls {stack : Stack} (hw : ∀ k, .code k ∈ stack.tail → k.waits) (henv : EnvControls stack) :
    ∀ k, .code k ∈ stack → k.waits := by
  intro k hm
  cases stack with
  | nil => cases hm
  | cons item rest =>
    rcases List.mem_cons.mp hm with rfl | hm
    · exact henv.elim
    · exact hw k hm

theorem waits_enter {stack : Stack} {e : Entry} (hw : ∀ k, .code k ∈ stack → k.waits) (he : Enters c e c' items) :
    ∀ k, .code k ∈ (items ++ stack).tail → k.waits := by
  intro k hm
  cases he <;> first
    | exact hw k (by simpa using hm)
    | exact hw k (List.mem_of_mem_tail hm)

theorem safe_enter {stack : Stack} {e : Entry} (hs : Safe c stack) (henv : EnvControls stack)
    (hc : CallsOnce ⟨c, stack⟩ (.enter e)) (ha : Accepts ⟨c, stack⟩ (.enter e)) (h : enter e c = some (c', items)) :
    Safe c' (items ++ stack) := by
  have he := enter_enters h
  have hw := waits_of_envControls hs.waits henv
  have hold := checked_env hs hw hc ha h
  have hstart : .code .start ∉ stack := fun hm => absurd (hw _ hm) (by decide)
  refine ⟨counted_enter hs.counted hc he, named_enter hs.named he, buffers_enter hs.buffers henv he,
    fun k hm => ?_, waits_enter hw he, asked_enter hs.asked he, fun p hm => ?_, fun hu => ?_, fun hm => ?_⟩
  · rcases List.mem_append.mp hm with hm | hm
    · cases he with
      | @resume r o hr =>
        obtain rfl : k = .nextStep r := by simpa using hm
        rcases hs.asked r hc with hf | hf
        · exact ⟨.stepCall2, by simpa [Request.complete] using hf, trivial⟩
        · exact ⟨.stepPoll2, by simpa [Request.complete] using hf, trivial⟩
      | @sendDone r f hm' =>
        obtain rfl : k = .step f r := by simpa using hm
        have hlate := hs.sending _ hm'
        show Parsed _ r f
        cases f <;> trivial
      | _ =>
        simp at hm
        try subst hm
        try trivial
    · exact hold k hm
  · cases he with
    | sendDone hm' => exact hs.sending p (List.mem_of_mem_erase hm)
    | _ => exact hs.sending p hm
  · cases he with
    | start ho hst =>
      obtain ⟨hr, hn, h1, h2⟩ := hs.started (.inl hst)
      exact ⟨hr, hn, by simpa using h1, by simpa using h2⟩
    | recvDone hr | recvError hr =>
      have hu : c.started = false := hu.resolve_right (by simpa using hstart)
      have := (hs.started (.inl hu)).receiving
      rw [hr] at this
      cases this
    | _ =>
      have hu : c.started = false := hu.resolve_right (by simpa using hstart)
      obtain ⟨hr, hn, h1, h2⟩ := hs.started (.inl hu)
      exact ⟨hr, hn, by simpa using h1, by simpa using h2⟩
  · cases he with
    | start => rfl
    | _ => exact absurd hm (by simpa using hstart)

end

theorem safe_preserves : program.Preserves (fun c m => CallsOnce c m ∧ Accepts c m) fun c => Safe c.state c.stack where
  exec h hg he := safe_exec h hg.2 he
  ret h _ := safe_ret h
  enter henv h hg he := safe_enter h henv hg.1 hg.2 he

/-! ### What is promised of the code -/

theorem safe_confined {c : ServCo} {k : Code} {rest : Stack} (hs : Safe c (.code k :: rest))
    (ha : Accepts ⟨c, .code k :: rest⟩ .run) : Confined c k := by
  have hk := hs.checked k List.mem_cons_self
  cases k with
  | step2 =>
    by_cases hc : c.closed
    · exact .inl hc
    · cases he : c.receiveError with
      | some error => exact .inr (.inl (by rw [he]; rfl))
      | none =>
        obtain ⟨b, hb⟩ := hs.buffers.fresh rfl he
        obtain ⟨frame, hf, -⟩ := hb.frame
        have hw : WellFormed c frame := by
          refine ha (Bool.eq_false_iff.mpr hc) he frame ?_
          unfold ServCo.frame
          rw [hb.base]
          exact hf
        have hread := @read_frame c b 0 8 frame hf hw.header
        refine .inr (.inr ?_)
        rw [hb.base]
        exact Option.isSome_iff_exists.mpr ⟨_, hread⟩
  | nextStep r =>
    obtain ⟨f, hf, -⟩ := hk
    exact Option.isSome_iff_exists.mpr ⟨f, hf⟩
  | writeResult r =>
    obtain ⟨f, hf, -⟩ := (Option.any_eq_true _ _).mp hk
    exact Option.isSome_iff_exists.mpr ⟨f, hf⟩
  | pollCall r => exact ha
  | freeRefs r i =>
    obtain ⟨hd, hi, frame, hp, hd', -, hall⟩ := hk
    obtain ⟨b, -, -, hlen⟩ := hp.base
    refine ⟨hi, fun hlt => ?_⟩
    have h8 := hp.length.1
    exact ⟨_, hp.readWord (by omega), hall i hd (by omega)⟩
  | step f r =>
    cases f with
    | stepCall1 =>
      obtain ⟨hc, frame, hp⟩ := hk
      exact ⟨hc, hp.readable⟩
    | stepGetFunc1 =>
      obtain ⟨frame, hp⟩ := hk
      exact hp.readable
    | stepPoll1 =>
      obtain ⟨frame, hp, hl⟩ := hk
      have hw := hp.readWord (i := 0) hl
      exact Option.isSome_iff_exists.mpr ⟨word frame 8, by simpa [Addr.add] using hw⟩
    | _ => trivial
  | _ => trivial

theorem confined_exec {c : ServCo} {k : Code} {rest : Stack} (hc : Counted c (.code k :: rest)) (h : Confined c k)
    (hk : k.handles) : (exec k c).isSome := by
  obtain ⟨r, hr⟩ : ∃ r, k.request = some r := by
    refine Option.isSome_iff_exists.mp ?_
    unfold Code.handles at hk
    split at hk <;> first | exact hk | cases hk
  obtain ⟨hm, hl⟩ := counted_top hc hr
  rw [exec.eq_def, if_neg (by simp [hl, hr, hm])]
  cases k with
  | nextStep r =>
    obtain ⟨f, hf⟩ := Option.isSome_iff_exists.mp h
    simp [hf]
  | writeResult r =>
    have hf : (c.request r).flip.nextStep.isSome := by
      rw [flip_nextStep]
      exact h
    obtain ⟨f, hf⟩ := Option.isSome_iff_exists.mp hf
    dsimp only [writeResult]
    split
    · rfl
    · simp [hf]
  | pollCall r =>
    obtain ⟨id, hi⟩ := Option.isSome_iff_exists.mp h.2
    simp [pollCall, show (prepareRequest (c.request r)).callableIndex = (c.request r).callableIndex from rfl, hi]
  | freeRefs r i =>
    obtain ⟨hi, hw⟩ := h
    dsimp only [freeRefs]
    rw [if_neg (by omega)]
    split
    · rename_i hlt
      obtain ⟨index, hw, -⟩ := hw hlt
      simp [hw]
    · rfl
  | step f r =>
    cases f with
    | stepCall1 =>
      obtain ⟨id, hi⟩ := Option.isSome_iff_exists.mp h.1.2
      simp [step, hi]
    | stepPoll1 =>
      obtain ⟨w, hw⟩ := Option.isSome_iff_exists.mp h
      simp [step, hw]
    | stepGetFunc1 => cases hk
    | stepCall2 =>
      dsimp only [step]
      split <;> rfl
    | _ => rfl
  | finish2 r => cases hk
  | poll3 r | finish1 r => rfl
  | _ => cases hr

theorem safe_stays {c : Config} {m : Move Entry} (hs : Safe c.state c.stack) (ha : Accepts c m) : StaysConfined c m := by
  obtain ⟨s, stack⟩ := c
  cases m with
  | run =>
    cases stack with
    | nil => trivial
    | cons item rest =>
      cases item with
      | ext e => trivial
      | code k =>
        have hc := safe_confined hs ha
        exact ⟨hc, confined_exec hs.counted hc⟩
  | ret => trivial
  | enter e => trivial

/-- Whatever is received, called and freed and in whatever order: as long as frames are well
formed where they are processed, the server stays inside them and inside its pool. -/
theorem frames_confined (funcmap : Option (List UInt8 → Option Nat)) (onClosed : Bool) (ms : List (Move Entry))
    (hc : Along program.step CallsOnce (new funcmap onClosed) ms)
    (ha : Along program.step Accepts (new funcmap onClosed) ms) :
    Along program.step StaysConfined (new funcmap onClosed) ms := by
  have hboth : Along program.step (fun c m => StaysConfined c m ∧ Accepts c m) (new funcmap onClosed) ms := by
    refine (along_iff (J := fun c : Config => Safe c.state c.stack) (L := CallsOnce)
      (fun c m c' hs hc ha h => ?_) (fun c m hs _ => ?_) (safe_new funcmap onClosed) hc).mpr ha
    · exact safe_preserves.step hs ⟨hc, ha⟩ h
    · exact ⟨And.right, fun ha => ⟨safe_stays hs ha, ha⟩⟩
  exact hboth.mono fun _ _ h => h.1

/-- Two entries are allocated, one is called, both are freed by one request. -/
def freedBoth : List (Move Entry) :=
  [.enter .start, .run, .run, .ret, .enter (.allocRef (.callable 7) none), .enter (.allocRef (.other 8) (some 3)),
    .enter (.recvDone [1, 0, 0, 0, 0, 0, 0, 0]), .run, .run, .run, .ret, .run, .ret,
    .enter (.recvDone [2, 0, 0, 0, 0xfe, 0xff, 0xff, 0xff, 0, 0, 0, 0, 1, 0, 0, 0]), .run, .run, .run, .run, .run, .run,
    .run, .run, .ret, .run, .run, .run, .run]

theorem freedBoth_confined : (run program.step (new none false) freedBoth).any (fun c => .freed 3 ∈ c.state.log) ∧
    Along program.step StaysConfined (new none false) freedBoth :=
  ⟨by decide +kernel, frames_confined none false freedBoth (by decide +kernel) (by decide +kernel)⟩

/-- A frame is received on a new context and processed. -/
def received (frame : List UInt8) : List (Move Entry) :=
  [.enter .start, .run, .run, .ret, .enter (.recvDone frame), .run, .run]

/-- The frame ends inside its header; there is no such builtin. -/
theorem malformed_escapes :
    ¬ Along program.step StaysConfined (new none false) (received [1, 0, 0, 0, 0, 0, 0]) ∧
    ¬ Along program.step StaysConfined (new none false) (received [1, 0, 0, 0, 0xfa, 0xff, 0xff, 0xff]) := by
  decide +kernel

end PxpRpc.Server
