import PxpRpc.Server.Code

/-!
# What the code of the C server does

One inversion of `exec`: everything a piece of code can be when it is run on a
context and a request that are still allocated.
-/
namespace PxpRpc.Server

open PxpRpc.Lib PxpRpc.Lib.Callback PxpRpc.Pool PxpRpc.Pool.Native

/-- Every way a piece of code can run to its next external call or its end. -/
inductive Runs (c : ServCo) : Code → ServCo → Stack → Prop
  | start : Runs c .start
      { c with pool := { c.pool with block := c.pool.block + 1, refPool := [], refPoolSize := 0 }, closed := false }
      [.code .step1]
  | step1Closed (hc : c.closed) : Runs c .step1 c []
  | step1 (hc : c.closed = false) : Runs c .step1 { c with receiving := true } [.ext .receive]
  | step2Closed (hc : c.closed) : Runs c .step2 c []
  | step2Error (hc : c.closed = false) (he : c.receiveError.isSome) :
      Runs c .step2 { c with lastError := c.receiveError } [.code .close]
  | step2 {session callableIndex : BitVec 32} {frame : List UInt8} (hc : c.closed = false)
      (he : c.receiveError = none) (hs : c.readWord c.recvBuf.base = some session)
      (hi : c.readWord (c.recvBuf.base.add 4) = some callableIndex)
      (hf : c.read c.recvBuf.base c.recvBuf.length.toNat = some frame) (hn : c.refCount + 1 < 2 ^ 31) :
      Runs c .step2
        ((({ c with lastError := c.receiveError }.emit (.received c.nextRequest c.recvBuf.base frame)).addRequest session
          callableIndex).counted 1)
        [.code (.nextStep c.nextRequest), .code .step1]
  | nextStep {r : Nat} {f : NextStep} (hf : (c.request r).nextStep = some f) :
      Runs c (.nextStep r) c [.code (.step f r)]
  | finishRequest {r : Nat} (he : c.sendError = none) :
      Runs c (.step .finishRequest r) c [.code (.finish1 r)]
  | finishRequestError {r : Nat} (he : c.sendError.isSome) :
      Runs c (.step .finishRequest r) { c with lastError := c.sendError } [.code .close, .code (.finish1 r)]
  | stepCall2 {r : Nat} (hs : (c.request r).session ≠ 0xffffffff#32) :
      Runs c (.step .stepCall2 r)
        (c.setRequest r { c.request r with nextStep := some .finishRequest }) [.code (.writeResult r)]
  | stepCall2Signal {r : Nat} (hs : (c.request r).session = 0xffffffff#32) :
      Runs c (.step .stepCall2 r) c [.code (.step .finishRequest r)]
  | stepCall1 {r id : Nat} (hi : c.callable (c.request r).callableIndex = some id) :
      Runs c (.step .stepCall1 r)
        ((c.setRequest r { c.request r with nextStep := some .stepCall2 }).invoke r id) [.ext (.call r id)]
  | stepFreeRef1 {r : Nat} : Runs c (.step .stepFreeRef1 r) c [.code (.freeRefs r 0)]
  | stepGetFunc1 {r : Nat} {pool : RefPool Obj Nat} {index : BitVec 32} :
      Runs c (.step .stepGetFunc1 r)
        ({ c with pool }.setRequest r
          { c.request r with result := { (c.request r).result with bytes := leBytes 4 index.toNat } })
        [.code (.step .stepCall2 r)]
  | stepClose1 {r : Nat} : Runs c (.step .stepClose1 r) c [.code .close]
  | stepGetInfo1 {r : Nat} :
      Runs c (.step .stepGetInfo1 r)
        (c.setRequest r
          { c.request r with result := { (c.request r).result with bytes := serverInfo.toUTF8.toList } })
        [.code (.step .stepCall2 r)]
  | stepPoll3 {r : Nat} (he : c.sendError = none) : Runs c (.step .stepPoll3 r) c [.code (.poll3 r)]
  | stepPoll3Error {r : Nat} (he : c.sendError.isSome) :
      Runs c (.step .stepPoll3 r) { c with lastError := c.sendError } [.code .close, .code (.poll3 r)]
  | stepPoll2 {r : Nat} :
      Runs c (.step .stepPoll2 r) (c.setRequest r { c.request r with nextStep := some .stepPoll3 })
        [.code (.writeResult r)]
  | stepPoll1 {r : Nat} {callableIndex : BitVec 32}
      (hi : c.readWord (c.request r).parameter.base = some callableIndex) :
      Runs c (.step .stepPoll1 r)
        (c.setRequest r
          { c.request r with
            callableIndex
            parameter := ⟨(c.request r).parameter.base.add 4, (c.request r).parameter.length - 4⟩ })
        [.code (.pollCall r)]
  | writeResultClosed {r : Nat} (hc : c.closed) :
      Runs c (.writeResult r) (c.setRequest r (c.request r).flip) []
  | writeResult {r : Nat} {f : NextStep} (hc : c.closed = false) (hf : (c.request r).nextStep = some f) :
      Runs c (.writeResult r)
        ({ c.setRequest r (c.request r).flip with sending := (r, f) :: c.sending }.emit
          (.sent r (c.request r).flip.session (c.request r).result.sent))
        [.ext (.send r)]
  | freeRefs {r i : Nat} {index : BitVec 32} (hi : i < (c.request r).parameter.length.toNat)
      (hw : c.readWord ((c.request r).parameter.base.add i) = some index) :
      Runs c (.freeRefs r i) c [.code (.freeRef (serverGetRef c.pool index.toNat)), .code (.freeRefs r (i + 4))]
  | freeRefsDone {r i : Nat} (hi : ¬ i < (c.request r).parameter.length.toNat) :
      Runs c (.freeRefs r i) c [.code (.step .stepCall2 r)]
  | pollCall {r id : Nat} (hi : c.callable (c.request r).callableIndex = some id) :
      Runs c (.pollCall r)
        ((c.setRequest r { prepareRequest (c.request r) with nextStep := some .stepPoll2 }).invoke r id)
        [.ext (.call r id)]
  | pollEnd {r : Nat} (hr : (c.request r).rejected ∨ c.closed) :
      Runs c (.poll3 r)
        (c.setRequest r
          { c.request r with
            callableIndex := -5
            parameter := ⟨(c.request r).parameter.base.add (-4), (c.request r).parameter.length + 4⟩ })
        [.code (.step .finishRequest r)]
  | pollHook {r hook : Nat} (hr : (c.request r).rejected = false) (hc : c.closed = false)
      (hf : (c.request r).onFinish = some hook) :
      Runs c (.poll3 r) (c.emit (.polled r hook)) [.ext (.onFinish r hook), .code (.pollCall r)]
  | pollNext {r : Nat} (hr : (c.request r).rejected = false) (hc : c.closed = false)
      (hf : (c.request r).onFinish = none) :
      Runs c (.poll3 r) c [.code (.pollCall r)]
  | finishHook {r hook : Nat} (hf : (c.request r).onFinish = some hook) :
      Runs c (.finish1 r) (c.emit (.finishing r (some hook))) [.ext (.onFinish r hook), .code (.finish2 r)]
  | finish {r : Nat} (hf : (c.request r).onFinish = none) :
      Runs c (.finish1 r) (c.emit (.finishing r none)) [.code (.finish2 r)]
  | finishOwned {r : Nat} (hb : (c.request r).parameter.base.block = none) :
      Runs c (.finish2 r) ({ c.counted (-1) with allocated := c.allocated.erase r }.emit (.finished r)) []
  | finishFree {r b : Nat} (hb : (c.request r).parameter.base = ⟨some b, 8⟩) (hf : (c.frames b).isSome) :
      Runs c (.finish2 r)
        ({ ({ c with frames := Function.update c.frames b none }.emit (.bufFree b)).counted (-1) with
          allocated := c.allocated.erase r }.emit (.finished r)) []
  | closeAgain (hc : c.closed) : Runs c .close c []
  | close (hc : c.closed = false) : Runs c .close { c with closed := true } [.code (.closeRefs 0)]
  | closeRefsHook {i hook : Nat} :
      Runs c (.closeRefs i) (c.emit (.freed hook))
        [.ext (.onFree hook), .code (.closeUnset (serverGetRef c.pool i)), .code (.closeRefs (i + 1))]
  | closeRefs {i : Nat} {pool : RefPool Obj Nat} :
      Runs c (.closeRefs i) { c with pool } [.code (.closeRefs (i + 1))]
  | closeRefsDone {i : Nat} : Runs c (.closeRefs i) c [.code .closeIo]
  | closeUnset {ref : Ptr} {pool : RefPool Obj Nat} : Runs c (.closeUnset ref) { c with pool } []
  | closeIo : Runs c .closeIo c [.ext .ioClose, .code .closeCb]
  | closeCb (hc : c.onClosed) : Runs c .closeCb c [.ext .onClosed]
  | closeCbNone (hc : c.onClosed = false) : Runs c .closeCb c []
  | freeRefHook {ref : Ptr} {hook : Nat} :
      Runs c (.freeRef ref) (c.emit (.freed hook)) [.ext (.onFree hook), .code (.freePush ref)]
  | freeRef {ref : Ptr} : Runs c (.freeRef ref) c [.code (.freePush ref)]
  | freePush {ref : Ptr} {pool : RefPool Obj Nat} : Runs c (.freePush ref) { c with pool } []
  | delete : Runs c .delete c [.code .close, .code .deleteCount]
  | deleteCount : Runs c .deleteCount (c.counted (-1)) []

theorem refCountAdd_eq {c c' : ServCo} {n : Int} (h : c.refCountAdd n = some c') :
    c' = c.counted n ∧ c.refCount + n < 2 ^ 31 := by
  rw [ServCo.refCountAdd] at h
  split at h
  · rename_i hn
    exact ⟨(Option.some.inj h).symm, hn.2⟩
  · cases h

theorem add_eq_zero {a : Addr} {b : Nat} (hb : a.block = some b) (ho : (a.add (-8)).off = 0) : a = ⟨some b, 8⟩ := by
  obtain ⟨block, off⟩ := a
  obtain rfl : block = some b := hb
  have : off = 8 := by simpa [Addr.add, add_neg_eq_zero] using ho
  rw [this]

section

variable {c c' : ServCo} {r : Nat} {items : Stack}

theorem step2_runs (h : step2 c = some (c', items)) : Runs c .step2 c' items := by
  rw [step2.eq_def] at h
  split at h
  · obtain ⟨rfl, rfl⟩ := Prod.mk.inj (Option.some.inj h)
    exact .step2Closed ‹_›
  · rename_i hc
    have hc : c.closed = false := Bool.eq_false_iff.mpr hc
    dsimp only at h
    split at h
    · obtain ⟨rfl, rfl⟩ := Prod.mk.inj (Option.some.inj h)
      exact .step2Error hc ‹_›
    · rename_i he
      have he : c.receiveError = none := by simpa using he
      obtain ⟨session, hs, h⟩ := Option.bind_eq_some_iff.mp h
      obtain ⟨callableIndex, hi, h⟩ := Option.bind_eq_some_iff.mp h
      obtain ⟨frame, hf, h⟩ := Option.bind_eq_some_iff.mp h
      obtain ⟨c₁, hn, h⟩ := Option.map_eq_some_iff.mp h
      obtain ⟨rfl, rfl⟩ := Prod.mk.inj h
      rw [(refCountAdd_eq hn).1]
      exact .step2 hc he hs hi hf (refCountAdd_eq hn).2

theorem writeResult_runs (h : writeResult r c = some (c', items)) : Runs c (.writeResult r) c' items := by
  rw [writeResult.eq_def] at h
  have hn : (c.request r).flip.nextStep = (c.request r).nextStep := by
    rw [Request.flip]
    split <;> rfl
  have hr : (c.request r).flip.result = (c.request r).result := by
    rw [Request.flip]
    split <;> rfl
  dsimp only at h
  split at h
  · obtain ⟨rfl, rfl⟩ := Prod.mk.inj (Option.some.inj h)
    exact .writeResultClosed ‹_›
  · rename_i hc
    obtain ⟨f, hf, h⟩ := Option.map_eq_some_iff.mp h
    obtain ⟨rfl, rfl⟩ := Prod.mk.inj h
    rw [hr]
    exact .writeResult (Bool.eq_false_iff.mpr hc) (hn ▸ hf)

theorem getFunc_pool {index : BitVec 32} (h : getFunc r c = some (c', index)) : ∃ pool, c' = { c with pool } := by
  rw [getFunc.eq_def] at h
  split at h
  · obtain ⟨rfl, rfl⟩ := Prod.mk.inj (Option.some.inj h)
    exact ⟨c.pool, rfl⟩
  · obtain ⟨name, -, h⟩ := Option.bind_eq_some_iff.mp h
    split at h
    · obtain ⟨rfl, rfl⟩ := Prod.mk.inj (Option.some.inj h)
      exact ⟨c.pool, rfl⟩
    · obtain ⟨⟨pool, ref2, i⟩, -, h⟩ := Option.bind_eq_some_iff.mp h
      obtain ⟨e, -, h⟩ := Option.bind_eq_some_iff.mp h
      obtain ⟨pool', -, h⟩ := Option.map_eq_some_iff.mp h
      exact ⟨pool', (Prod.mk.inj h).1.symm⟩

theorem step_runs {f : NextStep} (h : step f r c = some (c', items)) : Runs c (.step f r) c' items := by
  rw [step.eq_def] at h
  cases f with
  | finishRequest =>
    dsimp only [ServCo.checkSend] at h
    split at h
    · obtain ⟨rfl, rfl⟩ := Prod.mk.inj (Option.some.inj h)
      exact .finishRequestError ‹_›
    · obtain ⟨rfl, rfl⟩ := Prod.mk.inj (Option.some.inj h)
      exact .finishRequest (by simpa using ‹¬ c.sendError.isSome = true›)
  | stepCall2 =>
    dsimp only at h
    split at h
    · obtain ⟨rfl, rfl⟩ := Prod.mk.inj (Option.some.inj h)
      exact .stepCall2 ‹_›
    · obtain ⟨rfl, rfl⟩ := Prod.mk.inj (Option.some.inj h)
      exact .stepCall2Signal (not_not.mp ‹_›)
  | stepCall1 =>
    obtain ⟨id, hi, h⟩ := Option.map_eq_some_iff.mp h
    obtain ⟨rfl, rfl⟩ := Prod.mk.inj h
    exact .stepCall1 hi
  | stepFreeRef1 =>
    obtain ⟨rfl, rfl⟩ := Prod.mk.inj (Option.some.inj h)
    exact .stepFreeRef1
  | stepGetFunc1 =>
    obtain ⟨⟨c₁, index⟩, hg, h⟩ := Option.map_eq_some_iff.mp h
    obtain ⟨rfl, rfl⟩ := Prod.mk.inj h
    obtain ⟨pool, rfl⟩ := getFunc_pool hg
    exact .stepGetFunc1
  | stepClose1 =>
    obtain ⟨rfl, rfl⟩ := Prod.mk.inj (Option.some.inj h)
    exact .stepClose1
  | stepGetInfo1 =>
    obtain ⟨rfl, rfl⟩ := Prod.mk.inj (Option.some.inj h)
    exact .stepGetInfo1
  | stepPoll3 =>
    dsimp only [ServCo.checkSend] at h
    split at h
    · obtain ⟨rfl, rfl⟩ := Prod.mk.inj (Option.some.inj h)
      exact .stepPoll3Error ‹_›
    · obtain ⟨rfl, rfl⟩ := Prod.mk.inj (Option.some.inj h)
      exact .stepPoll3 (by simpa using ‹¬ c.sendError.isSome = true›)
  | stepPoll2 =>
    obtain ⟨rfl, rfl⟩ := Prod.mk.inj (Option.some.inj h)
    exact .stepPoll2
  | stepPoll1 =>
    obtain ⟨callableIndex, hi, h⟩ := Option.map_eq_some_iff.mp h
    obtain ⟨rfl, rfl⟩ := Prod.mk.inj h
    exact .stepPoll1 hi

theorem poll3_runs : Runs c (.poll3 r) (poll3 r c).1 (poll3 r c).2 := by
  rw [poll3.eq_def]
  dsimp only
  split
  · rename_i h
    exact .pollEnd (by simpa using h)
  · rename_i h
    have h : (c.request r).rejected = false ∧ c.closed = false := by simpa using h
    split
    · exact .pollHook h.1 h.2 ‹_›
    · exact .pollNext h.1 h.2 ‹_›

theorem finish2_runs (h : finish2 r c = some (c', items)) : Runs c (.finish2 r) c' items := by
  rw [finish2.eq_def] at h
  obtain ⟨c₁, hb, h⟩ := Option.bind_eq_some_iff.mp h
  obtain ⟨c₂, hn, h⟩ := Option.map_eq_some_iff.mp h
  obtain rfl := (refCountAdd_eq hn).1
  obtain ⟨rfl, rfl⟩ := Prod.mk.inj h
  cases hbase : (c.request r).parameter.base.block with
  | none =>
    obtain rfl : c = c₁ := by
      split at hb
      · rw [ServCo.bufFree, show ((c.request r).parameter.base.add (-8)).block = none from hbase] at hb
        simp only [Option.ite_none_right_eq_some] at hb
        exact Option.some.inj hb.2
      · exact Option.some.inj hb
    exact .finishOwned hbase
  | some b =>
    have hne : (c.request r).parameter.base ≠ .null := by
      intro hn
      rw [hn] at hbase
      cases hbase
    rw [if_pos hne, ServCo.bufFree, show ((c.request r).parameter.base.add (-8)).block = some b from hbase] at hb
    dsimp only at hb
    split at hb
    · rename_i hf
      obtain rfl := Option.some.inj hb
      exact .finishFree (add_eq_zero hbase hf.1) hf.2
    · cases hb

theorem freeRefs_runs {i : Nat} (h : freeRefs r i c = some (c', items)) : Runs c (.freeRefs r i) c' items := by
  rw [freeRefs.eq_def] at h
  dsimp only at h
  split at h
  · cases h
  · split at h
    · obtain ⟨index, hw, h⟩ := Option.map_eq_some_iff.mp h
      obtain ⟨rfl, rfl⟩ := Prod.mk.inj h
      exact .freeRefs ‹_› hw
    · obtain ⟨rfl, rfl⟩ := Prod.mk.inj (Option.some.inj h)
      exact .freeRefsDone ‹_›

theorem closeRefs_runs {i : Nat} (h : closeRefs i c = some (c', items)) : Runs c (.closeRefs i) c' items := by
  rw [closeRefs.eq_def] at h
  split at h
  · obtain ⟨e, -, h⟩ := Option.bind_eq_some_iff.mp h
    split at h
    · obtain ⟨rfl, rfl⟩ := Prod.mk.inj (Option.some.inj h)
      exact .closeRefsHook
    · obtain ⟨pool, -, h⟩ := Option.map_eq_some_iff.mp h
      obtain ⟨rfl, rfl⟩ := Prod.mk.inj h
      exact .closeRefs
  · obtain ⟨rfl, rfl⟩ := Prod.mk.inj (Option.some.inj h)
    exact .closeRefsDone

end

/-- What code touches is still allocated. -/
theorem exec_guard {c : ServCo} {k : Code} {p : ServCo × Stack} (h : exec k c = some p) :
    (k.touches → c.live) ∧ ∀ r, k.request = some r → r ∈ c.allocated := by
  rw [exec.eq_def] at h
  split at h
  · cases h
  · rename_i hg
    simp only [Bool.or_eq_true, Bool.and_eq_true, not_or, not_and, Option.any_eq_true, not_exists] at hg
    refine ⟨fun ht => by simpa using hg.1 ht, fun r hr => ?_⟩
    simpa using hg.2 r hr

/-- Everything a piece of code can do. -/
theorem exec_runs {c c' : ServCo} {k : Code} {items : Stack} (h : exec k c = some (c', items)) :
    Runs c k c' items := by
  rw [exec.eq_def] at h
  split at h
  · cases h
  · cases k with
    | start =>
      obtain ⟨rfl, rfl⟩ := Prod.mk.inj (Option.some.inj h)
      exact .start
    | step1 =>
      dsimp only at h
      split at h
      · obtain ⟨rfl, rfl⟩ := Prod.mk.inj (Option.some.inj h)
        exact .step1Closed ‹_›
      · obtain ⟨rfl, rfl⟩ := Prod.mk.inj (Option.some.inj h)
        exact .step1 (Bool.eq_false_iff.mpr ‹_›)
    | step2 => exact step2_runs h
    | nextStep r =>
      obtain ⟨f, hf, h⟩ := Option.map_eq_some_iff.mp h
      obtain ⟨rfl, rfl⟩ := Prod.mk.inj h
      exact .nextStep hf
    | step f r => exact step_runs h
    | writeResult r => exact writeResult_runs h
    | freeRefs r i => exact freeRefs_runs h
    | pollCall r =>
      obtain ⟨id, hi, h⟩ := Option.map_eq_some_iff.mp h
      obtain ⟨rfl, rfl⟩ := Prod.mk.inj h
      exact .pollCall hi
    | poll3 r =>
      obtain ⟨rfl, rfl⟩ := Prod.mk.inj (Option.some.inj h)
      exact poll3_runs
    | finish1 r =>
      obtain ⟨rfl, rfl⟩ := Prod.mk.inj (Option.some.inj h)
      cases hf : (c.request r).onFinish with
      | some hook => exact .finishHook hf
      | none => exact .finish hf
    | finish2 r => exact finish2_runs h
    | close =>
      dsimp only at h
      split at h
      · obtain ⟨rfl, rfl⟩ := Prod.mk.inj (Option.some.inj h)
        exact .closeAgain ‹_›
      · obtain ⟨rfl, rfl⟩ := Prod.mk.inj (Option.some.inj h)
        exact .close (Bool.eq_false_iff.mpr ‹_›)
    | closeRefs i => exact closeRefs_runs h
    | closeUnset ref =>
      obtain ⟨e, -, h⟩ := Option.bind_eq_some_iff.mp h
      obtain ⟨pool, -, h⟩ := Option.map_eq_some_iff.mp h
      obtain ⟨rfl, rfl⟩ := Prod.mk.inj h
      exact .closeUnset
    | closeIo =>
      obtain ⟨rfl, rfl⟩ := Prod.mk.inj (Option.some.inj h)
      exact .closeIo
    | closeCb =>
      obtain ⟨rfl, rfl⟩ := Prod.mk.inj (Option.some.inj h)
      cases hc : c.onClosed with
      | true => exact .closeCb hc
      | false => exact .closeCbNone hc
    | freeRef ref =>
      obtain ⟨e, -, h⟩ := Option.map_eq_some_iff.mp h
      split at h
      · obtain ⟨rfl, rfl⟩ := Prod.mk.inj h
        exact .freeRefHook
      · obtain ⟨rfl, rfl⟩ := Prod.mk.inj h
        exact .freeRef
    | freePush ref =>
      obtain ⟨pool, -, h⟩ := Option.map_eq_some_iff.mp h
      obtain ⟨rfl, rfl⟩ := Prod.mk.inj h
      exact .freePush
    | delete =>
      obtain ⟨rfl, rfl⟩ := Prod.mk.inj (Option.some.inj h)
      exact .delete
    | deleteCount =>
      obtain ⟨c₁, hn, h⟩ := Option.map_eq_some_iff.mp h
      obtain rfl := (refCountAdd_eq hn).1
      obtain ⟨rfl, rfl⟩ := Prod.mk.inj h
      exact .deleteCount

/-- Every call the environment can make. -/
inductive Enters (c : ServCo) : Entry → ServCo → Stack → Prop
  | start (ho : c.owner) (hs : c.started = false) : Enters c .start { c with started := true } [.code .start]
  | recvDone {frame : List UInt8} (hr : c.receiving) (hf : frame.length < 2 ^ 32) :
      Enters c (.recvDone frame)
        { c with
          receiving := false
          receiveError := none
          frames := Function.update c.frames c.nextFrame (some frame)
          nextFrame := c.nextFrame + 1
          recvBuf := ⟨⟨some c.nextFrame, 0⟩, BitVec.ofNat 32 frame.length⟩ }
        [.code .step2]
  | recvError {error : String} (hr : c.receiving) :
      Enters c (.recvError error) { c with receiving := false, receiveError := some error } [.code .step2]
  | sendDone {r : Nat} {f : NextStep} (hs : (r, f) ∈ c.sending) :
      Enters c (.sendDone r f) { c with sending := c.sending.erase (r, f) } [.code (.step f r)]
  | sendError {error : Option String} : Enters c (.sendError error) { c with sendError := error } []
  | resume {r : Nat} {o : Outcome} (hr : r < c.nextRequest) :
      Enters c (.resume r o)
        ({ c.setRequest r ((c.request r).complete o) with invoked := c.invoked.erase r }.emit (.resumed r o))
        [.code (.nextStep r)]
  | close (hl : c.live) : Enters c .close c [.code .close]
  | delete (ho : c.owner) : Enters c .delete { c with owner := false } [.code .delete]
  | allocRef {object : Obj} {onFree : Option Nat} {pool : RefPool Obj Nat} (hl : c.live) :
      Enters c (.allocRef object onFree) { c with pool } []
  | freeRef {index : Nat} (hl : c.live) :
      Enters c (.freeRef index) c [.code (.freeRef (serverGetRef c.pool index))]

theorem enter_enters {c c' : ServCo} {e : Entry} {items : Stack} (h : enter e c = some (c', items)) :
    Enters c e c' items := by
  rw [enter.eq_def] at h
  cases e with
  | sendError error =>
    obtain ⟨rfl, rfl⟩ := Prod.mk.inj (Option.some.inj h)
    exact .sendError
  | resume r o =>
    simp only [Option.ite_none_right_eq_some] at h
    obtain ⟨rfl, rfl⟩ := Prod.mk.inj (Option.some.inj h.2)
    exact .resume h.1
  | allocRef object onFree =>
    dsimp only at h
    split at h
    · obtain ⟨⟨pool, ref, index⟩, -, h⟩ := Option.bind_eq_some_iff.mp h
      obtain ⟨pool', -, h⟩ := Option.map_eq_some_iff.mp h
      obtain ⟨rfl, rfl⟩ := Prod.mk.inj h
      exact .allocRef ‹_›
    · cases h
  | start =>
    simp only [Option.ite_none_right_eq_some, Bool.and_eq_true, Bool.not_eq_true'] at h
    obtain ⟨⟨ho, hs⟩, h⟩ := h
    obtain ⟨rfl, rfl⟩ := Prod.mk.inj (Option.some.inj h)
    exact .start ho hs
  | recvDone frame =>
    simp only [Option.ite_none_right_eq_some, Bool.and_eq_true, decide_eq_true_eq] at h
    obtain ⟨⟨hr, hf⟩, h⟩ := h
    obtain ⟨rfl, rfl⟩ := Prod.mk.inj (Option.some.inj h)
    exact .recvDone hr hf
  | recvError error =>
    simp only [Option.ite_none_right_eq_some] at h
    obtain ⟨rfl, rfl⟩ := Prod.mk.inj (Option.some.inj h.2)
    exact .recvError h.1
  | sendDone r f =>
    simp only [Option.ite_none_right_eq_some] at h
    obtain ⟨rfl, rfl⟩ := Prod.mk.inj (Option.some.inj h.2)
    exact .sendDone h.1
  | close =>
    simp only [Option.ite_none_right_eq_some] at h
    obtain ⟨rfl, rfl⟩ := Prod.mk.inj (Option.some.inj h.2)
    exact .close h.1
  | delete =>
    simp only [Option.ite_none_right_eq_some] at h
    obtain ⟨rfl, rfl⟩ := Prod.mk.inj (Option.some.inj h.2)
    exact .delete h.1
  | freeRef index =>
    simp only [Option.ite_none_right_eq_some] at h
    obtain ⟨rfl, rfl⟩ := Prod.mk.inj (Option.some.inj h.2)
    exact .freeRef h.1

end PxpRpc.Server
