import PxpRpc.Uv.Stream

/-!
# Completion of the requests on a stream

A request is completed by what it waits for or by an error. A request that is resolved
or rejected stays in its queue until the client is done with the answer.
-/
namespace PxpRpc.Uv.Stream

open PxpRpc.Lib PxpRpc.Lib.Callback

/-! ### What is to hold -/

/-- The requests that wait. -/
def UvStreamWrap.waiting (s : UvStreamWrap) : List Nat :=
  s.readWaiting ++ s.acceptWaiting ++ s.writing ++ s.connecting

/-- An error has been reported, and what is completed since or was called since is rejected. -/
def UvStreamWrap.Rejects (s : UvStreamWrap) : Prop :=
  ∀ n m, s.failed = some (n, m) →
    (∀ e ∈ s.log.drop n, e.1.kind = .read ∨ e.1.kind = .accept → ∃ errcode, e.2 = .rejected errcode) ∧
    ∀ e ∈ s.log, e.1.kind = .write → m ≤ e.1.p → ∃ errcode, e.2 = .rejected errcode

/-- Each request is completed once or waits, no read or accept when an error has been
reported; what is completed after the error is rejected. -/
structure Completes (c : Config) : Prop where
  once : (c.state.log.map fun e => e.1.p).Nodup
  called : ∀ e ∈ c.state.log, e.1.p < c.state.calls
  all : c.stack = [] → (c.state.log.map (fun e => e.1.p) ++ c.state.waiting).Perm (List.range c.state.calls)
  drained : c.stack = [] → c.state.failed.isSome → c.state.readWaiting = [] ∧ c.state.acceptWaiting = []
  rejects : c.state.Rejects
  noFault : ¬ program.Faults c

/-- A read that is being resolved or rejected. -/
def resolving : Item Code Op → Nat
  | .code .clear => 1
  | .code .popRead => 1
  | _ => 0

/-- An accept that is being rejected. -/
def refusing : Item Code Op → Nat
  | .code .popAccept => 1
  | _ => 0

/-- An accept that is being resolved. -/
def accepting : Item Code Op → Nat
  | .code .popConn => 1
  | _ => 0

/-- No read is being answered and no accept is being rejected. -/
def Quiet (stack : Stack) : Prop := total resolving stack = 0 ∧ total refusing stack = 0

instance (stack : Stack) : Decidable (Quiet stack) := by
  unfold Quiet
  infer_instance

/-- Reads and accepts are called when no read is being answered and no accept rejected, and
libuv calls back when no accept is being resolved either; it reports no error on reading,
no error while data are buffered and no data after an error. `uv_write` starts a write on
a good stream and refuses it on a failed one; an address parses, and `uv_tcp_connect`
starts. -/
def Careful (c : Config) : Move Entry → Prop
  | .enter .read => Quiet c.stack
  | .enter .accept => Quiet c.stack
  | .enter (.write r) => 0 ≤ c.state.errcode ↔ 0 ≤ r
  | .enter (.tcpConnect ip4 ip6 r) => (0 ≤ ip4 ∨ 0 ≤ ip6) ∧ 0 ≤ r
  | .enter (.nread (.data bs)) =>
      Quiet c.stack ∧ total accepting c.stack = 0 ∧ (bs = [] ∨ 0 ≤ c.state.errcode)
  | .enter (.nread (.error _)) => False
  | .enter (.connection status) =>
      Quiet c.stack ∧ total accepting c.stack = 0 ∧ (status < 0 → c.state.readBuf = [])
  | _ => True

instance (c : Config) (m : Move Entry) : Decidable (Careful c m) := by
  unfold Careful
  split <;> infer_instance

/-! ### Steps of the code -/

/-- Everything one piece of code can do. -/
inductive Runs (s : UvStreamWrap) : Code → UvStreamWrap → Stack → Prop
  | pushError {errcode : Int} : Runs s (.pushError errcode) { s with errcode } [.code .processing]
  | pushNothing : Runs s (.pushData (.data [])) s []
  | discard {nread : Nread} (h : 1024 * 1024 < s.readBuf.length) : Runs s (.pushData nread) s []
  | pushData {bs : List UInt8} (h : bs ≠ []) :
      Runs s (.pushData (.data bs)) { s with readBuf := s.readBuf ++ bs } [.code .processing]
  | idle (h : s.readWaiting = [] ∨ s.readBuf = []) : Runs s .processing s [.code .fail]
  | resolve {p : Nat} {ps : List Nat} (hw : s.readWaiting = p :: ps) (hb : s.readBuf ≠ []) :
      Runs s .processing (s.complete .read p (.bytes s.readBuf)) [.ext ⟨.read, p⟩, .code .clear]
  | clear {p : Nat} {ps : List Nat} (hw : s.readWaiting = p :: ps) :
      Runs s .clear { s with readWaiting := ps, readBuf := [] } [.code .fail]
  | fail (h : s.errcode < 0) : Runs s .fail s [.code .failRead]
  | good (h : 0 ≤ s.errcode) : Runs s .fail s []
  | readsDone (hw : s.readWaiting = []) : Runs s .failRead s [.code .failAccept]
  | failRead {p : Nat} {ps : List Nat} (hw : s.readWaiting = p :: ps) :
      Runs s .failRead (s.complete .read p (.rejected s.errcode)) [.ext ⟨.read, p⟩, .code .popRead]
  | popRead {p : Nat} {ps : List Nat} (hw : s.readWaiting = p :: ps) :
      Runs s .popRead { s with readWaiting := ps } [.code .failRead]
  | acceptsDone (hw : s.acceptWaiting = []) : Runs s .failAccept s []
  | failAccept {p : Nat} {ps : List Nat} (hw : s.acceptWaiting = p :: ps) :
      Runs s .failAccept (s.complete .accept p (.rejected s.errcode)) [.ext ⟨.accept, p⟩, .code .popAccept]
  | popAccept {p : Nat} {ps : List Nat} (hw : s.acceptWaiting = p :: ps) :
      Runs s .popAccept { s with acceptWaiting := ps } [.code .failAccept]
  | noAccept (hw : s.acceptWaiting = []) : Runs s .pushConn s []
  | pushConn {p : Nat} {ps : List Nat} (hw : s.acceptWaiting = p :: ps) :
      Runs s .pushConn (s.complete .accept p .object) [.ext ⟨.accept, p⟩, .code .popConn]
  | popConn {p : Nat} {ps : List Nat} (hw : s.acceptWaiting = p :: ps) :
      Runs s .popConn { s with acceptWaiting := ps } []
  | pullData {p : Nat} : Runs s (.pullData p) { s with readWaiting := s.readWaiting ++ [p] } [.code .processing]
  | acceptConn {p : Nat} :
      Runs s (.acceptConn p) { s with acceptWaiting := s.acceptWaiting ++ [p] } [.code .processing]
  | writeFails {p : Nat} {r : Int} (h : s.errcode < 0) :
      Runs s (.writeData p r) (s.complete .write p (.rejected s.errcode)) [.ext ⟨.write, p⟩, .code (.uvWrite p r)]
  | writeData {p : Nat} {r : Int} (h : 0 ≤ s.errcode) : Runs s (.writeData p r) s [.code (.uvWrite p r)]
  | refused {p : Nat} {r : Int} (h : r < 0) : Runs s (.uvWrite p r) s []
  | uvWrite {p : Nat} {r : Int} (h : 0 ≤ r) :
      Runs s (.uvWrite p r) { s with writing := s.writing ++ [p] } []
  | written {p : Nat} {stat : Int} :
      Runs s (.written p stat) ({ s with writing := s.writing.erase p }.complete .write p
        (if stat < 0 then .rejected stat else .int stat)) [.ext ⟨.write, p⟩]
  | unparsed {p : Nat} {ip4 ip6 r : Int} (h : (ip4 < 0 ∧ ip6 < 0) ∨ r < 0) : Runs s (.tcpConnect p ip4 ip6 r) s []
  | tcpConnect {p : Nat} {ip4 ip6 r : Int} :
      Runs s (.tcpConnect p ip4 ip6 r) { s with connecting := s.connecting ++ [p] } []
  | connected {p : Nat} {stat : Int} :
      Runs s (.connected p stat) ({ s with connecting := s.connecting.erase p }.complete .connect p
        (if stat < 0 then .rejected stat else .object)) [.ext ⟨.connect, p⟩]

section

variable {s s' t : UvStreamWrap} {k : Code} {items pushed : Stack}

theorem Runs.of_some (hr : Runs s k t pushed) (h : some (t, pushed) = some (s', items)) : Runs s k s' items := by
  obtain ⟨rfl, rfl⟩ := Prod.mk.inj (Option.some.inj h)
  exact hr

attribute [local simp] exec

theorem runs_pushData {nread : Nread} (h : exec (.pushData nread) s = some (s', items)) :
    Runs s (.pushData nread) s' items := by
  by_cases hlen : 1024 * 1024 < s.readBuf.length
  · rcases nread with (_ | ⟨b, bs⟩) | errcode
    · exact Runs.pushNothing.of_some h
    · exact (Runs.discard hlen).of_some (by simpa only [exec, if_pos hlen] using h)
    · exact (Runs.discard hlen).of_some (by simpa only [exec, if_pos hlen] using h)
  · rcases nread with (_ | ⟨b, bs⟩) | errcode
    · exact Runs.pushNothing.of_some h
    · exact (Runs.pushData (List.cons_ne_nil b bs)).of_some (by simpa only [exec, if_neg hlen] using h)
    · simp only [exec, gt_iff_lt, if_neg hlen] at h
      cases h

theorem runs_processing (h : exec .processing s = some (s', items)) : Runs s .processing s' items := by
  cases hw : s.readWaiting with
  | nil => exact (Runs.idle (.inl hw)).of_some (by simpa only [exec, hw] using h)
  | cons p ps =>
    by_cases hb : s.readBuf = []
    · exact (Runs.idle (.inr hb)).of_some (by simpa only [exec, hw, if_pos hb] using h)
    · exact (Runs.resolve hw hb).of_some (by simpa only [exec, hw, if_neg hb] using h)

theorem runs_clear (h : exec .clear s = some (s', items)) : Runs s .clear s' items := by
  cases hw : s.readWaiting with
  | nil => simp [hw] at h
  | cons p ps => exact (Runs.clear hw).of_some (by simpa only [exec, hw] using h)

theorem runs_fail (h : exec .fail s = some (s', items)) : Runs s .fail s' items := by
  by_cases he : s.errcode < 0
  · exact (Runs.fail he).of_some (by simpa only [exec, if_pos he] using h)
  · exact (Runs.good (Int.not_lt.mp he)).of_some (by simpa only [exec, if_neg he] using h)

theorem runs_failRead (h : exec .failRead s = some (s', items)) : Runs s .failRead s' items := by
  cases hw : s.readWaiting with
  | nil => exact (Runs.readsDone hw).of_some (by simpa only [exec, hw] using h)
  | cons p ps => exact (Runs.failRead hw).of_some (by simpa only [exec, hw] using h)

theorem runs_popRead (h : exec .popRead s = some (s', items)) : Runs s .popRead s' items := by
  cases hw : s.readWaiting with
  | nil => simp [hw] at h
  | cons p ps => exact (Runs.popRead hw).of_some (by simpa only [exec, hw] using h)

theorem runs_failAccept (h : exec .failAccept s = some (s', items)) : Runs s .failAccept s' items := by
  cases hw : s.acceptWaiting with
  | nil => exact (Runs.acceptsDone hw).of_some (by simpa only [exec, hw] using h)
  | cons p ps => exact (Runs.failAccept hw).of_some (by simpa only [exec, hw] using h)

theorem runs_popAccept (h : exec .popAccept s = some (s', items)) : Runs s .popAccept s' items := by
  cases hw : s.acceptWaiting with
  | nil => simp [hw] at h
  | cons p ps => exact (Runs.popAccept hw).of_some (by simpa only [exec, hw] using h)

theorem runs_pushConn (h : exec .pushConn s = some (s', items)) : Runs s .pushConn s' items := by
  cases hw : s.acceptWaiting with
  | nil => exact (Runs.noAccept hw).of_some (by simpa only [exec, hw] using h)
  | cons p ps => exact (Runs.pushConn hw).of_some (by simpa only [exec, hw] using h)

theorem runs_popConn (h : exec .popConn s = some (s', items)) : Runs s .popConn s' items := by
  cases hw : s.acceptWaiting with
  | nil => simp [hw] at h
  | cons p ps => exact (Runs.popConn hw).of_some (by simpa only [exec, hw] using h)

theorem runs_writeData {p : Nat} {r : Int} (h : exec (.writeData p r) s = some (s', items)) :
    Runs s (.writeData p r) s' items := by
  by_cases he : s.errcode < 0
  · exact (Runs.writeFails he).of_some (by simpa only [exec, if_pos he] using h)
  · exact (Runs.writeData (Int.not_lt.mp he)).of_some (by simpa only [exec, if_neg he] using h)

theorem runs_uvWrite {p : Nat} {r : Int} (h : exec (.uvWrite p r) s = some (s', items)) :
    Runs s (.uvWrite p r) s' items := by
  by_cases hr : r < 0
  · exact (Runs.refused hr).of_some (by simpa only [exec, if_pos hr] using h)
  · exact (Runs.uvWrite (Int.not_lt.mp hr)).of_some (by simpa only [exec, if_neg hr] using h)

theorem runs_tcpConnect {p : Nat} {ip4 ip6 r : Int} (h : exec (.tcpConnect p ip4 ip6 r) s = some (s', items)) :
    Runs s (.tcpConnect p ip4 ip6 r) s' items := by
  by_cases hr : (ip4 < 0 ∧ ip6 < 0) ∨ r < 0
  · exact (Runs.unparsed hr).of_some (by simpa only [exec, if_pos hr] using h)
  · exact Runs.tcpConnect.of_some (by simpa only [exec, if_neg hr] using h)

theorem exec_runs (h : exec k s = some (s', items)) : Runs s k s' items := by
  cases k with
  | pushError errcode => exact Runs.pushError.of_some h
  | pushData nread => exact runs_pushData h
  | processing => exact runs_processing h
  | clear => exact runs_clear h
  | fail => exact runs_fail h
  | failRead => exact runs_failRead h
  | popRead => exact runs_popRead h
  | failAccept => exact runs_failAccept h
  | popAccept => exact runs_popAccept h
  | pushConn => exact runs_pushConn h
  | popConn => exact runs_popConn h
  | pullData p => exact Runs.pullData.of_some h
  | acceptConn p => exact Runs.acceptConn.of_some h
  | writeData p r => exact runs_writeData h
  | uvWrite p r => exact runs_uvWrite h
  | written p stat => exact Runs.written.of_some h
  | tcpConnect p ip4 ip6 r => exact runs_tcpConnect h
  | connected p stat => exact Runs.connected.of_some h

end

/-! ### The stack -/

namespace Code

/-- What is left below the top of the stack. -/
def rests : Code → Prop
  | .clear | .popRead | .popAccept | .popConn => True
  | .uvWrite _ r => r < 0
  | _ => False

/-- What goes through the queues. -/
def works : Code → Prop
  | .pushError _ | .pushData _ | .processing | .fail | .failRead | .failAccept | .pushConn | .pullData _
  | .acceptConn _ => True
  | _ => False

/-- Callbacks of libuv that go through the queues. -/
def libuv : Code → Prop
  | .pushError _ | .pushData _ | .pushConn => True
  | _ => False

/-- The loops that reject what waits. -/
def fails : Code → Prop
  | .failRead | .popRead | .failAccept | .popAccept => True
  | _ => False

/-- What is promised of a piece of code when it starts. -/
def Ready (s : UvStreamWrap) : Code → Prop
  | .pushError errcode => errcode < 0 ∧ s.readBuf = []
  | .pushData (.data bs) => bs = [] ∨ 0 ≤ s.errcode
  | .pushData (.error _) => False
  | .writeData _ r => 0 ≤ s.errcode ↔ 0 ≤ r
  | .uvWrite _ r => 0 ≤ r → 0 ≤ s.errcode
  | .written p _ => p ∈ s.writing
  | .tcpConnect _ ip4 ip6 r => (0 ≤ ip4 ∨ 0 ≤ ip6) ∧ 0 ≤ r
  | .connected p _ => p ∈ s.connecting
  | _ => True

end Code

/-- Only the heads of the queues are being answered, one read or rejected accept and one
accepted one at most. -/
structure Shape (s : UvStreamWrap) (stack : Stack) : Prop where
  starts : ∀ k, .code k ∈ stack.tail → k.rests
  top : ∀ k rest, stack = .code k :: rest → k.rests ∨
    (k.Ready s ∧ (k.works → Quiet rest) ∧ (k.libuv → total accepting rest = 0))
  one : total resolving stack + total refusing stack ≤ 1
  conn : total accepting stack ≤ 1
  reads : total resolving stack ≤ s.readWaiting.length
  accepts : total refusing stack + total accepting stack ≤ s.acceptWaiting.length
  failing : ∀ k, .code k ∈ stack → k.fails → s.errcode < 0
  good : s.errcode < 0 → total accepting stack = 0
  buffer : s.errcode < 0 → s.readBuf = []

/-- The code goes on to the loop over the reads. -/
def Code.drainsReads : Code → Prop
  | .pushError _ | .processing | .clear | .fail | .failRead | .popRead | .pullData _ | .acceptConn _ => True
  | _ => False

/-- The code goes on to the loop over the accepts. -/
def Code.drainsAccepts (k : Code) : Prop := k.drainsReads ∨ k = .failAccept ∨ k = .popAccept

/-- Where an error has been reported the queues are empty or are being emptied. -/
structure Drains (s : UvStreamWrap) (stack : Stack) : Prop where
  reads : s.errcode < 0 → s.readWaiting = [] ∨ ∃ k, .code k ∈ stack ∧ k.drainsReads
  accepts : s.errcode < 0 → s.acceptWaiting = [] ∨ ∃ k, .code k ∈ stack ∧ k.drainsAccepts
  failed : s.failed.isSome → s.errcode < 0 ∨ ∃ errcode rest, stack = .code (.pushError errcode) :: rest

theorem drains_opened : Drains opened.state opened.stack := by
  constructor <;> simp [opened]

theorem shape_opened : Shape opened.state opened.stack := by
  constructor <;> simp [opened]

variable {s s' : UvStreamWrap} {k : Code} {rest items stack : Stack}

/-- The queues are worked on when nothing else is. -/
theorem Shape.quiet (h : Shape s (.code k :: rest)) (hk : k.works) : Quiet rest := by
  rcases h.top k rest rfl with hr | hr
  · cases k <;> first | exact hk.elim | exact hr.elim
  · exact hr.2.1 hk

theorem Shape.ready (h : Shape s (.code k :: rest)) (hk : ¬ k.rests) : k.Ready s :=
  ((h.top k rest rfl).resolve_left hk).1

/-- Below the top, code leaves only what answers a request. -/
theorem starts_runs (h : Shape s (.code k :: rest)) (hr : Runs s k s' items) :
    ∀ k', .code k' ∈ (items ++ rest).tail → k'.rests := by
  have hleft : ∀ k', .code k' ∈ items.tail → k'.rests := by
    intro k' hm
    cases hr with
    | @writeFails p r hf =>
      obtain rfl : k' = .uvWrite p r := by simpa using hm
      have hready : 0 ≤ s.errcode ↔ 0 ≤ r := h.ready id
      change r < 0
      omega
    | _ => simp at hm <;> (subst hm; trivial)
  intro k' hm
  cases items with
  | nil => exact h.starts k' (List.mem_of_mem_tail hm)
  | cons i items =>
    rcases List.mem_append.mp hm with hm | hm
    · exact hleft k' hm
    · exact h.starts k' hm

/-- How the queues and their answered heads change together. -/
theorem counts_runs (h : Shape s (.code k :: rest)) (hr : Runs s k s' items) :
    total resolving (items ++ rest) + total refusing (items ++ rest) ≤ 1 ∧ total accepting (items ++ rest) ≤ 1 ∧
      total resolving (items ++ rest) ≤ s'.readWaiting.length ∧
      total refusing (items ++ rest) + total accepting (items ++ rest) ≤ s'.acceptWaiting.length := by
  have hone := h.one
  have hconn := h.conn
  have hreads := h.reads
  have haccepts := h.accepts
  have hquiet := h.quiet
  have hgood := h.good
  have hfailing := h.failing k List.mem_cons_self
  have hlibuv := fun hk hn => (((h.top k rest rfl).resolve_left hn).2.2 hk)
  unfold Quiet at hquiet
  cases hr <;>
    simp_all [resolving, refusing, accepting, Code.works, Code.fails, Code.libuv, Code.rests, UvStreamWrap.complete] <;>
    omega

/-- No connection is handed out on a failed stream. -/
theorem good_pushConn {p : Nat} {ps : List Nat} (h : Shape s (.code .pushConn :: rest))
    (hd : Drains s (.code .pushConn :: rest)) (hw : s.acceptWaiting = p :: ps) : 0 ≤ s.errcode := by
  by_contra hneg
  rcases hd.accepts (by omega) with hnil | ⟨k, hm, hk⟩
  · rw [hw] at hnil
    cases hnil
  · have hq := h.quiet trivial
    have hrest : .code k ∈ rest := by
      rcases List.mem_cons.mp hm with he | hm
      · obtain rfl := Item.code.inj he
        rcases hk with hk | hk | hk <;> cases hk
      · exact hm
    have hk' := h.starts k hrest
    have hz := total_eq_zero_iff.mp hq.1 _ hrest
    have hz' := total_eq_zero_iff.mp hq.2 _ hrest
    cases k <;> simp_all [Code.rests, Code.drainsAccepts, Code.drainsReads, resolving, refusing]

theorem errcode_runs (hr : Runs s k s' items) (hk : ∀ errcode, k ≠ .pushError errcode) : s'.errcode = s.errcode := by
  cases hr with
  | @pushError errcode => exact absurd rfl (hk errcode)
  | _ => rfl

/-- The code that starts is ready for its state, and finds nothing being answered if it
works on the queues. -/
theorem top_runs (h : Shape s (.code k :: rest)) (hr : Runs s k s' items) :
    ∀ k₁ rest₁, items ++ rest = .code k₁ :: rest₁ → k₁.rests ∨
      (k₁.Ready s' ∧ (k₁.works → Quiet rest₁) ∧ (k₁.libuv → total accepting rest₁ = 0)) := by
  intro k₁ rest₁ he
  have hrest : ∀ k', .code k' ∈ rest → k'.rests := h.starts
  have hcount := h.one
  have hquiet := h.quiet
  unfold Quiet at hquiet ⊢
  cases hr <;> simp only [List.nil_append, List.cons_append, List.cons.injEq, Item.code.injEq, reduceCtorEq,
      false_and] at he <;>
    first
    | exact .inl (hrest k₁ (he ▸ List.mem_cons_self))
    | obtain ⟨rfl, rfl⟩ := he
      refine .inr ⟨?_, ?_, ?_⟩ <;> simp_all [Code.Ready, Code.works, Code.libuv, resolving, refusing] <;> omega

/-- The loops that reject run on a failed stream only. -/
theorem failing_runs (h : Shape s (.code k :: rest)) (hr : Runs s k s' items) :
    ∀ k₁, .code k₁ ∈ items ++ rest → k₁.fails → s'.errcode < 0 := by
  intro k₁ hm hf
  by_cases hk : ∃ errcode, k = .pushError errcode
  · obtain ⟨errcode, rfl⟩ := hk
    cases hr with
    | pushError => exact (h.ready id).1
  · rw [errcode_runs hr fun errcode he => hk ⟨errcode, he⟩]
    rcases List.mem_append.mp hm with hm | hm
    · have hfailing := h.failing k List.mem_cons_self
      cases hr <;> simp_all [Code.fails]
    · exact h.failing k₁ (List.mem_cons_of_mem _ hm) hf

theorem shape_runs (h : Shape s (.code k :: rest)) (hd : Drains s (.code k :: rest)) (hr : Runs s k s' items) :
    Shape s' (items ++ rest) := by
  obtain ⟨hone, hconn, hreads, haccepts⟩ := counts_runs h hr
  refine ⟨starts_runs h hr, top_runs h hr, hone, hconn, hreads, haccepts, failing_runs h hr, fun hneg => ?_,
    fun hneg => ?_⟩
  · by_cases hk : ∃ errcode, k = .pushError errcode
    · obtain ⟨errcode, rfl⟩ := hk
      have hlibuv : total accepting rest = 0 := ((h.top _ rest rfl).resolve_left id).2.2 trivial
      cases hr with
      | pushError => simpa [accepting] using hlibuv
    · rw [errcode_runs hr fun errcode he => hk ⟨errcode, he⟩] at hneg
      have hgood := h.good hneg
      cases hr with
      | pushError => exact absurd ⟨_, rfl⟩ hk
      | pushConn hw => exact absurd (good_pushConn h hd hw) (by omega)
      | _ => simp_all [accepting]
  · by_cases hk : ∃ errcode, k = .pushError errcode
    · obtain ⟨errcode, rfl⟩ := hk
      cases hr with
      | pushError => exact (h.ready id).2
    · rw [errcode_runs hr fun errcode he => hk ⟨errcode, he⟩] at hneg
      have hbuf := h.buffer hneg
      cases hr with
      | pushError => exact absurd ⟨_, rfl⟩ hk
      | @pushData bs hne =>
        have hready : bs = [] ∨ 0 ≤ s.errcode := h.ready id
        rcases hready with hnil | hgood
        · exact absurd hnil hne
        · omega
      | clear hw => rfl
      | _ => exact hbuf

/-- On a failed stream the code that empties the queue of reads goes on, or has emptied it. -/
theorem drainsReads_runs (hneg : s.errcode < 0) (h : s.readWaiting = [] ∨ k.drainsReads) (hr : Runs s k s' items) :
    s'.readWaiting = [] ∨ ∃ k', .code k' ∈ items ∧ k'.drainsReads := by
  cases hr with
  | good hgood => omega
  | _ => simp_all [Code.drainsReads, UvStreamWrap.complete]

theorem drainsAccepts_runs (hneg : s.errcode < 0) (h : s.acceptWaiting = [] ∨ k.drainsAccepts) (hr : Runs s k s' items) :
    s'.acceptWaiting = [] ∨ ∃ k', .code k' ∈ items ∧ k'.drainsAccepts := by
  cases hr with
  | good hgood => omega
  | _ => simp_all [Code.drainsAccepts, Code.drainsReads, UvStreamWrap.complete]

theorem drains_runs (h : Shape s (.code k :: rest)) (hd : Drains s (.code k :: rest)) (hr : Runs s k s' items) :
    Drains s' (items ++ rest) := by
  by_cases hk : ∃ errcode, k = .pushError errcode
  · obtain ⟨errcode, rfl⟩ := hk
    cases hr with
    | pushError =>
      exact ⟨fun _ => .inr ⟨.processing, List.mem_cons_self, trivial⟩,
        fun _ => .inr ⟨.processing, List.mem_cons_self, .inl trivial⟩, fun _ => .inl (h.ready id).1⟩
  · have herr := errcode_runs hr fun errcode he => hk ⟨errcode, he⟩
    have hfailed : s'.failed = s.failed := by cases hr <;> rfl
    refine ⟨fun hneg => ?_, fun hneg => ?_, fun hf => ?_⟩
    · rw [herr] at hneg
      have hnext : (s.readWaiting = [] ∨ k.drainsReads) ∨ ∃ k', .code k' ∈ rest ∧ k'.drainsReads := by
        rcases hd.reads hneg with hw | ⟨k', hm, hk'⟩
        · exact .inl (.inl hw)
        · rcases List.mem_cons.mp hm with he | hm
          · exact .inl (.inr (Item.code.inj he ▸ hk'))
          · exact .inr ⟨k', hm, hk'⟩
      rcases hnext with hnext | ⟨k', hm, hk'⟩
      · exact (drainsReads_runs hneg hnext hr).imp_right fun ⟨k', hm, hk'⟩ => ⟨k', List.mem_append_left _ hm, hk'⟩
      · exact .inr ⟨k', List.mem_append_right _ hm, hk'⟩
    · rw [herr] at hneg
      have hnext : (s.acceptWaiting = [] ∨ k.drainsAccepts) ∨ ∃ k', .code k' ∈ rest ∧ k'.drainsAccepts := by
        rcases hd.accepts hneg with hw | ⟨k', hm, hk'⟩
        · exact .inl (.inl hw)
        · rcases List.mem_cons.mp hm with he | hm
          · exact .inl (.inr (Item.code.inj he ▸ hk'))
          · exact .inr ⟨k', hm, hk'⟩
      rcases hnext with hnext | ⟨k', hm, hk'⟩
      · exact (drainsAccepts_runs hneg hnext hr).imp_right fun ⟨k', hm, hk'⟩ => ⟨k', List.mem_append_left _ hm, hk'⟩
      · exact .inr ⟨k', List.mem_append_right _ hm, hk'⟩
    · rw [hfailed] at hf
      rw [herr]
      rcases hd.failed hf with hneg | ⟨errcode, rest', he⟩
      · exact .inl hneg
      · obtain ⟨he, -⟩ := List.cons.inj he
        exact absurd ⟨errcode, Item.code.inj he⟩ hk

/-! ### Accounting -/

/-- The request that is being called and waits nowhere yet. -/
def Code.calling : Code → List Nat
  | .pullData p => [p]
  | .acceptConn p => [p]
  | .writeData p _ => [p]
  | .uvWrite p r => if 0 ≤ r then [p] else []
  | .tcpConnect p .. => [p]
  | _ => []

def calling : Stack → List Nat
  | .code k :: _ => k.calling
  | _ => []

@[simp] theorem calling_code (k : Code) (rest : Stack) : calling (.code k :: rest) = k.calling := rfl
@[simp] theorem calling_ext (op : Op) (rest : Stack) : calling (.ext op :: rest) = [] := rfl

/-- The requests that have no answer yet. -/
def unanswered (s : UvStreamWrap) (stack : Stack) : List Nat :=
  s.readWaiting.drop (total resolving stack) ++
    s.acceptWaiting.drop (total refusing stack + total accepting stack) ++ s.writing ++ s.connecting ++ calling stack

/-- Every request has been completed or has no answer yet. -/
def Accounts (s : UvStreamWrap) (stack : Stack) : Prop :=
  (s.log.map (fun e => e.1.p) ++ unanswered s stack).Perm (List.range s.calls)

theorem calling_rest (h : ∀ k, .code k ∈ stack → k.rests) : calling stack = [] := by
  cases stack with
  | nil => rfl
  | cons i rest =>
    cases i with
    | ext op => rfl
    | code k =>
      have hk := h k List.mem_cons_self
      cases k with
      | uvWrite p r =>
        have hneg : r < 0 := hk
        exact if_neg (by omega)
      | _ => first | rfl | exact hk.elim

theorem unanswered_def : unanswered s stack =
    s.readWaiting.drop (total resolving stack) ++ s.acceptWaiting.drop (total refusing stack + total accepting stack) ++
      s.writing ++ s.connecting ++ calling stack := rfl

/-- A request that is answered is no longer without an answer; no other changes. -/
theorem accounts_runs (h : Shape s (.code k :: rest)) (ha : Accounts s (.code k :: rest))
    (hr : Runs s k s' items) : Accounts s' (items ++ rest) := by
  have hcalls : s'.calls = s.calls := by cases hr <;> rfl
  have hrest : calling rest = [] := calling_rest h.starts
  have hquiet := h.quiet
  have haccepts := h.accepts
  unfold Accounts at ha ⊢
  rw [hcalls]
  refine List.Perm.trans ?_ ha
  rw [List.perm_iff_count]
  intro q
  unfold Quiet at hquiet
  cases hr with
  | @resolve p ps hw hb =>
    obtain ⟨hz, -⟩ := hquiet trivial
    simp [unanswered_def, resolving, refusing, accepting, Code.calling, UvStreamWrap.complete, hw, hz, List.count_cons]
  | @failRead p ps hw =>
    obtain ⟨hz, -⟩ := hquiet trivial
    simp [unanswered_def, resolving, refusing, accepting, Code.calling, UvStreamWrap.complete, hw, hz, List.count_cons]
  | @failAccept p ps hw =>
    obtain ⟨-, hz⟩ := hquiet trivial
    have hneg : s.errcode < 0 := h.failing _ List.mem_cons_self trivial
    have hz' : total accepting rest = 0 := by simpa [accepting] using h.good hneg
    simp [unanswered_def, resolving, refusing, accepting, Code.calling, UvStreamWrap.complete, hw, hz, hz', List.count_cons]
    omega
  | @pushConn p ps hw =>
    obtain ⟨-, hz⟩ := hquiet trivial
    have hz' : total accepting rest = 0 := ((h.top _ rest rfl).resolve_left id).2.2 trivial
    simp [unanswered_def, resolving, refusing, accepting, Code.calling, UvStreamWrap.complete, hw, hz, hz', List.count_cons]
    omega
  | @pullData p =>
    obtain ⟨hz, -⟩ := hquiet trivial
    simp [unanswered_def, resolving, refusing, accepting, Code.calling, hz, List.count_cons]
    omega
  | @acceptConn p =>
    obtain ⟨-, hz⟩ := hquiet trivial
    have hle : total accepting rest ≤ s.acceptWaiting.length := by simpa [refusing, accepting, hz] using haccepts
    simp [unanswered_def, resolving, refusing, accepting, Code.calling, hz, List.drop_append_of_le_length hle, List.count_cons]
    omega
  | @clear p ps hw => simp [unanswered_def, resolving, refusing, accepting, Code.calling, hw, Nat.add_comm 1]
  | @popRead p ps hw => simp [unanswered_def, resolving, refusing, accepting, Code.calling, hw, Nat.add_comm 1]
  | @popAccept p ps hw =>
    simp [unanswered_def, resolving, refusing, accepting, Code.calling, hw, Nat.add_comm 1, Nat.add_right_comm _ 1]
  | @popConn p ps hw =>
    simp [unanswered_def, resolving, refusing, accepting, Code.calling, hw, hrest, Nat.add_comm 1, ← Nat.add_assoc]
  | @writeFails p r hneg =>
    simp [unanswered_def, resolving, refusing, accepting, Code.calling, UvStreamWrap.complete, List.count_cons]
    omega
  | @writeData p r hgood =>
    have hr : 0 ≤ r := (h.ready id : 0 ≤ s.errcode ↔ 0 ≤ r).mp hgood
    simp [unanswered_def, resolving, refusing, accepting, Code.calling, hr]
  | @refused p r hneg =>
    have hno : ¬ 0 ≤ r := by omega
    simp [unanswered_def, resolving, refusing, accepting, Code.calling, hno, hrest]
  | @uvWrite p r hr =>
    simp [unanswered_def, resolving, refusing, accepting, Code.calling, hr, hrest, List.count_cons]
  | @written p stat =>
    have hm : p ∈ s.writing := h.ready id
    have hpos := List.count_pos_iff.mpr hm
    simp [unanswered_def, resolving, refusing, accepting, Code.calling, UvStreamWrap.complete, List.count_erase, List.count_cons]
    by_cases hpq : p = q
    · subst hpq
      simp
      omega
    · simp [hpq]
  | @unparsed p ip4 ip6 r hbad =>
    have hready : (0 ≤ ip4 ∨ 0 ≤ ip6) ∧ 0 ≤ r := h.ready id
    omega
  | @tcpConnect p ip4 ip6 r => simp [unanswered_def, resolving, refusing, accepting, Code.calling, hrest]
  | @connected p stat =>
    have hm : p ∈ s.connecting := h.ready id
    have hpos := List.count_pos_iff.mpr hm
    simp [unanswered_def, resolving, refusing, accepting, Code.calling, UvStreamWrap.complete, List.count_erase, List.count_cons]
    by_cases hpq : p = q
    · subst hpq
      simp
      omega
    · simp [hpq]
  | _ => simp [unanswered_def, resolving, refusing, accepting, Code.calling, hrest]

/-! ### Rejections -/

/-- What is written when an error is reported has been called before. -/
structure Rejecting (s : UvStreamWrap) : Prop where
  rejects : s.Rejects
  reported : ∀ n m, s.failed = some (n, m) → n ≤ s.log.length ∧ ∀ p ∈ s.writing, p < m

/-- A request may be completed as it is if no error has been reported, or if it is rejected
or neither a read nor an accept nor a write called since. -/
theorem rejecting_complete {kind : Kind} {p : Nat} {o : Outcome} (hr : Rejecting s)
    (h : ∀ n m, s.failed = some (n, m) → (∃ errcode, o = .rejected errcode) ∨
      kind ≠ .read ∧ kind ≠ .accept ∧ (kind = .write → p < m)) : Rejecting (s.complete kind p o) := by
  refine ⟨fun n m hf => ?_, fun n m hf => ?_⟩
  · obtain ⟨hsince, hcalled⟩ := hr.rejects n m hf
    obtain ⟨hle, -⟩ := hr.reported n m hf
    have hlast := h n m hf
    constructor
    · intro e he hk
      rw [UvStreamWrap.complete, List.drop_append_of_le_length hle] at he
      rcases List.mem_append.mp he with he | he
      · exact hsince e he hk
      · obtain rfl := List.mem_singleton.mp he
        exact hlast.resolve_right fun hn => hk.elim hn.1 hn.2.1
    · intro e he hk hm
      rcases List.mem_append.mp he with he | he
      · exact hcalled e he hk hm
      · obtain rfl := List.mem_singleton.mp he
        exact hlast.resolve_right fun hn => absurd (hn.2.2 hk) (by simpa using hm)
  · obtain ⟨hle, hw⟩ := hr.reported n m hf
    refine ⟨?_, hw⟩
    rw [UvStreamWrap.complete, List.length_append]
    exact Nat.le_add_right_of_le hle

/-- The stream has failed where libuv has reported an error. -/
theorem Drains.negative {n m : Nat} (hd : Drains s (.code k :: rest)) (hk : ∀ errcode, k ≠ .pushError errcode)
    (hf : s.failed = some (n, m)) : s.errcode < 0 := by
  rcases hd.failed (by rw [hf]; rfl) with hneg | ⟨errcode, rest', he⟩
  · exact hneg
  · exact absurd (Item.code.inj (List.cons.inj he).1) (hk errcode)

theorem rejecting_runs (h : Shape s (.code k :: rest)) (hd : Drains s (.code k :: rest)) (hj : Rejecting s)
    (hr : Runs s k s' items) : Rejecting s' := by
  cases hr with
  | @resolve p ps hw hb =>
    refine rejecting_complete hj fun n m hf => ?_
    exact absurd (h.buffer (hd.negative (by simp) hf)) hb
  | @failRead p ps hw => exact rejecting_complete hj fun _ _ _ => .inl ⟨_, rfl⟩
  | @failAccept p ps hw => exact rejecting_complete hj fun _ _ _ => .inl ⟨_, rfl⟩
  | @pushConn p ps hw =>
    refine rejecting_complete hj fun n m hf => ?_
    have hgood := good_pushConn h hd hw
    have hneg := hd.negative (by simp) hf
    omega
  | @writeFails p r hneg => exact rejecting_complete hj fun _ _ _ => .inl ⟨_, rfl⟩
  | @uvWrite p r hr =>
    refine ⟨hj.rejects, fun n m hf => ?_⟩
    have hgood : 0 ≤ s.errcode := (h.ready (by change ¬ r < 0; omega) : 0 ≤ r → 0 ≤ s.errcode) hr
    have hneg := hd.negative (by simp) hf
    omega
  | @written p stat =>
    have hm : p ∈ s.writing := h.ready id
    have herase : Rejecting { s with writing := s.writing.erase p } :=
      ⟨hj.rejects, fun n m hf => ⟨(hj.reported n m hf).1, fun q hq => (hj.reported n m hf).2 q (List.mem_of_mem_erase hq)⟩⟩
    exact rejecting_complete herase fun n m hf => .inr ⟨by simp, by simp, fun _ => (hj.reported n m hf).2 p hm⟩
  | @connected p stat =>
    have herase : Rejecting { s with connecting := s.connecting.erase p } := ⟨hj.rejects, hj.reported⟩
    exact rejecting_complete herase fun _ _ _ => .inr ⟨by simp, by simp, by simp⟩
  | _ => exact ⟨hj.rejects, hj.reported⟩

/-! ### Calls and callbacks -/

/-- A stream on which requests are completed once. -/
structure Sound (s : UvStreamWrap) (stack : Stack) : Prop where
  shape : Shape s stack
  drains : Drains s stack
  accounts : Accounts s stack
  rejecting : Rejecting s

theorem sound_opened : Sound opened.state opened.stack :=
  ⟨shape_opened, drains_opened, .refl _, fun _ _ h => (by cases h), fun _ _ h => by cases h⟩

theorem sound_runs (h : Sound s (.code k :: rest)) (hr : Runs s k s' items) : Sound s' (items ++ rest) :=
  ⟨shape_runs h.shape h.drains hr, drains_runs h.shape h.drains hr, accounts_runs h.shape h.accounts hr,
    rejecting_runs h.shape h.drains h.rejecting hr⟩

/-- Where the environment is in control, code on the stack only leaves it. -/
theorem Shape.resting (h : Shape s stack) (hc : EnvControls stack) : ∀ k, .code k ∈ stack → k.rests := by
  cases stack with
  | nil => exact fun k hm => absurd hm List.not_mem_nil
  | cons i rest =>
    cases i with
    | code k => exact hc.elim
    | ext op => exact fun k hm => h.starts k (by simpa using hm)

theorem counts_code (hk : ¬ k.rests) :
    resolving (.code k) = 0 ∧ refusing (.code k) = 0 ∧ accepting (.code k) = 0 := by
  cases k <;> first | exact ⟨rfl, rfl, rfl⟩ | exact absurd trivial hk

/-- Code of a call or of a callback starts on top of what is left. -/
theorem shape_enter (h : Shape s stack) (hc : EnvControls stack) (hk : ¬ k.rests) (hf : ¬ k.fails) (hready : k.Ready s')
    (hquiet : k.works → Quiet stack) (hlibuv : k.libuv → total accepting stack = 0) (hreads : s'.readWaiting = s.readWaiting)
    (haccepts : s'.acceptWaiting = s.acceptWaiting) (herr : s'.errcode = s.errcode) (hbuf : s'.readBuf = s.readBuf) :
    Shape s' (.code k :: stack) := by
  obtain ⟨h₁, h₂, h₃⟩ := counts_code hk
  refine ⟨h.resting hc, fun k' rest' he => ?_, ?_, ?_, ?_, ?_, fun k' hm hk' => ?_, ?_, ?_⟩
  · obtain ⟨rfl, rfl⟩ : k = k' ∧ stack = rest' := by simpa using he
    exact .inr ⟨hready, hquiet, hlibuv⟩
  · simpa [h₁, h₂] using h.one
  · simpa [h₃] using h.conn
  · rw [hreads]
    simpa [h₁] using h.reads
  · rw [haccepts]
    simpa [h₂, h₃] using h.accepts
  · rw [herr]
    rcases List.mem_cons.mp hm with he | hm
    · exact absurd (Item.code.inj he ▸ hk') hf
    · exact h.failing k' hm hk'
  · rw [herr]
    simpa [h₃] using h.good
  · rw [herr, hbuf]
    exact h.buffer

/-- Errors that have been reported before have reached the stream. -/
theorem drains_enter (hd : Drains s stack) (hc : EnvControls stack) (hreads : s'.readWaiting = s.readWaiting)
    (haccepts : s'.acceptWaiting = s.acceptWaiting) (herr : s'.errcode = s.errcode)
    (hf : s'.failed = s.failed ∨ ∃ errcode, k = .pushError errcode) : Drains s' (.code k :: stack) := by
  refine ⟨?_, ?_, fun hs => ?_⟩
  · rw [herr, hreads]
    exact fun hneg => (hd.reads hneg).imp_right fun ⟨k', hm, hk'⟩ => ⟨k', List.mem_cons_of_mem _ hm, hk'⟩
  · rw [herr, haccepts]
    exact fun hneg => (hd.accepts hneg).imp_right fun ⟨k', hm, hk'⟩ => ⟨k', List.mem_cons_of_mem _ hm, hk'⟩
  · rcases hf with hf | ⟨errcode, rfl⟩
    · rw [hf] at hs
      rcases hd.failed hs with hneg | ⟨errcode, rest', rfl⟩
      · exact .inl (by rw [herr]; exact hneg)
      · exact hc.elim
    · exact .inr ⟨errcode, stack, rfl⟩

/-- A call is the request that has no answer yet. -/
theorem accounts_call (ha : Accounts s stack) (h : ∀ k, .code k ∈ stack → k.rests) (hk : ¬ k.rests)
    (hcalling : k.calling = [s.calls]) : Accounts s.call (.code k :: stack) := by
  obtain ⟨h₁, h₂, h₃⟩ := counts_code hk
  have hlast : calling stack = [] := calling_rest h
  unfold Accounts at ha ⊢
  rw [unanswered_def, hlast, List.append_nil] at ha
  rw [unanswered_def, total_cons, total_cons, total_cons, h₁, h₂, h₃, calling_code, hcalling, ← List.append_assoc]
  simp only [Nat.zero_add]
  change (_ ++ [s.calls]).Perm (List.range (s.calls + 1))
  rw [List.range_succ]
  exact ha.append_right [s.calls]

theorem accounts_callback (ha : Accounts s stack) (h : ∀ k, .code k ∈ stack → k.rests) (hk : ¬ k.rests)
    (hcalling : k.calling = []) (hs : s'.readWaiting = s.readWaiting ∧ s'.acceptWaiting = s.acceptWaiting ∧
      s'.writing = s.writing ∧ s'.connecting = s.connecting ∧ s'.log = s.log ∧ s'.calls = s.calls) :
    Accounts s' (.code k :: stack) := by
  obtain ⟨h₁, h₂, h₃⟩ := counts_code hk
  obtain ⟨hreads, haccepts, hwriting, hconnecting, hlog, hcalls⟩ := hs
  have hlast : calling stack = [] := calling_rest h
  unfold Accounts at ha ⊢
  rw [unanswered_def, hlast] at ha
  rw [unanswered_def, total_cons, total_cons, total_cons, h₁, h₂, h₃, calling_code, hcalling, hreads, haccepts, hwriting,
    hconnecting, hlog, hcalls]
  simpa using ha

/-- What is completed or waits has been called. -/
theorem Accounts.called (ha : Accounts s stack) :
    (∀ e ∈ s.log, e.1.p < s.calls) ∧ ∀ p ∈ s.writing, p < s.calls := by
  unfold Accounts at ha
  constructor
  · intro e he
    exact List.mem_range.mp (ha.subset (List.mem_append_left _ (List.mem_map_of_mem he)))
  · intro p hp
    refine List.mem_range.mp (ha.subset (List.mem_append_right _ ?_))
    simp [unanswered_def, hp]

theorem rejecting_fails (hj : Rejecting s) (ha : Accounts s stack) : Rejecting s.fails := by
  cases hf : s.failed with
  | some f =>
    have hsame : s.fails.failed = s.failed := by simp [UvStreamWrap.fails, hf]
    exact ⟨fun n m h => hj.rejects n m (hsame ▸ h), fun n m h => hj.reported n m (hsame ▸ h)⟩
  | none =>
    obtain ⟨hlog, hwriting⟩ := ha.called
    have hnow : s.fails.failed = some (s.log.length, s.calls) := by simp [UvStreamWrap.fails, hf]
    refine ⟨fun n m h => ?_, fun n m h => ?_⟩
    · rw [hnow] at h
      cases h
      refine ⟨fun e he => ?_, fun e he _ hm => ?_⟩
      · simp [UvStreamWrap.fails] at he
      · exact absurd (hlog e he) (by omega)
    · rw [hnow] at h
      cases h
      exact ⟨Nat.le_refl _, hwriting⟩

theorem sound_ret {op : Op} (h : Sound s (.ext op :: rest)) : Sound s rest := by
  have hrest : ∀ k, .code k ∈ rest → k.rests := h.shape.starts
  have hone := h.shape.one
  have hconn := h.shape.conn
  have hreads := h.shape.reads
  have haccepts := h.shape.accepts
  have hgood := h.shape.good
  have ha := h.accounts
  unfold Accounts at ha
  rw [unanswered_def, calling_ext] at ha
  have hr : total resolving (.ext op :: rest) = total resolving rest := by simp [resolving]
  have hf : total refusing (.ext op :: rest) = total refusing rest := by simp [refusing]
  have hc : total accepting (.ext op :: rest) = total accepting rest := by simp [accepting]
  rw [hr, hf] at hone
  rw [hc] at hconn hgood
  rw [hr] at hreads
  rw [hf, hc] at haccepts
  rw [hr, hf, hc] at ha
  refine ⟨⟨fun k hm => hrest k (List.mem_of_mem_tail hm), fun k rest' he => .inl (hrest k (he ▸ List.mem_cons_self)),
    hone, hconn, hreads, haccepts, fun k hm => h.shape.failing k (List.mem_cons_of_mem _ hm), hgood, h.shape.buffer⟩,
    ⟨fun hneg => ?_, fun hneg => ?_, fun hs => ?_⟩, ?_, h.rejecting⟩
  · exact (h.drains.reads hneg).imp_right fun ⟨k, hm, hk⟩ => ⟨k, by simpa using hm, hk⟩
  · exact (h.drains.accepts hneg).imp_right fun ⟨k, hm, hk⟩ => ⟨k, by simpa using hm, hk⟩
  · rcases h.drains.failed hs with hneg | ⟨errcode, rest', he⟩
    · exact .inl hneg
    · cases he
  · unfold Accounts
    rw [unanswered_def, calling_rest hrest]
    exact ha

theorem sound_enter {e : Entry} (hc : EnvControls stack) (h : Sound s stack) (hm : Careful ⟨s, stack⟩ (.enter e))
    (he : enter e s = some (s', items)) : Sound s' (items ++ stack) := by
  have hrest := h.shape.resting hc
  cases e with
  | read =>
    obtain ⟨rfl, rfl⟩ := Prod.mk.inj (Option.some.inj he)
    exact ⟨shape_enter h.shape hc id id trivial (fun _ => hm) False.elim rfl rfl rfl rfl,
      drains_enter h.drains hc rfl rfl rfl (.inl rfl), accounts_call h.accounts hrest id rfl,
      h.rejecting.rejects, h.rejecting.reported⟩
  | accept =>
    obtain ⟨rfl, rfl⟩ := Prod.mk.inj (Option.some.inj he)
    exact ⟨shape_enter h.shape hc id id trivial (fun _ => hm) False.elim rfl rfl rfl rfl,
      drains_enter h.drains hc rfl rfl rfl (.inl rfl), accounts_call h.accounts hrest id rfl,
      h.rejecting.rejects, h.rejecting.reported⟩
  | write r =>
    obtain ⟨rfl, rfl⟩ := Prod.mk.inj (Option.some.inj he)
    exact ⟨shape_enter h.shape hc id id hm False.elim False.elim rfl rfl rfl rfl,
      drains_enter h.drains hc rfl rfl rfl (.inl rfl), accounts_call h.accounts hrest id rfl,
      h.rejecting.rejects, h.rejecting.reported⟩
  | tcpConnect ip4 ip6 r =>
    obtain ⟨rfl, rfl⟩ := Prod.mk.inj (Option.some.inj he)
    exact ⟨shape_enter h.shape hc id id hm False.elim False.elim rfl rfl rfl rfl,
      drains_enter h.drains hc rfl rfl rfl (.inl rfl), accounts_call h.accounts hrest id rfl,
      h.rejecting.rejects, h.rejecting.reported⟩
  | nread nread =>
    cases nread with
    | error errcode => exact hm.elim
    | data bs =>
      obtain ⟨rfl, rfl⟩ := Prod.mk.inj (Option.some.inj he)
      exact ⟨shape_enter h.shape hc id id hm.2.2 (fun _ => hm.1) (fun _ => hm.2.1) rfl rfl rfl rfl,
        drains_enter h.drains hc rfl rfl rfl (.inl rfl),
        accounts_callback h.accounts hrest id rfl ⟨rfl, rfl, rfl, rfl, rfl, rfl⟩,
        h.rejecting.rejects, h.rejecting.reported⟩
  | connection status =>
    simp only [enter] at he
    split at he
    · obtain ⟨rfl, rfl⟩ := Prod.mk.inj (Option.some.inj he)
      exact ⟨shape_enter h.shape hc id id trivial (fun _ => hm.1) (fun _ => hm.2.1) rfl rfl rfl rfl,
        drains_enter h.drains hc rfl rfl rfl (.inl rfl),
        accounts_callback h.accounts hrest id rfl ⟨rfl, rfl, rfl, rfl, rfl, rfl⟩, h.rejecting⟩
    · split at he
      · rename_i hneg
        obtain ⟨rfl, rfl⟩ := Prod.mk.inj (Option.some.inj he)
        exact ⟨shape_enter h.shape hc id id ⟨hneg, hm.2.2 hneg⟩ (fun _ => hm.1) (fun _ => hm.2.1) rfl rfl rfl rfl,
          drains_enter h.drains hc rfl rfl rfl (.inr ⟨_, rfl⟩),
          accounts_callback h.accounts hrest id rfl ⟨rfl, rfl, rfl, rfl, rfl, rfl⟩, rejecting_fails h.rejecting h.accounts⟩
      · cases he
  | written p stat =>
    simp only [enter] at he
    split at he
    · rename_i hp
      obtain ⟨rfl, rfl⟩ := Prod.mk.inj (Option.some.inj he)
      exact ⟨shape_enter h.shape hc id id hp False.elim False.elim rfl rfl rfl rfl,
        drains_enter h.drains hc rfl rfl rfl (.inl rfl),
        accounts_callback h.accounts hrest id rfl ⟨rfl, rfl, rfl, rfl, rfl, rfl⟩, h.rejecting⟩
    · cases he
  | connected p stat =>
    simp only [enter] at he
    split at he
    · rename_i hp
      obtain ⟨rfl, rfl⟩ := Prod.mk.inj (Option.some.inj he)
      exact ⟨shape_enter h.shape hc id id hp False.elim False.elim rfl rfl rfl rfl,
        drains_enter h.drains hc rfl rfl rfl (.inl rfl),
        accounts_callback h.accounts hrest id rfl ⟨rfl, rfl, rfl, rfl, rfl, rfl⟩, h.rejecting⟩
    · cases he

theorem sound_preserves : program.Preserves Careful fun c => Sound c.state c.stack where
  exec hs _ he := sound_runs hs (exec_runs he)
  ret hs _ := sound_ret hs
  enter hc hs hm he := sound_enter hc hs hm he

/-! ### Runs -/

theorem sound_noFault {c : Config} (hs : Sound c.state c.stack) : ¬ program.Faults c := by
  obtain ⟨s, stack⟩ := c
  rintro ⟨k, rest, rfl, he⟩
  have hreads : total resolving (.code k :: rest) ≤ s.readWaiting.length := hs.shape.reads
  have haccepts : total refusing (.code k :: rest) + total accepting (.code k :: rest) ≤ s.acceptWaiting.length :=
    hs.shape.accepts
  change exec k s = none at he
  rw [exec.eq_def] at he
  split at he
  case h_4 => exact hs.shape.ready id
  case h_6 =>
    split at he
    · rename_i hw
      simp [resolving, hw] at hreads
    · cases he
  case h_9 =>
    split at he
    · rename_i hw
      simp [resolving, hw] at hreads
    · cases he
  case h_11 =>
    split at he
    · rename_i hw
      simp [refusing, accepting, hw] at haccepts
    · cases he
  case h_13 =>
    split at he
    · rename_i hw
      simp [refusing, accepting, hw] at haccepts
    · cases he
  all_goals first
    | cases he
    | split at he <;> first | cases he | (split at he <;> cases he)

theorem completes_of_sound {c : Config} (hs : Sound c.state c.stack) : Completes c := by
  have ha := hs.accounts
  unfold Accounts at ha
  refine ⟨?_, hs.accounts.called.1, fun hstack => ?_, fun hstack hf => ?_, hs.rejecting.rejects, sound_noFault hs⟩
  · have hnodup := ha.nodup_iff.mpr List.nodup_range
    exact (List.nodup_append.mp hnodup).1
  · rw [hstack, unanswered_def] at ha
    simpa [UvStreamWrap.waiting, calling] using ha
  · have hneg : c.state.errcode < 0 := by
      rcases hs.drains.failed hf with hneg | ⟨errcode, rest, he⟩
      · exact hneg
      · rw [hstack] at he
        cases he
    have hreads := hs.drains.reads hneg
    have haccepts := hs.drains.accepts hneg
    rw [hstack] at hreads haccepts
    simpa using And.intro hreads haccepts

/-- Requests are completed once, where the client and libuv are careful. -/
theorem completes_run (ms : List (Move Entry)) (c : Config) (h : run program.step opened ms = some c)
    (hm : Along program.step Careful opened ms) : Completes c :=
  completes_of_sound (sound_preserves.run sound_opened hm h)

/-- A connection is accepted and the next accept called from its completion; then listening
fails, which rejects that accept, a read and a write called later. -/
def listening : List (Move Entry) :=
  [.enter .accept, .run, .run, .run, .enter (.connection 0), .run, .enter .accept, .run, .run, .run, .ret, .run,
    .enter (.connection (-1)), .run, .run, .run, .run, .run, .ret, .run, .run, .enter .read, .run, .run, .run, .run, .ret,
    .run, .run, .run, .enter (.write (-1)), .run, .ret, .run]

theorem completes_listening : ∃ c, run program.step opened listening = some c ∧ c.stack = [] ∧
    c.state.log = [(⟨.accept, 0⟩, .object), (⟨.accept, 1⟩, .rejected (-1)), (⟨.read, 2⟩, .rejected (-1)),
      (⟨.write, 3⟩, .rejected (-1))] ∧ Completes c := by
  obtain ⟨c, hc, hstack, hlog⟩ : ∃ c, run program.step opened listening = some c ∧ c.stack = [] ∧
      c.state.log = [(⟨.accept, 0⟩, .object), (⟨.accept, 1⟩, .rejected (-1)), (⟨.read, 2⟩, .rejected (-1)),
        (⟨.write, 3⟩, .rejected (-1))] := exists_run (by decide)
  exact ⟨c, hc, hstack, hlog, completes_run _ c hc (by decide)⟩

/-- The end of the file is copied as data while a read waits; the connect to an address that
does not parse has no answer. -/
theorem completes_fails :
    (∃ c, run program.step opened [.enter .read, .run, .run, .run, .enter (.nread (.error (-4095)))] = some c ∧
      ¬ Completes c) ∧
    ∃ c, run program.step opened [.enter (.tcpConnect (-22) (-22) 0), .run] = some c ∧ ¬ Completes c := by
  constructor
  · obtain ⟨c, hc, hstack, hbuf⟩ : ∃ c, run program.step opened [.enter .read, .run, .run, .run,
        .enter (.nread (.error (-4095)))] = some c ∧ c.stack = [.code (.pushData (.error (-4095)))] ∧
        c.state.readBuf = [] := exists_run (by decide)
    refine ⟨c, hc, fun h => h.noFault ⟨_, _, hstack, ?_⟩⟩
    change exec (.pushData (.error (-4095))) c.state = none
    rw [exec.eq_def]
    exact if_neg (by rw [hbuf]; decide)
  · obtain ⟨c, hc, hstack, hlog, hwait, hcalls⟩ : ∃ c, run program.step opened [.enter (.tcpConnect (-22) (-22) 0),
        .run] = some c ∧ c.stack = [] ∧ c.state.log = [] ∧ c.state.waiting = [] ∧ c.state.calls = 1 :=
      exists_run (by decide)
    refine ⟨c, hc, fun h => ?_⟩
    have hall := (h.all hstack).length_eq
    rw [hlog, hwait, hcalls] at hall
    cases hall

end PxpRpc.Uv.Stream
