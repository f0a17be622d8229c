import PxpRpc.Server.JavaRequest

/-!
# Calling a Java method

`MethodCallable` and `BoundMethodCallable` read the arguments, invoke the method
by reflection and complete the request: themselves, with what the method returns,
or through the `AsyncReturn` that the method gets. They differ in the arguments
they make for the method and in the exceptions they catch.
-/
namespace PxpRpc.Server.Java

open PxpRpc.Lib
open PxpRpc.Codec.Java

variable {Obj : Type}

/-! ### Results -/

/-- What a method returns or resolves with; a buffer is named, and so is an
object that is not a value. -/
inductive Result where
  | single (cell : Cell Nat)
  | array (id : BitVec 32) (cells : List (Cell Nat))
deriving DecidableEq, Repr

/-- What surrounds a call: the objects of the references, what the buffers hold,
the reference that `allocRefFor` gets for an object, and the text of the
exceptions that the library itself throws. -/
structure Surroundings (Obj : Type) where
  refPool : List (Option Obj)
  heap : Heap
  allocRefFor : Cell Nat → BitVec 32
  text : List UInt8

namespace Surroundings

/-- An exception or an error of the library. -/
def throwable (w : Surroundings Obj) : Throwable := ⟨.ok w.text⟩

end Surroundings

/-- `tResult.length<=1`, else the result is cast to an array. -/
def resultRow (tResult : Utf16) : Result → Option (Row Nat)
  | .single cell => if tResult.length ≤ 1 then some [cell] else none
  | .array id cells => if tResult.length ≤ 1 then some [.object id] else some cells

/-- The objects in columns of type `o` are replaced by their references. -/
def referenced (w : Surroundings Obj) (tResult : Utf16) (row : Row Nat) : Row Nat :=
  row.mapIdx fun i cell =>
    if tResult[i]? = some ValueType.o.char ∧ cell ≠ .null then .object (w.allocRefFor cell) else cell

/-- `CommonCallable.writeResult`: the buffers of the response. -/
def writeResult (w : Surroundings Obj) (tResult : Utf16) (result : Result) : Option (List (Option (List UInt8))) :=
  if isRaw tResult then
    match result with
    | .single .null => some [none]
    | .single (.bytes b) => some [some (w.heap b)]
    | _ => none
  else
    (resultRow tResult result).bind fun rs =>
      (Serializer2.prepareSerializing 32).bind fun ser =>
        (TableSerializer.putRowsData tResult [referenced w tResult rs] (ser, w.heap)).map fun out =>
          [some out.1.build.remaining]

/-! ### The method -/

/-- A call of `AsyncReturn`; `caught` is whether the method catches what it throws. -/
inductive Completion where
  | resolve (result : Result) (caught : Bool)
  | reject (ex : Option Throwable) (caught : Bool)
deriving DecidableEq, Repr

/-- How `method.invoke` ends. -/
inductive Ending where
  | returns (result : Result)
  | throws (cause : Throwable)
  | illegalAccess (e : Throwable)
  | exception (e : Throwable)
  | error (e : Throwable)
deriving DecidableEq, Repr

/-- What a method does: its calls of `AsyncReturn` until it ends, how it ends,
and the calls after that. -/
structure Behaviour where
  before : Option Completion
  ending : Ending
  after : Option Completion
deriving DecidableEq, Repr

inductive MethodArg (Obj : Type) where
  | null
  | asyncReturn
  | argument (arg : Argument Obj)
deriving DecidableEq, Repr

structure MethodCallable (Obj : Type) where
  tParam : Utf16
  tResult : Utf16
  /-- `firstInputParamIndex` is 1 -/
  takesAsyncReturn : Bool
  /-- What the method does with a receiver and arguments. -/
  method : Argument Obj → List (MethodArg Obj) → Behaviour

/-- `BoundMethodCallable` is a `MethodCallable` with the object. -/
inductive Callable (Obj : Type) where
  | method (m : MethodCallable Obj)
  | boundMethod (m : MethodCallable Obj) (boundObj : Option Obj)

/-- The method of either class. -/
def Callable.common : Callable Obj → MethodCallable Obj
  | method m => m
  | boundMethod m _ => m

def Callable.isBound : Callable Obj → Bool
  | method _ => false
  | boundMethod _ _ => true

/-- `System.arraycopy` -/
def arraycopy {α : Type} (src : List α) (srcPos : Nat) (dest : List α) (destPos length : Nat) : Option (List α) :=
  if srcPos + length ≤ src.length ∧ destPos + length ≤ dest.length then
    some (dest.take destPos ++ (src.drop srcPos).take length ++ dest.drop (destPos + length))
  else none

namespace MethodCallable

def firstInputParamIndex (m : MethodCallable Obj) : Nat := if m.takesAsyncReturn then 1 else 0

/-- `args2[0]` -/
def withAsyncReturn (m : MethodCallable Obj) (args2 : List (MethodArg Obj)) : List (MethodArg Obj) :=
  if m.takesAsyncReturn then args2.set 0 .asyncReturn else args2

end MethodCallable

namespace Callable

/-- `args2`; a `MethodCallable` makes no room for the `AsyncReturn`. -/
def args2 : Callable Obj → List (MethodArg Obj) → Option (List (MethodArg Obj))
  | method m, args =>
    if args = [] then none
    else (arraycopy args 1 (List.replicate (args.length - 1) .null) m.firstInputParamIndex (args.length - 1)).map
      m.withAsyncReturn
  | boundMethod m _, args =>
    (arraycopy args 0 (List.replicate (m.firstInputParamIndex + args.length) .null) m.firstInputParamIndex
      args.length).map m.withAsyncReturn

def receiver : Callable Obj → List (Argument Obj) → Option (Argument Obj)
  | method _, args => args.head?
  | boundMethod _ boundObj, _ => some (.object boundObj)

end Callable

/-! ### The call -/

/-- What `call` raises within its `try`. -/
inductive Raised where
  | invocationTarget (cause : Throwable)
  | illegalAccess (e : Throwable)
  | exception (e : Throwable)
  | error (e : Throwable)
deriving DecidableEq, Repr

/-- The request and the responses sent for it. -/
structure Handling where
  request : PxpRequest
  sent : List (List UInt8)
deriving DecidableEq, Repr

namespace Handling

/-- `req.done()` while the connection is open. -/
def done (w : Surroundings Obj) (h : Handling) : Handling × Option Raised :=
  match h.request.done true true with
  | .ok done => ({ h with sent := h.sent ++ done.sent.toList }, none)
  | .error _ => (h, some (.error w.throwable))

def setResult (bufs : List (Option (List UInt8))) (h : Handling) : Handling :=
  { h with request := { h.request with result := some bufs } }

def setRejected (ex : Option Throwable) (h : Handling) : Handling :=
  { h with request := { h.request with rejected := ex } }

/-- `writeResult(req,result); req.done();` -/
def resolve (w : Surroundings Obj) (tResult : Utf16) (result : Result) (h : Handling) : Handling × Option Raised :=
  match writeResult w tResult result with
  | some bufs => (h.setResult bufs).done w
  | none => (h, some (.exception w.throwable))

/-- `req.rejected=ex; req.done();` -/
def reject (w : Surroundings Obj) (ex : Option Throwable) (h : Handling) : Handling × Option Raised :=
  (h.setRejected ex).done w

def complete (w : Surroundings Obj) (tResult : Utf16) (h : Handling) : Completion → Handling × Option Raised
  | .resolve result _ => h.resolve w tResult result
  | .reject ex _ => h.reject w ex

end Handling

def Raised.throwable : Raised → Throwable
  | invocationTarget e | illegalAccess e | exception e | error e => e

def Completion.caught : Completion → Bool
  | resolve _ caught | reject _ caught => caught

/-- `method.invoke`, up to the end of the method. -/
def invoke (w : Surroundings Obj) (tResult : Utf16) (b : Behaviour) (h : Handling) :
    Handling × Except Raised Result :=
  let ended := match b.ending with
    | .returns result => .ok result
    | .throws cause => .error (.invocationTarget cause)
    | .illegalAccess e => .error (.illegalAccess e)
    | .exception e => .error (.exception e)
    | .error e => .error (.error e)
  match b.before with
  | none => (h, ended)
  | some completion => match h.complete w tResult completion with
    | (h, none) => (h, ended)
    | (h, some raised) => if completion.caught then (h, ended) else (h, .error (.invocationTarget raised.throwable))

namespace Callable

/-- The block under `try`, behind `readParameter`. -/
def tryInvoke (w : Surroundings Obj) (c : Callable Obj) (b : Behaviour) (h : Handling) : Handling × Option Raised :=
  match invoke w c.common.tResult b h with
  | (h, .error raised) => (h, some raised)
  | (h, .ok result) =>
    if c.common.firstInputParamIndex = 0 then h.resolve w c.common.tResult result else (h, none)

/-- The method's behaviour, if it gets as far as `method.invoke`. -/
def behaviour (w : Surroundings Obj) (c : Callable Obj) (r : PxpRequest) : Option Behaviour :=
  (readParameter w.refPool c.common.tParam r.parameter).bind fun (args, _) =>
    (c.receiver args).bind fun receiver => (c.args2 (args.map .argument)).map (c.common.method receiver)

/-- `catch (InvocationTargetException e)`, `catch (IllegalAccessException e)` and,
in `BoundMethodCallable`, `catch (Exception e)`; the second component is what
escapes. -/
def catchClauses (w : Surroundings Obj) (c : Callable Obj) (raised : Raised) (h : Handling) :
    Handling × Option Raised :=
  match raised with
  | .invocationTarget e | .illegalAccess e => h.reject w (some e)
  | .exception e => if c.isBound then h.reject w (some e) else (h, some raised)
  | .error _ => (h, some raised)

/-- What is left of the end of the `try` block. -/
def catchRaised (w : Surroundings Obj) (c : Callable Obj) : Handling × Option Raised → Handling × Option Raised
  | (h, some raised) => c.catchClauses w raised h
  | (h, none) => (h, none)

/-- `call(req)` -/
def call (w : Surroundings Obj) (c : Callable Obj) (r : PxpRequest) : Handling × Option Raised :=
  let h : Handling := ⟨r, []⟩
  c.catchRaised w (match c.behaviour w r with
    | some b => c.tryInvoke w b h
    | none => (h, some (.exception w.throwable)))

/-- A request on a reference that holds the callable, with what the method does
after it has ended; what escapes `call` ends `ServerContext.serve`. -/
def handle (w : Surroundings Obj) (c : Callable Obj) (r : PxpRequest) : Handling × Option Raised :=
  let (h, escaped) := c.call w r.cleared
  match (c.behaviour w r).bind Behaviour.after with
  | some completion => ((h.complete w c.common.tResult completion).1, escaped)
  | none => (h, escaped)

end Callable

/-! ### One response -/

def Throwable.HasText (e : Throwable) : Prop := ∃ text, e.toString = .ok text

/-- Rejecting with it sends nothing, and `done` mutes that. -/
def Throwable.Quiet (e : Throwable) : Prop := e.toString = .error .exception

def Writable (w : Surroundings Obj) (tResult : Utf16) (result : Result) : Prop :=
  writeResult w tResult result ≠ none

/-- The result can be written, and is not a null buffer. -/
def Sendable (w : Surroundings Obj) (tResult : Utf16) (result : Result) : Prop :=
  ∃ bufs, writeResult w tResult result = some bufs ∧ none ∉ bufs

namespace Completion

def Sends (w : Surroundings Obj) (tResult : Utf16) : Completion → Prop
  | resolve result _ => Sendable w tResult result
  | reject ex _ => ∃ e, ex = some e ∧ e.HasText

/-- The call throws, so that it ends the method unless it is caught there. -/
def Throws (w : Surroundings Obj) (tResult : Utf16) : Completion → Prop
  | resolve result _ => ¬ Writable w tResult result
  | reject ex _ => ∃ e, ex = some e ∧ e.toString = .error .error

end Completion

/-- A method with an `AsyncReturn` that returns completes it once, before or after
that; one that throws may have completed it before, and only a method that has
been entered can. Other methods do not have one. -/
def Behaviour.Legal (takesAsyncReturn : Bool) (b : Behaviour) : Prop :=
  if takesAsyncReturn then
    match b.ending with
    | .returns _ => b.before.isSome ≠ b.after.isSome
    | .throws _ => b.after = none
    | _ => b.before = none ∧ b.after = none
  else b.before = none ∧ b.after = none

instance (takesAsyncReturn : Bool) (b : Behaviour) : Decidable (b.Legal takesAsyncReturn) := by
  unfold Behaviour.Legal
  cases b.ending <;> infer_instance

namespace Callable

/-- The call gets as far as `method.invoke`. -/
def Invokes (w : Surroundings Obj) (c : Callable Obj) (r : PxpRequest) : Prop :=
  ∃ args buf, readParameter w.refPool c.common.tParam r.parameter = some (args, buf) ∧
    (c.isBound = false → args ≠ [] ∧ c.common.takesAsyncReturn = false)

/-- Whether what is thrown into the catch clauses is answered. -/
def Catches (c : Callable Obj) : Ending → Prop
  | .returns _ | .error _ => False
  | .throws e | .illegalAccess e => e.HasText
  | .exception e => c.isBound = true ∧ e.HasText

/-- The behaviours with which a request gets its one response. -/
def Answers (w : Surroundings Obj) (c : Callable Obj) (b : Behaviour) : Prop :=
  match b.before with
  | some completion =>
    -- the method ends where the call of `AsyncReturn` throws
    completion.Throws w c.common.tResult ∧ completion.caught = false ∨
    ¬ (completion.Throws w c.common.tResult ∧ completion.caught = false) ∧
      (completion.Sends w c.common.tResult → ∀ cause, b.ending = .throws cause → cause.Quiet) ∧
      (¬ completion.Sends w c.common.tResult → ∃ cause, b.ending = .throws cause ∧ cause.HasText)
  | none => match b.ending with
    | .returns result =>
      if c.common.takesAsyncReturn then ∀ completion ∈ b.after, completion.Sends w c.common.tResult
      else Sendable w c.common.tResult result ∨ c.isBound = true ∧ ¬ Writable w c.common.tResult result
    | ending => c.Catches ending

end Callable

/-- One response, and the serve loop goes on. -/
def Once (out : Handling × Option Raised) : Prop := out.1.sent.length = 1 ∧ out.2 = none

instance (out : Handling × Option Raised) : Decidable (Once out) :=
  inferInstanceAs (Decidable (out.1.sent.length = 1 ∧ out.2 = none))

/-- A request that is neither a signal nor a poll. -/
def Plain (r : PxpRequest) : Prop := r.isSignal = false ∧ r.pollCall = false

instance (r : PxpRequest) : Decidable (Plain r) :=
  inferInstanceAs (Decidable (r.isSignal = false ∧ r.pollCall = false))

variable {w : Surroundings Obj} {c : Callable Obj} {h : Handling} {tResult : Utf16}

namespace Handling

theorem done_ok (hp : Plain h.request) {message : List UInt8} (hm : h.request.message = .ok message) :
    h.done w = ({ h with sent := h.sent ++ [message] }, none) := by
  unfold done PxpRequest.done
  rw [hp.1, hm]
  rfl

theorem done_exception (hp : Plain h.request) (hm : h.request.message = .error .exception) :
    h.done w = (h, none) := by
  unfold done PxpRequest.done
  rw [hp.1, hm]
  simp

theorem done_error (hp : Plain h.request) (hm : h.request.message = .error .error) :
    h.done w = (h, some (.error w.throwable)) := by
  unfold done PxpRequest.done
  rw [hp.1, hm]
  rfl

/-- A request that is rejected with something gets a response if that has a text,
and gets none and is left with those that it has if the text raises. -/
theorem once_reject (hp : Plain h.request) (e : Throwable) : Once (h.reject w (some e)) ↔
    h.sent = [] ∧ e.HasText ∨ h.sent.length = 1 ∧ e.Quiet := by
  have hp' : Plain (h.setRejected (some e)).request := hp
  have hsent : (h.setRejected (some e)).sent = h.sent := rfl
  have hm : (h.setRejected (some e)).request.message = e.toString.map fun text =>
      leBytes 4 (h.request.session ^^^ 0x80000000).toNat ++ text := rfl
  unfold reject
  cases ht : e.toString with
  | ok text =>
    rw [ht] at hm
    rw [done_ok hp' hm]
    simp [Once, Throwable.HasText, Throwable.Quiet, ht, hsent]
  | error thrown =>
    cases thrown with
    | exception =>
      rw [ht] at hm
      rw [done_exception hp' hm]
      simp [Once, Throwable.HasText, Throwable.Quiet, ht, hsent]
    | error =>
      rw [ht] at hm
      rw [done_error hp' hm]
      simp [Once, Throwable.HasText, Throwable.Quiet, ht]

theorem mapM_id_ne_none {α : Type} {l : List (Option α)} (hl : none ∉ l) : l.mapM id ≠ none := by
  induction l with
  | nil => simp
  | cons b l ih =>
    obtain ⟨hb, htail⟩ := not_or.mp (List.mem_cons.not.mp hl)
    obtain ⟨a, rfl⟩ := Option.ne_none_iff_exists'.mp (Ne.symm hb)
    obtain ⟨rest, hrest⟩ := Option.ne_none_iff_exists'.mp (ih htail)
    rw [List.mapM_cons, hrest]
    simp

/-- Before anything has been sent: the result is sent, or it is not and nothing
is thrown, or writing it throws. -/
theorem resolve_cases (hp : Plain h.request) (hr : h.request.rejected = none) (hs : h.sent = []) (result : Result) :
    (Sendable w tResult result ∧ Writable w tResult result ∧ ∃ h', h.resolve w tResult result = (h', none) ∧
      h'.sent.length = 1 ∧ Plain h'.request) ∨
    (¬ Sendable w tResult result ∧ Writable w tResult result ∧ ∃ h', h.resolve w tResult result = (h', none) ∧
      h'.sent = [] ∧ Plain h'.request) ∨
    (¬ Sendable w tResult result ∧ ¬ Writable w tResult result ∧
      h.resolve w tResult result = (h, some (.exception w.throwable))) := by
  unfold resolve Sendable Writable
  cases hw : writeResult w tResult result with
  | none => exact .inr (.inr ⟨by simp, by simp, rfl⟩)
  | some bufs =>
    have hp' : Plain (h.setResult bufs).request := hp
    have hmsg : (h.setResult bufs).request.message = (bufs.mapM id).elim (.error .exception) fun bufs =>
        .ok (leBytes 4 h.request.session.toNat ++ bufs.flatten) := by
      unfold PxpRequest.message setResult
      rw [hr]
      dsimp only
      rw [Option.bind_some]
      cases bufs.mapM id <;> rfl
    cases hm : bufs.mapM id with
    | some bs =>
      rw [hm] at hmsg
      have hnone : none ∉ bufs := by
        intro hmem
        obtain ⟨before, after, rfl⟩ := List.append_of_mem hmem
        simp [List.mapM_append] at hm
      refine .inl ⟨⟨bufs, rfl, hnone⟩, by simp, _, done_ok hp' hmsg, ?_, hp'⟩
      simp [setResult, hs]
    | none =>
      rw [hm] at hmsg
      refine .inr (.inl ⟨?_, by simp, _, done_exception hp' hmsg, hs, hp'⟩)
      rintro ⟨bufs', he, hn⟩
      rw [← Option.some.inj he] at hn
      exact mapM_id_ne_none hn hm

/-- The same for either call of `AsyncReturn`. -/
theorem complete_cases (hp : Plain h.request) (hr : h.request.rejected = none) (hn : h.request.result = none)
    (hs : h.sent = []) (completion : Completion) :
    (completion.Sends w tResult ∧ ¬ completion.Throws w tResult ∧ ∃ h', h.complete w tResult completion = (h', none) ∧
      h'.sent.length = 1 ∧ Plain h'.request) ∨
    (¬ completion.Sends w tResult ∧ ¬ completion.Throws w tResult ∧
      ∃ h', h.complete w tResult completion = (h', none) ∧ h'.sent = [] ∧ Plain h'.request) ∨
    (¬ completion.Sends w tResult ∧ completion.Throws w tResult ∧
      ∃ h' raised, h.complete w tResult completion = (h', some raised) ∧ h'.sent = [] ∧ Plain h'.request ∧
        raised.throwable = w.throwable) := by
  cases completion with
  | resolve result caught =>
    obtain ⟨hsend, hw, h', hc, h1, hp'⟩ | ⟨hsend, hw, h', hc, h0, hp'⟩ | ⟨hsend, hw, hc⟩ :=
      @resolve_cases Obj w h tResult hp hr hs result
    · exact .inl ⟨hsend, not_not.mpr hw, h', hc, h1, hp'⟩
    · exact .inr (.inl ⟨hsend, not_not.mpr hw, h', hc, h0, hp'⟩)
    · exact .inr (.inr ⟨hsend, hw, h, _, hc, hs, hp, rfl⟩)
  | reject ex caught =>
    have hp' : Plain (h.setRejected ex).request := hp
    simp only [Completion.Sends, Completion.Throws, complete, reject]
    cases ex with
    | none =>
      have hm : (h.setRejected none).request.message = .error .exception := by
        unfold PxpRequest.message setRejected
        rw [hn]
        rfl
      exact .inr (.inl ⟨by simp, by simp, _, done_exception hp' hm, hs, hp'⟩)
    | some e =>
      have hm : (h.setRejected (some e)).request.message = e.toString.map fun text =>
          leBytes 4 (h.request.session ^^^ 0x80000000).toNat ++ text := rfl
      simp only [Option.some.injEq, exists_eq_left', Throwable.HasText]
      cases ht : e.toString with
      | ok text =>
        rw [ht] at hm
        exact .inl ⟨⟨text, rfl⟩, by simp, _, done_ok hp' hm, by simp [setRejected, hs], hp'⟩
      | error thrown =>
        rw [ht] at hm
        cases thrown with
        | exception => exact .inr (.inl ⟨by simp, by simp, _, done_exception hp' hm, hs, hp'⟩)
        | error => exact .inr (.inr ⟨by simp, rfl, _, _, done_error hp' hm, hs, hp', rfl⟩)

end Handling

namespace Callable

open Handling

/-- What is raised in the `try` block as the catch clauses see it. -/
def Caught (c : Callable Obj) : Raised → Prop
  | .invocationTarget _ | .illegalAccess _ => True
  | .exception _ => c.isBound = true
  | .error _ => False

theorem once_catchClauses (hp : Plain h.request) (raised : Raised) : Once (c.catchClauses w raised h) ↔
    c.Caught raised ∧ (h.sent = [] ∧ raised.throwable.HasText ∨ h.sent.length = 1 ∧ raised.throwable.Quiet) := by
  cases raised with
  | invocationTarget e | illegalAccess e =>
    simp only [catchClauses, Caught, true_and]
    exact once_reject hp e
  | exception e =>
    simp only [catchClauses, Caught]
    split
    · rename_i hb
      simp only [hb, true_and]
      exact once_reject hp e
    · rename_i hb
      simp [Once, hb]
  | error e => simp [catchClauses, Caught, Once]

theorem throwable_hasText (w : Surroundings Obj) : w.throwable.HasText := ⟨w.text, rfl⟩

theorem arraycopy_eq_some {α : Type} {src dest : List α} {srcPos destPos length : Nat} :
    (∃ l, arraycopy src srcPos dest destPos length = some l) ↔
      srcPos + length ≤ src.length ∧ destPos + length ≤ dest.length := by
  unfold arraycopy
  split <;> simp [*]

/-- `MethodCallable` copies the arguments behind an `AsyncReturn` past the end. -/
theorem args2_eq_some {args : List (MethodArg Obj)} : (∃ l, c.args2 args = some l) ↔
    (c.isBound = false → args ≠ [] ∧ c.common.takesAsyncReturn = false) := by
  cases c with
  | method m =>
    simp only [args2, isBound, common, MethodCallable.firstInputParamIndex, true_imp_iff]
    by_cases hargs : args = []
    · simp [hargs]
    · have hpos := List.length_pos_iff.mpr hargs
      rw [if_neg hargs]
      simp only [Option.map_eq_some_iff]
      rw [exists_comm]
      simp only [exists_and_left, exists_eq', and_true]
      rw [arraycopy_eq_some, List.length_replicate]
      cases m.takesAsyncReturn <;> simp [hargs]
      omega
  | boundMethod m boundObj =>
    simp only [args2, isBound, Option.map_eq_some_iff, Bool.true_eq_false, false_imp_iff, iff_true]
    obtain ⟨l, hl⟩ := (@arraycopy_eq_some _ args (List.replicate (m.firstInputParamIndex + args.length) .null) 0
      m.firstInputParamIndex args.length).mpr (by simp)
    exact ⟨_, l, hl, rfl⟩

theorem receiver_eq_some {args : List (Argument Obj)} (h : c.isBound = false → args ≠ []) :
    ∃ receiver, c.receiver args = some receiver := by
  cases c with
  | method m =>
    obtain ⟨arg, rest, rfl⟩ := List.exists_cons_of_ne_nil (h rfl)
    exact ⟨arg, rfl⟩
  | boundMethod m boundObj => exact ⟨_, rfl⟩

theorem invokes_iff {r : PxpRequest} : c.Invokes w r ↔ ∃ b, c.behaviour w r = some b := by
  unfold Invokes behaviour
  constructor
  · rintro ⟨args, buf, hread, h⟩
    obtain ⟨receiver, hrec⟩ := receiver_eq_some fun hb => (h hb).1
    obtain ⟨l, hl⟩ := (@args2_eq_some _ c (args.map .argument)).mpr fun hb => by
      simpa using h hb
    refine ⟨c.common.method receiver l, ?_⟩
    rw [hread]
    change ((c.receiver args).bind fun receiver => (c.args2 (args.map .argument)).map (c.common.method receiver)) = _
    rw [hrec, Option.bind_some, hl, Option.map_some]
  · rintro ⟨b, hb⟩
    obtain ⟨⟨args, buf⟩, hread, hrec⟩ := Option.bind_eq_some_iff.mp hb
    obtain ⟨receiver, -, hl⟩ := Option.bind_eq_some_iff.mp hrec
    obtain ⟨l, hl, -⟩ := Option.map_eq_some_iff.mp hl
    refine ⟨args, buf, hread, fun hbound => ?_⟩
    simpa using args2_eq_some.mp ⟨l, hl⟩ hbound

/-- The request before anything has been done for it. -/
def fresh (r : PxpRequest) : Handling := ⟨r.cleared, []⟩

/-- `call` from `method.invoke` on. -/
def callInvoked (w : Surroundings Obj) (c : Callable Obj) (b : Behaviour) (r : PxpRequest) :
    Handling × Option Raised :=
  c.catchRaised w (c.tryInvoke w b (fresh r))

/-- How the method ends on its own. -/
def ended : Ending → Except Raised Result
  | .returns result => .ok result
  | .throws cause => .error (.invocationTarget cause)
  | .illegalAccess e => .error (.illegalAccess e)
  | .exception e => .error (.exception e)
  | .error e => .error (.error e)

theorem invoke_none {b : Behaviour} (hb : b.before = none) : invoke w tResult b h = (h, ended b.ending) := by
  unfold invoke ended
  rw [hb]

/-- A call of `AsyncReturn` that does not end the method. -/
theorem invoke_goes_on {b : Behaviour} {completion : Completion} {h' : Handling} {raised : Option Raised}
    (hb : b.before = some completion) (hc : h.complete w tResult completion = (h', raised))
    (hr : raised = none ∨ completion.caught = true) : invoke w tResult b h = (h', ended b.ending) := by
  unfold invoke ended
  rw [hb]
  simp only [hc]
  obtain rfl | hcaught := hr
  · rfl
  · cases raised with
    | none => rfl
    | some raised => simp only [hcaught, if_true]

theorem invoke_thrown {b : Behaviour} {completion : Completion} {h' : Handling} {raised : Raised}
    (hb : b.before = some completion) (hc : h.complete w tResult completion = (h', some raised))
    (hcaught : completion.caught = false) :
    invoke w tResult b h = (h', .error (.invocationTarget raised.throwable)) := by
  unfold invoke
  rw [hb]
  simp only [hc, hcaught, if_neg Bool.false_ne_true]

theorem callInvoked_error {r : PxpRequest} {b : Behaviour} {raised : Raised}
    (hi : invoke w c.common.tResult b (fresh r) = (h, .error raised)) :
    c.callInvoked w b r = c.catchClauses w raised h := by
  unfold callInvoked tryInvoke
  rw [hi]
  rfl

theorem callInvoked_async {r : PxpRequest} {b : Behaviour} {result : Result}
    (hi : invoke w c.common.tResult b (fresh r) = (h, .ok result)) (ha : c.common.takesAsyncReturn = true) :
    c.callInvoked w b r = (h, none) := by
  have hone : c.common.firstInputParamIndex = 1 := if_pos ha
  unfold callInvoked tryInvoke
  rw [hi]
  simp [hone, catchRaised]

/-- Only a method that has been entered has called `AsyncReturn`. -/
theorem ending_of_before {b : Behaviour} {takesAsyncReturn : Bool} (hl : b.Legal takesAsyncReturn)
    (hb : b.before ≠ none) :
    takesAsyncReturn = true ∧ ((∃ result, b.ending = .returns result) ∨ ∃ cause, b.ending = .throws cause) := by
  unfold Behaviour.Legal at hl
  split at hl
  · rename_i ha
    refine ⟨ha, ?_⟩
    cases he : b.ending with
    | returns result => exact .inl ⟨result, rfl⟩
    | throws cause => exact .inr ⟨cause, rfl⟩
    | illegalAccess e | exception e | error e =>
      rw [he] at hl
      exact absurd hl.1 hb
  · exact absurd hl.1 hb

theorem once_callInvoked {r : PxpRequest} {b : Behaviour} (hp : Plain r)
    (hl : b.Legal c.common.takesAsyncReturn) (hafter : b.after = none) :
    Once (c.callInvoked w b r) ↔ c.Answers w b := by
  have hp' : Plain (fresh r).request := hp
  unfold Answers
  cases hb : b.before with
  | some completion =>
    obtain ⟨ha, hends⟩ := ending_of_before hl (by rw [hb]; exact Option.some_ne_none completion)
    simp only
    obtain ⟨hsend, hthrow, h', hc, h1, hh⟩ | ⟨hsend, hthrow, h', hc, h0, hh⟩ |
        ⟨hsend, hthrow, h', raised, hc, h0, hh, hlib⟩ :=
      @complete_cases Obj w (fresh r) c.common.tResult hp' rfl rfl rfl completion
    · -- the request has its response, and must not get a second one
      have hne : h'.sent ≠ [] := fun h0 => by rw [h0] at h1; cases h1
      have hi := invoke_goes_on hb hc (.inl rfl)
      obtain ⟨result, he⟩ | ⟨cause, he⟩ := hends
      · rw [he] at hi
        rw [callInvoked_async hi ha]
        simp [Once, h1, hthrow, hsend, he]
      · rw [he] at hi
        rw [callInvoked_error hi, once_catchClauses hh]
        simp [Caught, Raised.throwable, h1, hne, hthrow, hsend, he]
    · -- the request still has to get one
      have hi := invoke_goes_on hb hc (.inl rfl)
      obtain ⟨result, he⟩ | ⟨cause, he⟩ := hends
      · rw [he] at hi
        rw [callInvoked_async hi ha]
        simp [Once, h0, hthrow, hsend, he]
      · rw [he] at hi
        rw [callInvoked_error hi, once_catchClauses hh]
        simp [Caught, Raised.throwable, h0, hthrow, hsend, he]
    · cases hcaught : completion.caught with
      | false =>
        rw [callInvoked_error (invoke_thrown hb hc hcaught), once_catchClauses hh]
        refine iff_of_true ⟨trivial, .inl ⟨h0, ?_⟩⟩ (.inl ⟨hthrow, rfl⟩)
        rw [show (Raised.invocationTarget raised.throwable).throwable = w.throwable from hlib]
        exact throwable_hasText w
      | true =>
        have hi := invoke_goes_on hb hc (.inr hcaught)
        obtain ⟨result, he⟩ | ⟨cause, he⟩ := hends
        · rw [he] at hi
          rw [callInvoked_async hi ha]
          simp [Once, h0, hsend, he]
        · rw [he] at hi
          rw [callInvoked_error hi, once_catchClauses hh]
          simp [Caught, Raised.throwable, h0, hsend, he]
  | none =>
    have hi := @invoke_none Obj w (fresh r) c.common.tResult b hb
    simp only
    cases he : b.ending with
    | returns result =>
      rw [he] at hi
      have hsync : c.common.takesAsyncReturn = false := by
        by_contra ha
        unfold Behaviour.Legal at hl
        rw [if_pos (Bool.not_eq_false _ ▸ ha), he] at hl
        simp [hb, hafter] at hl
      have hzero : c.common.firstInputParamIndex = 0 := if_neg (by rw [hsync]; exact Bool.false_ne_true)
      have hcall : c.callInvoked w b r = c.catchRaised w ((fresh r).resolve w c.common.tResult result) := by
        unfold callInvoked tryInvoke
        rw [hi]
        simp only [ended, hzero, if_true]
      rw [hcall]
      simp only [hsync, if_neg Bool.false_ne_true]
      obtain ⟨hsend, hw, h', hc, h1, hh⟩ | ⟨hsend, hw, h', hc, h0, hh⟩ | ⟨hsend, hw, hc⟩ :=
        @resolve_cases Obj w (fresh r) c.common.tResult hp' rfl rfl result
      · rw [hc]
        exact iff_of_true ⟨h1, rfl⟩ (.inl hsend)
      · rw [hc]
        simp [catchRaised, Once, h0, hsend, hw]
      · rw [hc, catchRaised, once_catchClauses hp']
        simp [Caught, hsend, hw, Raised.throwable, throwable_hasText, fresh]
    | throws e | illegalAccess e | exception e | error e =>
      rw [he] at hi
      rw [callInvoked_error hi, once_catchClauses hp']
      simp [Caught, Catches, Raised.throwable, fresh]

end Callable

open Callable in
/-- A request that is neither a signal nor a poll gets exactly one response and
leaves the serve loop running, if and only if the callable is a
`BoundMethodCallable` or the method is invoked, and what the method then does is
one of the behaviours that are answered. -/
theorem handle_once_iff (w : Surroundings Obj) (c : Callable Obj) (r : PxpRequest) (hp : Plain r)
    (hl : ∀ b, c.behaviour w r = some b → b.Legal c.common.takesAsyncReturn) :
    Once (c.handle w r) ↔
      (c.isBound = true ∨ c.Invokes w r) ∧ ∀ b, c.behaviour w r = some b → c.Answers w b := by
  have hcleared : c.behaviour w r.cleared = c.behaviour w r := rfl
  cases hb : c.behaviour w r with
  | none =>
    have hnot : ¬ c.Invokes w r := fun hi => by
      obtain ⟨b, hb'⟩ := invokes_iff.mp hi
      rw [hb] at hb'
      cases hb'
    have hhandle : c.handle w r = c.catchClauses w (.exception w.throwable) (fresh r) := by
      unfold handle call
      rw [hcleared, hb]
      rfl
    have hp' : Plain (fresh r).request := hp
    rw [hhandle, once_catchClauses hp']
    simp [hnot, Caught, Raised.throwable, throwable_hasText, fresh]
  | some b =>
    have hi : c.Invokes w r := invokes_iff.mpr ⟨b, hb⟩
    have hlegal := hl b hb
    have hcall : c.call w r.cleared = c.callInvoked w b r := by
      unfold call callInvoked
      rw [hcleared, hb]
      rfl
    have hright : ((c.isBound = true ∨ c.Invokes w r) ∧ ∀ b', some b = some b' → c.Answers w b') ↔ c.Answers w b := by
      simp [hi]
    rw [hright]
    cases hafter : b.after with
    | none =>
      have hhandle : c.handle w r = c.callInvoked w b r := by
        unfold handle
        rw [hcall, hb, Option.bind_some, hafter]
      rw [hhandle]
      exact once_callInvoked hp hlegal hafter
    | some completion =>
      have hends : c.common.takesAsyncReturn = true ∧ b.before = none ∧ ∃ result, b.ending = .returns result := by
        unfold Behaviour.Legal at hlegal
        split at hlegal
        · rename_i ha
          refine ⟨ha, ?_⟩
          cases he : b.ending with
          | returns result =>
            rw [he, hafter] at hlegal
            simp at hlegal
            exact ⟨hlegal, result, rfl⟩
          | throws e | illegalAccess e | exception e | error e =>
            rw [he, hafter] at hlegal
            simp at hlegal
        · rw [hafter] at hlegal
          cases hlegal.2
      obtain ⟨ha, hbefore, result, he⟩ := hends
      have hi : invoke w c.common.tResult b (fresh r) = (fresh r, .ok result) := by
        rw [invoke_none hbefore, he]
        rfl
      have hhandle : c.handle w r = (((fresh r).complete w c.common.tResult completion).1, none) := by
        unfold handle
        rw [hcall, hb, Option.bind_some, hafter, callInvoked_async hi ha]
      have hanswers : c.Answers w b ↔ completion.Sends w c.common.tResult := by
        unfold Answers
        rw [hbefore, he, hafter]
        simp [ha]
      have hp' : Plain (fresh r).request := hp
      rw [hhandle, hanswers]
      obtain ⟨hsend, -, h', hc, h1, -⟩ | ⟨hsend, -, h', hc, h0, -⟩ | ⟨hsend, -, h', raised, hc, h0, -, -⟩ :=
        @Handling.complete_cases Obj w (fresh r) c.common.tResult hp' rfl rfl rfl completion
      · rw [hc]
        exact iff_of_true ⟨h1, rfl⟩ hsend
      · rw [hc]
        exact iff_of_false (fun h => by rw [Once, h0] at h; exact absurd h.1 (by simp)) hsend
      · rw [hc]
        exact iff_of_false (fun h => by rw [Once, h0] at h; exact absurd h.1 (by simp)) hsend

def surroundings : Surroundings Unit := ⟨[some ()], fun _ => [], fun _ => 0, [101]⟩

/-- A call with the one argument 0. -/
def requestZero : PxpRequest := ⟨1, 0, ByteBuffer.wrap (leBytes 4 0), some [], none, false⟩

/-- A method of the object 0 that resolves with 7 and returns. -/
def resolving : MethodCallable Unit :=
  ⟨[ValueType.o.char], [ValueType.i.char], true, fun _ _ =>
    ⟨some (.resolve (.single (.int 7)) false), .returns (.single .null), none⟩⟩

/-- The same of an `int`, which throws at the end. -/
def resolvingThrows : MethodCallable Unit :=
  ⟨[ValueType.i.char], [ValueType.i.char], true, fun _ _ =>
    ⟨some (.resolve (.single (.int 7)) false), .throws ⟨.ok [101]⟩, none⟩⟩

/-- An exception goes through a `MethodCallable` with an `AsyncReturn`, and a
method that throws after it has resolved gets two responses. -/
theorem handle_not_once :
    ((Callable.method resolving).handle surroundings requestZero).1.sent = [] ∧
    ((Callable.method resolving).handle surroundings requestZero).2 = some (.exception ⟨.ok [101]⟩) ∧
    ¬ Once ((Callable.method resolving).handle surroundings requestZero) ∧
    ((Callable.boundMethod resolvingThrows none).handle surroundings requestZero).1.sent.length = 2 ∧
    ¬ Once ((Callable.boundMethod resolvingThrows none).handle surroundings requestZero) := by
  decide

theorem behaviour_returning : (Callable.boundMethod resolving none).behaviour surroundings requestZero =
    some ⟨some (.resolve (.single (.int 7)) false), .returns (.single .null), none⟩ := by
  decide

/-- A bound method that resolves and returns. -/
theorem handle_once_resolving :
    Once ((Callable.boundMethod resolving none).handle surroundings requestZero) ↔
      ((Callable.boundMethod resolving none).isBound = true ∨
        (Callable.boundMethod resolving none).Invokes surroundings requestZero) ∧
      ∀ b, (Callable.boundMethod resolving none).behaviour surroundings requestZero = some b →
        (Callable.boundMethod resolving none).Answers surroundings b :=
  handle_once_iff surroundings (.boundMethod resolving none) requestZero (by decide) fun b hb => by
    rw [behaviour_returning] at hb
    rw [← Option.some.inj hb]
    decide

end PxpRpc.Server.Java
