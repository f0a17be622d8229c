import PxpRpc.Codec.TypeScriptSerializer
import PxpRpc.Codec.JavaTableRoundTrip
import PxpRpc.Pool.Managed
import PxpRpc.Server.JavaRequest

/-!
# The names of functions

A client asks for a function by its name and gets the index of a reference to it, or -1. In Java
the name is that of something registered, or of a member of it behind the last dot; in
TypeScript it is the name of a property.
-/
namespace PxpRpc.Server

open PxpRpc.Lib
open PxpRpc.Pool.Managed

variable {Obj Hook : Type}

/-- A request for a function, as it is sent. -/
def getFuncMessage (session : BitVec 32) (name : List Char) : List UInt8 :=
  leBytes 4 session.toNat ++ (leBytes 4 (-1 : BitVec 32).toNat ++ toUtf8 name)

/-- What becomes of a request that does not end the loop of the server. -/
structure Handled (Obj Hook : Type) where
  pool : RefPool Obj Hook
  sent : Option (List UInt8)

/-- A signal is not answered. -/
def answer (session : BitVec 32) (result : List UInt8) : Option (List UInt8) :=
  if session = 0xffffffff then none else some (leBytes 4 session.toNat ++ result)

/-- A pool with the references that are in use. -/
structure Refs (Obj Hook : Type) where
  pool : RefPool Obj Hook
  live : List Nat
  sound : Sound (refPoolExpandCount - 1) (refPoolExpandCount - 1) pool live

/-- The answer is -1 and nothing is allocated. -/
def NotFound (refs : Refs Obj Hook) (session : BitVec 32) (out : Option (Handled Obj Hook)) : Prop :=
  out = some ⟨refs.pool, answer session (leBytes 4 (-1 : BitVec 32).toNat)⟩

/-- The answer is the index of a reference that was not in use and has the object; the others are kept. -/
def Found (refs : Refs Obj Hook) (session : BitVec 32) (found : Obj) (out : Option (Handled Obj Hook)) : Prop :=
  ∃ pool i, out = some ⟨pool, answer session (leBytes 4 (BitVec.ofNat 32 i).toNat)⟩ ∧ i ∉ refs.live ∧
    Sound (refPoolExpandCount - 1) (refPoolExpandCount - 1) pool (i :: refs.live) ∧
    (pool.contents i).map Prod.fst = some (some found) ∧ ∀ j ∈ refs.live, pool.contents j = refs.pool.contents j

/-- A registered name is found, and an unknown one is not. -/
def Resolves (refs : Refs Obj Hook) (session : BitVec 32) (registered : Option Obj) (unknown : Prop)
    (out : Option (Handled Obj Hook)) : Prop :=
  (∀ found, registered = some found → Found refs session found out) ∧ (unknown → NotFound refs session out)

theorem contents_setRef {i : Nat} {object : Option Obj} {onFree : Option Hook} {pool pool' : RefPool Obj Hook}
    (h : setRef i object onFree pool = some pool') :
    pool'.contents i = some (object, onFree) ∧ ∀ j, j ≠ i → pool'.contents j = pool.contents j := by
  obtain ⟨ref, href, rfl⟩ := Option.map_eq_some_iff.mp h
  have hlt := (List.getElem?_eq_some_iff.mp href).1
  refine ⟨by simp [RefPool.contents, hlt], fun j hj => ?_⟩
  rw [RefPool.contents, RefPool.contents, List.getElem?_set_ne (Ne.symm hj)]

/-- A reference for what has been found is allocated and set. -/
theorem found_of_allocRef (refs : Refs Obj Hook) (found : Obj) (session : BitVec 32) : ∃ pool i,
    allocRef (expandRefPools (refPoolExpandCount - 1) (refPoolExpandCount - 1)) refs.pool = some (pool, i) ∧
    ∃ ref, pool.refPool[i]? = some ref ∧ ∀ onFree, ∃ pool', setRef i (some found) onFree pool = some pool' ∧
      Found refs session found (some ⟨pool', answer session (leBytes 4 (BitVec.ofNat 32 i).toNat)⟩) := by
  obtain ⟨pool, i, halloc, hi, hsound, hkeep⟩ := allocRef_sound refs.sound le_rfl
  have href := List.getElem?_eq_getElem (hsound.live_lt List.mem_cons_self)
  refine ⟨pool, i, halloc, _, href, fun onFree => ?_⟩
  obtain ⟨pool', hset⟩ : ∃ pool', setRef i (some found) onFree pool = some pool' := by
    rw [setRef, href]
    exact ⟨_, rfl⟩
  obtain ⟨hcontents, hothers⟩ := contents_setRef hset
  refine ⟨_, hset, _, i, rfl, hi, setRef_sound hsound hset, by rw [hcontents]; rfl, fun j hj => ?_⟩
  rw [hothers j fun hji => hi (hji ▸ hj), hkeep j hj]

/-- The reference that is in use besides others is determined by the pool. -/
theorem live_unique {pool : RefPool Obj Hook} {live live' : List Nat}
    (h : Sound (refPoolExpandCount - 1) (refPoolExpandCount - 1) pool live)
    (h' : Sound (refPoolExpandCount - 1) (refPoolExpandCount - 1) pool live') : live.Perm live' := by
  obtain ⟨free, lost, hfree, hperm, hlost⟩ := h.partition
  obtain ⟨free', lost', hfree', hperm', hlost'⟩ := h'.partition
  obtain rfl := hfree.unique hfree'
  rw [Nat.sub_self, Nat.zero_mul] at hlost hlost'
  obtain rfl := List.length_eq_zero_iff.mp ((Nat.mul_eq_zero.mp hlost).resolve_right (Nat.succ_ne_zero _))
  obtain rfl := List.length_eq_zero_iff.mp ((Nat.mul_eq_zero.mp hlost').resolve_right (Nat.succ_ne_zero _))
  have hsame := (List.perm_append_left_iff free).mp (hperm.trans hperm'.symm)
  rwa [List.append_nil, List.append_nil] at hsame

theorem found_unique {refs : Refs Obj Hook} {session : BitVec 32} {found found' : Obj}
    {out : Option (Handled Obj Hook)} (h : Found refs session found out) (h' : Found refs session found' out) :
    found = found' := by
  obtain ⟨pool, i, rfl, hi, hsound, hcontents, -⟩ := h
  obtain ⟨pool', i', hout, -, hsound', hcontents', -⟩ := h'
  obtain rfl := congrArg Handled.pool (Option.some.inj hout)
  have hmem : i ∈ i' :: refs.live := (live_unique hsound hsound').subset List.mem_cons_self
  obtain rfl := (List.mem_cons.mp hmem).resolve_right hi
  exact Option.some.inj (Option.some.inj (hcontents.symm.trans hcontents'))

theorem not_found_of_found {refs : Refs Obj Hook} {session : BitVec 32} {found : Obj} {out : Option (Handled Obj Hook)}
    (h : Found refs session found out) : ¬ NotFound refs session out := by
  obtain ⟨pool, i, rfl, hi, hsound, -⟩ := h
  intro hn
  obtain rfl := congrArg Handled.pool (Option.some.inj hn)
  have hlen := (live_unique hsound refs.sound).length_eq
  rw [List.length_cons] at hlen
  omega

/-! ### Java -/

namespace Java

open PxpRpc.Codec.Java

/-- What reflection tells of the objects that are registered, and the callables that are made of
a method. A field that cannot be read is none. -/
structure Reflection (Obj : Type) where
  isCallable : Obj → Bool
  methods : Obj → List Utf16
  field : Obj → Utf16 → Option (Option Obj)
  boundMethodCallable : Obj → Utf16 → Obj

def dot : UInt16 := 46

/-- `none` is the index -1. -/
def lastIndexOf (ch : UInt16) : Utf16 → Option Nat
  | [] => none
  | u :: us =>
    match lastIndexOf ch us with
    | some i => some (i + 1)
    | none => if u = ch then some 0 else none

variable (refl : Reflection Obj) (registered : Utf16 → Option Obj)

/-- A cast to `PxpCallable` -/
def cast : Option Obj → Except Thrown (Option Obj)
  | none => .ok none
  | some obj => if refl.isCallable obj then .ok (some obj) else .error .exception

/-- `BuiltInFuncList.getBoundMethod` -/
def getBoundMethod (obj : Obj) (methodName : Utf16) : Except Thrown (Option Obj) :=
  if methodName ∈ refl.methods obj then .ok (some (refl.boundMethodCallable obj methodName))
  else match refl.field obj methodName with
    | some value => cast refl value
    | none => .ok none

/-- `DefaultFuncMap.get`. A name for which null is registered is as good as none. -/
def get (name : Utf16) : Except Thrown (Option Obj) := do
  let found ← cast refl (registered name)
  match found with
  | some found => return some found
  | none =>
    match lastIndexOf dot name with
    -- `name.substring(0, -1)`
    | none => throw .exception
    | some namespaceDelim =>
      match registered (name.take namespaceDelim) with
      | some obj => getBoundMethod refl obj (name.drop (namespaceDelim + 1))
      | none => return none

def orThrow {α : Type} : Option α → Except Thrown α
  | some a => .ok a
  | none => .error .exception

/-- `ServerContext.getFunc`, on a channel that is open. -/
def getFunc (r : PxpRequest) (pool : RefPool Obj Hook) : Except Thrown (Handled Obj Hook) := do
  let name := newString r.parameter.remaining
  let found ← get refl registered name
  let ser ← orThrow (Serializer2.prepareSerializing 4)
  let (pool, ser) ← match found with
    | some found => do
      let (pool, index) ← orThrow (allocRef Java.expandRefPools pool)
      let pool ← orThrow (setRef index (some found) none pool)
      let ser ← orThrow (ser.putInt (BitVec.ofNat 32 index))
      pure (pool, ser)
    | none => do
      let ser ← orThrow (ser.putInt (-1))
      pure (pool, ser)
  let done ← { r with result := some [some ser.build.remaining] }.done true true
  return ⟨pool, done.sent⟩

/-- One round of `serve`; what is thrown ends the loop and closes the channel. -/
def serve (others : PxpRequest → RefPool Obj Hook → Option (Handled Obj Hook)) (message : List UInt8)
    (pool : RefPool Obj Hook) : Option (Handled Obj Hook) :=
  (receiveRequest message).bind fun r =>
    if r.callableIndex = -1 then (getFunc refl registered r pool).toOption else others r pool

/-- The name is that of something registered, a dot, and the name of a method or a field. -/
def DenotesMember (name : Utf16) : Prop :=
  ∃ ns func obj, name = ns ++ dot :: func ∧ dot ∉ func ∧ registered ns = some obj ∧
    (func ∈ refl.methods obj ∨ (refl.field obj func).isSome)

def Unknown (name : Utf16) : Prop := registered name = none ∧ ¬ DenotesMember refl registered name

theorem lastIndexOf_append (ch : UInt16) (us : Utf16) {vs : Utf16} (h : ch ∉ vs) :
    lastIndexOf ch (us ++ ch :: vs) = some us.length := by
  have hvs : lastIndexOf ch vs = none := by
    induction vs with
    | nil => rfl
    | cons v vs ih =>
      obtain ⟨hv, hvs⟩ := not_or.mp (List.mem_cons.not.mp h)
      rw [lastIndexOf, ih hvs]
      exact if_neg (Ne.symm hv)
  induction us with
  | nil =>
    rw [List.nil_append, lastIndexOf, hvs]
    exact if_pos rfl
  | cons u us ih =>
    rw [List.cons_append, lastIndexOf, ih]
    rfl

/-- A character that is in a string stands at its last index. -/
theorem exists_lastIndexOf {ch : UInt16} {us : Utf16} (h : ch ∈ us) :
    ∃ vs ws, us = vs ++ ch :: ws ∧ ch ∉ ws := by
  induction us with
  | nil => exact absurd h List.not_mem_nil
  | cons u us ih =>
    by_cases hus : ch ∈ us
    · obtain ⟨vs, ws, rfl, hws⟩ := ih hus
      exact ⟨u :: vs, ws, rfl, hws⟩
    · obtain rfl := (List.mem_cons.mp h).resolve_right hus
      exact ⟨[], us, rfl, hus⟩

theorem lastIndexOf_eq_none {ch : UInt16} {us : Utf16} (h : ch ∉ us) : lastIndexOf ch us = none := by
  induction us with
  | nil => rfl
  | cons u us ih =>
    obtain ⟨hu, hus⟩ := not_or.mp (List.mem_cons.not.mp h)
    rw [lastIndexOf, ih hus]
    exact if_neg (Ne.symm hu)

variable {refl registered} {name : Utf16}

theorem get_registered {obj : Obj} (h : registered name = some obj) :
    get refl registered name = if refl.isCallable obj then .ok (some obj) else .error .exception := by
  rw [get, h, cast]
  split <;> rfl

theorem get_noDot (h : registered name = none) (hdot : dot ∉ name) : get refl registered name = .error .exception := by
  rw [get, h, lastIndexOf_eq_none hdot]
  rfl

theorem get_unknown (h : Unknown refl registered name) (hdot : dot ∈ name) : get refl registered name = .ok none := by
  obtain ⟨ns, func, rfl, hfunc⟩ := exists_lastIndexOf hdot
  have htake : (ns ++ dot :: func).take ns.length = ns := List.take_left
  have hdrop : (ns ++ dot :: func).drop (ns.length + 1) = func := by simp
  rw [get, h.1, lastIndexOf_append dot ns hfunc]
  simp only [cast, htake, hdrop]
  cases hns : registered ns with
  | none => rfl
  | some obj =>
    have hnot : ¬ (func ∈ refl.methods obj ∨ (refl.field obj func).isSome) := fun hm =>
      h.2 ⟨ns, func, obj, rfl, hfunc, hns, hm⟩
    obtain ⟨hmethod, hfield⟩ := not_or.mp hnot
    change getBoundMethod refl obj func = _
    rw [getBoundMethod, if_neg hmethod, Option.not_isSome_iff_eq_none.mp hfield]

theorem receiveRequest_getFuncMessage (session : BitVec 32) (name : List Char) : ∃ buf,
    receiveRequest (getFuncMessage session name) = some ⟨session, -1, buf, some [], none, false⟩ ∧
      buf.remaining = toUtf8 name := by
  have hgetInt : ∀ {v : BitVec 32} {buf : ByteBuffer} {rest : List UInt8}, Reads ⟨buf⟩ (leBytes 4 v.toNat ++ rest) →
      ∃ buf', getInt buf = some (v, buf') ∧ Reads ⟨buf'⟩ rest := fun h => by
    obtain ⟨⟨buf'⟩, hget, hr⟩ := h.getWord
    refine ⟨buf', ?_, hr⟩
    rw [Serializer2.getWord, Serializer2.getRaw, Option.map_map] at hget
    obtain ⟨⟨bs, buf₁⟩, hbuf, he⟩ := Option.map_eq_some_iff.mp hget
    obtain ⟨hv, hbuf'⟩ := Prod.mk.inj he
    obtain rfl := Serializer2.mk.inj hbuf'
    change (ByteBuffer.get _ 4).map _ = _
    rw [hbuf]
    exact congrArg (fun v => some (v, buf₁)) hv
  have hmessage : Reads ⟨ByteBuffer.wrap (getFuncMessage session name)⟩ (getFuncMessage session name) :=
    ⟨Nat.zero_le _, le_rfl, List.take_length⟩
  obtain ⟨buf₁, hsession, hr₁⟩ := hgetInt hmessage
  obtain ⟨buf₂, hindex, hr₂⟩ := hgetInt hr₁
  refine ⟨buf₂, ?_, hr₂.remaining⟩
  rw [receiveRequest, hsession, Option.bind_some]
  simp only [hindex]
  rfl

theorem putInt_index : ∃ ser, Serializer2.prepareSerializing 4 = some ser ∧
    ∀ v : BitVec 32, ∃ ser', ser.putInt v = some ser' ∧ ser'.build.remaining = leBytes 4 v.toNat := by
  obtain ⟨ser, hser, hw, hcap⟩ := Sheet.prepareSerializing_some (n := 4) (by decide)
  refine ⟨ser, hser, fun v => ?_⟩
  have hgrow : Codec.grow ser.buf.array.length ([] : List UInt8).length (leBytes 4 v.toNat).length = some 4 := by
    rw [hcap, length_leBytes]
    rfl
  obtain ⟨ser', hput, hw', -⟩ := hw.putRaw hgrow
  exact ⟨ser', hput, hw'.build⟩

theorem done_eq (session : BitVec 32) (buf : ByteBuffer) (bs : List UInt8) :
    PxpRequest.done ⟨session, -1, buf, some [some bs], none, false⟩ true true = .ok ⟨answer session bs, false⟩ := by
  rw [PxpRequest.done, PxpRequest.isSignal, answer]
  simp only [decide_eq_true_eq]
  split
  · rfl
  · simp [PxpRequest.message, PxpRequest.again]

theorem ok_bind {α β : Type} (a : α) (f : α → Except Thrown β) : Except.ok a >>= f = f a := rfl

variable {others : PxpRequest → RefPool Obj Hook → Option (Handled Obj Hook)} {refs : Refs Obj Hook}
  {session : BitVec 32} {text : List Char}

/-- What becomes of a request for a function. -/
theorem serve_getFuncMessage :
    match get refl registered (toUtf16 text) with
    | .error _ => serve refl registered others (getFuncMessage session text) refs.pool = none
    | .ok none => NotFound refs session (serve refl registered others (getFuncMessage session text) refs.pool)
    | .ok (some found) =>
      Found refs session found (serve refl registered others (getFuncMessage session text) refs.pool) := by
  obtain ⟨buf, hreceive, hbuf⟩ := receiveRequest_getFuncMessage session text
  have hname : newString buf.remaining = toUtf16 text := by rw [hbuf, newString, fromUtf8_toUtf8]
  obtain ⟨ser, hser, hput⟩ := putInt_index
  rw [serve, hreceive, Option.bind_some, if_pos rfl, getFunc]
  simp only [hname, hser, orThrow]
  cases get refl registered (toUtf16 text) with
  | error thrown => rfl
  | ok found =>
    cases found with
    | none =>
      obtain ⟨ser', hser', hbuild⟩ := hput (-1)
      simp only [hser', ok_bind, pure_bind, done_eq, hbuild]
      rfl
    | some found =>
      obtain ⟨pool, i, halloc, -, -, hfound⟩ := found_of_allocRef refs found session
      obtain ⟨pool', hset, hfound⟩ := hfound none
      obtain ⟨ser', hser', hbuild⟩ := hput (BitVec.ofNat 32 i)
      have halloc' : allocRef Java.expandRefPools refs.pool = some (pool, i) := halloc
      simp only [halloc', hset, hser', ok_bind, pure_bind, done_eq, hbuild]
      exact hfound

/-- Java resolves a name as it should if and only if what is registered by it is callable, and there is a dot in it
if it is unknown. -/
theorem resolves_iff : Resolves refs session (registered (toUtf16 text)) (Unknown refl registered (toUtf16 text))
      (serve refl registered others (getFuncMessage session text) refs.pool) ↔
    (∀ obj, registered (toUtf16 text) = some obj → refl.isCallable obj) ∧
    (Unknown refl registered (toUtf16 text) → dot ∈ toUtf16 text) := by
  have hserve := @serve_getFuncMessage _ _ refl registered others refs session text
  cases hr : registered (toUtf16 text) with
  | some obj =>
    rw [get_registered hr] at hserve
    have hknown : ¬ Unknown refl registered (toUtf16 text) := fun h => by
      rw [h.1] at hr
      cases hr
    simp only [Resolves, Option.some.injEq, forall_eq', hknown, false_imp_iff, and_true]
    by_cases hc : refl.isCallable obj
    · rw [if_pos hc] at hserve
      exact iff_of_true hserve hc
    · rw [if_neg hc] at hserve
      refine iff_of_false (fun hfound => ?_) hc
      obtain ⟨pool, i, hout, -⟩ := hfound
      rw [hserve] at hout
      cases hout
  | none =>
    simp only [Resolves, reduceCtorEq, false_imp_iff, implies_true, true_and]
    refine forall_congr' fun hunknown => ?_
    by_cases hdot : dot ∈ toUtf16 text
    · rw [get_unknown hunknown hdot] at hserve
      exact iff_of_true hserve hdot
    · rw [get_noDot hr hdot] at hserve
      refine iff_of_false (fun hout => ?_) hdot
      rw [NotFound, hserve] at hout
      cases hout

end Java

/-! ### TypeScript -/

namespace TypeScript

open PxpRpc.Codec.TypeScript

/-- The value of a property of `funcMap`: a callable that is registered, or what every object inherits. -/
inductive Value (Obj : Type) where
  | registered (callable : Obj)
  | inherited (name : Utf16)
deriving DecidableEq, Repr

/-- The properties of `Object.prototype`. -/
def objectPrototype : List Utf16 :=
  ["constructor", "__proto__", "__defineGetter__", "__defineSetter__", "hasOwnProperty", "__lookupGetter__",
    "__lookupSetter__", "isPrototypeOf", "propertyIsEnumerable", "toString", "valueOf", "toLocaleString"].map
    fun name => toUtf16 name.toList

/-- `this.funcMap[name]`, where the callables are registered in an object. -/
def findFunc (funcMap : Utf16 → Option Obj) (name : Utf16) : Option (Value Obj) :=
  match funcMap name with
  | some callable => some (.registered callable)
  | none => if name ∈ objectPrototype then some (.inherited name) else none

/-- `ref2.object=found` -/
def setObject (i : Nat) (object : Obj) (pool : RefPool Obj Hook) : Option (RefPool Obj Hook) :=
  pool.refPool[i]?.bind fun ref => setRef i (some object) ref.onFree pool

/-- `Server.getFunc`: the result of the request. -/
def getFunc (funcMap : Utf16 → Option Obj) (parameter : List UInt8) (pool : RefPool (Value Obj) Hook) :
    Option (RefPool (Value Obj) Hook × List UInt8) :=
  match findFunc funcMap (decodeText parameter) with
  | none => some (pool, leBytes 4 (-1 : BitVec 32).toNat)
  | some found =>
    (allocRef TypeScript.expandRefPools pool).bind fun (pool, index) =>
      (setObject index found pool).map fun pool => (pool, leBytes 4 (BitVec.ofNat 32 index).toNat)

/-- What `serve` makes of a packet: the session, the index of the callable and the parameter. -/
def receiveRequest (packet : List UInt8) : Option (BitVec 32 × BitVec 32 × List UInt8) :=
  if 8 ≤ packet.length then
    some (BitVec.ofNat 32 (leValue (packet.take 4)), BitVec.ofNat 32 (leValue ((packet.drop 4).take 4)),
      packet.drop 8)
  else none

/-- One round of `serve` with its `processRequest`; what is thrown in either closes the server. -/
def serve (funcMap : Utf16 → Option Obj)
    (others : BitVec 32 × BitVec 32 × List UInt8 → RefPool (Value Obj) Hook → Option (Handled (Value Obj) Hook))
    (packet : List UInt8) (pool : RefPool (Value Obj) Hook) : Option (Handled (Value Obj) Hook) :=
  (receiveRequest packet).bind fun r =>
    if r.2.1 = -1 then (getFunc funcMap r.2.2 pool).map fun (pool, result) => ⟨pool, answer r.1 result⟩
    else others r pool

theorem receiveRequest_getFuncMessage (session : BitVec 32) (name : List Char) :
    receiveRequest (getFuncMessage session name) = some (session, -1, toUtf8 name) := by
  have hword : ∀ v : BitVec 32, BitVec.ofNat 32 (leValue (leBytes 4 v.toNat)) = v := fun v => by
    rw [leValue_leBytes_of_lt v.isLt, BitVec.ofNat_toNat, BitVec.setWidth_eq]
  have htake : ∀ (v : BitVec 32) (rest : List UInt8), (leBytes 4 v.toNat ++ rest).take 4 = leBytes 4 v.toNat :=
    fun v rest => List.take_left' (length_leBytes 4 _)
  have hdrop : ∀ (v : BitVec 32) (rest : List UInt8), (leBytes 4 v.toNat ++ rest).drop 4 = rest :=
    fun v rest => List.drop_left' (length_leBytes 4 _)
  have hrest : (getFuncMessage session name).drop 8 = toUtf8 name := by
    rw [getFuncMessage, show 8 = 4 + 4 from rfl, ← List.drop_drop, hdrop, hdrop]
  rw [receiveRequest, if_pos (by simp [getFuncMessage]; omega), hrest, getFuncMessage, htake, hdrop, htake, hword,
    hword]

variable {funcMap : Utf16 → Option Obj}
  {others : BitVec 32 × BitVec 32 × List UInt8 → RefPool (Value Obj) Hook → Option (Handled (Value Obj) Hook)}
  {refs : Refs (Value Obj) Hook} {session : BitVec 32} {text : List Char}

theorem serve_getFuncMessage :
    match findFunc funcMap (heard text) with
    | none => NotFound refs session (serve funcMap others (getFuncMessage session text) refs.pool)
    | some found => Found refs session found (serve funcMap others (getFuncMessage session text) refs.pool) := by
  have hname : decodeText (toUtf8 text) = heard text := by rw [decodeText, fromUtf8_toUtf8, heard]
  rw [serve, receiveRequest_getFuncMessage, Option.bind_some, if_pos rfl]
  simp only [getFunc, hname]
  cases findFunc funcMap (heard text) with
  | none => rfl
  | some found =>
    obtain ⟨pool, i, halloc, ref, href, hfound⟩ := found_of_allocRef refs found session
    obtain ⟨pool', hset, hfound⟩ := hfound ref.onFree
    have halloc' : allocRef TypeScript.expandRefPools refs.pool = some (pool, i) := halloc
    simp only [halloc', Option.bind_some, setObject, href, hset, Option.map_some]
    exact hfound

/-- TypeScript resolves a name as it should if and only if what is registered by it is what is registered by the
name without a byte order mark, and that is no property of every object unless something is registered by it. -/
theorem resolves_iff : Resolves refs session ((funcMap (toUtf16 text)).map Value.registered)
      (funcMap (toUtf16 text) = none) (serve funcMap others (getFuncMessage session text) refs.pool) ↔
    funcMap (heard text) = funcMap (toUtf16 text) ∧
    (funcMap (toUtf16 text) = none → heard text ∉ objectPrototype) := by
  have hserve := @serve_getFuncMessage _ _ funcMap others refs session text
  have hiff : Resolves refs session ((funcMap (toUtf16 text)).map Value.registered)
      (funcMap (toUtf16 text) = none) (serve funcMap others (getFuncMessage session text) refs.pool) ↔
      findFunc funcMap (heard text) = (funcMap (toUtf16 text)).map Value.registered := by
    cases hf : findFunc funcMap (heard text) with
    | none =>
      rw [hf] at hserve
      cases funcMap (toUtf16 text) with
      | none => exact iff_of_true ⟨fun found h => absurd h (by simp), fun _ => hserve⟩ rfl
      | some callable =>
        refine iff_of_false (fun h => not_found_of_found (h.1 _ rfl) hserve) fun h => ?_
        cases h
    | some found =>
      rw [hf] at hserve
      cases funcMap (toUtf16 text) with
      | none =>
        refine iff_of_false (fun h => not_found_of_found hserve (h.2 rfl)) fun h => ?_
        cases h
      | some callable =>
        constructor
        · exact fun h => congrArg some (found_unique hserve (h.1 _ rfl))
        · rintro h
          refine ⟨fun found' h' => ?_, fun h' => by cases h'⟩
          rwa [← Option.some.inj (h.trans h')]
  rw [hiff, findFunc]
  cases hh : funcMap (heard text) with
  | some callable =>
    cases funcMap (toUtf16 text) with
    | none => simp
    | some callable' => simp
  | none =>
    cases funcMap (toUtf16 text) with
    | none => simp
    | some callable' =>
      simp only [reduceCtorEq, false_and, iff_false]
      split <;> simp

end TypeScript

/-- In Java a name is resolved as it should be if and only if nothing is registered by it that cannot be called, and
an unknown one has a dot; in TypeScript, if and only if a byte order mark in front makes no difference, and an unknown
one is not that of a property which every object has. -/
theorem getFunc_resolves_iff (session : BitVec 32) (text : List Char) :
    (∀ (refl : Java.Reflection Obj) (registered : Utf16 → Option Obj)
        (others : Java.PxpRequest → RefPool Obj Hook → Option (Handled Obj Hook)) (refs : Refs Obj Hook),
      Resolves refs session (registered (toUtf16 text)) (Java.Unknown refl registered (toUtf16 text))
        (Java.serve refl registered others (getFuncMessage session text) refs.pool) ↔
      (∀ obj, registered (toUtf16 text) = some obj → refl.isCallable obj) ∧
      (Java.Unknown refl registered (toUtf16 text) → Java.dot ∈ toUtf16 text)) ∧
    ∀ (funcMap : Utf16 → Option Obj) (others : BitVec 32 × BitVec 32 × List UInt8 →
        RefPool (TypeScript.Value Obj) Hook → Option (Handled (TypeScript.Value Obj) Hook))
        (refs : Refs (TypeScript.Value Obj) Hook),
      Resolves refs session ((funcMap (toUtf16 text)).map TypeScript.Value.registered)
        (funcMap (toUtf16 text) = none)
        (TypeScript.serve funcMap others (getFuncMessage session text) refs.pool) ↔
      funcMap (Codec.TypeScript.heard text) = funcMap (toUtf16 text) ∧
      (funcMap (toUtf16 text) = none → Codec.TypeScript.heard text ∉ TypeScript.objectPrototype) :=
  ⟨fun _ _ _ _ => Java.resolves_iff, fun _ _ _ => TypeScript.resolves_iff⟩

def noRefs (Obj : Type) : Refs Obj Unit := ⟨RefPool.empty, [], sound_empty⟩

def noFuncs : Utf16 → Option Unit := fun _ => none

def noMembers : Java.Reflection Unit := ⟨fun _ => true, fun _ => [], fun _ _ => none, fun _ _ => ()⟩

/-- Nothing is registered. Java throws for a name without a dot, and TypeScript answers with the index of
the function `toString` of objects. -/
theorem getFunc_misresolves :
    ¬ Resolves (noRefs Unit) 1 (noFuncs (toUtf16 ['x'])) (Java.Unknown noMembers noFuncs (toUtf16 ['x']))
      (Java.serve noMembers noFuncs (fun _ _ => none) (getFuncMessage 1 ['x']) (noRefs Unit).pool) ∧
    ¬ Resolves (noRefs (TypeScript.Value Unit)) 1
      ((noFuncs (toUtf16 "toString".toList)).map TypeScript.Value.registered)
      (noFuncs (toUtf16 "toString".toList) = none)
      (TypeScript.serve noFuncs (fun _ _ => none) (getFuncMessage 1 "toString".toList)
        (noRefs (TypeScript.Value Unit)).pool) := by
  constructor
  · intro h
    have hunknown : Java.Unknown noMembers noFuncs (toUtf16 ['x']) := by
      refine ⟨rfl, fun hm => ?_⟩
      obtain ⟨ns, func, obj, -, -, hns, -⟩ := hm
      cases hns
    exact absurd ((Java.resolves_iff.mp h).2 hunknown) (by decide)
  · intro h
    exact absurd ((TypeScript.resolves_iff.mp h).2 rfl) (by decide)

end PxpRpc.Server
