import PxpRpc.Server.NativeCleanUp

/-!
# Calls of the handlers of C++

Below the objects of the call under way lie those of the calls that have finished: a
call that resolved has left nothing there, one that rejected its `Parameter`, its
`AsyncReturn` and all callbacks.
-/
namespace PxpRpc.Server.Cpp.Served

open PxpRpc.Lib
open PxpRpc.Codec.Native (Item prepareUnser build)

variable {s s' : Served} {low a w para ret : Nat} {ser : Option Nat} {cbs : List Callback}

/-! ### Calls that have finished -/

/-- What a finished call has left, all of it below `low`. -/
structure Settled (low : Nat) (s : Served) (i : Invocation) : Prop where
  para : i.para < low
  ret : i.ret < low
  buffer : ∀ b ∈ i.buffer, b < low
  resolved : i.ending.resolves → s.obj i.para = none ∧ s.obj i.ret = none ∧ (∀ b ∈ i.buffer, s.obj b = none) ∧
    ∀ id, s.log.count (.ran i.ret id) = s.log.count (.pushed i.ret id)
  rejected : i.ending.resolves = false → s.obj i.para ≠ none

variable {i : Invocation}

theorem Settled.frame (h : Settled low s i) (hf : Frame low s s') : Settled low s' i where
  para := h.para
  ret := h.ret
  buffer := h.buffer
  resolved hres := by
    obtain ⟨hpara, hret, hbuffer, hran⟩ := h.resolved hres
    refine ⟨(hf.obj _ h.para).trans hpara, (hf.obj _ h.ret).trans hret,
      fun b hb => (hf.obj b (h.buffer b hb)).trans (hbuffer b hb), fun id => ?_⟩
    rw [hf.ran _ h.ret, hf.pushed _ h.ret, hran]
  rejected hrej := by
    rw [hf.obj _ h.para]
    exact h.rejected hrej

theorem Settled.mono {low' : Nat} (h : Settled low s i) (hle : low ≤ low') : Settled low' s i :=
  ⟨h.para.trans_le hle, h.ret.trans_le hle, fun b hb => (h.buffer b hb).trans_le hle, h.resolved, h.rejected⟩

/-- A finished call is cleaned up if it was resolved, and only then. -/
theorem Settled.cleanedUp_iff (h : Settled low s i) (ht : Tidy s) (hlow : low ≤ s.next) :
    CleanedUp s i ↔ i.ending.resolves := by
  have hcount : ∀ a, a < low → (s.log.count (.deleted a) = 1 ↔ s.obj a = none) := fun a ha => by
    rw [ht.once]
    simp [ha.trans_le hlow]
  constructor
  · intro hc
    by_contra hrej
    exact h.rejected (by simpa using hrej) ((hcount _ h.para).mp hc.para)
  · intro hres
    obtain ⟨hpara, hret, hbuffer, hran⟩ := h.resolved hres
    exact ⟨(hcount _ h.para).mpr hpara, (hcount _ h.ret).mpr hret,
      fun b hb => (hcount b (h.buffer b hb)).mpr (hbuffer b hb), hran⟩

/-! ### A call under way -/

/-- The functions that the handler has pushed. -/
def UserOnly (cbs : List Callback) : Prop := ∀ cb ∈ cbs, ∃ id, cb = .user id

theorem UserOnly.frees (hu : UserOnly cbs) (base : Pointer) : cbs.flatMap (Callback.frees base) = [] := by
  refine List.flatMap_eq_nil_iff.mpr fun cb hcb => ?_
  obtain ⟨id, rfl⟩ := hu cb hcb
  rfl

theorem UserOnly.push (hu : UserOnly cbs) (id : Nat) : UserOnly (cbs ++ [.user id]) := by
  intro cb hcb
  rcases List.mem_append.mp hcb with hcb | hcb
  · exact hu cb hcb
  · exact ⟨id, List.mem_singleton.mp hcb⟩

theorem UserOnly.owned (hu : UserOnly cbs) (base : Pointer) :
    owned base w para ret ser cbs = ser.toList ++ [para, ret, w] := by
  rw [Served.owned, hu.frees, List.nil_append]

/-- What is owned with one more callback. -/
theorem UserOnly.owned_push (hu : UserOnly cbs) (base : Pointer) (cb : Callback) :
    Served.owned base w para ret ser (cbs ++ [cb]) = cb.frees base ++ (ser.toList ++ [para, ret, w]) := by
  rw [Served.owned, List.flatMap_append, hu.frees, List.nil_append, List.flatMap_singleton]

/-- Objects made since, and one more callback that will delete them. -/
theorem Owns.grow (ho : Owns s low w para ret ser cbs) (hu : UserOnly cbs) (ht : Tidy s) (hlow : low ≤ s.next)
    (hobj : ∀ a, a < s.next → s'.obj a = s.obj a) (hook : s'.req.onFinish = s.req.onFinish)
    (hdata : s'.req.callableData = s.req.callableData) {cb : Callback}
    (hnew : ∀ a ∈ cb.frees s'.req.result.base, s.next ≤ a ∧ (s'.obj a).isSome)
    (hnodup : (cb.frees s'.req.result.base).Nodup)
    (hbase : ∀ ser, cb = .freeBuilt ser → ∀ id, s'.req.result.base ≠ .other id)
    (hpushed : ∀ id, s'.log.count (.pushed ret id) = (cbs ++ [cb]).count (.user id))
    (hran : ∀ id, s'.log.count (.ran ret id) = 0) :
    Owns (s'.store ret (.asyncReturn w (cbs ++ [cb]))) low w para ret ser (cbs ++ [cb]) := by
  have hold := ho.there ht
  have hrest : (ser.toList ++ [para, ret, w]).Nodup := (List.nodup_append.mp ho.nodup).2.1
  obtain ⟨hpr, -, hrw⟩ := ho.apart
  refine ⟨hook.trans ho.hook, hdata.trans ho.data, fun n hn => ?_, ?_, ?_, obj_store_self, ?_, ?_, ?_, hpushed, hran⟩
  · rcases List.mem_append.mp hn with hn | hn
    · obtain ⟨id, hid⟩ := hu _ hn
      cases hid
    · exact hbase n (List.mem_singleton.mp hn).symm
  · rw [obj_store_of_ne hrw.symm, hobj w (hold w (by simp)).2.2]
    exact ho.wrapper
  · rw [obj_store_of_ne hpr, hobj para (hold para (by simp)).2.2]
    exact ho.parameter
  · rw [req_store, hu.owned_push]
    exact hnodup.append hrest fun a ha hb => absurd (hold a hb).2.2 (Nat.not_lt_of_le (hnew a ha).1)
  · rw [req_store, hu.owned_push]
    intro a ha
    refine isSome_store ?_
    rcases List.mem_append.mp ha with ha | ha
    · exact (hnew a ha).2
    · rw [hobj a (hold a ha).2.2]
      exact (hold a ha).1
  · rw [req_store, hu.owned_push]
    intro a ha
    rcases List.mem_append.mp ha with ha | ha
    · exact hlow.trans (hnew a ha).1
    · exact (hold a ha).2.1

theorem Owns.setResult (ho : Owns s low w para ret ser cbs) (hu : UserOnly cbs) (result : BufferPart) :
    Owns (s.setResult result) low w para ret ser cbs where
  hook := ho.hook
  data := ho.data
  base n hn := by
    obtain ⟨id, hid⟩ := hu _ hn
    cases hid
  wrapper := ho.wrapper
  parameter := ho.parameter
  asyncReturn := ho.asyncReturn
  nodup := by
    rw [hu.owned, ← hu.owned s.req.result.base]
    exact ho.nodup
  live := by
    rw [hu.owned, ← hu.owned s.req.result.base]
    exact ho.live
  above := by
    rw [hu.owned, ← hu.owned s.req.result.base]
    exact ho.above
  pushed := ho.pushed
  ran := ho.ran

/-- What an ending leaves for the server to finish. -/
def Concluded (low : Nat) (s : Served) (i : Invocation) : Prop :=
  if i.ending.resolves then
    ∃ w ser cbs, Owns s low w i.para i.ret ser cbs ∧
      ∀ b ∈ i.buffer, b ∈ cbs.flatMap (Callback.frees s.req.result.base)
  else
    ∃ w b, s.req.onFinish ∧ s.req.callableData = some w ∧ s.obj w = some (.wrap (.deleteRaw b)) ∧ i.buffer = some b ∧
      (∀ a ∈ [i.para, i.ret, b, w], low ≤ a ∧ (s.obj a).isSome) ∧ [i.para, b, w].Nodup

/-- Steps of one call, which work above `low`. -/
structure Reaches (low : Nat) (s s' : Served) : Prop where
  tidy : Tidy s'
  frame : Frame low s s'
  finished : s'.finished = s.finished

/-- The request and the phase are not memory. -/
theorem Reaches.of_memory {t : Served} (ht : Tidy t) (hf : Frame low s t) (hobj : s'.obj = t.obj)
    (hnext : s'.next = t.next) (hlog : s'.log = t.log) (hfinished : s'.finished = s.finished) : Reaches low s s' where
  tidy := ⟨by rw [hobj, hnext]; exact ht.fresh, by rw [hobj, hnext, hlog]; exact ht.once,
    by rw [hnext, hlog]; exact ht.unused⟩
  frame := ⟨by rw [hnext]; exact hf.next, by rw [hobj]; exact hf.obj, by rw [hlog]; exact hf.pushed,
    by rw [hlog]; exact hf.ran⟩
  finished := hfinished

/-- A function that the handler pushes. -/
theorem Owns.push (ho : Owns s low w para ret ser cbs) (hu : UserOnly cbs) (ht : Tidy s) (hlow : low ≤ s.next)
    {id : Nat} (h : s.push ret id = some s') :
    Owns s' low w para ret ser (cbs ++ [.user id]) ∧ Reaches low s s' ∧ s'.phase = s.phase := by
  have hsome : (s.obj ret).isSome := ho.live ret (mem_owned_ret _)
  have hret : low ≤ ret := ho.above ret (mem_owned_ret _)
  rw [Served.push, pushBack, ho.asyncReturn] at h
  obtain rfl := Option.some.inj h
  have hpushed : ∀ id', (s.emit (.pushed ret id)).log.count (.pushed ret id') =
      (cbs ++ [Callback.user id]).count (Callback.user id') := fun id' => by
    rw [emit, List.count_append, List.count_append, ho.pushed]
    simp [List.count_singleton]
  have hran : ∀ id', (s.emit (.pushed ret id)).log.count (.ran ret id') = 0 := fun id' => by
    rw [emit, List.count_append, ho.ran]
    simp
  refine ⟨?_, ⟨?_, ?_, rfl⟩, rfl⟩
  · exact @Owns.grow s (s.emit (.pushed ret id)) low w para ret ser cbs ho hu ht hlow (fun _ _ => rfl) rfl rfl
      (.user id) (fun _ ha => by cases ha) List.nodup_nil (fun _ hn => by cases hn) hpushed hran
  · have hstored := ht.store hsome (.asyncReturn w (cbs ++ [.user id]))
    exact hstored.emit_pushed (ht.lt_next hsome) id
  · exact (Frame.store hret _).trans (Frame.emit_pushed hret id)

/-- The counts of the functions that are pushed do not change with one of `resolve` itself. -/
theorem Owns.counts (ho : Owns s low w para ret ser cbs) {cb : Callback} (hcb : ∀ id, cb ≠ .user id) (id : Nat) :
    s.log.count (.pushed ret id) = (cbs ++ [cb]).count (.user id) := by
  rw [ho.pushed, List.count_append, List.count_singleton, if_neg (by simpa using hcb id), Nat.add_zero]

theorem Owns.part (ho : Owns s low w para ret ser cbs) (hu : UserOnly cbs) (ht : Tidy s) (hlow : low ≤ s.next)
    {buf : BufferPart} {id : Nat} {buffer : Option Nat} (h : s.conclude ret (.part buf id) = some (buffer, s')) :
    Concluded low s' ⟨para, ret, buffer, .part buf id⟩ ∧ Reaches low s s' := by
  obtain ⟨s₁, hpush, hr⟩ := Option.map_eq_some_iff.mp h
  obtain ⟨rfl, rfl⟩ := Prod.mk.inj hr
  obtain ⟨howns, hreach, -⟩ := (ho.setResult hu buf).push hu ⟨ht.fresh, ht.once, ht.unused⟩ hlow hpush
  have hframe := hreach.frame
  exact ⟨⟨w, ser, _, howns, fun b hb => by cases hb⟩, .of_memory hreach.tidy
    ⟨hframe.next, hframe.obj, hframe.pushed, hframe.ran⟩ rfl rfl rfl hreach.finished⟩

/-- The overload that copies. -/
theorem Owns.raw (ho : Owns s low w para ret ser cbs) (hu : UserOnly cbs) (ht : Tidy s) (hlow : low ≤ s.next)
    {buf : List UInt8} {buffer : Option Nat} (h : s.conclude ret (.raw buf) = some (buffer, s')) :
    Concluded low s' ⟨para, ret, buffer, .raw buf⟩ ∧ Reaches low s s' := by
  have hsome : (s.obj ret).isSome := ho.live ret (mem_owned_ret _)
  have hret : low ≤ ret := ho.above ret (mem_owned_ret _)
  have hread : (s.alloc (.bytes buf)).obj ret = some (.asyncReturn w cbs) := by
    rw [obj_alloc_of_lt (ht.lt_next hsome), ho.asyncReturn]
  obtain ⟨s₁, hpush, hr⟩ := Option.map_eq_some_iff.mp h
  obtain ⟨rfl, rfl⟩ := Prod.mk.inj hr
  rw [pushBack] at hpush
  simp only [Served.setResult, hread] at hpush
  obtain rfl := Option.some.inj hpush
  refine ⟨⟨w, ser, _, @Owns.grow s
    ((s.alloc (.bytes buf)).setResult ⟨.heap s.next, BitVec.ofNat 32 buf.length, .null⟩) low w para ret ser cbs ho hu ht
    hlow (fun a ha => obj_alloc_of_lt ha) rfl rfl (.deleteRaw s.next) ?_ ?_ ?_ ?_ ?_, ?_⟩, ?_⟩
  · intro a ha
    obtain rfl := List.mem_singleton.mp ha
    exact ⟨le_rfl, by rw [Served.setResult, obj_alloc_self]; rfl⟩
  · exact List.nodup_singleton _
  · exact fun n hn => by cases hn
  · exact ho.counts fun id hid => by cases hid
  · exact ho.ran
  · intro b hb
    obtain rfl := Option.some.inj hb
    exact List.mem_flatMap.mpr ⟨.deleteRaw s.next, List.mem_concat_self, List.mem_singleton_self _⟩
  · exact .of_memory ((ht.alloc (.bytes buf)).store (Option.isSome_of_eq_some hread) _)
      ((Frame.alloc hlow (.bytes buf)).trans (Frame.store hret _)) rfl rfl rfl rfl

/-- The overloads that write a serializer. -/
theorem Owns.resolveSerializer (ho : Owns s low w para ret ser cbs) (hu : UserOnly cbs) (ht : Tidy s)
    (hlow : low ≤ s.next) {initBufSize : BitVec 32} {items : List Item} {buffer : Option Nat} {e : Ending}
    (he : e.resolves) (h : s.resolveSerializer ret initBufSize items = some (buffer, s')) :
    Concluded low s' ⟨para, ret, buffer, e⟩ ∧ Reaches low s s' := by
  have hsome : (s.obj ret).isSome := ho.live ret (mem_owned_ret _)
  have hret : low ≤ ret := ho.above ret (mem_owned_ret _)
  have hlt := ht.lt_next hsome
  obtain ⟨s₁, hnew, hrest⟩ := Option.bind_eq_some_iff.mp h
  obtain ⟨wrapped, -, rfl⟩ := Option.map_eq_some_iff.mp hnew
  have hser : ((s.alloc .buffer).alloc (.serializer wrapped (.heap s.next))).obj (s.next + 1) =
      some (.serializer wrapped (.heap s.next)) := obj_alloc_self
  have hread : ((s.alloc .buffer).alloc (.serializer wrapped (.heap s.next))).obj ret = some (.asyncReturn w cbs) := by
    rw [obj_alloc_of_lt (Nat.lt_succ_of_lt hlt), obj_alloc_of_lt hlt, ho.asyncReturn]
  rw [hser] at hrest
  obtain ⟨s₁, hpush, hr⟩ := Option.map_eq_some_iff.mp hrest
  obtain ⟨rfl, rfl⟩ := Prod.mk.inj hr
  rw [pushBack] at hpush
  simp only [Served.setResult, hread] at hpush
  obtain rfl := Option.some.inj hpush
  rw [Concluded, if_pos he]
  refine ⟨⟨w, ser, _, @Owns.grow s
    (((s.alloc .buffer).alloc (.serializer wrapped (.heap s.next))).setResult
      { s.req.result with base := .heap s.next, length := (build wrapped).2 }) low w para ret ser cbs ho hu ht hlow
      ?_ rfl rfl (.freeBuilt (s.next + 1)) ?_ ?_ ?_ ?_ ?_, ?_⟩, ?_⟩
  · exact fun a ha => (obj_alloc_of_lt (Nat.lt_succ_of_lt ha)).trans (obj_alloc_of_lt ha)
  · intro a ha
    rcases List.mem_cons.mp ha with rfl | ha
    · refine ⟨le_rfl, ?_⟩
      rw [Served.setResult, obj_alloc_of_lt (Nat.lt_succ_self _), obj_alloc_self]
      rfl
    · obtain rfl := List.mem_singleton.mp ha
      exact ⟨Nat.le_succ _, by rw [Served.setResult, hser]; rfl⟩
  · simp [Callback.frees, Served.setResult]
  · exact fun n _ id hid => by cases hid
  · exact ho.counts fun id hid => by cases hid
  · exact ho.ran
  · intro b hb
    obtain rfl := Option.some.inj hb
    exact List.mem_flatMap.mpr ⟨.freeBuilt (s.next + 1), List.mem_concat_self, List.mem_cons_self⟩
  · exact .of_memory (((ht.alloc .buffer).alloc (.serializer wrapped (.heap s.next))).store
        (Option.isSome_of_eq_some hread) _)
      (((Frame.alloc hlow .buffer).trans (Frame.alloc (hlow.trans (Nat.le_succ _)) _)).trans (Frame.store hret _))
      rfl rfl rfl rfl

/-- `reject` takes the clean-up out of the wrapper. -/
theorem Owns.reject (ho : Owns s low w para ret ser cbs) (ht : Tidy s) (hlow : low ≤ s.next)
    {errorMessage : List UInt8} {buffer : Option Nat} (h : s.reject ret errorMessage = some (buffer, s')) :
    Concluded low s' ⟨para, ret, buffer, .reject errorMessage⟩ ∧ Reaches low s s' := by
  rw [Served.reject, ho.asyncReturn] at h
  obtain ⟨rfl, rfl⟩ := Prod.mk.inj (Option.some.inj h)
  have hold := ho.there ht
  have hw := hold w (by simp)
  have hwrap : ((s.alloc (.bytes errorMessage)).obj w).isSome := by
    rw [obj_alloc_of_lt hw.2.2]
    exact hw.1
  refine ⟨⟨w, s.next, ho.hook, ho.data, obj_store_self, rfl, fun a ha => ?_, ?_⟩, ?_⟩
  · by_cases hb : a = s.next
    · subst hb
      exact ⟨hlow, isSome_store (Option.isSome_of_eq_some obj_alloc_self)⟩
    · obtain ⟨hsome, habove, hlt⟩ := hold a (List.mem_append_right _ (by simpa [hb] using ha))
      have halloc : ((s.alloc (.bytes errorMessage)).obj a).isSome := by
        rw [obj_alloc_of_lt hlt]
        exact hsome
      exact ⟨habove, isSome_store halloc⟩
  · have hpara := (hold para (by simp)).2.2
    have hwlt := hw.2.2
    have hdiff := ho.apart.2.1
    simp only [List.nodup_cons, List.mem_cons, List.not_mem_nil, or_false, not_or, not_false_eq_true, List.nodup_nil,
      and_true]
    omega
  · exact .of_memory ((ht.alloc (.bytes errorMessage)).store hwrap _)
      ((Frame.alloc hlow (.bytes errorMessage)).trans (Frame.store hw.2.1 _)) rfl rfl rfl rfl

/-- Whatever the ending. -/
theorem Owns.conclude (ho : Owns s low w para ret ser cbs) (hu : UserOnly cbs) (ht : Tidy s) (hlow : low ≤ s.next)
    {e : Ending} {buffer : Option Nat} (h : s.conclude ret e = some (buffer, s')) :
    Concluded low s' ⟨para, ret, buffer, e⟩ ∧ Reaches low s s' := by
  cases e with
  | part buf id => exact ho.part hu ht hlow h
  | raw buf => exact ho.raw hu ht hlow h
  | void =>
    obtain ⟨rfl, rfl⟩ := Prod.mk.inj (Option.some.inj h)
    have howns := ho.setResult hu { s.req.result with base := .null, length := 0 }
    exact ⟨⟨w, ser, cbs, howns, fun b hb => by cases hb⟩, .of_memory ht (.refl _ _) rfl rfl rfl rfl⟩
  | reject errorMessage => exact ho.reject ht hlow h
  | serializer initBufSize items => exact ho.resolveSerializer hu ht hlow rfl h
  | int32 v | int64 v | float v | double v | string v | pxpObject v | namedFunction v =>
    exact ho.resolveSerializer hu ht hlow rfl h

/-- `asSerializer` makes the serializer of the parameter once. -/
theorem Owns.asSerializer (ho : Owns s low w para ret ser cbs) (hu : UserOnly cbs) (ht : Tidy s) (hlow : low ≤ s.next)
    (h : s.asSerializer para = some s') :
    (∃ ser', Owns s' low w para ret ser' cbs) ∧ Reaches low s s' ∧ s'.phase = s.phase := by
  rw [Served.asSerializer, ho.parameter] at h
  cases ser with
  | some a =>
    obtain rfl := Option.some.inj h
    exact ⟨⟨some a, ho⟩, ⟨ht, .refl _ _, rfl⟩, rfl⟩
  | none =>
    obtain rfl := Option.some.inj h
    have hold : ∀ a ∈ [para, ret, w], (s.obj a).isSome ∧ low ≤ a ∧ a < s.next := ho.there ht
    have hrest : [para, ret, w].Nodup := (List.nodup_append.mp ho.nodup).2.1
    obtain ⟨hpr, hpw, -⟩ := ho.apart
    have hpara := hold para (by simp)
    have hread : ∀ a, a ≠ para → a < s.next → ∀ o o', ((s.alloc o).store para o').obj a = s.obj a :=
      fun a hne ha _ _ => by rw [obj_store_of_ne hne, obj_alloc_of_lt ha]
    have hthere : ∀ o, ((s.alloc o).obj para).isSome := fun o => by
      rw [obj_alloc_of_lt hpara.2.2]
      exact hpara.1
    refine ⟨⟨some s.next, ho.hook, ho.data, ho.base, ?_, obj_store_self, ?_, ?_, ?_, ?_, ho.pushed, ho.ran⟩,
      ⟨(ht.alloc _).store (hthere _) _, (Frame.alloc hlow _).trans (Frame.store hpara.2.1 _), rfl⟩, rfl⟩
    · rw [hread w hpw.symm (hold w (by simp)).2.2]
      exact ho.wrapper
    · rw [hread ret hpr.symm (hold ret (by simp)).2.2]
      exact ho.asyncReturn
    · rw [hu.owned]
      exact List.nodup_cons.mpr ⟨fun hmem => absurd (hold _ hmem).2.2 (Nat.lt_irrefl _), hrest⟩
    · rw [hu.owned]
      intro a ha
      rcases List.mem_cons.mp ha with rfl | ha
      · exact isSome_store (Option.isSome_of_eq_some obj_alloc_self)
      · exact isSome_store (by rw [obj_alloc_of_lt (hold a ha).2.2]; exact (hold a ha).1)
    · rw [hu.owned]
      intro a ha
      rcases List.mem_cons.mp ha with rfl | ha
      · exact hlow
      · exact (hold a ha).2.1

/-- A rejected call is left with its parameter. -/
theorem rejected_finish {b : Nat} (ht : Tidy s) (hdata : s.req.callableData = some w)
    (hwrap : s.obj w = some (.wrap (.deleteRaw b))) (hb : low ≤ b ∧ (s.obj b).isSome) (hw : low ≤ w) (hne : b ≠ w) :
    ∃ obj log, s.requestOnFinish = some { s with obj, log } ∧ Reaches low s { s with obj, log } ∧
      ∀ a, a ≠ b → a ≠ w → obj a = s.obj a := by
  have hobj : without [] s.obj = s.obj := funext fun a => without_of_notMem List.not_mem_nil
  have hfirst := delete_eq hb.2 List.not_mem_nil s.log
  have hlast := @delete_eq s w [b] (by rw [hwrap]; rfl) (by simpa using hne.symm) (s.log ++ [.deleted b])
  rw [hobj] at hfirst
  have hevents : ∀ a id, [Event.deleted b, .deleted w].count (.pushed a id) = 0 ∧
      [Event.deleted b, .deleted w].count (.ran a id) = 0 := fun a id => by simp
  refine ⟨without [b, w] s.obj, s.log ++ [.deleted b, .deleted w], ?_, ⟨?_, ?_, rfl⟩, fun a hab haw => ?_⟩
  · rw [requestOnFinish, hdata, Option.bind_some, hwrap]
    dsimp only
    rw [runOnFinishPP]
    refine (congrArg (fun t => Option.bind t (delete w)) hfirst).trans ?_
    refine hlast.trans ?_
    rw [List.append_assoc]
    rfl
  · refine ht.release (by simpa using hne) (fun a ha => ?_) (fun a => count_map_deleted [b, w] a)
      fun a _ id => hevents a id
    rcases List.mem_cons.mp ha with rfl | ha
    · exact hb.2
    · rw [List.mem_singleton.mp ha, hwrap]
      rfl
  · refine Frame.release (fun a ha => ?_) fun a _ id => hevents a id
    rcases List.mem_cons.mp ha with rfl | ha
    · exact hb.1
    · rw [List.mem_singleton.mp ha]
      exact hw
  · exact without_of_notMem (by simp [hab, haw])

/-- The server calls `on_finish` without fault. -/
theorem Concluded.finish (hc : Concluded low s i) (ht : Tidy s) :
    ∃ obj log, s.onFinish = some { s with obj, log } ∧ Reaches low s { s with obj, log } ∧
      Settled s.next { s with obj, log } i := by
  rw [Concluded] at hc
  split at hc
  case isTrue hres =>
    obtain ⟨w, ser, cbs, ho, hbuffer⟩ := hc
    obtain ⟨obj, log, hfinish, htidy, hframe, hnone, hran⟩ := ho.finish ht
    have hlt : ∀ a ∈ owned s.req.result.base w i.para i.ret ser cbs, a < s.next := fun a ha =>
      ht.lt_next (ho.live a ha)
    have hmem : ∀ b ∈ i.buffer, b ∈ owned s.req.result.base w i.para i.ret ser cbs := fun b hb =>
      List.mem_append_left _ (hbuffer b hb)
    refine ⟨obj, log, by rw [onFinish, if_pos ho.hook, hfinish], ⟨htidy, hframe, rfl⟩,
      hlt _ (mem_owned_para _), hlt _ (mem_owned_ret _), fun b hb => hlt b (hmem b hb), fun _ => ?_, fun hrej => ?_⟩
    · exact ⟨hnone _ (mem_owned_para _), hnone _ (mem_owned_ret _), fun b hb => hnone b (hmem b hb), hran⟩
    · exact absurd hres (by simp [hrej])
  case isFalse hrej =>
    obtain ⟨w, b, hhook, hdata, hwrap, hbuffer, hall, hnodup⟩ := hc
    have hlt : ∀ a ∈ [i.para, i.ret, b, w], a < s.next := fun a ha => ht.lt_next (hall a ha).2
    simp at hnodup
    obtain ⟨obj, log, hfinish, hreach, hkept⟩ :=
      rejected_finish ht hdata hwrap (hall b (by simp)) (hall w (by simp)).1 hnodup.2
    refine ⟨obj, log, by rw [onFinish, if_pos hhook, hfinish], hreach, hlt _ (by simp), hlt _ (by simp),
      fun b' hb' => ?_, fun hres => absurd hres hrej, fun _ hnone => ?_⟩
    · obtain rfl := Option.some.inj (hbuffer.symm.trans hb')
      exact hlt b (by simp)
    · have hpara := (hall i.para (by simp)).2
      rw [← hkept i.para hnodup.1.1 hnodup.1.2, show obj i.para = none from hnone] at hpara
      cases hpara

/-! ### Steps -/

def InPhase (low : Nat) (s : Served) : Prop :=
  match s.phase with
  | .prepared => s.req.callableData = none
  | .handling para ret => ∃ w ser cbs, Owns s low w para ret ser cbs ∧ UserOnly cbs
  | .answered i => Concluded low s i
  | .freed => True

/-- Calls that have finished lie below the one under way. -/
structure Sound (s : Served) : Prop where
  tidy : Tidy s
  phase : ∃ low, low ≤ s.next ∧ (∀ i ∈ s.finished, Settled low s i) ∧ InPhase low s

theorem Sound.new (poll : Bool) (parameter : List UInt8) : Sound (.new poll parameter) where
  tidy := ⟨fun _ _ => rfl, fun a => by simp [Served.new, prepareRequest], fun _ _ _ => ⟨rfl, rfl⟩⟩
  phase := ⟨0, le_rfl, fun i hi => absurd hi List.not_mem_nil, rfl⟩

/-- The three objects of a call. -/
theorem Sound.call (hs : Sound s) (hphase : s.phase = .prepared) : Sound s.call := by
  obtain ⟨low, hlow, hsettled, hin⟩ := hs.phase
  rw [InPhase, hphase] at hin
  have ht := hs.tidy
  have hwrap : ((((s.alloc (.wrap .nothing)).alloc (.parameter s.next none)).alloc (.asyncReturn s.next [])).obj
      s.next).isSome := by
    rw [obj_alloc_of_lt (by simp only [next_alloc]; omega), obj_alloc_of_lt (Nat.lt_succ_self _), obj_alloc_self]
    rfl
  have htidy := (((ht.alloc (.wrap .nothing)).alloc (.parameter s.next none)).alloc (.asyncReturn s.next [])).store
    hwrap (.wrap (.cleanUp (s.next + 1) (s.next + 2)))
  have hpara : ((((s.alloc (.wrap .nothing)).alloc (.parameter s.next none)).alloc (.asyncReturn s.next [])).store
      s.next (.wrap (.cleanUp (s.next + 1) (s.next + 2)))).obj (s.next + 1) = some (.parameter s.next none) := by
    rw [obj_store_of_ne (by omega), obj_alloc_of_lt (Nat.lt_succ_self _)]
    exact obj_alloc_self
  have hret : ((((s.alloc (.wrap .nothing)).alloc (.parameter s.next none)).alloc (.asyncReturn s.next [])).store
      s.next (.wrap (.cleanUp (s.next + 1) (s.next + 2)))).obj (s.next + 2) = some (.asyncReturn s.next []) := by
    rw [obj_store_of_ne (by omega)]
    exact obj_alloc_self
  have hframe : Frame s.next s ((((s.alloc (.wrap .nothing)).alloc (.parameter s.next none)).alloc
      (.asyncReturn s.next [])).store s.next (.wrap (.cleanUp (s.next + 1) (s.next + 2)))) :=
    (((Frame.alloc le_rfl _).trans (Frame.alloc (Nat.le_succ _) _)).trans
      (Frame.alloc (Nat.le_add_right _ 2) _)).trans (Frame.store le_rfl _)
  have hcall : s.call = { (((s.alloc (.wrap .nothing)).alloc (.parameter s.next none)).alloc
      (.asyncReturn s.next [])).store s.next (.wrap (.cleanUp (s.next + 1) (s.next + 2))) with
        req := { s.req with callableData := some s.next, onFinish := true }
        phase := .handling (s.next + 1) (s.next + 2) } := by
    simp only [Served.call, Served.wrap, hin]
    rfl
  rw [hcall]
  refine ⟨⟨htidy.fresh, htidy.once, htidy.unused⟩, s.next, Nat.le_add_right s.next 3, fun i hi => ?_, ?_⟩
  · have hold := ((hsettled i hi).mono hlow).frame hframe
    exact ⟨hold.para, hold.ret, hold.buffer, hold.resolved, hold.rejected⟩
  · have hunused := ht.unused (s.next + 2) (Nat.le_add_right _ 2)
    have howned : ∀ base, owned base s.next (s.next + 1) (s.next + 2) none [] = [s.next + 1, s.next + 2, s.next] :=
      fun _ => rfl
    refine ⟨s.next, none, [], ⟨rfl, rfl, fun _ hn => (List.not_mem_nil hn).elim, obj_store_self, hpara, hret, ?_,
      fun a ha => ?_, fun a ha => ?_, fun id => (hunused id).1, fun id => (hunused id).2⟩,
      fun _ hcb => (List.not_mem_nil hcb).elim⟩
    · rw [howned]
      simp
    · rw [howned] at ha
      simp only [List.mem_cons, List.not_mem_nil, or_false] at ha
      rcases ha with rfl | rfl | rfl
      · exact Option.isSome_of_eq_some hpara
      · exact Option.isSome_of_eq_some hret
      · exact Option.isSome_of_eq_some obj_store_self
    · rw [howned] at ha
      simp only [List.mem_cons, List.not_mem_nil, or_false] at ha
      omega

theorem Owns.setPhase (ho : Owns s low w para ret ser cbs) (phase : Phase) :
    Owns { s with phase } low w para ret ser cbs :=
  ⟨ho.hook, ho.data, ho.base, ho.wrapper, ho.parameter, ho.asyncReturn, ho.nodup, ho.live, ho.above, ho.pushed, ho.ran⟩

theorem Concluded.setPhase (hc : Concluded low s i) (phase : Phase) : Concluded low { s with phase } i := by
  unfold Concluded at hc ⊢
  split at hc
  case isTrue hres =>
    obtain ⟨w, ser, cbs, ho, hbuffer⟩ := hc
    rw [if_pos hres]
    exact ⟨w, ser, cbs, ho.setPhase phase, hbuffer⟩
  case isFalse hrej =>
    rw [if_neg hrej]
    exact hc

/-- The call that has finished joins the others. -/
theorem Concluded.settled (hc : Concluded low s i) (ht : Tidy s) (hlow : low ≤ s.next)
    (hsettled : ∀ j ∈ s.finished, Settled low s j) :
    ∃ obj log, s.onFinish = some { s with obj, log } ∧ Tidy { s with obj, log } ∧
      ∀ j ∈ s.finished ++ [i], Settled s.next { s with obj, log } j := by
  obtain ⟨obj, log, hfinish, hreach, hdone⟩ := hc.finish ht
  refine ⟨obj, log, hfinish, hreach.tidy, fun j hj => ?_⟩
  rcases List.mem_append.mp hj with hj | hj
  · exact ((hsettled j hj).frame hreach.frame).mono hlow
  · rw [List.mem_singleton.mp hj]
    exact hdone

theorem Sound.step {op : ServedOp} (hs : Sound s) (h : s.step op = some s') : Sound s' := by
  obtain ⟨low, hlow, hsettled, hin⟩ := hs.phase
  have ht := hs.tidy
  -- What a step of the call under way keeps of the others.
  have hkeep : ∀ {s'}, Reaches low s s' → ∀ i ∈ s'.finished, Settled low s' i := fun hreach i hi =>
    (hsettled i (hreach.finished ▸ hi)).frame hreach.frame
  rw [InPhase] at hin
  cases op with
  | call =>
    rw [Served.step] at h
    split at h
    · obtain rfl := Option.some.inj h
      exact hs.call ‹_›
    · cases h
  | asSerializer =>
    rw [Served.step] at h
    split at h
    case h_1 para ret hphase =>
      rw [hphase] at hin
      obtain ⟨w, ser, cbs, ho, hu⟩ := hin
      obtain ⟨⟨ser', ho'⟩, hreach, hsame⟩ := ho.asSerializer hu ht hlow h
      refine ⟨hreach.tidy, low, hlow.trans hreach.frame.next, hkeep hreach, ?_⟩
      rw [InPhase, hsame, hphase]
      exact ⟨w, ser', cbs, ho', hu⟩
    case h_2 => cases h
  | push id =>
    rw [Served.step] at h
    split at h
    case h_1 para ret hphase =>
      rw [hphase] at hin
      obtain ⟨w, ser, cbs, ho, hu⟩ := hin
      obtain ⟨ho', hreach, hsame⟩ := ho.push hu ht hlow h
      refine ⟨hreach.tidy, low, hlow.trans hreach.frame.next, hkeep hreach, ?_⟩
      rw [InPhase, hsame, hphase]
      exact ⟨w, ser, _, ho', hu.push id⟩
    case h_2 => cases h
  | resolve e =>
    rw [Served.step] at h
    split at h
    case h_1 para ret hphase =>
      rw [hphase] at hin
      obtain ⟨w, ser, cbs, ho, hu⟩ := hin
      obtain ⟨⟨buffer, s₁⟩, hconclude, rfl⟩ := Option.map_eq_some_iff.mp h
      obtain ⟨hc, hreach⟩ := ho.conclude hu ht hlow hconclude
      refine ⟨⟨hreach.tidy.fresh, hreach.tidy.once, hreach.tidy.unused⟩, low, hlow.trans hreach.frame.next,
        fun i hi => ?_, hc.setPhase _⟩
      have hold := hkeep hreach i hi
      exact ⟨hold.para, hold.ret, hold.buffer, hold.resolved, hold.rejected⟩
    case h_2 => cases h
  | finish closed =>
    rw [Served.step] at h
    split at h
    case h_1 i hphase =>
      rw [hphase] at hin
      obtain ⟨obj, log, hfinish, htidy, hall⟩ := Concluded.settled hin ht hlow hsettled
      rw [Served.finish, hfinish, Option.map_some] at h
      obtain rfl := Option.some.inj h
      have hsettled' : ∀ j ∈ s.finished ++ [i], ∀ req phase,
          Settled s.next { s with obj, log, req, phase, finished := s.finished ++ [i] } j := fun j hj _ _ =>
        have hold := hall j hj
        ⟨hold.para, hold.ret, hold.buffer, hold.resolved, hold.rejected⟩
      split
      · exact Sound.call ⟨⟨htidy.fresh, htidy.once, htidy.unused⟩, s.next, le_rfl,
          fun j hj => hsettled' j hj _ _, rfl⟩ rfl
      · exact ⟨⟨htidy.fresh, htidy.once, htidy.unused⟩, s.next, le_rfl, fun j hj => hsettled' j hj _ _, trivial⟩
    case h_2 => cases h

/-- In every run each finished call is cleaned up if it was resolved, and only then; finishing a call never faults. -/
theorem handlers_cleanUp_iff {poll : Bool} {parameter : List UInt8} {ops : List ServedOp}
    (h : run step (.new poll parameter) ops = some s) :
    (∀ i ∈ s.finished, CleanedUp s i ↔ i.ending.resolves) ∧
      ∀ i closed, s.phase = .answered i → (s.step (.finish closed)).isSome := by
  have hs : Sound s := run_invariant (G := fun _ _ => True) (fun _ _ _ hs _ hstep => hs.step hstep)
    (Sound.new poll parameter) (Along.of_forall fun _ _ => trivial) h
  obtain ⟨low, hlow, hsettled, hin⟩ := hs.phase
  refine ⟨fun i hi => (hsettled i hi).cleanedUp_iff hs.tidy hlow, fun i closed hphase => ?_⟩
  rw [InPhase, hphase] at hin
  obtain ⟨obj, log, hfinish, -, -⟩ := hin.finish hs.tidy
  rw [step, hphase]
  dsimp only
  rw [finish, hfinish]
  rfl

/-- Two iterations of a poll, the second after the server has closed. -/
theorem handlers_cleanUp_poll :
    ∃ s, run step (.new true [1, 0, 0, 0])
        [.call, .push 7, .asSerializer, .resolve (.int32 5), .finish false, .push 7, .push 7, .resolve (.raw [1]),
          .finish true] = some s ∧ s.finished.length = 2 ∧ ∀ i ∈ s.finished, CleanedUp s i := by
  have hrun : run step (.new true [1, 0, 0, 0])
      [.call, .push 7, .asSerializer, .resolve (.int32 5), .finish false, .push 7, .push 7, .resolve (.raw [1]),
        .finish true] = some (_ : Served) := rfl
  have hresolved : ∀ i ∈ [Invocation.mk 1 2 (some 4) (.int32 5), .mk 7 8 (some 9) (.raw [1])], i.ending.resolves := by
    decide
  exact ⟨_, hrun, rfl, fun i hi => ((handlers_cleanUp_iff hrun).1 i hi).mpr (hresolved i hi)⟩

/-- The handler has pushed a function and rejects. -/
theorem handlers_cleanUp_reject :
    ∃ s, run step (.new false []) [.call, .push 7, .resolve (.reject [110, 111]), .finish false] = some s ∧
      ∃ i ∈ s.finished, ¬ CleanedUp s i := by
  refine ⟨_, rfl, ⟨1, 2, some 3, .reject [110, 111]⟩, List.mem_singleton_self _, fun h => ?_⟩
  exact absurd h.para (by decide)

end PxpRpc.Server.Cpp.Served
