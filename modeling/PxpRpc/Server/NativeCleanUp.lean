import PxpRpc.Server.NativeHandlers

/-!
# Clean-up of the handlers of C++

A call owns its wrapper, its `Parameter` and `AsyncReturn`, and what its callbacks will
delete. The clean-up that the call puts into the wrapper deletes each of them once and
runs each callback once.
-/
namespace PxpRpc.Server.Cpp

/-! ### What is released -/

/-- What a callback deletes, while the result buffer is at `base`. -/
def Callback.frees (base : Pointer) : Callback → List Nat
  | .user _ => []
  | .deleteRaw rawbuf => [rawbuf]
  | .freeBuilt ser =>
    match base with
    | .heap b => [b, ser]
    | _ => [ser]

def Callback.events (base : Pointer) (ret : Nat) : Callback → List Event
  | .user id => [.ran ret id]
  | cb => (cb.frees base).map .deleted

namespace Served

/-- What is made for a call is released once, and its callbacks run once. -/
structure CleanedUp (s : Served) (i : Invocation) : Prop where
  para : s.log.count (.deleted i.para) = 1
  ret : s.log.count (.deleted i.ret) = 1
  buffer : ∀ b ∈ i.buffer, s.log.count (.deleted b) = 1
  callbacks : ∀ id, s.log.count (.ran i.ret id) = s.log.count (.pushed i.ret id)

/-- Every object has been deleted once or is there. -/
structure Tidy (s : Served) : Prop where
  fresh : ∀ a, s.next ≤ a → s.obj a = none
  once : ∀ a, s.log.count (.deleted a) = if a < s.next ∧ s.obj a = none then 1 else 0
  unused : ∀ a, s.next ≤ a → ∀ id, s.log.count (.pushed a id) = 0 ∧ s.log.count (.ran a id) = 0

/-- Objects below `low` are left alone. -/
structure Frame (low : Nat) (s s' : Served) : Prop where
  next : s.next ≤ s'.next
  obj : ∀ a, a < low → s'.obj a = s.obj a
  pushed : ∀ a, a < low → ∀ id, s'.log.count (.pushed a id) = s.log.count (.pushed a id)
  ran : ∀ a, a < low → ∀ id, s'.log.count (.ran a id) = s.log.count (.ran a id)

variable {s s' s'' : Served} {low a : Nat} {o : Obj}

theorem Frame.refl (low : Nat) (s : Served) : Frame low s s :=
  ⟨le_rfl, fun _ _ => rfl, fun _ _ _ => rfl, fun _ _ _ => rfl⟩

theorem Frame.trans (h : Frame low s s') (h' : Frame low s' s'') : Frame low s s'' :=
  ⟨h.next.trans h'.next, fun a ha => (h'.obj a ha).trans (h.obj a ha),
    fun a ha id => (h'.pushed a ha id).trans (h.pushed a ha id),
    fun a ha id => (h'.ran a ha id).trans (h.ran a ha id)⟩

theorem Tidy.lt_next (ht : Tidy s) (h : (s.obj a).isSome) : a < s.next := by
  by_contra hge
  rw [ht.fresh a (Nat.le_of_not_lt hge)] at h
  cases h

@[simp] theorem next_alloc : (s.alloc o).next = s.next + 1 := rfl
@[simp] theorem req_alloc : (s.alloc o).req = s.req := rfl
@[simp] theorem log_alloc : (s.alloc o).log = s.log := rfl
@[simp] theorem next_store : (s.store a o).next = s.next := rfl
@[simp] theorem req_store : (s.store a o).req = s.req := rfl
@[simp] theorem log_store : (s.store a o).log = s.log := rfl

@[simp] theorem obj_alloc_self : (s.alloc o).obj s.next = some o := Function.update_self ..

theorem obj_alloc_of_ne (h : a ≠ s.next) : (s.alloc o).obj a = s.obj a := Function.update_of_ne h ..

theorem obj_alloc_of_lt (h : a < s.next) : (s.alloc o).obj a = s.obj a := obj_alloc_of_ne (Nat.ne_of_lt h)

@[simp] theorem obj_store_self : (s.store a o).obj a = some o := Function.update_self ..

theorem obj_store_of_ne {b : Nat} (h : b ≠ a) : (s.store a o).obj b = s.obj b := Function.update_of_ne h ..

theorem Tidy.alloc (ht : Tidy s) (o : Obj) : Tidy (s.alloc o) where
  fresh a ha := by
    rw [next_alloc] at ha
    rw [obj_alloc_of_ne (by omega)]
    exact ht.fresh a (Nat.le_of_succ_le ha)
  once a := by
    rcases Nat.lt_trichotomy a s.next with hlt | rfl | hgt
    · rw [log_alloc, ht.once, obj_alloc_of_lt hlt, next_alloc]
      simp [hlt, Nat.lt_succ_of_lt hlt]
    · rw [log_alloc, ht.once]
      simp
    · rw [log_alloc, ht.once, next_alloc, if_neg (by omega), if_neg (by omega)]
  unused a ha := ht.unused a (Nat.le_of_succ_le ha)

theorem Tidy.store (ht : Tidy s) (h : (s.obj a).isSome) (o : Obj) : Tidy (s.store a o) where
  fresh b hb := by
    have hlt := ht.lt_next h
    rw [next_store] at hb
    rw [obj_store_of_ne (by omega)]
    exact ht.fresh b hb
  once b := by
    rw [log_store, ht.once]
    by_cases hb : b = a
    · subst hb
      rw [obj_store_self, if_neg (fun hc => by rw [hc.2] at h; cases h), if_neg (fun hc => by cases hc.2)]
    · rw [obj_store_of_ne hb, next_store]
  unused := ht.unused

theorem isSome_store {b : Nat} (h : (s.obj b).isSome) : ((s.store a o).obj b).isSome := by
  by_cases heq : b = a
  · rw [heq, obj_store_self]
    rfl
  · rw [obj_store_of_ne heq]
    exact h

theorem Tidy.emit_pushed (ht : Tidy s) (h : a < s.next) (id : Nat) : Tidy (s.emit (.pushed a id)) where
  fresh := ht.fresh
  once b := by
    rw [emit, List.count_append]
    simpa using ht.once b
  unused b hb id' := by
    have hne : a ≠ b := Nat.ne_of_lt (h.trans_le hb)
    simpa [emit, hne] using ht.unused b hb id'

theorem Frame.alloc (hlow : low ≤ s.next) (o : Obj) : Frame low s (s.alloc o) :=
  ⟨Nat.le_succ _, fun _ ha => obj_alloc_of_lt (ha.trans_le hlow), fun _ _ _ => rfl, fun _ _ _ => rfl⟩

theorem Frame.store (hlow : low ≤ a) (o : Obj) : Frame low s (s.store a o) :=
  ⟨le_rfl, fun _ hb => obj_store_of_ne (Nat.ne_of_lt (hb.trans_le hlow)), fun _ _ _ => rfl, fun _ _ _ => rfl⟩

theorem Frame.emit_pushed (hlow : low ≤ a) (id : Nat) : Frame low s (s.emit (.pushed a id)) := by
  refine ⟨le_rfl, fun _ _ => rfl, fun b hb id' => ?_, fun b _ id' => ?_⟩
  · have hne : a ≠ b := Nat.ne_of_gt (hb.trans_le hlow)
    simp [emit, hne]
  · simp [emit]

/-! ### Releasing -/

/-- The memory without some objects. -/
def without (gone : List Nat) (obj : Nat → Option Obj) : Nat → Option Obj := fun a => if a ∈ gone then none else obj a

theorem without_of_notMem {gone : List Nat} {obj : Nat → Option Obj} (h : a ∉ gone) : without gone obj a = obj a :=
  if_neg h

theorem delete_eq {gone : List Nat} (h : (s.obj a).isSome) (ha : a ∉ gone) (log : List Event) :
    delete a { s with obj := without gone s.obj, log } =
      some { s with obj := without (gone ++ [a]) s.obj, log := log ++ [.deleted a] } := by
  have hobj : Function.update (without gone s.obj) a none = without (gone ++ [a]) s.obj := by
    funext b
    by_cases hb : b = a
    · subst hb
      simp [without]
    · simp [without, hb]
  have hthere : (without gone s.obj a).isSome := by rw [without_of_notMem ha]; exact h
  rw [delete, if_pos hthere]
  simp only [hobj]

theorem runCallback_eq {ret : Nat} {cb : Callback} {gone : List Nat} (log : List Event)
    (hbase : ∀ ser, cb = .freeBuilt ser → ∀ id, s.req.result.base ≠ .other id)
    (hlive : ∀ a ∈ cb.frees s.req.result.base, (s.obj a).isSome)
    (hgone : (gone ++ cb.frees s.req.result.base).Nodup) :
    runCallback ret { s with obj := without gone s.obj, log } cb =
      some { s with
        obj := without (gone ++ cb.frees s.req.result.base) s.obj
        log := log ++ cb.events s.req.result.base ret } := by
  cases cb with
  | user id => rw [Callback.frees, List.append_nil]; rfl
  | deleteRaw rawbuf =>
    have hnot : rawbuf ∉ gone := fun h => (List.disjoint_of_nodup_append hgone) h List.mem_cons_self
    exact delete_eq (hlive rawbuf List.mem_cons_self) hnot log
  | freeBuilt ser =>
    cases hb : s.req.result.base with
    | other id => exact absurd hb (hbase ser rfl id)
    | null =>
      rw [hb] at hlive hgone
      have hnot : ser ∉ gone := fun h => (List.disjoint_of_nodup_append hgone) h List.mem_cons_self
      rw [runCallback]
      simp only [hb]
      exact delete_eq (hlive ser List.mem_cons_self) hnot log
    | heap b =>
      rw [hb] at hlive hgone
      have hdisjoint := List.disjoint_of_nodup_append hgone
      have hnot : b ∉ gone := fun h => hdisjoint h List.mem_cons_self
      have hnot' : ser ∉ gone ++ [b] := by
        intro h
        rcases List.mem_append.mp h with h | h
        · exact hdisjoint h (List.mem_cons_of_mem _ List.mem_cons_self)
        · have hne := (List.nodup_append.mp hgone).2.1
          simp [Callback.frees, List.mem_singleton.mp h] at hne
      rw [runCallback]
      simp only [hb]
      rw [delete_eq (hlive b List.mem_cons_self) hnot, Option.bind_some,
        delete_eq (hlive ser (List.mem_cons_of_mem _ List.mem_cons_self)) hnot', List.append_assoc, List.append_assoc]
      rfl

theorem runCallbacks_eq {ret : Nat} {cbs : List Callback}
    (hbase : ∀ ser, .freeBuilt ser ∈ cbs → ∀ id, s.req.result.base ≠ .other id) :
    ∀ {gone : List Nat} (log : List Event),
      (∀ a ∈ cbs.flatMap (Callback.frees s.req.result.base), (s.obj a).isSome) →
      (gone ++ cbs.flatMap (Callback.frees s.req.result.base)).Nodup →
      runCallbacks ret cbs { s with obj := without gone s.obj, log } =
        some { s with
          obj := without (gone ++ cbs.flatMap (Callback.frees s.req.result.base)) s.obj
          log := log ++ cbs.flatMap (Callback.events s.req.result.base ret) } := by
  induction cbs with
  | nil =>
    intro gone log _ _
    rw [List.flatMap_nil, List.flatMap_nil, List.append_nil, List.append_nil]
    rfl
  | cons cb cbs ih =>
    intro gone log hlive hgone
    rw [List.flatMap_cons, ← List.append_assoc] at hgone
    rw [List.flatMap_cons] at hlive
    have hone := @runCallback_eq s ret cb gone log (fun ser hcb => hbase ser (hcb ▸ List.mem_cons_self))
      (fun a ha => hlive a (List.mem_append_left _ ha)) (List.Nodup.of_append_left hgone)
    rw [runCallbacks, hone, Option.bind_some, List.flatMap_cons, List.flatMap_cons, ← List.append_assoc,
      ← List.append_assoc]
    exact ih (fun ser hser => hbase ser (List.mem_cons_of_mem _ hser)) _
      (fun a ha => hlive a (List.mem_append_right _ ha)) hgone

/-- What the clean-up of a call deletes, the wrapper last. -/
def owned (base : Pointer) (w para ret : Nat) (ser : Option Nat) (cbs : List Callback) : List Nat :=
  cbs.flatMap (Callback.frees base) ++ (ser.toList ++ [para, ret, w])

def cleanUpEvents (base : Pointer) (w para ret : Nat) (ser : Option Nat) (cbs : List Callback) : List Event :=
  cbs.flatMap (Callback.events base ret) ++ (ser.toList ++ [para, ret, w]).map .deleted

/-- The objects of a call that has not been cleaned up. All are at `low` or above it. -/
structure Owns (s : Served) (low w para ret : Nat) (ser : Option Nat) (cbs : List Callback) : Prop where
  hook : s.req.onFinish
  data : s.req.callableData = some w
  base : ∀ ser, .freeBuilt ser ∈ cbs → ∀ id, s.req.result.base ≠ .other id
  wrapper : s.obj w = some (.wrap (.cleanUp para ret))
  parameter : s.obj para = some (.parameter w ser)
  asyncReturn : s.obj ret = some (.asyncReturn w cbs)
  nodup : (owned s.req.result.base w para ret ser cbs).Nodup
  live : ∀ a ∈ owned s.req.result.base w para ret ser cbs, (s.obj a).isSome
  above : ∀ a ∈ owned s.req.result.base w para ret ser cbs, low ≤ a
  pushed : ∀ id, s.log.count (.pushed ret id) = cbs.count (.user id)
  ran : ∀ id, s.log.count (.ran ret id) = 0

variable {w para ret : Nat} {ser : Option Nat} {cbs : List Callback}

theorem mem_owned_para (base : Pointer) : para ∈ owned base w para ret ser cbs := by simp [owned]

theorem mem_owned_ret (base : Pointer) : ret ∈ owned base w para ret ser cbs := by simp [owned]

/-- The parameter, its serializer, the `AsyncReturn` and the wrapper are there. -/
theorem Owns.there (ho : Owns s low w para ret ser cbs) (ht : Tidy s) :
    ∀ a ∈ ser.toList ++ [para, ret, w], (s.obj a).isSome ∧ low ≤ a ∧ a < s.next := by
  intro a ha
  have hmem : a ∈ owned s.req.result.base w para ret ser cbs := List.mem_append_right _ ha
  exact ⟨ho.live a hmem, ho.above a hmem, ht.lt_next (ho.live a hmem)⟩

theorem Owns.apart (ho : Owns s low w para ret ser cbs) : para ≠ ret ∧ para ≠ w ∧ ret ≠ w := by
  have hrest := (List.nodup_append.mp ho.nodup).2.1
  have hlast := (List.nodup_append.mp hrest).2.1
  simp at hlast
  exact ⟨hlast.1.1, hlast.1.2, hlast.2⟩

theorem deleteParameter_eq {gone : List Nat} (log : List Event) (hpara : s.obj para = some (.parameter w ser))
    (hlive : ∀ a ∈ ser, (s.obj a).isSome) (hgone : (gone ++ (ser.toList ++ [para])).Nodup) :
    deleteParameter para { s with obj := without gone s.obj, log } =
      some { s with
        obj := without (gone ++ (ser.toList ++ [para])) s.obj
        log := log ++ (ser.toList ++ [para]).map .deleted } := by
  have hthere : (s.obj para).isSome := by rw [hpara]; rfl
  have hnot : para ∉ gone ++ ser.toList := by
    rw [← List.append_assoc] at hgone
    exact fun h => List.disjoint_of_nodup_append hgone h (List.mem_singleton_self para)
  have hread : without gone s.obj para = some (.parameter w ser) := by
    rw [without_of_notMem fun h => hnot (List.mem_append_left _ h), hpara]
  rw [deleteParameter]
  simp only [hread]
  cases ser with
  | none =>
    dsimp only
    rw [delete_eq hthere fun h => hnot (List.mem_append_left _ h)]
    rfl
  | some a =>
    have ha : a ∉ gone := fun h => List.disjoint_of_nodup_append hgone h List.mem_cons_self
    dsimp only
    have hnot' : para ∉ gone ++ [a] := hnot
    rw [delete_eq (hlive a rfl) ha, Option.bind_some, delete_eq hthere hnot', List.append_assoc, List.append_assoc]
    rfl

/-- The clean-up deletes what the call owns, after it has run all callbacks. -/
theorem Owns.requestOnFinish_eq (ho : Owns s low w para ret ser cbs) :
    s.requestOnFinish = some { s with
      obj := without (owned s.req.result.base w para ret ser cbs) s.obj
      log := s.log ++ cleanUpEvents s.req.result.base w para ret ser cbs } := by
  have hnodup := ho.nodup
  have hlive := ho.live
  rw [owned] at hnodup hlive
  have hobj : without [] s.obj = s.obj := funext fun a => without_of_notMem List.not_mem_nil
  have hcbs := @runCallbacks_eq s ret cbs ho.base [] s.log (fun a ha => hlive a (List.mem_append_left _ ha))
    (List.Nodup.of_append_left hnodup)
  rw [hobj, List.nil_append] at hcbs
  have hassoc : cbs.flatMap (Callback.frees s.req.result.base) ++ (ser.toList ++ [para, ret, w]) =
      (cbs.flatMap (Callback.frees s.req.result.base) ++ (ser.toList ++ [para])) ++ [ret, w] := by simp
  rw [hassoc] at hnodup
  have hpara := deleteParameter_eq (s.log ++ cbs.flatMap (Callback.events s.req.result.base ret)) ho.parameter
    (fun a ha => hlive a (by simp [Option.mem_def.mp ha])) (List.Nodup.of_append_left hnodup)
  have hdisjoint := List.disjoint_of_nodup_append hnodup
  have hne : ret ≠ w := ho.apart.2.2
  have hrest : w ∉ (cbs.flatMap (Callback.frees s.req.result.base) ++ (ser.toList ++ [para])) ++ [ret] := by
    intro h
    rcases List.mem_append.mp h with h | h
    · exact hdisjoint h (by simp)
    · exact hne (List.mem_singleton.mp h).symm
  rw [requestOnFinish, ho.data, Option.bind_some, ho.wrapper]
  dsimp only
  rw [runOnFinishPP, ho.asyncReturn]
  dsimp only
  rw [hcbs, Option.bind_some, hpara, Option.bind_some,
    delete_eq (by rw [ho.asyncReturn]; rfl) fun h => hdisjoint h List.mem_cons_self, Option.bind_some,
    delete_eq (by rw [ho.wrapper]; rfl) hrest, owned, hassoc, cleanUpEvents]
  simp

/-! ### What the clean-up leaves -/

theorem count_map_deleted (l : List Nat) (a : Nat) : (l.map Event.deleted).count (.deleted a) = l.count a :=
  List.count_map_of_injective l Event.deleted (fun _ _ => Event.deleted.inj) a

theorem cleanUp_deleted (base : Pointer) (a : Nat) :
    (cleanUpEvents base w para ret ser cbs).count (.deleted a) = (owned base w para ret ser cbs).count a := by
  rw [cleanUpEvents, owned, List.count_append, List.count_append, count_map_deleted]
  refine congrArg (· + _) ?_
  induction cbs with
  | nil => rfl
  | cons cb cbs ih =>
    rw [List.flatMap_cons, List.flatMap_cons, List.count_append, List.count_append, ih]
    cases cb with
    | user id => rfl
    | deleteRaw rawbuf => rw [Callback.events, count_map_deleted]; simp
    | freeBuilt ser => rw [Callback.events, count_map_deleted]; simp

theorem cleanUp_ran (base : Pointer) (a id : Nat) :
    (cleanUpEvents base w para ret ser cbs).count (.ran a id) = if a = ret then cbs.count (.user id) else 0 := by
  have hdeleted : ∀ l : List Nat, (l.map Event.deleted).count (.ran a id) = 0 := fun l =>
    List.count_eq_zero.mpr fun h => by simp at h
  rw [cleanUpEvents, List.count_append, hdeleted, Nat.add_zero]
  induction cbs with
  | nil => simp
  | cons cb cbs ih =>
    rw [List.flatMap_cons, List.count_append, ih, List.count_cons]
    cases cb with
    | user n =>
      by_cases ha : a = ret
      · subst ha
        simp [Callback.events, List.count_singleton, Nat.add_comm]
      · simp [Callback.events, ha, Ne.symm ha]
    | deleteRaw rawbuf =>
      rw [Callback.events, hdeleted]
      · simp
      · simp
    | freeBuilt ser =>
      rw [Callback.events, hdeleted]
      · simp
      · simp

theorem cleanUp_pushed (base : Pointer) (a id : Nat) :
    (cleanUpEvents base w para ret ser cbs).count (.pushed a id) = 0 := by
  refine List.count_eq_zero.mpr fun h => ?_
  rcases List.mem_append.mp h with h | h
  · obtain ⟨cb, -, hcb⟩ := List.mem_flatMap.mp h
    cases cb <;> simp [Callback.events] at hcb
  · simp at h

/-- Objects that are there and different are deleted. -/
theorem Tidy.release (ht : Tidy s) {gone : List Nat} (hnodup : gone.Nodup) (hlive : ∀ a ∈ gone, (s.obj a).isSome)
    {events : List Event} (hdeleted : ∀ a, events.count (.deleted a) = gone.count a)
    (hother : ∀ a, s.next ≤ a → ∀ id, events.count (.pushed a id) = 0 ∧ events.count (.ran a id) = 0) :
    Tidy { s with obj := without gone s.obj, log := s.log ++ events } where
  fresh a ha := by
    have hold := ht.fresh a ha
    simp [without, hold]
  once a := by
    rw [List.count_append, ht.once, hdeleted, hnodup.count]
    by_cases ha : a ∈ gone
    · have hsome := hlive a ha
      have hlt := ht.lt_next hsome
      have hne : s.obj a ≠ none := fun h => by rw [h] at hsome; cases hsome
      simp [without, ha, hlt, hne]
    · simp [without, ha]
  unused a ha id := by
    rw [List.count_append, List.count_append, (ht.unused a ha id).1, (ht.unused a ha id).2, (hother a ha id).1,
      (hother a ha id).2]
    exact ⟨rfl, rfl⟩

theorem Frame.release {gone : List Nat} (habove : ∀ a ∈ gone, low ≤ a) {events : List Event}
    (hother : ∀ a, a < low → ∀ id, events.count (.pushed a id) = 0 ∧ events.count (.ran a id) = 0) :
    Frame low s { s with obj := without gone s.obj, log := s.log ++ events } where
  next := le_rfl
  obj a ha := without_of_notMem fun h => absurd (habove a h) (Nat.not_le_of_lt ha)
  pushed a ha id := by rw [List.count_append, (hother a ha id).1, Nat.add_zero]
  ran a ha id := by rw [List.count_append, (hother a ha id).2, Nat.add_zero]

/-- A call that resolves is cleaned up. -/
theorem Owns.finish (ho : Owns s low w para ret ser cbs) (ht : Tidy s) :
    ∃ obj log, s.requestOnFinish = some { s with obj, log } ∧ Tidy { s with obj, log } ∧
      Frame low s { s with obj, log } ∧ (∀ a ∈ owned s.req.result.base w para ret ser cbs, obj a = none) ∧
      ∀ id, log.count (.ran ret id) = log.count (.pushed ret id) := by
  have hret : (s.obj ret).isSome := ho.live ret (mem_owned_ret _)
  have hother : ∀ a, a ≠ ret → ∀ id,
      (cleanUpEvents s.req.result.base w para ret ser cbs).count (.pushed a id) = 0 ∧
        (cleanUpEvents s.req.result.base w para ret ser cbs).count (.ran a id) = 0 := fun a ha id =>
    ⟨cleanUp_pushed _ a id, by rw [cleanUp_ran, if_neg ha]⟩
  refine ⟨_, _, ho.requestOnFinish_eq, ht.release ho.nodup ho.live (cleanUp_deleted _) (fun a ha => hother a ?_),
    Frame.release ho.above (fun a ha => hother a ?_), fun a ha => if_pos ha, fun id => ?_⟩
  · exact Nat.ne_of_gt ((ht.lt_next hret).trans_le ha)
  · exact Nat.ne_of_lt (ha.trans_le (ho.above ret (mem_owned_ret _)))
  · rw [List.count_append, List.count_append, cleanUp_ran, cleanUp_pushed, if_pos rfl, ho.ran, ho.pushed,
      Nat.zero_add, Nat.add_zero]

end Served

end PxpRpc.Server.Cpp
