import PxpRpc.Client.JavaSid

/-!
# Release of the objects of the Java client

An object of the client holds an index of the server, which `free` sends in a
freeRef request and `asCallable` hands on to a callable. `free` leaves the index
in the object, and gives it to `freeSid` in the place of the sid.
-/
namespace PxpRpc.Client.Java

open PxpRpc.Lib

/-- An object or a callable. `origin` is not in the source: it says as the how-manieth index
its value was obtained. -/
structure RpcExtendClientObject where
  value : Int
  origin : Nat
deriving DecidableEq, Repr

/-- A `free`, with the sid that it has allocated, what it has released, and the sids that
other requests held at that time. -/
structure Free where
  allocated : Int
  released : Int
  outstanding : List Int
deriving DecidableEq, Repr

/-- A client with the objects it has made, the indices it has got from the server, the sids
of its outstanding requests, and the freeRef requests it has sent. -/
structure Releasing where
  client : RpcExtendClient1
  objects : List RpcExtendClientObject
  obtained : List Int
  outstanding : List Int
  requests : List (Nat × Int)
  frees : List Free
deriving DecidableEq, Repr

inductive ObjectOp where
  | obtain (index : Int)
  | free (object : Nat) (sent : Bool)
  | asCallable (object : Nat)
  | request
  | respond (sid : Int)
deriving DecidableEq, Repr

namespace Releasing

def init : Releasing := ⟨.init, [], [], [], [], []⟩

/-- An index comes as the result of `getFunc` or in a response. -/
def obtain (s : Releasing) (index : Int) : Releasing :=
  { s with
    obtained := s.obtained ++ [index]
    objects := if index = -1 then s.objects else s.objects ++ [⟨index, s.obtained.length⟩] }

/-- What `freeRef` throws is dropped, also when the request could not be `sent`. -/
def free (s : Releasing) (o : RpcExtendClientObject) (sent : Bool) : Option Releasing :=
  if o.value ≠ -1 then
    s.client.allocSid.map fun
      | (some sid, client) =>
        { s with
          client := client.freeSid o.value
          requests := if sent then s.requests ++ [(o.origin, o.value)] else s.requests
          frees := s.frees ++ [⟨sid, o.value, s.outstanding⟩] }
      | (none, client) => { s with client }
  else some s

def asCallable (s : Releasing) (object : Nat) (o : RpcExtendClientObject) : Releasing :=
  { s with objects := s.objects.set object { o with value := -1 } ++ [o] }

/-- Other requests of the client, polls among them, allocate their sids and free them. -/
def step (s : Releasing) : ObjectOp → Option Releasing
  | .obtain index => some (s.obtain index)
  | .free object sent => s.objects[object]?.bind fun o => s.free o sent
  | .asCallable object => s.objects[object]?.map fun o => s.asCallable object o
  | .request => s.client.allocSid.map fun
      | (some sid, client) => { s with client, outstanding := sid :: s.outstanding }
      | (none, client) => { s with client }
  | .respond sid =>
    if sid ∈ s.outstanding then
      some { s with client := s.client.freeSid sid, outstanding := s.outstanding.erase sid }
    else none

/-- Nothing obtained is sent in two freeRef requests, and each `free` has released the sid
that it allocated, which is none that an outstanding request holds. -/
structure Releases (s : Releasing) : Prop where
  once : (s.requests.map Prod.fst).Nodup
  own : ∀ f ∈ s.frees, f.allocated = f.released
  kept : ∀ f ∈ s.frees, f.released ∉ f.outstanding

/-- An index of the server that `free` takes for a sid is not sent twice, equals the sid at
the cursor, and is not the sid of an outstanding request. -/
structure Freeable (s : Releasing) (o : RpcExtendClientObject) (sent : Bool) : Prop where
  unsent : sent → o.origin ∉ s.requests.map Prod.fst
  cursor : s.client.nextSid = o.value
  unheld : o.value ∉ s.outstanding

instance (s : Releasing) (o : RpcExtendClientObject) (sent : Bool) : Decidable (s.Freeable o sent) :=
  decidable_of_iff ((sent → o.origin ∉ s.requests.map Prod.fst) ∧ s.client.nextSid = o.value ∧ o.value ∉ s.outstanding)
    ⟨fun h => ⟨h.1, h.2.1, h.2.2⟩, fun h => ⟨h.unsent, h.cursor, h.unheld⟩⟩

def Releasable (s : Releasing) : ObjectOp → Prop
  | .free object sent => ∀ o ∈ s.objects[object]?, o.value ≠ -1 → s.Freeable o sent
  | _ => True

instance (s : Releasing) : ∀ op, Decidable (s.Releasable op)
  | .free object sent => inferInstanceAs (Decidable (∀ o ∈ s.objects[object]?, o.value ≠ -1 → s.Freeable o sent))
  | .obtain _ | .asCallable _ | .request | .respond _ => isTrue trivial

/-- Every test of the table fails, so that the sid at the cursor is taken. -/
structure Regular (s : Releasing) : Prop where
  zeroed : Zeroed s.client.usedSid
  start : sidStart ≤ s.client.nextSid

variable {s s' : Releasing}

theorem Regular.init : Regular .init := ⟨by simp [Zeroed, Releasing.init, RpcExtendClient1.init], le_rfl⟩

theorem Regular.allocSid (hr : Regular s) : s.client.allocSid =
    some (some s.client.nextSid, ⟨s.client.usedSid.put s.client.nextSid 0, advance s.client.nextSid⟩) :=
  allocSid_zeroed hr.zeroed hr.start

/-- What a `free` does. -/
theorem Regular.free_eq (hr : Regular s) {o : RpcExtendClientObject} {sent : Bool} (hs : s.free o sent = some s') :
    o.value = -1 ∧ s' = s ∨ o.value ≠ -1 ∧ s' =
      { s with
        client := RpcExtendClient1.freeSid
          ⟨s.client.usedSid.put s.client.nextSid 0, advance s.client.nextSid⟩ o.value
        requests := if sent then s.requests ++ [(o.origin, o.value)] else s.requests
        frees := s.frees ++ [⟨s.client.nextSid, o.value, s.outstanding⟩] } := by
  rw [free, hr.allocSid] at hs
  split at hs
  · exact .inr ⟨‹_›, (Option.some.inj hs).symm⟩
  · exact .inl ⟨not_not.mp ‹_›, (Option.some.inj hs).symm⟩

theorem Regular.request_eq (hr : Regular s) (hs : s.step .request = some s') : s' =
    { s with
      client := ⟨s.client.usedSid.put s.client.nextSid 0, advance s.client.nextSid⟩
      outstanding := s.client.nextSid :: s.outstanding } := by
  rw [Releasing.step, hr.allocSid] at hs
  exact (Option.some.inj hs).symm

theorem respond_eq {sid : Int} (hs : s.step (.respond sid) = some s') :
    s' = { s with client := s.client.freeSid sid, outstanding := s.outstanding.erase sid } := by
  rw [Releasing.step] at hs
  split_ifs at hs
  exact (Option.some.inj hs).symm

theorem Regular.step {op : ObjectOp} (hr : Regular s) (hs : s.step op = some s') : Regular s' := by
  cases op with
  | obtain index =>
    obtain rfl := Option.some.inj hs
    exact ⟨hr.zeroed, hr.start⟩
  | free object sent =>
    obtain ⟨o, -, hs⟩ := Option.bind_eq_some_iff.mp hs
    obtain ⟨-, rfl⟩ | ⟨-, rfl⟩ := hr.free_eq hs
    · exact hr
    · exact ⟨(hr.zeroed.put _).remove _, (advance_range hr.start).1⟩
  | asCallable object =>
    obtain ⟨o, -, rfl⟩ := Option.map_eq_some_iff.mp hs
    exact ⟨hr.zeroed, hr.start⟩
  | request =>
    obtain rfl := hr.request_eq hs
    exact ⟨hr.zeroed.put _, (advance_range hr.start).1⟩
  | respond sid =>
    obtain rfl := respond_eq hs
    exact ⟨hr.zeroed.remove sid, hr.start⟩

/-- Objects and requests have their indices from where `origin` says. -/
structure Traced (s : Releasing) : Prop where
  objects : ∀ o ∈ s.objects, o.value ≠ -1 → s.obtained[o.origin]? = some o.value
  requests : ∀ r ∈ s.requests, s.obtained[r.1]? = some r.2

theorem Traced.init : Traced .init := ⟨fun _ ho => absurd ho List.not_mem_nil, fun _ hr => absurd hr List.not_mem_nil⟩

theorem getElem?_push {obtained : List Int} {k : Nat} {i index : Int} (h : obtained[k]? = some i) :
    (obtained ++ [index])[k]? = some i := by
  rw [List.getElem?_append_left (List.getElem?_eq_some_iff.mp h).1, h]

theorem Traced.step {op : ObjectOp} (hr : Regular s) (ht : Traced s) (hs : s.step op = some s') : Traced s' := by
  cases op with
  | obtain index =>
    obtain rfl := Option.some.inj hs
    refine ⟨fun o ho hv => ?_, fun r hr => getElem?_push (ht.requests r hr)⟩
    rw [obtain] at ho
    split at ho
    · exact getElem?_push (ht.objects o ho hv)
    · rcases List.mem_append.mp ho with ho | ho
      · exact getElem?_push (ht.objects o ho hv)
      · rw [List.mem_singleton.mp ho]
        exact List.getElem?_concat_length
  | free object sent =>
    obtain ⟨o, ho, hs⟩ := Option.bind_eq_some_iff.mp hs
    obtain ⟨-, rfl⟩ | ⟨hv, rfl⟩ := hr.free_eq hs
    · exact ht
    · refine ⟨ht.objects, fun r hmem => ?_⟩
      cases sent with
      | false => exact ht.requests r hmem
      | true =>
        rcases List.mem_append.mp hmem with hmem | hmem
        · exact ht.requests r hmem
        · rw [List.mem_singleton.mp hmem]
          exact ht.objects o (List.mem_of_getElem? ho) hv
  | asCallable object =>
    obtain ⟨o, ho, rfl⟩ := Option.map_eq_some_iff.mp hs
    refine ⟨fun o' ho' hv => ?_, ht.requests⟩
    rcases List.mem_append.mp ho' with ho' | ho'
    · rcases List.mem_or_eq_of_mem_set ho' with ho' | rfl
      · exact ht.objects o' ho' hv
      · exact absurd rfl hv
    · obtain rfl := List.mem_singleton.mp ho'
      exact ht.objects o' (List.mem_of_getElem? ho) hv
  | request =>
    obtain rfl := hr.request_eq hs
    exact ⟨ht.objects, ht.requests⟩
  | respond sid =>
    obtain rfl := respond_eq hs
    exact ⟨ht.objects, ht.requests⟩

theorem traced_run {ops : List ObjectOp} (h : run step .init ops = some s) : Traced s :=
  (run_invariant (J := fun s => Regular s ∧ Traced s) (G := fun _ _ => True)
    (fun _ _ _ hJ _ hs => ⟨hJ.1.step hs, hJ.2.step hJ.1 hs⟩) ⟨Regular.init, Traced.init⟩
    (Along.of_forall fun _ _ => trivial) h).2

theorem count_eq_length_filter (obtained : List Int) (index : Int) :
    obtained.count index = ((List.range obtained.length).filter fun k => obtained[k]? = some index).length := by
  have hmap : (List.range obtained.length).map (fun k => obtained[k]?) = obtained.map some := by
    refine List.ext_getElem (by simp) fun k _ _ => ?_
    simp
  rw [← List.countP_eq_length_filter, ← List.count_map_of_injective obtained some (Option.some_injective _), ← hmap,
    List.count, List.countP_map]
  exact List.countP_congr fun k _ => by simp

/-- No index is sent in more freeRef requests than it has been obtained times. -/
theorem Releases.count_le {ops : List ObjectOp} (h : Releases s) (hrun : run step .init ops = some s)
    (index : Int) : (s.requests.map Prod.snd).count index ≤ s.obtained.count index := by
  have ht := traced_run hrun
  have hsub : ((s.requests.filter fun r => r.2 = index).map Prod.fst).Nodup :=
    h.once.sublist (List.filter_sublist.map _)
  have hcount : (s.requests.map Prod.snd).count index =
      ((s.requests.filter fun r => r.2 = index).map Prod.fst).length := by
    rw [List.count, List.countP_map, List.length_map, ← List.countP_eq_length_filter]
    exact List.countP_congr fun r _ => by simp
  rw [hcount, count_eq_length_filter s.obtained]
  refine (List.Nodup.subperm hsub fun k hk => ?_).length_le
  obtain ⟨r, hr, rfl⟩ := List.mem_map.mp hk
  obtain ⟨hr, hi⟩ := List.mem_filter.mp hr
  have hindex : s.obtained[r.1]? = some index := by rw [ht.requests r hr, of_decide_eq_true hi]
  exact List.mem_filter.mpr ⟨List.mem_range.mpr (List.getElem?_eq_some_iff.mp hindex).1, decide_eq_true hindex⟩

theorem Releases.framed (hrequests : s'.requests = s.requests) (hfrees : s'.frees = s.frees) :
    Releases s' ↔ Releases s ∧ True :=
  ⟨fun h => ⟨⟨hrequests ▸ h.once, hfrees ▸ h.own, hfrees ▸ h.kept⟩, trivial⟩,
    fun h => ⟨hrequests ▸ h.1.once, hfrees ▸ h.1.own, hfrees ▸ h.1.kept⟩⟩

/-- One more request, if it is sent. -/
theorem once_push_iff {requests : List (Nat × Int)} {origin : Nat} {index : Int} {sent : Bool} :
    ((if sent then requests ++ [(origin, index)] else requests).map Prod.fst).Nodup ↔
      (requests.map Prod.fst).Nodup ∧ (sent → origin ∉ requests.map Prod.fst) := by
  cases sent with
  | false => simp
  | true =>
    rw [if_pos rfl, List.map_append, List.map_singleton, List.nodup_append_comm, List.singleton_append,
      List.nodup_cons, and_comm]
    simp

/-- One more `free`. -/
theorem free_releases_iff {client : RpcExtendClient1} {o : RpcExtendClientObject} {sent : Bool} :
    Releases
      { s with
        client
        requests := if sent then s.requests ++ [(o.origin, o.value)] else s.requests
        frees := s.frees ++ [⟨s.client.nextSid, o.value, s.outstanding⟩] } ↔ Releases s ∧ s.Freeable o sent := by
  constructor
  · intro h
    obtain ⟨honce, hsent⟩ := once_push_iff.mp h.once
    exact ⟨⟨honce, fun f hf => h.own f (List.mem_append_left _ hf), fun f hf => h.kept f (List.mem_append_left _ hf)⟩,
      ⟨hsent, h.own _ List.mem_concat_self, h.kept _ List.mem_concat_self⟩⟩
  · intro ⟨h, hfree⟩
    refine ⟨once_push_iff.mpr ⟨h.once, hfree.unsent⟩, fun f hf => ?_, fun f hf => ?_⟩
    · rcases List.mem_append.mp hf with hf | hf
      · exact h.own f hf
      · rw [List.mem_singleton.mp hf]
        exact hfree.cursor
    · rcases List.mem_append.mp hf with hf | hf
      · exact h.kept f hf
      · rw [List.mem_singleton.mp hf]
        exact hfree.unheld

theorem Releases.step_iff {op : ObjectOp} (hr : Regular s) (hs : s.step op = some s') :
    Releases s' ↔ Releases s ∧ s.Releasable op := by
  cases op with
  | obtain index =>
    obtain rfl := Option.some.inj hs
    exact Releases.framed rfl rfl
  | free object sent =>
    obtain ⟨o, ho, hs⟩ := Option.bind_eq_some_iff.mp hs
    have hcond : s.Releasable (.free object sent) ↔ (o.value ≠ -1 → s.Freeable o sent) := by
      refine ⟨fun h => h o ho, fun h o' ho' => ?_⟩
      obtain rfl := Option.some.inj (ho.symm.trans ho')
      exact h
    rw [hcond]
    obtain ⟨hv, rfl⟩ | ⟨hv, rfl⟩ := hr.free_eq hs
    · exact ⟨fun h => ⟨h, fun hne => absurd hv hne⟩, fun h => h.1⟩
    · rw [free_releases_iff, forall_prop_of_true hv]
  | asCallable object =>
    obtain ⟨o, -, rfl⟩ := Option.map_eq_some_iff.mp hs
    exact Releases.framed rfl rfl
  | request =>
    obtain rfl := hr.request_eq hs
    exact Releases.framed rfl rfl
  | respond sid =>
    obtain rfl := respond_eq hs
    exact Releases.framed rfl rfl

/-- In a run every release is right exactly when every `free` finds its object unsent, the
cursor at the index, and no outstanding request with that sid. -/
theorem objects_release_iff {ops : List ObjectOp} (h : run step .init ops = some s) :
    Releases s ↔ Along step Releasable .init ops := by
  have hinit : Releases .init := ⟨List.nodup_nil, (fun f hf => by cases hf), fun f hf => by cases hf⟩
  rw [run_iff (J := Regular) (fun _ _ _ hr hs => hr.step hs) (fun _ _ _ hr hs => Releases.step_iff hr hs)
    Regular.init h, and_iff_right hinit]

/-- A poll holds the sid 1, and the index 2 is released with the sid 2. -/
theorem objects_release_one : ∃ s, run step .init [.request, .obtain 2, .free 0 true] = some s ∧ Releases s := by
  have hrun : run step .init [.request, .obtain 2, .free 0 true] = some (_ : Releasing) := rfl
  exact ⟨_, hrun, (objects_release_iff hrun).mpr (by decide)⟩

/-- The object 0 is freed with the sid 1, and the sid 0 is released; an object is freed twice;
a poll holds the sid 1, which the object 1 releases. -/
theorem objects_release_other :
    (∃ s, run step .init [.obtain 0, .free 0 true] = some s ∧ ¬ Releases s) ∧
    (∃ s, run step .init [.obtain 1, .free 0 true, .free 0 true] = some s ∧ ¬ Releases s) ∧
    ∃ s, run step .init [.request, .obtain 1, .free 0 true] = some s ∧ ¬ Releases s ∧ s.outstanding = [1] ∧
      s.client.usedSid.keys = [2] := by
  refine ⟨⟨_, rfl, fun h => ?_⟩, ⟨_, rfl, fun h => ?_⟩, ⟨_, rfl, fun h => ?_, rfl, by decide⟩⟩
  · exact absurd (h.own ⟨1, 0, []⟩ (List.mem_singleton.mpr rfl)) (by decide)
  · exact absurd h.once (by decide)
  · exact absurd (h.kept ⟨2, 1, [1]⟩ (List.mem_singleton.mpr rfl)) (by decide)

end Releasing

end PxpRpc.Client.Java
