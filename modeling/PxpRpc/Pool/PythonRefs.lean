import PxpRpc.Pool.RemoteFree

/-!
# References in the Python server

Every block that `expandRefPools` makes ends with an entry that no other entry links
to, and `freeRefHandler` steps through a count of words as if it were bytes.
-/
namespace PxpRpc.Pool.Managed

open PxpRpc.Lib
open Allocator (State Disciplined)

variable {Obj Hook : Type}

/-- A pool that has only seen references freed that were allocated, and what its
owners wrote to them. -/
structure Reached (A : Allocator (RefPool Obj Hook) (SetRef Obj Hook)) (ops : List (Allocator.Op (SetRef Obj Hook)))
    (s : State (RefPool Obj Hook)) : Prop where
  disciplined : Along A.step (Disciplined fun _ => True) init ops
  runs : run A.step init ops = some s

variable {A : Allocator (RefPool Obj Hook) (SetRef Obj Hook)} {last linked : Nat}
  {ops : List (Allocator.Op (SetRef Obj Hook))} {s s' : State (RefPool Obj Hook)}

theorem Reached.sound (hA : A.Lawful (fun _ => True) (Sound last linked)) (h : Reached A ops s) :
    Sound last linked s.pool s.live :=
  run_invariant (J := fun s => Sound last linked s.pool s.live) (fun _ _ _ hJ hd hs => hA.step_sound hJ hd hs)
    sound_empty h.disciplined h.runs

/-! ### Entries that are lost -/

/-- No allocation hands out a reference that is allocated, every entry has its own
index, and is allocated or on the free list, exactly once; a pool that is about to
grow has only entries that are allocated. -/
structure Orderly (A : Allocator (RefPool Obj Hook) (SetRef Obj Hook)) (s : State (RefPool Obj Hook)) : Prop where
  fresh : ∃ pool i, A.alloc s.pool = some (pool, i) ∧ i ∉ s.live
  indexed : ∀ i (ref : IndexedRef Obj Hook), s.pool.refPool[i]? = some ref → ref.index = i
  divided : ∃ free, s.pool.FreeList free ∧ (free ++ s.live).Perm (List.range s.pool.refPool.length)
  grows : s.pool.freeRefEntry = none → ∀ i < s.pool.refPool.length, i ∈ s.live

/-- With fewer links than entries, entries are lost from the first block on. -/
theorem not_divided (hl : linked < last) {pool : RefPool Obj Hook} {live : List Nat} (h : Sound last linked pool live)
    (hpos : 0 < pool.refPool.length) :
    ¬ ∃ free, pool.FreeList free ∧ (free ++ live).Perm (List.range pool.refPool.length) := by
  rintro ⟨free, hf, hp⟩
  obtain ⟨free', lost, hf', hp', hlost⟩ := h.partition
  obtain rfl := hf.unique hf'
  have hlen := hp.length_eq
  have hlen' := hp'.length_eq
  rw [List.length_append] at hlen hlen'
  rw [List.length_append] at hlen'
  have hzero : lost.length = 0 := by omega
  rw [hzero, Nat.zero_mul] at hlost
  have := Nat.mul_pos (Nat.sub_pos_of_lt hl) hpos
  omega

namespace Python

/-- Only an allocation makes an empty pool grow. -/
theorem size_step {op : Allocator.Op (SetRef Obj Hook)} (h : Sound 256 255 s.pool s.live)
    (hd : Disciplined (fun _ => True) s op) (hs : (allocator Obj Hook).step s op = some s') :
    0 < s'.pool.refPool.length ↔ 0 < s.pool.refPool.length ∨ op = .alloc := by
  cases op with
  | alloc =>
    obtain ⟨pool, i, ha, -, hsound⟩ := lawful.alloc h trivial
    have hs' : s' = ⟨pool, i :: s.live⟩ := by
      simp only [Allocator.step, ha, Option.map_some, Option.some.injEq] at hs
      exact hs.symm
    have hlt : i < pool.refPool.length := lawful.live_lt hsound List.mem_cons_self
    rw [hs']
    exact iff_of_true (by dsimp only; omega) (.inr rfl)
  | free is =>
    obtain ⟨t, hrun, -, hsize, -⟩ := lawful.free_all h hd.1 hd.2
    obtain rfl := Option.some.inj (hrun.symm.trans hs)
    have hsize : t.pool.refPool.length = s.pool.refPool.length := hsize
    simp [hsize]
  | write w =>
    obtain ⟨pool, hw, rfl⟩ := Option.map_eq_some_iff.mp hs
    obtain ⟨ref, -, rfl⟩ := Option.map_eq_some_iff.mp hw
    simp

theorem size_run {ops : List (Allocator.Op (SetRef Obj Hook))} :
    ∀ {s : State (RefPool Obj Hook)}, Sound 256 255 s.pool s.live →
      Along (allocator Obj Hook).step (Disciplined fun _ => True) s ops →
      run (allocator Obj Hook).step s ops = some s' →
      (0 < s'.pool.refPool.length ↔ 0 < s.pool.refPool.length ∨ .alloc ∈ ops) := by
  induction ops with
  | nil =>
    intro s _ _ hr
    obtain rfl := Option.some.inj hr
    simp
  | cons op ops ih =>
    intro s h ha hr
    obtain ⟨s₁, h₁, hr⟩ := run_cons_eq_some.mp hr
    have hsound := lawful.step_sound h ha.1 h₁
    rw [ih hsound (ha.2 s₁ h₁) hr, size_step h ha.1 h₁, List.mem_cons, or_assoc, @eq_comm _ op]

/-- However the pool has been used, it is orderly if and only if nothing has been
allocated yet: with the first block an entry is lost. That no allocated reference
is handed out, and that the entries have their indices, holds all the same. -/
theorem refPool_orderly_iff (h : Reached (allocator Obj Hook) ops s) :
    ((∃ pool i, (allocator Obj Hook).alloc s.pool = some (pool, i) ∧ i ∉ s.live) ∧
      ∀ i (ref : IndexedRef Obj Hook), s.pool.refPool[i]? = some ref → ref.index = i) ∧
    (Orderly (allocator Obj Hook) s ↔ .alloc ∉ ops) := by
  have hsound := h.sound lawful
  have hsize := size_run sound_empty h.disciplined h.runs
  obtain ⟨pool, i, ha, hi, -⟩ := lawful.alloc hsound trivial
  refine ⟨⟨⟨pool, i, ha, hi⟩, hsound.indexed⟩, fun ho hm => ?_, fun hm => ?_⟩
  · exact not_divided (by decide) hsound (hsize.mpr (.inr hm)) ho.divided
  · have hnil : s.pool.refPool = [] := by
      by_contra hne
      rcases hsize.mp (List.length_pos_of_ne_nil hne) with h0 | h0
      · exact absurd h0 (Nat.lt_irrefl 0)
      · exact hm h0
    obtain ⟨free, lost, hf, hp, -⟩ := hsound.partition
    rw [hnil, List.length_nil, List.range_zero, List.perm_nil] at hp
    obtain ⟨rfl, hrest⟩ := List.append_eq_nil_iff.mp hp
    obtain ⟨hlive, -⟩ := List.append_eq_nil_iff.mp hrest
    refine ⟨⟨pool, i, ha, hi⟩, hsound.indexed, ⟨[], hf, by simp [hnil, hlive]⟩, fun _ j hj => ?_⟩
    rw [hnil] at hj
    exact absurd hj (Nat.not_lt_zero j)

/-- One reference. -/
def oneAlloc : List (Allocator.Op (SetRef Unit Unit)) := [.alloc]

theorem reached_oneAlloc : ∃ s, Reached (allocator Unit Unit) oneAlloc s := by
  obtain ⟨pool, i, ha, -⟩ := lawful.alloc (sound_empty : Sound 256 255 (RefPool.empty : RefPool Unit Unit) []) trivial
  refine ⟨⟨pool, [i]⟩, ⟨trivial, fun _ _ => trivial⟩, run_cons_eq_some.mpr ⟨⟨pool, [i]⟩, ?_, rfl⟩⟩
  rw [Allocator.step, init, ha, Option.map_some]

theorem refPool_once : ∃ s, Reached (allocator Unit Unit) oneAlloc s ∧
    (Orderly (allocator Unit Unit) s ↔ .alloc ∉ oneAlloc) := by
  obtain ⟨s, hr⟩ := reached_oneAlloc
  exact ⟨s, hr, (refPool_orderly_iff hr).2⟩

/-- The first allocation makes 257 entries: one is allocated, 255 are free. -/
theorem refPool_loses : ∃ s, Reached (allocator Unit Unit) oneAlloc s ∧ ¬ Orderly (allocator Unit Unit) s := by
  obtain ⟨s, hr⟩ := reached_oneAlloc
  refine ⟨s, hr, fun ho => ?_⟩
  have hsize := (size_run sound_empty hr.disciplined hr.runs).mpr (.inr List.mem_cons_self)
  exact not_divided (by decide) (hr.sound lawful) hsize ho.divided

end Python

/-! ### Requests to free -/

/-- `ClientContext.freeRef` in Python: an index that does not fit raises. -/
def Python.parameter (index : List Nat) : Option (List UInt8) :=
  if ∀ i ∈ index, i < 2 ^ 31 then some (encodeIndices index) else none

/-- The handler frees the references in the list, each once, and nothing else. -/
def FreesExactly (A : Allocator (RefPool Obj Hook) (SetRef Obj Hook)) (freeRefIndices : List UInt8 → Option (List Int))
    (s : State (RefPool Obj Hook)) (parameter : List UInt8) (index : List Nat) : Prop :=
  ∃ is s', freeRefIndices parameter = some is ∧ (is.map Int.toNat).Perm index ∧
    run A.freeOne s (is.map Int.toNat) = some s' ∧ (∀ j, j ∈ s'.live ↔ j ∈ s.live ∧ j ∉ index) ∧
    (∀ j ∈ index, s'.pool.contents j = some (none, none)) ∧ ∀ j ∉ index, s'.pool.contents j = s.pool.contents j

section

variable {expand : RefPool Obj Hook → RefPool Obj Hook} {is index : List Nat} {parameter : List UInt8}

theorem contents_freeOne {i : Nat} (h : (Managed.allocator Obj Hook expand).freeOne s i = some s') (j : Nat) :
    s'.pool.contents j = if j = i then some (none, none) else s.pool.contents j := by
  simp only [Allocator.freeOne, Managed.allocator, freeRef, Option.map_map, Option.map_eq_some_iff] at h
  obtain ⟨ref, hr, rfl⟩ := h
  obtain ⟨hlt, -⟩ := List.getElem?_eq_some_iff.mp hr
  by_cases hj : j = i
  · subst hj
    simp [RefPool.contents, hlt]
  · simp [RefPool.contents, hj, Ne.symm hj]

theorem contents_freeAll : ∀ {s : State (RefPool Obj Hook)},
    run (Managed.allocator Obj Hook expand).freeOne s is = some s' → ∀ j,
      s'.pool.contents j = if j ∈ is then some (none, none) else s.pool.contents j := by
  induction is with
  | nil =>
    intro s h j
    obtain rfl := Option.some.inj h
    simp
  | cons i is ih =>
    intro s h j
    obtain ⟨s₁, h₁, h⟩ := run_cons_eq_some.mp h
    rw [ih h j, contents_freeOne h₁ j]
    by_cases hm : j ∈ is
    · simp [hm]
    · simp [hm]

/-- Freeing the list itself does what is asked. -/
theorem freesExactly_of_all (hA : (Managed.allocator Obj Hook expand).Lawful (fun _ => True) (Sound last linked))
    (hs : Sound last linked s.pool s.live) (hnd : index.Nodup) (hlive : ∀ i ∈ index, i ∈ s.live)
    {freeRefIndices : List UInt8 → Option (List Int)}
    (hread : freeRefIndices parameter = some (index.map Int.ofNat)) :
    FreesExactly (Managed.allocator Obj Hook expand) freeRefIndices s parameter index := by
  have hmap : (index.map Int.ofNat).map Int.toNat = index := by
    rw [List.map_map]
    exact List.map_id index
  obtain ⟨s', hrun, -, -, hmem⟩ := hA.free_all hs hnd hlive
  have hcontents := contents_freeAll hrun
  refine ⟨_, s', hread, by rw [hmap], by rw [hmap]; exact hrun, hmem, fun j hj => ?_, fun j hj => ?_⟩
  · rw [hcontents j, if_pos hj]
  · rw [hcontents j, if_neg hj]

theorem parameter_eq (h : Python.parameter index = some parameter) :
    (∀ i ∈ index, i < 2 ^ 31) ∧ encodeIndices index = parameter := by
  unfold Python.parameter at h
  split at h
  · rename_i hlt
    exact ⟨hlt, Option.some.inj h⟩
  · cases h

end

/-- Of a list of distinct allocated references the Python handler frees exactly those
if and only if there is at most one of them; the TypeScript and the Java handler
always do. -/
theorem freeRefHandler_exact_iff {index : List Nat} {parameter : List UInt8}
    (hp : Python.parameter index = some parameter) (hnd : index.Nodup) :
    (∀ ops (s : State (RefPool Obj Hook)), Reached (Python.allocator Obj Hook) ops s → (∀ i ∈ index, i ∈ s.live) →
      (FreesExactly (Python.allocator Obj Hook) Pool.Python.freeRefIndices s parameter index ↔ index.length ≤ 1)) ∧
    (∀ ops (s : State (RefPool Obj Hook)), Reached (TypeScript.allocator Obj Hook) ops s → (∀ i ∈ index, i ∈ s.live) →
      FreesExactly (TypeScript.allocator Obj Hook) Pool.TypeScript.freeRefIndices s parameter index) ∧
    (∀ ops (s : State (RefPool Obj Hook)), Reached (Java.allocator Obj Hook) ops s → (∀ i ∈ index, i ∈ s.live) →
      FreesExactly (Java.allocator Obj Hook) Pool.Java.freeRefIndices s parameter index) := by
  obtain ⟨hlt, rfl⟩ := parameter_eq hp
  refine ⟨fun ops s hr hlive => ⟨?_, fun hone => ?_⟩, fun ops s hr hlive => ?_, fun ops s hr hlive => ?_⟩
  · rintro ⟨is, s', hread, hperm, -⟩
    rw [Pool.Python.freeRefIndices_encode hlt] at hread
    obtain rfl := Option.some.inj hread
    have hlen := hperm.length_eq
    rw [List.length_map, List.length_map, List.length_take] at hlen
    omega
  · refine freesExactly_of_all Python.lawful (hr.sound Python.lawful) hnd hlive ?_
    rw [Pool.Python.freeRefIndices_encode hlt, List.take_of_length_le (by omega)]
  · exact freesExactly_of_all TypeScript.lawful (hr.sound TypeScript.lawful) hnd hlive
      (Pool.TypeScript.freeRefIndices_encode hlt)
  · exact freesExactly_of_all Java.lawful (hr.sound Java.lawful) hnd hlive (Pool.Java.freeRefIndices_encode hlt)

/-- Two references. -/
def twoAllocs : List (Allocator.Op (SetRef Unit Unit)) := [.alloc, .alloc]

theorem freeRefHandler_one : ∃ s, Reached (Python.allocator Unit Unit) twoAllocs s ∧
    (FreesExactly (Python.allocator Unit Unit) Pool.Python.freeRefIndices s (encodeIndices [1]) [1] ↔
      [1].length ≤ 1) := by
  have hd : Along (Python.allocator Unit Unit).step (Disciplined fun _ => True) init twoAllocs :=
    ⟨trivial, fun _ _ => ⟨trivial, fun _ _ => trivial⟩⟩
  obtain ⟨s, hs, hm⟩ : ∃ s, run (Python.allocator Unit Unit).step init twoAllocs = some s ∧ ∀ i ∈ [1], i ∈ s.live :=
    @exists_run _ _ _ _ _ (fun s : State (RefPool Unit Unit) => ∀ i ∈ [1], i ∈ s.live) _ (by decide +kernel)
  exact ⟨s, ⟨hd, hs⟩, (freeRefHandler_exact_iff (by decide +kernel) (by decide)).1 twoAllocs s ⟨hd, hs⟩ hm⟩

/-- Of two references the second one stays. -/
theorem freeRefHandler_half : ∃ s, Reached (Python.allocator Unit Unit) twoAllocs s ∧ (∀ i ∈ [0, 1], i ∈ s.live) ∧
    Pool.Python.freeRefIndices (encodeIndices [0, 1]) = some [0] ∧
    ¬ FreesExactly (Python.allocator Unit Unit) Pool.Python.freeRefIndices s (encodeIndices [0, 1]) [0, 1] := by
  have hd : Along (Python.allocator Unit Unit).step (Disciplined fun _ => True) init twoAllocs :=
    ⟨trivial, fun _ _ => ⟨trivial, fun _ _ => trivial⟩⟩
  have hread : Pool.Python.freeRefIndices (encodeIndices [0, 1]) = some [0] := by decide +kernel
  obtain ⟨s, hs, hm⟩ : ∃ s, run (Python.allocator Unit Unit).step init twoAllocs = some s ∧
      ∀ i ∈ [0, 1], i ∈ s.live :=
    @exists_run _ _ _ _ _ (fun s : State (RefPool Unit Unit) => ∀ i ∈ [0, 1], i ∈ s.live) _ (by decide +kernel)
  refine ⟨s, ⟨hd, hs⟩, hm, hread, ?_⟩
  rintro ⟨is, s', his, hperm, -⟩
  obtain rfl := Option.some.inj (hread.symm.trans his)
  exact absurd hperm.length_eq (by decide)

end PxpRpc.Pool.Managed
