import PxpRpc.Lib.Run

/-!
# Index allocators

An allocator hands out indices of a growing pool and takes them back. `live` is
the ghost list of the indices handed out and not taken back. A lawful allocator
comes with an invariant relating its state to `live`, and with the number of
live indices from which on allocation goes wrong, if there is one.
-/
namespace PxpRpc.Lib

/-- `Write` is whatever owners do with the entries of their indices. -/
structure Allocator (Pool Write : Type) where
  alloc : Pool → Option (Pool × Nat)
  free : Nat → Pool → Option Pool
  write : Write → Pool → Option Pool
  size : Pool → Nat
  /-- The indices that will be handed out next, before the pool grows. -/
  FreeList : Pool → List Nat → Prop

namespace Allocator

structure State (Pool : Type) where
  pool : Pool
  live : List Nat

/-- One operation on the pool; a release may carry any number of indices. -/
inductive Op (Write : Type) where
  | alloc
  | free (is : List Nat)
  | write (w : Write)
deriving DecidableEq, Repr

variable {Pool Write : Type} (A : Allocator Pool Write)

def freeOne (s : State Pool) (i : Nat) : Option (State Pool) :=
  (A.free i s.pool).map fun pool => ⟨pool, s.live.erase i⟩

def step (s : State Pool) : Op Write → Option (State Pool)
  | .alloc => (A.alloc s.pool).map fun r => ⟨r.1, r.2 :: s.live⟩
  | .free is => run A.freeOne s is
  | .write w => (A.write w s.pool).map fun pool => ⟨pool, s.live⟩

/-- Releases only name indices below the size of the pool. -/
def InRange (s : State Pool) : Op Write → Prop
  | .free is => ∀ i ∈ is, i < A.size s.pool
  | _ => True

/-- An allocation hands out no live index, and releasing an index that is not
live leaves the free list as it was. -/
def Exclusive (s : State Pool) : Op Write → Prop
  | .alloc => ∀ r, A.alloc s.pool = some r → r.2 ∉ s.live
  | .free is => ∀ before i after s', is = before ++ i :: after → run A.freeOne s before = some s' →
      i ∉ s'.live → ∀ pool, A.free i s'.pool = some pool →
        ∀ l, A.FreeList s'.pool l → A.FreeList pool l
  | .write _ => True

/-- Allocations find fewer than `room` live indices, and a release names live
indices only, each once. -/
def Disciplined (room : Nat → Prop) (s : State Pool) : Op Write → Prop
  | .alloc => room s.live.length
  | .free is => is.Nodup ∧ ∀ i ∈ is, i ∈ s.live
  | .write _ => True

instance (s : State Pool) : ∀ op : Op Write, Decidable (A.InRange s op)
  | .alloc => isTrue trivial
  | .free is => inferInstanceAs (Decidable (∀ i ∈ is, i < A.size s.pool))
  | .write _ => isTrue trivial

/-- The laws of an allocator with invariant `Sound`. -/
structure Lawful (room : Nat → Prop) (Sound : Pool → List Nat → Prop) : Prop where
  nodup : ∀ {p live}, Sound p live → live.Nodup
  live_lt : ∀ {p live i}, Sound p live → i ∈ live → i < A.size p
  alloc : ∀ {p live}, Sound p live → room live.length →
    ∃ p' i, A.alloc p = some (p', i) ∧ i ∉ live ∧ Sound p' (i :: live)
  alloc_full : ∀ {p live}, Sound p live → ¬ room live.length →
    ∃ p' i, A.alloc p = some (p', i) ∧ i ∈ live
  free : ∀ {p live i}, Sound p live → i ∈ live →
    ∃ p', A.free i p = some p' ∧ A.size p' = A.size p ∧ Sound p' (live.erase i)
  free_dead : ∀ {p live i}, Sound p live → i < A.size p → i ∉ live →
    ∃ p' l, A.free i p = some p' ∧ A.FreeList p l ∧ ¬ A.FreeList p' l
  write : ∀ {p live w p'}, Sound p live → A.write w p = some p' → Sound p' live

variable {A} {room : Nat → Prop} {Sound : Pool → List Nat → Prop}

namespace Lawful

/-- Releasing live indices, each once, succeeds and keeps the invariant. -/
theorem free_all (hA : A.Lawful room Sound) {is : List Nat} :
    ∀ {s : State Pool}, Sound s.pool s.live → is.Nodup → (∀ i ∈ is, i ∈ s.live) →
      ∃ s', run A.freeOne s is = some s' ∧ Sound s'.pool s'.live ∧
        A.size s'.pool = A.size s.pool ∧ ∀ j, j ∈ s'.live ↔ j ∈ s.live ∧ j ∉ is := by
  induction is with
  | nil => exact fun {s} hs _ _ => ⟨s, rfl, hs, rfl, by simp⟩
  | cons i is ih =>
    intro s hs hnd hlive
    obtain ⟨hi, hnd⟩ := List.nodup_cons.mp hnd
    obtain ⟨p', hp', hsize, hs'⟩ := hA.free hs (hlive i List.mem_cons_self)
    have hmem : ∀ j, j ∈ s.live.erase i ↔ j ≠ i ∧ j ∈ s.live := fun j => (hA.nodup hs).mem_erase_iff
    have hrest : ∀ j ∈ is, j ∈ s.live.erase i := fun j hj =>
      (hmem j).mpr ⟨fun h => hi (h ▸ hj), hlive j (List.mem_cons_of_mem i hj)⟩
    obtain ⟨t, hrun, ht, hts, htl⟩ := ih (s := ⟨p', s.live.erase i⟩) hs' hnd hrest
    refine ⟨t, run_cons_eq_some.mpr ⟨⟨p', s.live.erase i⟩, by simp [freeOne, hp'], hrun⟩, ht,
      hts.trans hsize, fun j => ?_⟩
    rw [htl j, hmem j, List.mem_cons]
    tauto

/-- A disciplined step succeeds and keeps the invariant. -/
theorem step_sound (hA : A.Lawful room Sound) {s s' : State Pool} {op : Op Write}
    (hs : Sound s.pool s.live) (hd : Disciplined room s op) (h : A.step s op = some s') :
    Sound s'.pool s'.live := by
  cases op with
  | alloc =>
    obtain ⟨p', i, ha, -, hp'⟩ := hA.alloc hs hd
    simp only [step, ha, Option.map_some, Option.some.injEq] at h
    exact h ▸ hp'
  | free is =>
    obtain ⟨t, hrun, ht, -⟩ := hA.free_all hs hd.1 hd.2
    obtain rfl := Option.some.inj (hrun.symm.trans h)
    exact ht
  | write w =>
    simp only [step, Option.map_eq_some_iff] at h
    obtain ⟨p', hp', rfl⟩ := h
    exact hA.write hs hp'

/-- The first index of a release that is not live when its turn comes. -/
theorem first_dead {live : List Nat} :
    ∀ {is : List Nat}, ¬ (is.Nodup ∧ ∀ i ∈ is, i ∈ live) →
      ∃ before i after, is = before ++ i :: after ∧ before.Nodup ∧ (∀ j ∈ before, j ∈ live) ∧
        (i ∉ live ∨ i ∈ before) := by
  intro is
  induction is using List.reverseRecOn with
  | nil => simp
  | append_singleton is i ih =>
    intro h
    by_cases hd : is.Nodup ∧ ∀ j ∈ is, j ∈ live
    · refine ⟨is, i, [], rfl, hd.1, hd.2, ?_⟩
      by_contra hc
      push Not at hc
      refine h ⟨?_, ?_⟩
      · exact List.nodup_append.mpr ⟨hd.1, List.nodup_singleton i, by
          intro a ha b hb; rw [List.mem_singleton.mp hb]; exact fun he => hc.2 (he ▸ ha)⟩
      · intro j hj
        rcases List.mem_append.mp hj with hj | hj
        · exact hd.2 j hj
        · exact List.mem_singleton.mp hj ▸ hc.1
    · obtain ⟨before, j, after, he, hb⟩ := ih hd
      exact ⟨before, j, after ++ [i], by simp [he], hb⟩

/-- While the invariant holds, a step behaves exactly when it is disciplined. -/
theorem exclusive_iff (hA : A.Lawful room Sound) {s : State Pool} {op : Op Write}
    (hs : Sound s.pool s.live) (hr : A.InRange s op) :
    A.Exclusive s op ↔ Disciplined room s op := by
  cases op with
  | alloc =>
    constructor
    · intro h
      by_contra hfull
      obtain ⟨p', i, ha, hi⟩ := hA.alloc_full hs hfull
      exact h _ ha hi
    · intro hroom r ha
      obtain ⟨p', i, ha', hi, -⟩ := hA.alloc hs hroom
      obtain rfl := Option.some.inj (ha.symm.trans ha')
      exact hi
  | free is =>
    constructor
    · intro h
      by_contra hd
      obtain ⟨before, i, after, he, hnd, hlive, hi⟩ := first_dead hd
      obtain ⟨t, hrun, ht, hts, htl⟩ := hA.free_all hs hnd hlive
      have hsize : i < A.size t.pool := hts ▸ hr i (by simp [he])
      have hdead : i ∉ t.live := fun hc => by
        have := (htl i).mp hc
        tauto
      obtain ⟨p', l, hf, hl, hl'⟩ := hA.free_dead ht hsize hdead
      exact hl' (h before i after t he hrun hdead p' hf l hl)
    · rintro ⟨hnd, hlive⟩ before i after t he hrun hdead
      subst he
      have hbl : ∀ j ∈ before, j ∈ s.live := fun j hj => hlive j (List.mem_append_left _ hj)
      obtain ⟨t', hrun', -, -, htl⟩ := hA.free_all hs (List.Nodup.of_append_left hnd) hbl
      obtain rfl := Option.some.inj (hrun.symm.trans hrun')
      have hi : i ∈ t.live := (htl i).mpr ⟨hlive i (by simp), fun hc =>
        (List.nodup_append.mp hnd).2.2 i hc i List.mem_cons_self rfl⟩
      exact absurd hi hdead
  | write w => exact Iff.rfl

/-- A whole run of in-range operations behaves exactly when it is disciplined. -/
theorem run_exclusive_iff (hA : A.Lawful room Sound) {s : State Pool} {ops : List (Op Write)}
    (hs : Sound s.pool s.live) (hr : Along A.step A.InRange s ops) :
    Along A.step A.Exclusive s ops ↔ Along A.step (Disciplined room) s ops :=
  along_iff (J := fun s => Sound s.pool s.live) (fun _ _ _ hJ _ hd h => hA.step_sound hJ hd h)
    (fun _ _ hJ hL => hA.exclusive_iff hJ hL) hs hr

/-- Releasing one index twice is never right. -/
theorem not_exclusive_twice (hA : A.Lawful room Sound) {s : State Pool} {i : Nat}
    (hs : Sound s.pool s.live) (hroom : room s.live.length)
    (hi : (A.alloc s.pool).map Prod.snd = some i) :
    ¬ Along A.step A.Exclusive s [.alloc, .free [i], .free [i]] := by
  rintro ⟨-, h⟩
  obtain ⟨p, j, ha, hj, hp⟩ := hA.alloc hs hroom
  obtain rfl : j = i := by simpa [ha] using hi
  obtain ⟨p₁, hf, hsize, hp₁⟩ := hA.free hp (List.mem_cons_self)
  rw [List.erase_cons_head] at hp₁
  obtain ⟨-, h⟩ := h ⟨p, j :: s.live⟩ (by simp [step, ha])
  obtain ⟨h, -⟩ := h ⟨p₁, s.live⟩ (by simp [step, run, freeOne, hf])
  obtain ⟨p₂, l, hf₂, hl, hl'⟩ := hA.free_dead hp₁ (hsize ▸ hA.live_lt hp List.mem_cons_self) hj
  exact hl' (h [] j [] ⟨p₁, s.live⟩ rfl rfl hj p₂ hf₂ l hl)

end Lawful

end Allocator

end PxpRpc.Lib
