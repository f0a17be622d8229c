import Mathlib

/-!
# Tables

A map from keys to values as the list of its entries, in the order in which the
keys were first put into it.
-/
namespace PxpRpc.Lib

abbrev Table (κ ν : Type) := List (κ × ν)

namespace Table

variable {κ ν : Type}

def keys (t : Table κ ν) : List κ := t.map Prod.fst

def values (t : Table κ ν) : List ν := t.map Prod.snd

variable [DecidableEq κ]

def get (t : Table κ ν) (k : κ) : Option ν := (t.find? fun e => e.1 = k).map Prod.snd

/-- The value of a key that is there is replaced in its place. -/
def put (t : Table κ ν) (k : κ) (v : ν) : Table κ ν :=
  if k ∈ t.keys then t.map fun e => if e.1 = k then (k, v) else e else t ++ [(k, v)]

def remove (t : Table κ ν) (k : κ) : Table κ ν := t.filter fun e => e.1 ≠ k

variable {t : Table κ ν} {k k' : κ} {v v' : ν}

theorem put_of_notMem (h : k ∉ t.keys) : t.put k v = t ++ [(k, v)] := if_neg h

theorem mem_put {e : κ × ν} (h : e ∈ t.put k v) : e = (k, v) ∨ e ∈ t := by
  rw [put] at h
  split at h
  · obtain ⟨e', he', rfl⟩ := List.mem_map.mp h
    split
    · exact .inl rfl
    · exact .inr he'
  · rcases List.mem_append.mp h with h | h
    · exact .inr h
    · exact .inl (List.mem_singleton.mp h)

theorem mem_put_of_ne (h : (k', v') ∈ t) (hne : k' ≠ k) : (k', v') ∈ t.put k v := by
  rw [put]
  split
  · exact List.mem_map.mpr ⟨(k', v'), h, if_neg hne⟩
  · exact List.mem_append_left _ h

theorem mem_put_self : (k, v) ∈ t.put k v := by
  rw [put]
  split
  · rename_i hk
    obtain ⟨e, he, hek⟩ := List.mem_map.mp hk
    exact List.mem_map.mpr ⟨e, he, if_pos hek⟩
  · exact List.mem_append_right _ (List.mem_singleton_self _)

theorem mem_of_get (h : t.get k = some v) : (k, v) ∈ t := by
  obtain ⟨e, he, rfl⟩ := Option.map_eq_some_iff.mp h
  have hk : e.1 = k := by simpa using List.find?_some he
  exact hk ▸ List.mem_of_find?_eq_some he

omit [DecidableEq κ] in
theorem mem_keys (h : (k, v) ∈ t) : k ∈ t.keys := List.mem_map_of_mem h

theorem get_eq_none : t.get k = none ↔ k ∉ t.keys := by
  simp only [get, Option.map_eq_none_iff, List.find?_eq_none, keys, List.mem_map, not_exists, not_and]
  exact ⟨fun h e he hk => h e he (by simpa using hk), fun h e he hk => h e he (by simpa using hk)⟩

theorem get_of_mem (hn : t.keys.Nodup) (h : (k, v) ∈ t) : t.get k = some v := by
  cases hg : t.get k with
  | none => exact absurd (mem_keys h) (get_eq_none.mp hg)
  | some v' =>
    have := List.inj_on_of_nodup_map hn (mem_of_get hg) h rfl
    exact congrArg some (Prod.mk.inj this).2

theorem mem_remove {e : κ × ν} : e ∈ t.remove k ↔ e ∈ t ∧ e.1 ≠ k := by simp [remove]

theorem keys_put : (t.put k v).keys = if k ∈ t.keys then t.keys else t.keys ++ [k] := by
  rw [put]
  split
  · rw [keys, keys, List.map_map]
    refine List.map_congr_left fun e _ => ?_
    by_cases he : e.1 = k <;> simp [he]
  · simp [keys]

theorem nodup_put (h : t.keys.Nodup) : (t.put k v).keys.Nodup := by
  rw [keys_put]
  split
  · exact h
  case isFalse hk => exact h.append (List.nodup_singleton k) (List.disjoint_singleton.mpr hk)

end Table

end PxpRpc.Lib
