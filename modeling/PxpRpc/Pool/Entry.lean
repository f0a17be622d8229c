import PxpRpc.Lib.Threads

/-!
# Pool entries

One entry of a reference pool, and the loops that create and link a range of
entries. All four servers thread their free list through such entries; they
differ in what a link is and in the bounds of the loops.
-/
namespace PxpRpc.Pool

/-- `pxprpc_ref` of the C server and `PxpRef` of the others. -/
structure PxpRef (Obj Hook Link : Type) where
  object : Option Obj
  onFree : Option Hook
  nextFree : Option Link
deriving DecidableEq, Repr

/-- `for (i = lo; i < lo + n; i++) refs[i] = f(i, refs[i])` -/
def modifyRange {α : Type} (refs : List α) (lo n : Nat) (f : Nat → α → α) : List α :=
  (List.range' lo n).foldl (fun refs i => refs.modify i (f i)) refs

@[simp] theorem length_modifyRange {α : Type} (refs : List α) (lo n : Nat) (f : Nat → α → α) :
    (modifyRange refs lo n f).length = refs.length := by
  induction n generalizing lo refs with
  | zero => rfl
  | succ n ih => simpa [modifyRange, List.range'_succ] using ih (refs.modify lo (f lo)) (lo + 1)

theorem getElem?_modifyRange {α : Type} (refs : List α) (lo n : Nat) (f : Nat → α → α) (j : Nat) :
    (modifyRange refs lo n f)[j]? =
      if lo ≤ j ∧ j < lo + n then refs[j]?.map (f j) else refs[j]? := by
  induction n generalizing lo refs with
  | zero => simp [modifyRange]
  | succ n ih =>
    have hstep : modifyRange refs lo (n + 1) f = modifyRange (refs.modify lo (f lo)) (lo + 1) n f := by
      simp [modifyRange, List.range'_succ]
    rw [hstep, ih]
    by_cases hj : lo = j
    · subst hj
      simp
    · have hm : (refs.modify lo (f lo))[j]? = refs[j]? := List.getElem?_modify_ne _ _ hj
      rw [hm]
      congr 1
      simp only [eq_iff_iff]
      omega

end PxpRpc.Pool
