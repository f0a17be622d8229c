import Mathlib

/-!
# Buffers that grow by half

The Java serializer and the one of the C server replace a buffer that is too small
by one of half as much again as is needed, as long as that is below `2 ^ 31` bytes.
-/
namespace PxpRpc.Codec

/-- The capacity after `n` more bytes, if it is below `2 ^ 31`. -/
def grow (capacity position n : Nat) : Option Nat :=
  if position + n ≤ capacity then some capacity
  else if position + n + (position + n) / 2 < 2 ^ 31 then some (position + n + (position + n) / 2) else none

/-- Pieces of these lengths can be put one after another. -/
def Fits (capacity position : Nat) : List Nat → Prop
  | [] => True
  | n :: ns => ∃ capacity', grow capacity position n = some capacity' ∧ Fits capacity' (position + n) ns

/-- Pieces that fit are shorter than `2 ^ 31` bytes together with what is there. -/
theorem Fits.lt {ns : List Nat} : ∀ {capacity position : Nat}, Fits capacity position ns → capacity < 2 ^ 31 →
    position ≤ capacity → position + ns.sum < 2 ^ 31 := by
  induction ns with
  | nil => intro capacity position _ hc hp; simpa using hp.trans_lt hc
  | cons n ns ih =>
    rintro capacity position ⟨capacity', hg, hf⟩ hc hp
    have hnext : capacity' < 2 ^ 31 ∧ position + n ≤ capacity' := by
      rw [grow] at hg
      split at hg
      · have := Option.some.inj hg
        omega
      · split at hg
        · have := Option.some.inj hg
          omega
        · cases hg
    have := ih hf hnext.1 hnext.2
    rw [List.sum_cons]
    omega

end PxpRpc.Codec
