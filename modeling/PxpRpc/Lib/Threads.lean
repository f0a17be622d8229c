import Mathlib

/-!
# Lists threaded through a successor function

A free list kept inside the entries it links is a head and a partial successor
function. `Threads next head l` says that following the successors from `head`
visits exactly the cells of `l` and then stops.
-/
namespace PxpRpc.Lib

variable {α : Type}

def Threads (next : α → Option α) : Option α → List α → Prop
  | none, [] => True
  | some a, b :: l => a = b ∧ Threads next (next a) l
  | _, _ => False

namespace Threads

variable {next next' : α → Option α} {head : Option α} {a : α} {l l' : List α}

@[simp] theorem nil_iff : Threads next head [] ↔ head = none := by
  cases head with
  | none => exact iff_of_true trivial rfl
  | some b => exact iff_of_false id (Option.some_ne_none b)

@[simp] theorem cons_iff : Threads next head (a :: l) ↔ head = some a ∧ Threads next (next a) l := by
  cases head with
  | none => exact ⟨False.elim, fun h => absurd h.1.symm (Option.some_ne_none a)⟩
  | some b =>
    constructor
    · rintro ⟨rfl, ht⟩
      exact ⟨rfl, ht⟩
    · rintro ⟨hb, ht⟩
      obtain rfl := Option.some.inj hb
      exact ⟨rfl, ht⟩

/-- A head and a successor function thread at most one list. -/
theorem unique (h : Threads next head l) (h' : Threads next head l') : l = l' := by
  induction l generalizing head l' with
  | nil =>
    obtain rfl := nil_iff.mp h
    cases l' with
    | nil => rfl
    | cons b l' => simp at h'
  | cons b l ih =>
    obtain ⟨rfl, ht⟩ := cons_iff.mp h
    cases l' with
    | nil => simp at h'
    | cons c l' =>
      obtain ⟨hbc, ht'⟩ := cons_iff.mp h'
      obtain rfl := Option.some.inj hbc
      rw [ih ht ht']

/-- Only the successors of the visited cells matter. -/
theorem congr (h : Threads next head l) (he : ∀ b ∈ l, next' b = next b) :
    Threads next' head l := by
  induction l generalizing head with
  | nil => exact nil_iff.mpr (nil_iff.mp h)
  | cons b l ih =>
    obtain ⟨rfl, ht⟩ := cons_iff.mp h
    refine cons_iff.mpr ⟨rfl, ?_⟩
    rw [he b List.mem_cons_self]
    exact ih ht fun c hc => he c (List.mem_cons_of_mem b hc)

/-- Linking a fresh cell in front of the head puts it in front of the list. -/
theorem push (h : Threads next head l) (ha : next' a = head) (he : ∀ b ∈ l, next' b = next b) :
    Threads next' (some a) (a :: l) :=
  cons_iff.mpr ⟨rfl, by rw [ha]; exact h.congr he⟩

/-- Linking any cell in front of the head loses the list that was threaded
there; where the cell was on it already, the result is a cycle. -/
theorem push_ne (h : Threads next head l) (ha : next' a = head) : ¬ Threads next' (some a) l := by
  intro h'
  cases l with
  | nil => simp at h'
  | cons b l =>
    obtain ⟨hb, ht⟩ := cons_iff.mp h'
    obtain rfl := Option.some.inj hb
    obtain ⟨hh, -⟩ := cons_iff.mp h
    rw [ha, hh] at ht
    have := congrArg List.length (ht.unique h')
    simp at this

/-- A run of cells `f start, f (start + 1), …` each linked to the next, in front
of a threaded list. -/
theorem block (f : Nat → α) :
    ∀ {start n : Nat}, 0 < n →
      (∀ i, start ≤ i → i + 1 < start + n → next (f i) = some (f (i + 1))) →
      Threads next (next (f (start + n - 1))) l →
      Threads next (some (f start)) ((List.range' start n).map f ++ l) := by
  intro start n
  induction n generalizing start with
  | zero => intro h; omega
  | succ n ih =>
    intro _ hlink hlast
    rw [List.range'_succ, List.map_cons, List.cons_append]
    refine cons_iff.mpr ⟨rfl, ?_⟩
    cases n with
    | zero => simpa using hlast
    | succ n =>
      rw [hlink start (by omega) (by omega)]
      refine ih (by omega) (fun i hi hn => hlink i (by omega) (by omega)) ?_
      rwa [show start + 1 + (n + 1) - 1 = start + (n + 1 + 1) - 1 from by omega]

end Threads

end PxpRpc.Lib
