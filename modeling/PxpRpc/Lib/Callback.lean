import PxpRpc.Lib.Run

/-!
# Programs that call out to their environment and may be re-entered from it

A C library with completion callbacks runs as a stack of pieces of its own code
and of external calls in progress. Whenever the environment is in control, that
is when nothing runs or when the innermost item is an external call, it may
return from that call or enter the library again. Undefined behaviour is a code
item with no successor; nothing runs after it.
-/
namespace PxpRpc.Lib.Callback

/-- One entry of the stack: code still to be run, or an external call in progress. -/
inductive Item (Code Ext : Type) where
  | code (k : Code)
  | ext (e : Ext)
deriving DecidableEq, Repr

/-- The code of a library over its state, and the functions it exports. -/
structure Program (State Code Ext Entry : Type) where
  /-- Run one piece of code: the items it leaves are run before anything below. -/
  exec : Code → State → Option (State × List (Item Code Ext))
  /-- Enter the library from outside; `none` when the environment may not do it now. -/
  enter : Entry → State → Option (State × List (Item Code Ext))

structure Config (State Code Ext : Type) where
  state : State
  stack : List (Item Code Ext)

inductive Move (Entry : Type) where
  | run
  | ret
  | enter (i : Entry)
deriving DecidableEq, Repr

variable {State Code Ext Entry : Type}

/-- The environment is in control unless code of the library is on top. -/
def EnvControls : List (Item Code Ext) → Prop
  | .code _ :: _ => False
  | _ => True

/-- A condition on steps is decided by what it says of the code that is run and of the calls. -/
def decidableMove {P : Config State Code Ext → Move Entry → Prop}
    (code : ∀ s k rest, Decidable (P ⟨s, .code k :: rest⟩ .run)) (enter : ∀ c e, Decidable (P c (.enter e)))
    (idle : ∀ s, P ⟨s, []⟩ .run) (ext : ∀ s e rest, P ⟨s, .ext e :: rest⟩ .run) (ret : ∀ c, P c .ret) :
    ∀ c m, Decidable (P c m)
  | ⟨s, .code k :: rest⟩, .run => code s k rest
  | ⟨s, []⟩, .run => isTrue (idle s)
  | ⟨s, .ext e :: rest⟩, .run => isTrue (ext s e rest)
  | c, .ret => isTrue (ret c)
  | c, .enter e => enter c e

/-! ### Counting over the stack -/

def total (f : Item Code Ext → Nat) (stack : List (Item Code Ext)) : Nat := (stack.map f).sum

section

variable (f : Item Code Ext → Nat) (i : Item Code Ext) (stack stack' : List (Item Code Ext))

@[simp] theorem total_nil : total f [] = 0 := rfl

@[simp] theorem total_cons : total f (i :: stack) = f i + total f stack := by
  simp [total]

@[simp] theorem total_append : total f (stack ++ stack') = total f stack + total f stack' := by
  simp [total]

end

theorem total_eq_zero_iff {f : Item Code Ext → Nat} {stack : List (Item Code Ext)} :
    total f stack = 0 ↔ ∀ i ∈ stack, f i = 0 := by
  simp [total, List.sum_eq_zero_iff]

theorem total_eq_zero {f : Item Code Ext → Nat} {stack : List (Item Code Ext)} (h : ∀ i ∈ stack, f i = 0) :
    total f stack = 0 := total_eq_zero_iff.mpr h

namespace Program

variable (p : Program State Code Ext Entry)

def step (c : Config State Code Ext) : Move Entry → Option (Config State Code Ext)
  | .run =>
      match c.stack with
      | .code k :: rest => (p.exec k c.state).map fun r => ⟨r.1, r.2 ++ rest⟩
      | _ => none
  | .ret =>
      match c.stack with
      | .ext _ :: rest => some ⟨c.state, rest⟩
      | _ => none
  | .enter i =>
      match c.stack with
      | .code _ :: _ => none
      | _ => (p.enter i c.state).map fun r => ⟨r.1, r.2 ++ c.stack⟩

/-- The code on top of the stack has no defined behaviour. -/
def Faults (c : Config State Code Ext) : Prop :=
  ∃ k rest, c.stack = .code k :: rest ∧ p.exec k c.state = none

/-- Preservation of a configuration predicate, one field for each kind of move. -/
structure Preserves (G : Config State Code Ext → Move Entry → Prop)
    (I : Config State Code Ext → Prop) : Prop where
  exec : ∀ {s k rest s' items}, I ⟨s, .code k :: rest⟩ → G ⟨s, .code k :: rest⟩ .run →
    p.exec k s = some (s', items) → I ⟨s', items ++ rest⟩
  ret : ∀ {s e rest}, I ⟨s, .ext e :: rest⟩ → G ⟨s, .ext e :: rest⟩ .ret → I ⟨s, rest⟩
  enter : ∀ {s stack i s' items}, EnvControls stack → I ⟨s, stack⟩ →
    G ⟨s, stack⟩ (.enter i) → p.enter i s = some (s', items) → I ⟨s', items ++ stack⟩

variable {p}

/-- Everything one step can be. -/
theorem step_cases {c c' : Config State Code Ext} {m : Move Entry}
    (h : p.step c m = some c') :
    (∃ k rest s' items, m = .run ∧ c.stack = .code k :: rest ∧
      p.exec k c.state = some (s', items) ∧ c' = ⟨s', items ++ rest⟩) ∨
    (∃ e rest, m = .ret ∧ c.stack = .ext e :: rest ∧ c' = ⟨c.state, rest⟩) ∨
    (∃ i s' items, m = .enter i ∧ EnvControls c.stack ∧
      p.enter i c.state = some (s', items) ∧ c' = ⟨s', items ++ c.stack⟩) := by
  obtain ⟨s, stack⟩ := c
  cases m with
  | run =>
    cases stack with
    | nil => simp [step] at h
    | cons item rest =>
      cases item with
      | ext e => simp [step] at h
      | code k =>
        simp only [step, Option.map_eq_some_iff] at h
        obtain ⟨⟨s', items⟩, he, hc⟩ := h
        exact Or.inl ⟨k, rest, s', items, rfl, rfl, he, hc.symm⟩
  | ret =>
    cases stack with
    | nil => simp [step] at h
    | cons item rest =>
      cases item with
      | code k => simp [step] at h
      | ext e =>
        simp only [step, Option.some.injEq] at h
        exact Or.inr (Or.inl ⟨e, rest, rfl, rfl, h.symm⟩)
  | enter i =>
    have he : EnvControls stack ∧
        ∃ r, p.enter i s = some r ∧ (⟨r.1, r.2 ++ stack⟩ : Config State Code Ext) = c' := by
      cases stack with
      | nil => simpa [step, EnvControls] using h
      | cons item rest =>
        cases item with
        | code k => simp [step] at h
        | ext e => simpa [step, EnvControls] using h
    obtain ⟨hc, ⟨s', items⟩, hi, hr⟩ := he
    exact Or.inr (Or.inr ⟨i, s', items, rfl, hc, hi, hr.symm⟩)

theorem Preserves.step {G : Config State Code Ext → Move Entry → Prop}
    {I : Config State Code Ext → Prop} (hp : p.Preserves G I)
    {c c' : Config State Code Ext} {m : Move Entry} (hi : I c) (hg : G c m)
    (h : p.step c m = some c') : I c' := by
  obtain ⟨s, stack⟩ := c
  obtain ⟨k, rest, s', items, rfl, rfl, he, rfl⟩ | ⟨e, rest, rfl, rfl, rfl⟩ |
    ⟨i, s', items, rfl, hc, he, rfl⟩ := step_cases h
  · exact hp.exec hi hg he
  · exact hp.ret hi hg
  · exact hp.enter hc hi hg he

/-- The preserved predicate holds at the end of every run whose steps all meet `G`. -/
theorem Preserves.run {G : Config State Code Ext → Move Entry → Prop}
    {I : Config State Code Ext → Prop} (hp : p.Preserves G I) {ms : List (Move Entry)}
    {c c' : Config State Code Ext} (hi : I c) (ha : Along p.step G c ms)
    (h : Lib.run p.step c ms = some c') : I c' :=
  run_invariant (fun _ _ _ hI hG hs => hp.step hI hG hs) hi ha h

theorem Preserves.and {G : Config State Code Ext → Move Entry → Prop}
    {I J : Config State Code Ext → Prop} (hI : p.Preserves G I) (hJ : p.Preserves G J) :
    p.Preserves G fun c => I c ∧ J c where
  exec hi hg h := ⟨hI.exec hi.1 hg h, hJ.exec hi.2 hg h⟩
  ret hi hg := ⟨hI.ret hi.1 hg, hJ.ret hi.2 hg⟩
  enter hc hi hg h := ⟨hI.enter hc hi.1 hg h, hJ.enter hc hi.2 hg h⟩

/-! ### Code that comes to an end -/

section

variable {w : Item Code Ext → Nat}

theorem total_step (hw : ∀ k s s' items, p.exec k s = some (s', items) → total w items < w (.code k))
    {c c' : Config State Code Ext} (h : p.step c .run = some c') : total w c'.stack < total w c.stack := by
  obtain ⟨k, rest, s', items, -, hst, he, rfl⟩ | ⟨_, _, hm, -⟩ | ⟨_, _, _, hm, -⟩ := step_cases h
  · have := hw k c.state s' items he
    rw [hst, total_cons, total_append]
    omega
  · cases hm
  · cases hm

/-- Code that weighs more than the items it leaves does not run on for ever. -/
theorem run_replicate (hw : ∀ k s s' items, p.exec k s = some (s', items) → total w items < w (.code k)) {n : Nat} :
    ∀ {c : Config State Code Ext}, total w c.stack ≤ n → Lib.run p.step c (List.replicate (n + 1) .run) = none := by
  induction n with
  | zero =>
    intro c hc
    refine Option.bind_eq_none_iff.mpr fun c' h => ?_
    have := total_step hw h
    omega
  | succ n ih =>
    intro c hc
    refine Option.bind_eq_none_iff.mpr fun c' h => ih ?_
    have := total_step hw h
    omega

end

end Program

end PxpRpc.Lib.Callback
