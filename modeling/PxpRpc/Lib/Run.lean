import Mathlib

/-!
# Runs of a partial step function

`run` folds a step function over a list of inputs, `Along` says that every step
of a run is taken where a condition on the state before it and on its input
holds. A condition that is exact while an invariant holds, and that preserves
the invariant, is exact for whole runs.
-/
namespace PxpRpc.Lib

variable {σ ι : Type} (step : σ → ι → Option σ)

def run (s : σ) : List ι → Option σ
  | [] => some s
  | i :: is => (step s i).bind fun s' => run s' is

def Along (G : σ → ι → Prop) : σ → List ι → Prop
  | _, [] => True
  | s, i :: is => G s i ∧ ∀ s', step s i = some s' → Along G s' is

variable {step} {s s' : σ} {i : ι} {is is' : List ι} {G G' L I : σ → ι → Prop}

@[simp] theorem run_nil : run step s [] = some s := rfl

theorem run_cons : run step s (i :: is) = (step s i).bind fun s' => run step s' is := rfl

theorem run_cons_eq_some {t : σ} :
    run step s (i :: is) = some t ↔ ∃ s', step s i = some s' ∧ run step s' is = some t :=
  Option.bind_eq_some_iff

theorem run_append : run step s (is ++ is') = (run step s is).bind fun s' => run step s' is' := by
  induction is generalizing s with
  | nil => rfl
  | cons i is ih =>
    cases h : step s i with
    | none => simp [run, h]
    | some s₁ => simp [run, h, ih]

/-- A decidable property of what a run reaches. -/
theorem exists_run {P : σ → Prop} [DecidablePred P] (h : (run step s is).any (fun s => decide (P s))) :
    ∃ s', run step s is = some s' ∧ P s' := by
  obtain ⟨s', hs, hp⟩ := (Option.any_eq_true _ _).mp h
  exact ⟨s', hs, of_decide_eq_true hp⟩

/-- What a run reaches, the conditions along it included, can be computed. -/
instance decidableAlong [∀ s i, Decidable (G s i)] : ∀ (s : σ) (is : List ι), Decidable (Along step G s is)
  | _, [] => isTrue trivial
  | s, i :: is =>
    match h : step s i with
    | none => decidable_of_iff (G s i) (by simp [Along, h])
    | some s' =>
      have := decidableAlong s' is
      decidable_of_iff (G s i ∧ Along step G s' is) (by simp [Along, h])

/-- A condition on the inputs alone. -/
theorem Along.of_forall {G : ι → Prop} : ∀ {s : σ}, (∀ i ∈ is, G i) → Along step (fun _ i => G i) s is := by
  induction is with
  | nil => exact fun _ => trivial
  | cons i is ih =>
    exact fun h => ⟨h i List.mem_cons_self, fun s' _ => ih fun j hj => h j (List.mem_cons_of_mem _ hj)⟩

theorem Along.mono (hG : ∀ s i, G s i → G' s i) : ∀ {s : σ}, Along step G s is → Along step G' s is := by
  induction is with
  | nil => exact fun _ => trivial
  | cons i is ih => exact fun h => ⟨hG _ _ h.1, fun s' h' => ih (h.2 s' h')⟩

theorem Along.and : ∀ {s : σ}, Along step G s is → Along step G' s is →
    Along step (fun s i => G s i ∧ G' s i) s is := by
  induction is with
  | nil => exact fun _ _ => trivial
  | cons i is ih => exact fun h h' => ⟨⟨h.1, h'.1⟩, fun s' hs => ih (h.2 s' hs) (h'.2 s' hs)⟩

theorem Along.append (h : Along step G s (is ++ is')) (hr : run step s is = some s') :
    Along step G s is ∧ Along step G s' is' := by
  induction is generalizing s with
  | nil =>
    obtain rfl := Option.some.inj hr
    exact ⟨trivial, h⟩
  | cons i is ih =>
    obtain ⟨s₁, h₁, h₂⟩ := run_cons_eq_some.mp hr
    obtain ⟨his, his'⟩ := ih (h.2 s₁ h₁) h₂
    refine ⟨⟨h.1, fun s₂ h₂' => ?_⟩, his'⟩
    obtain rfl := Option.some.inj (h₁.symm.trans h₂')
    exact his

/-- An invariant that every step meeting `G` preserves holds at the end of every
run whose steps all meet `G`. -/
theorem run_invariant {J : σ → Prop}
    (hstep : ∀ s i s', J s → G s i → step s i = some s' → J s') :
    ∀ {s : σ}, J s → Along step G s is → run step s is = some s' → J s' := by
  induction is with
  | nil =>
    intro s hJ _ h
    obtain rfl := Option.some.inj h
    exact hJ
  | cons i is ih =>
    intro s hJ ha h
    obtain ⟨s₁, h₁, h₂⟩ := run_cons_eq_some.mp h
    exact ih (hstep s i s₁ hJ ha.1 h₁) (ha.2 s₁ h₁) h₂

theorem along_cons_iff (h : step s i = some s') : Along step G s (i :: is) ↔ G s i ∧ Along step G s' is := by
  refine and_congr_right fun _ => ⟨fun ha => ha s' h, fun ha s₁ h₁ => ?_⟩
  obtain rfl := Option.some.inj (h.symm.trans h₁)
  exact ha

theorem along_append_iff (h : run step s is = some s') :
    Along step G s (is ++ is') ↔ Along step G s is ∧ Along step G s' is' := by
  induction is generalizing s with
  | nil =>
    obtain rfl := Option.some.inj h
    exact (and_iff_right trivial).symm
  | cons i is ih =>
    obtain ⟨s₁, h₁, h₂⟩ := run_cons_eq_some.mp h
    rw [List.cons_append, along_cons_iff h₁, along_cons_iff h₁, ih h₂, and_assoc]

/-- A property that a step keeps exactly where `G` holds is kept by a run exactly where `G`
holds all along. -/
theorem run_iff {J P : σ → Prop} (hJ : ∀ s i s', J s → step s i = some s' → J s')
    (hP : ∀ s i s', J s → step s i = some s' → (P s' ↔ P s ∧ G s i)) :
    ∀ {s : σ}, J s → run step s is = some s' → (P s' ↔ P s ∧ Along step G s is) := by
  induction is with
  | nil =>
    intro s _ h
    obtain rfl := Option.some.inj h
    exact (and_iff_left trivial).symm
  | cons i is ih =>
    intro s hs h
    obtain ⟨s₁, h₁, h₂⟩ := run_cons_eq_some.mp h
    rw [ih (hJ s i s₁ hs h₁) h₂, hP s i s₁ hs h₁, along_cons_iff h₁, and_assoc]

/-- While the invariant lasts, `G` and `G'` say the same of a legal step; `G'`
makes it last. Then they say the same of a legal run. -/
theorem along_iff {J : σ → Prop}
    (hstep : ∀ s i s', J s → L s i → G' s i → step s i = some s' → J s')
    (hG : ∀ s i, J s → L s i → (G s i ↔ G' s i)) :
    ∀ {s : σ}, J s → Along step L s is → (Along step G s is ↔ Along step G' s is) := by
  induction is with
  | nil => exact fun _ _ => Iff.rfl
  | cons i is ih =>
    intro s hJ hL
    refine and_congr (hG s i hJ hL.1) (Iff.rfl) |>.trans (and_congr_right fun hg => ?_)
    exact forall₂_congr fun s' h' => ih (hstep s i s' hJ hL.1 hg h') (hL.2 s' h')

end PxpRpc.Lib
