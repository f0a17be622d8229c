import Mathlib

/-!
# Rows and records

A row has its values in the order of the columns, and a record has them by name.
-/
namespace PxpRpc.Lib

variable {α β : Type}

theorem mapM_eq_some_iff {f : α → Option β} {xs : List α} : ∀ {ys : List β},
    xs.mapM f = some ys ↔ List.Forall₂ (fun x y => f x = some y) xs ys := by
  induction xs with
  | nil =>
    intro ys
    rw [List.mapM_nil, Option.pure_def, Option.some.injEq, List.forall₂_nil_left_iff]
    exact eq_comm
  | cons x xs ih =>
    intro ys
    rw [List.mapM_cons, List.forall₂_cons_left_iff]
    cases hx : f x with
    | none => simp
    | some y =>
      cases hxs : xs.mapM f with
      | none => simp [← ih, hxs]
      | some zs => simp [← ih, hxs, eq_comm]

theorem mapM_eq_some_filterMap {f : α → Option β} {xs : List α} (h : ∀ x ∈ xs, (f x).isSome) :
    xs.mapM f = some (xs.filterMap f) := by
  induction xs with
  | nil => rfl
  | cons x xs ih =>
    obtain ⟨hx, hxs⟩ := List.forall_mem_cons.mp h
    obtain ⟨y, hy⟩ := Option.isSome_iff_exists.mp hx
    rw [List.mapM_cons, hy, ih hxs, List.filterMap_cons_some hy]
    rfl

theorem forall₂_iff_getElem? {R : α → β → Prop} {xs : List α} {ys : List β} : List.Forall₂ R xs ys ↔
    xs.length = ys.length ∧ ∀ (i : Nat) x y, xs[i]? = some x → ys[i]? = some y → R x y := by
  rw [List.forall₂_iff_get]
  refine and_congr_right fun hlen => ⟨fun h i x y hx hy => ?_, fun h i hi hi' => ?_⟩
  · obtain ⟨hi, rfl⟩ := List.getElem?_eq_some_iff.mp hx
    obtain ⟨hi', rfl⟩ := List.getElem?_eq_some_iff.mp hy
    exact h i hi hi'
  · exact h i _ _ (List.getElem?_eq_getElem hi) (List.getElem?_eq_getElem hi')

/-- A relation that is an equation for the elements of two lists is one for the lists. -/
theorem forall₂_iff_eq_map {R : α → β → Prop} {xs : List α} {ys : List β} {f : α → β}
    (h : ∀ x ∈ xs, ∀ y ∈ ys, R x y ↔ y = f x) : List.Forall₂ R xs ys ↔ ys = xs.map f := by
  constructor
  · intro hr
    refine List.ext_getElem? fun i => ?_
    obtain ⟨hlen, hr⟩ := forall₂_iff_getElem?.mp hr
    rcases lt_or_ge i xs.length with hlt | hge
    · have hx := List.getElem?_eq_getElem hlt
      have hy := List.getElem?_eq_getElem (hlen ▸ hlt : i < ys.length)
      rw [List.getElem?_map, hx, hy, (h _ (List.getElem_mem _) _ (List.getElem_mem _)).mp (hr i _ _ hx hy)]
      rfl
    · rw [List.getElem?_eq_none (hlen ▸ hge), List.getElem?_eq_none (by rwa [List.length_map])]
  · rintro rfl
    rw [List.forall₂_map_right_iff]
    exact List.forall₂_same.mpr fun x hx => (h x hx (f x) (List.mem_map_of_mem hx)).mpr rfl

theorem exists_forall₂ {R : α → β → Prop} {xs : List α} (h : ∀ x ∈ xs, ∃ y, R x y) : ∃ ys, List.Forall₂ R xs ys := by
  induction xs with
  | nil => exact ⟨[], List.Forall₂.nil⟩
  | cons x xs ih =>
    obtain ⟨hx, hxs⟩ := List.forall_mem_cons.mp h
    obtain ⟨y, hy⟩ := hx
    obtain ⟨ys, hys⟩ := ih hxs
    exact ⟨y :: ys, List.Forall₂.cons hy hys⟩

theorem exists_of_mem_right {R : α → β → Prop} {xs : List α} {ys : List β} (h : List.Forall₂ R xs ys) :
    ∀ y ∈ ys, ∃ x ∈ xs, R x y := by
  induction h with
  | nil => exact fun y hy => absurd hy List.not_mem_nil
  | cons hxy _ ih =>
    refine List.forall_mem_cons.mpr ⟨⟨_, List.mem_cons_self, hxy⟩, fun y hy => ?_⟩
    obtain ⟨x, hx, hr⟩ := ih y hy
    exact ⟨x, List.mem_cons_of_mem _ hx, hr⟩

/-- What is kept of a list stands in front if it reaches no further than there are such elements. -/
theorem filter_isPrefix {p : α → Bool} {xs : List α}
    (h : ∀ (i : Nat) x, xs[i]? = some x → p x → i < (xs.filter p).length) : xs.filter p <+: xs := by
  obtain ⟨m, hm⟩ : ∃ m, m = (xs.filter p).length := ⟨_, rfl⟩
  have hrest : (xs.drop m).filter p = [] := by
    rw [List.filter_eq_nil_iff]
    intro x hx hp
    obtain ⟨i, hi⟩ := List.getElem?_of_mem hx
    rw [List.getElem?_drop] at hi
    have := h _ x hi hp
    omega
  have hfront : xs.filter p = (xs.take m).filter p := by
    conv_lhs => rw [← List.take_append_drop m xs, List.filter_append, hrest, List.append_nil]
  have hall : (xs.take m).filter p = xs.take m := by
    refine (List.filter_sublist).eq_of_length (le_antisymm (List.length_filter_le _ _) ?_)
    rw [← hfront, ← hm]
    exact List.length_take_le m xs
  rw [hfront, hall]
  exact List.take_prefix m xs

/-- What stands behind has not been kept. -/
theorem exists_append_of_filter_isPrefix {p : α → Bool} {xs : List α} (h : xs.filter p <+: xs) :
    ∃ rest, xs = xs.filter p ++ rest ∧ ∀ x ∈ rest, p x = false := by
  obtain ⟨rest, hrest⟩ := h
  refine ⟨rest, hrest.symm, fun x hx => ?_⟩
  have hnil : rest.filter p = [] := by
    have hlen := congrArg List.length (congrArg (List.filter p) hrest)
    rw [List.filter_append, List.filter_filter, List.length_append] at hlen
    simpa using hlen
  exact Bool.eq_false_iff.mpr (List.filter_eq_nil_iff.mp hnil x hx)

/-! ### Records -/

/-- The entries are in the order in which the keys are listed. -/
abbrev Record (κ α : Type) := AList fun _ : κ => α

variable {κ : Type} [DecidableEq κ]

/-- The values that a record has by these names. -/
def rowOf (names : List κ) (record : Record κ α) : Option (List α) := names.mapM fun name => record.lookup name

/-- The entries are put into an empty record one after another. -/
def ofEntries (entries : List (κ × α)) : Record κ α :=
  entries.foldl (fun record (key, value) => record.insert key value) ∅

theorem lookup_foldl_insert (entries : List (κ × α)) : ∀ (record : Record κ α) (key : κ),
    (key ∉ entries.map Prod.fst →
      (entries.foldl (fun record (key, value) => record.insert key value) record).lookup key = record.lookup key) ∧
    ∀ value, (entries.map Prod.fst).Nodup → (key, value) ∈ entries →
      (entries.foldl (fun record (key, value) => record.insert key value) record).lookup key = some value := by
  induction entries with
  | nil => exact fun record key => ⟨fun _ => rfl, fun _ _ h => absurd h List.not_mem_nil⟩
  | cons entry entries ih =>
    intro record key
    obtain ⟨hskip, hput⟩ := ih (record.insert entry.1 entry.2) key
    rw [List.foldl_cons, List.map_cons]
    refine ⟨fun h => ?_, fun value hnd h => ?_⟩
    · obtain ⟨hne, hrest⟩ := not_or.mp (List.mem_cons.not.mp h)
      rw [hskip hrest, AList.lookup_insert_ne hne]
    · obtain ⟨hfirst, hnd⟩ := List.nodup_cons.mp hnd
      rcases List.mem_cons.mp h with rfl | h
      · rw [hskip hfirst, AList.lookup_insert]
      · exact hput value hnd h

theorem mem_ofEntries {entries : List (κ × α)} {key : κ} (h : key ∈ ofEntries entries) :
    key ∈ entries.map Prod.fst := by
  by_contra hk
  rw [← AList.lookup_isSome, ofEntries, (lookup_foldl_insert entries ∅ key).1 hk, AList.lookup_empty] at h
  cases h

variable {γ : Type} {names : List κ} {record : Record κ α} {row : List α} {row' : List γ} {f : α → γ}

/-- A record that is made of a row has the values of another one if and only if the row has. -/
theorem ofEntries_zip_iff (hnames : names.Nodup) (hkeys : ∀ key, key ∈ record ↔ key ∈ names)
    (hrow : rowOf names record = some row) (hlen : row'.length = names.length) :
    (∀ key, (ofEntries (names.zip row')).lookup key = (record.lookup key).map f) ↔ row' = row.map f := by
  obtain ⟨hlen', hlookup⟩ := forall₂_iff_getElem?.mp (mapM_eq_some_iff.mp hrow)
  have hfst : (names.zip row').map Prod.fst = names := List.map_fst_zip hlen.ge
  have hput : ∀ (i : Nat) name value, names[i]? = some name → row'[i]? = some value →
      (ofEntries (names.zip row')).lookup name = some value := fun i name value hname hvalue =>
    (lookup_foldl_insert _ ∅ name).2 value (by rwa [hfst])
      (List.mem_of_getElem? (List.getElem?_zip_eq_some.mpr ⟨hname, hvalue⟩))
  constructor
  · intro hsame
    refine List.ext_getElem? fun i => ?_
    rcases lt_or_ge i names.length with hlt | hge
    · have hname := List.getElem?_eq_getElem hlt
      have hvalue := List.getElem?_eq_getElem (hlen ▸ hlt : i < row'.length)
      have hold := List.getElem?_eq_getElem (hlen' ▸ hlt : i < row.length)
      rw [List.getElem?_map, hvalue, hold, ← hput i _ _ hname hvalue, hsame, hlookup i _ _ hname hold]
    · rw [List.getElem?_eq_none (hlen ▸ hge), List.getElem?_eq_none (by rw [List.length_map]; exact hlen' ▸ hge)]
  · rintro rfl key
    by_cases hkey : key ∈ names
    · obtain ⟨i, hi⟩ := List.getElem?_of_mem hkey
      obtain ⟨value, hold⟩ : ∃ value, row[i]? = some value :=
        ⟨_, List.getElem?_eq_getElem (hlen' ▸ (List.getElem?_eq_some_iff.mp hi).1)⟩
      rw [hput i key (f value) hi (by rw [List.getElem?_map, hold]; rfl), hlookup i key _ hi hold]
      rfl
    · have hnot : key ∉ ofEntries (names.zip (row.map f)) := fun h => hkey (hfst ▸ mem_ofEntries h)
      rw [AList.lookup_eq_none.mpr hnot, AList.lookup_eq_none.mpr ((hkeys key).not.mpr hkey)]
      rfl

/-- A record with the keys of another one has been put by these names. -/
theorem subset_of_lookup_ofEntries {entries : List (κ × γ)}
    (h : ∀ key, (ofEntries entries).lookup key = (record.lookup key).map f) :
    ∀ key ∈ record, key ∈ entries.map Prod.fst := by
  intro key hkey
  refine mem_ofEntries (AList.lookup_isSome.mp ?_)
  rw [h key, Option.isSome_map]
  exact AList.lookup_isSome.mpr hkey

omit [DecidableEq κ] in
/-- Names that become no larger are still the same names only if each is as large as before. -/
theorem size_eq_of_subset_map {size : κ → Nat} {g : κ → κ} (hnames : names.Nodup) (hsub : names ⊆ names.map g)
    (hle : ∀ name ∈ names, size (g name) ≤ size name) : ∀ name ∈ names, size (g name) = size name := by
  have hperm : names.Perm (names.map g) := (List.subperm_of_subset hnames hsub).perm_of_length_le (by simp)
  have hsum : ((names.map g).map size).sum = (names.map size).sum := ((hperm.map size).sum_eq).symm
  rw [List.map_map] at hsum
  clear hnames hsub hperm
  induction names with
  | nil => exact fun name h => absurd h List.not_mem_nil
  | cons name names ih =>
    obtain ⟨hname, hnames⟩ := List.forall_mem_cons.mp hle
    have hrest := List.sum_le_sum (f := size ∘ g) (g := size) hnames
    rw [List.map_cons, List.map_cons, List.sum_cons, List.sum_cons, Function.comp_apply] at hsum
    exact List.forall_mem_cons.mpr ⟨by omega, ih hnames (by omega)⟩

end PxpRpc.Lib
