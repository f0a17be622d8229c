import Mathlib

/-!
# Columns

A table that is stored by columns. A row is read across them, and pushed by one
value for each column.
-/
namespace PxpRpc.Lib

abbrev Columns (α : Type) := List (List α)

namespace Columns

variable {α : Type}

/-- The values at `i` of all columns. -/
def row (cols : Columns α) (i : Nat) : Option (List α) := cols.mapM fun col => col[i]?

def push (cols : Columns α) (vs : List α) : Columns α := List.zipWith (fun col v => col ++ [v]) cols vs

/-- The first `k` rows; a column that is too short is left out. -/
def toRows (k : Nat) (cols : Columns α) : List (List α) :=
  (List.range k).map fun i => cols.filterMap fun col => col[i]?

/-- The columns hold the rows and nothing more. -/
structure Holds (cols : Columns α) (rows : List (List α)) : Prop where
  full : ∀ col ∈ cols, col.length = rows.length
  row : ∀ i (h : i < rows.length), cols.row i = some rows[i]

variable {cols cols' : Columns α} {col : List α} {vs vs' : List α} {rows : List (List α)} {i k : Nat}

/-! ### Reading across -/

theorem row_cons : row (col :: cols) i = (col[i]?).bind fun v => (cols.row i).map (v :: ·) := by
  rw [row, List.mapM_cons, Option.bind_eq_bind]
  refine congrArg _ (funext fun v => ?_)
  rw [Option.bind_eq_bind, row]
  cases List.mapM (fun col => col[i]?) cols <;> rfl

theorem length_row (h : cols.row i = some vs) : vs.length = cols.length := by
  induction cols generalizing vs with
  | nil =>
    obtain rfl := Option.some.inj h
    rfl
  | cons col cols ih =>
    rw [row_cons] at h
    obtain ⟨v, -, h⟩ := Option.bind_eq_some_iff.mp h
    obtain ⟨vs, hvs, rfl⟩ := Option.map_eq_some_iff.mp h
    rw [List.length_cons, ih hvs, List.length_cons]

theorem row_filterMap (h : ∀ col ∈ cols, i < col.length) : cols.row i = some (cols.filterMap fun col => col[i]?) := by
  induction cols with
  | nil => rfl
  | cons col cols ih =>
    have hlt : i < col.length := h col List.mem_cons_self
    have hcol : col[i]? = some col[i] := List.getElem?_eq_getElem hlt
    rw [row_cons, hcol, Option.bind_some, ih fun c hc => h c (List.mem_cons_of_mem _ hc),
      @List.filterMap_cons_some _ _ (fun col : List α => col[i]?) _ _ _ hcol]
    rfl

/-! ### Pushing a row -/

theorem map_length_push (hvs : vs.length = cols.length) :
    (cols.push vs).map List.length = cols.map fun col => col.length + 1 := by
  induction cols generalizing vs with
  | nil => rfl
  | cons col cols ih =>
    cases vs with
    | nil => cases hvs
    | cons v vs =>
      have htail := ih (Nat.succ.inj hvs)
      rw [push, List.zipWith_cons_cons, List.map_cons, List.map_cons, List.length_append, List.length_singleton]
      exact congrArg _ htail

theorem push_full_iff (hvs : vs.length = cols.length) :
    (∀ col ∈ cols.push vs, col.length = k + 1) ↔ ∀ col ∈ cols, col.length = k := by
  calc (∀ col ∈ cols.push vs, col.length = k + 1)
      ↔ ∀ n ∈ (cols.push vs).map List.length, n = k + 1 := by simp
    _ ↔ ∀ col ∈ cols, col.length = k := by rw [map_length_push hvs]; simp

theorem row_push_of_lt (hvs : vs.length = cols.length) (h : ∀ col ∈ cols, i < col.length) :
    (cols.push vs).row i = cols.row i := by
  induction cols generalizing vs with
  | nil => rfl
  | cons col cols ih =>
    cases vs with
    | nil => cases hvs
    | cons v vs =>
      have htail := ih (Nat.succ.inj hvs) fun c hc => h c (List.mem_cons_of_mem _ hc)
      rw [push, List.zipWith_cons_cons, row_cons, row_cons, List.getElem?_append_left (h col List.mem_cons_self)]
      exact congrArg _ (funext fun v => congrArg _ htail)

theorem row_push_last (hvs : vs.length = cols.length) (h : ∀ col ∈ cols, col.length = k) :
    (cols.push vs).row k = some vs := by
  induction cols generalizing vs with
  | nil =>
    obtain rfl := List.length_eq_zero_iff.mp hvs
    rfl
  | cons col cols ih =>
    cases vs with
    | nil => cases hvs
    | cons v vs =>
      have htail := ih (Nat.succ.inj hvs) fun c hc => h c (List.mem_cons_of_mem _ hc)
      have hlast : (col ++ [v])[k]? = some v := by rw [← h col List.mem_cons_self, List.getElem?_concat_length]
      rw [push, List.zipWith_cons_cons, row_cons, hlast, Option.bind_some]
      exact congrArg (Option.map _) htail

/-! ### What columns hold -/

theorem Holds.width (h : cols.Holds rows) : ∀ vs ∈ rows, vs.length = cols.length := by
  intro vs hvs
  obtain ⟨i, hi, rfl⟩ := List.getElem_of_mem hvs
  exact length_row (h.row i hi)

theorem holds_nil_iff : cols.Holds [] ↔ ∀ col ∈ cols, col = [] :=
  ⟨fun h col hc => List.length_eq_zero_iff.mp (h.full col hc),
    fun h => ⟨fun col hc => List.length_eq_zero_iff.mpr (h col hc), fun i hi => absurd hi (Nat.not_lt_zero i)⟩⟩

/-- Columns of one length hold their rows. -/
theorem holds_toRows (h : ∀ col ∈ cols, col.length = k) : cols.Holds (toRows k cols) where
  full col hc := by rw [h col hc, toRows, List.length_map, List.length_range]
  row i hi := by
    have hk : i < k := by simpa [toRows] using hi
    rw [row_filterMap fun col hc => (h col hc).symm ▸ hk]
    simp [toRows]

/-- There is one list of rows for each number of rows. -/
theorem Holds.toRows_eq (h : cols.Holds rows) : toRows rows.length cols = rows := by
  have hrows : cols.Holds (toRows rows.length cols) := holds_toRows h.full
  have hlen : (toRows rows.length cols).length = rows.length := by simp [toRows]
  refine List.ext_getElem hlen fun i hi hi' => ?_
  exact Option.some.inj ((hrows.row i hi).symm.trans (h.row i hi'))

/-- Values pushed for a row: they are that row, and the columns held the others. -/
theorem holds_push_iff (hvs : vs.length = cols.length) :
    (cols.push vs).Holds (rows ++ [vs']) ↔ cols.Holds rows ∧ vs' = vs := by
  have hlen : (rows ++ [vs']).length = rows.length + 1 := by rw [List.length_append, List.length_singleton]
  constructor
  · intro h
    have hfull : ∀ col ∈ cols, col.length = rows.length :=
      (push_full_iff hvs).mp fun col hc => (h.full col hc).trans hlen
    refine ⟨⟨hfull, fun i hi => ?_⟩, ?_⟩
    · have hrow := h.row i (by omega)
      rw [row_push_of_lt hvs fun col hc => (hfull col hc).symm ▸ hi, List.getElem_append_left hi] at hrow
      exact hrow
    · have hrow := h.row rows.length (by omega)
      rw [row_push_last hvs hfull, List.getElem_concat_length rfl] at hrow
      exact (Option.some.inj hrow).symm
  · rintro ⟨h, rfl⟩
    refine ⟨fun col hc => ?_, fun i hi => ?_⟩
    · rw [hlen]
      exact (push_full_iff hvs).mpr h.full col hc
    · rcases Nat.lt_succ_iff_lt_or_eq.mp (hlen ▸ hi) with hi' | rfl
      · rw [row_push_of_lt hvs fun col hc => (h.full col hc).symm ▸ hi', h.row i hi', List.getElem_append_left hi']
      · rw [row_push_last hvs h.full, List.getElem_concat_length rfl]

/-- Columns behind others hold rows that the others can only hold where there are none. -/
theorem holds_append_iff (h : cols'.Holds rows) :
    (cols ++ cols').Holds rows ↔ cols = [] ∨ rows = [] ∧ ∀ col ∈ cols, col = [] := by
  constructor
  · intro ha
    rcases List.eq_nil_or_concat rows with rfl | ⟨front, last, rfl⟩
    · exact .inr ⟨rfl, fun col hc => holds_nil_iff.mp ha col (List.mem_append_left _ hc)⟩
    · have hlast := h.width last (by simp)
      have hboth := ha.width last (by simp)
      rw [List.length_append] at hboth
      exact .inl (List.length_eq_zero_iff.mp (by omega))
  · rintro (rfl | ⟨rfl, hnil⟩)
    · exact h
    · exact holds_nil_iff.mpr fun col hc => (List.mem_append.mp hc).elim (hnil col) (holds_nil_iff.mp h col)

/-- Empty columns behind others. -/
theorem holds_grown_iff {d : Nat} :
    Holds (cols ++ List.replicate d []) rows ↔ cols.Holds rows ∧ (d = 0 ∨ rows = []) := by
  constructor
  · intro h
    rcases Nat.eq_zero_or_pos d with rfl | hd
    · rw [List.replicate_zero, List.append_nil] at h
      exact ⟨h, .inl rfl⟩
    · have hnil : rows.length = 0 :=
        (h.full [] (List.mem_append_right _ (List.mem_replicate.mpr ⟨by omega, rfl⟩))).symm
      obtain rfl := List.length_eq_zero_iff.mp hnil
      exact ⟨holds_nil_iff.mpr fun col hc => holds_nil_iff.mp h col (List.mem_append_left _ hc), .inr rfl⟩
  · rintro ⟨h, rfl | rfl⟩
    · rw [List.replicate_zero, List.append_nil]
      exact h
    · refine holds_nil_iff.mpr fun col hc => ?_
      rcases List.mem_append.mp hc with hc | hc
      · exact holds_nil_iff.mp h col hc
      · exact (List.mem_replicate.mp hc).2

end Columns

end PxpRpc.Lib
