import Mathlib.Tactic

namespace Table

variable {R K : Type} [DecidableEq K] {key : R → K} {rows news : List R} {row : R}

-- `INSERT ... ON CONFLICT (key) DO NOTHING`.
def insert (key : R → K) (rows : List R) (row : R) : List R :=
  if key row ∈ rows.map key then rows else rows ++ [row]

def insertAll (key : R → K) (rows news : List R) : List R := news.foldl (insert key) rows

-- `UPDATE ... WHERE`.
def update (cond : R → Bool) (set : R → R) (rows : List R) : List R :=
  rows.map fun row => if cond row then set row else row

-- `SELECT ... ORDER BY key ASC`.
def orderBy (key : R → ℕ) (rows : List R) : List R :=
  rows.insertionSort fun a b => key a ≤ key b

theorem insert_of_mem (h : key row ∈ rows.map key) : insert key rows row = rows :=
  if_pos h

theorem insert_of_not_mem (h : key row ∉ rows.map key) : insert key rows row = rows ++ [row] :=
  if_neg h

@[simp] theorem insertAll_nil : insertAll key rows [] = rows := rfl

@[simp] theorem insertAll_cons :
    insertAll key rows (row :: news) = insertAll key (insert key rows row) news := rfl

theorem insertAll_append (more : List R) :
    insertAll key rows (news ++ more) = insertAll key (insertAll key rows news) more :=
  List.foldl_append

theorem nodup_insert (hrows : (rows.map key).Nodup) : ((insert key rows row).map key).Nodup := by
  unfold insert
  split
  · exact hrows
  · next h =>
    rw [List.map_append, List.nodup_append_comm]
    exact List.nodup_cons.mpr ⟨h, hrows⟩

theorem length_insert_le : (insert key rows row).length ≤ rows.length + 1 := by
  unfold insert
  split <;> simp

theorem length_insertAll_le : (insertAll key rows news).length ≤ rows.length + news.length := by
  induction news generalizing rows with
  | nil => simp
  | cons row news ih =>
    have hrow : (insert key rows row).length ≤ rows.length + 1 := length_insert_le
    have hnews : (insertAll key (insert key rows row) news).length ≤
        (insert key rows row).length + news.length := ih
    simp only [insertAll_cons, List.length_cons]
    omega

-- Every row lands exactly when no key repeats.
theorem insertAll_eq_append_iff (hrows : (rows.map key).Nodup) :
    insertAll key rows news = rows ++ news ↔ ((rows ++ news).map key).Nodup := by
  induction news generalizing rows with
  | nil => simpa using hrows
  | cons row news ih =>
    by_cases hmem : key row ∈ rows.map key
    · refine iff_of_false (fun h => ?_) fun h => ?_
      · have hlen := congrArg List.length h
        have hle : (insertAll key rows news).length ≤ rows.length + news.length := length_insertAll_le
        rw [insertAll_cons, insert_of_mem hmem] at hlen
        simp only [List.length_append, List.length_cons] at hlen
        omega
      · rw [List.map_append, List.nodup_append] at h
        exact h.2.2 _ hmem (key row) (by simp) rfl
    · have hrow : ((rows ++ [row]).map key).Nodup := by
        rw [← insert_of_not_mem hmem]
        exact nodup_insert hrows
      rw [insertAll_cons, insert_of_not_mem hmem, List.append_cons rows row news]
      exact ih hrow

theorem map_update {A : Type} {f : R → A} {cond : R → Bool} {set : R → R} (hset : ∀ row, f (set row) = f row) :
    (update cond set rows).map f = rows.map f := by
  rw [update, List.map_map]
  refine List.map_congr_left fun row _ => ?_
  by_cases hcond : cond row <;> simp [hcond, hset]

theorem mem_update {cond : R → Bool} {set : R → R} (h : row ∈ update cond set rows) :
    ∃ old ∈ rows, (cond old = true ∧ row = set old) ∨ (cond old = false ∧ row = old) := by
  obtain ⟨old, hold, rfl⟩ := List.mem_map.mp h
  refine ⟨old, hold, ?_⟩
  cases hcond : cond old with
  | true => exact .inl ⟨rfl, if_pos rfl⟩
  | false => exact .inr ⟨rfl, if_neg Bool.false_ne_true⟩

-- Each row writes its own place of a list.
def scatter {A : Type} (place : R → ℕ) (value : R → A) (rows : List R) (xs : List A) : List A :=
  rows.foldl (fun xs row => xs.set (place row) (value row)) xs

section Scatter

variable {A : Type} {place : R → ℕ} {value : R → A} {xs : List A} {i : ℕ}

@[simp] theorem length_scatter : (scatter place value rows xs).length = xs.length := by
  induction rows generalizing xs with
  | nil => rfl
  | cons row rows ih => exact ih.trans List.length_set

theorem scatter_of_not_mem (h : i ∉ rows.map place) :
    (scatter place value rows xs)[i]? = xs[i]? := by
  induction rows generalizing xs with
  | nil => rfl
  | cons row rows ih =>
    rw [List.map_cons, List.mem_cons, not_or] at h
    exact (ih h.2).trans (List.getElem?_set_ne (Ne.symm h.1))

theorem scatter_of_mem (hplaces : (rows.map place).Nodup) (hrow : row ∈ rows)
    (hlt : place row < xs.length) : (scatter place value rows xs)[place row]? = some (value row) := by
  induction rows generalizing xs with
  | nil => simp at hrow
  | cons first rows ih =>
    rw [List.map_cons, List.nodup_cons] at hplaces
    rcases List.mem_cons.mp hrow with rfl | hrow
    · exact (scatter_of_not_mem hplaces.1).trans (List.getElem?_set_self hlt)
    · exact ih hplaces.2 hrow (by rwa [List.length_set])

theorem scatter_eq {ys : List A} (hplaces : (rows.map place).Nodup) (hlen : ys.length = xs.length)
    (hrows : ∀ row ∈ rows, ys[place row]? = some (value row))
    (hrest : ∀ i, i ∉ rows.map place → ys[i]? = xs[i]?) : scatter place value rows xs = ys := by
  refine List.ext_getElem? fun i => ?_
  by_cases hi : i ∈ rows.map place
  · obtain ⟨row, hrow, rfl⟩ := List.mem_map.mp hi
    have hlt : place row < xs.length := hlen ▸ (List.getElem?_eq_some_iff.mp (hrows row hrow)).1
    rw [scatter_of_mem hplaces hrow hlt, hrows row hrow]
  · rw [scatter_of_not_mem hi, hrest i hi]

end Scatter

theorem orderBy_of_increasing {key : R → ℕ} (h : rows.Pairwise fun a b => key a < key b) :
    orderBy key rows = rows :=
  List.Pairwise.insertionSort_eq (h.imp fun hlt => hlt.le)

end Table
