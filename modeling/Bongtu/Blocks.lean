import Mathlib.Tactic

namespace Blocks

variable {α : Type*} {n : ℕ} {blocks : List (List α)} {block xs : List α} {i count : ℕ}

-- The first `count` runs of `n` elements, the last ones cut short where the list ends.
def split (n count : ℕ) (xs : List α) : List (List α) :=
  (List.range count).map fun i => (xs.drop (i * n)).take n

@[simp] theorem length_split : (split n count xs).length = count := by
  simp [split]

theorem length_flatten (hlen : ∀ b ∈ blocks, b.length = n) :
    blocks.flatten.length = blocks.length * n := by
  induction blocks with
  | nil => simp
  | cons b blocks ih =>
    rw [List.flatten_cons, List.length_append, ih fun b' hb' => hlen b' (by simp [hb']),
      hlen b (by simp), List.length_cons]
    ring

theorem flatten_block (hlen : ∀ b ∈ blocks, b.length = n) (hblock : blocks[i]? = some block)
    (rest : List α) :
    ((blocks.flatten ++ rest).drop (i * n)).take n = block := by
  induction blocks generalizing i with
  | nil => simp at hblock
  | cons b blocks ih =>
    have hb : b.length = n := hlen b (by simp)
    cases i with
    | zero =>
      obtain rfl : b = block := by simpa using hblock
      rw [Nat.zero_mul, List.drop_zero, List.flatten_cons, List.append_assoc, ← hb, List.take_left]
    | succ i =>
      have hdrop : (b ++ (blocks.flatten ++ rest)).drop ((i + 1) * n) =
          (blocks.flatten ++ rest).drop (i * n) := by
        rw [Nat.add_one_mul, Nat.add_comm, ← List.drop_drop, ← hb, List.drop_left]
      rw [List.flatten_cons, List.append_assoc, hdrop]
      exact ih (fun b' hb' => hlen b' (by simp [hb'])) (by simpa using hblock)

theorem getElem?_flatten (hlen : ∀ b ∈ blocks, b.length = n) (hblock : blocks[i]? = some block) {j : ℕ}
    (hj : j < n) (rest : List α) : (blocks.flatten ++ rest)[i * n + j]? = block[j]? := by
  rw [← flatten_block hlen hblock rest, List.getElem?_take_of_lt hj, List.getElem?_drop]

theorem split_flatten (hlen : ∀ b ∈ blocks, b.length = n) (rest : List α) :
    split n blocks.length (blocks.flatten ++ rest) = blocks := by
  apply List.ext_getElem
  · simp
  · intro i h1 h2
    simp only [split, List.getElem_map, List.getElem_range]
    exact flatten_block hlen (List.getElem?_eq_getElem h2) rest

theorem flatten_split : (split n count xs).flatten = xs.take (count * n) := by
  induction count with
  | zero => simp [split]
  | succ count ih =>
    have hsnoc : split n (count + 1) xs = split n count xs ++ [(xs.drop (count * n)).take n] := by
      simp [split, List.range_succ]
    rw [hsnoc, List.flatten_append, ih, List.flatten_singleton, Nat.add_one_mul, List.take_add]

end Blocks
