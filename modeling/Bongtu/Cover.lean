import Mathlib.Tactic

namespace Cover

variable {M : Type*} [AddCommMonoid M] [LinearOrder M]

-- How many of the next items it takes from the sum `s` to reach `n`.
def count (n : M) : M → List M → ℕ
  | _, [] => 0
  | s, x :: xs => if n ≤ s then 0 else count n (s + x) xs + 1

-- No choice of as many items is worth more than the largest ones.
theorem sum_le_take [IsOrderedAddMonoid M] {xs ys : List M} (hsorted : xs.Pairwise (· ≥ ·)) (h : ys.Sublist xs) :
    ys.sum ≤ (xs.take ys.length).sum := by
  induction h with
  | slnil => rfl
  | @cons ys xs x hsub ih =>
    rw [List.pairwise_cons] at hsorted
    cases ys with
    | nil => simp
    | cons y ys =>
      have hlt : ys.length < xs.length := hsub.length_le
      have hshift := ih hsorted.2
      rw [List.length_cons, List.take_succ_cons, List.sum_cons]
      rw [List.length_cons, List.take_succ_eq_append_getElem hlt, List.sum_append, List.sum_singleton,
        add_comm] at hshift
      exact hshift.trans (add_le_add_left (hsorted.1 _ (List.getElem_mem hlt)) _)
  | @cons_cons ys xs x hsub ih =>
    rw [List.pairwise_cons] at hsorted
    rw [List.length_cons, List.take_succ_cons, List.sum_cons, List.sum_cons]
    exact add_le_add_right (ih hsorted.2) x

-- `j` foldings of at most `width` items each into their sum.
inductive Folds (width : ℕ) : ℕ → Multiset M → Multiset M → Prop
  | refl (s : Multiset M) : Folds width 0 s s
  | fold {j : ℕ} {s t u : Multiset M} (hle : t ≤ s) (hcard : t.card ≤ width)
      (hrest : Folds width j (s - t + {t.sum}) u) : Folds width (j + 1) s u

-- What is left after the foldings stands for as many of the first items, and `width - 1` more for each.
theorem Folds.support {width j : ℕ} (hwidth : 0 < width) {s u : Multiset M} (h : Folds width j s u)
    {t : Multiset M} (ht : t ≤ u) : ∃ t₀ ≤ s, t₀.card ≤ t.card + (width - 1) * j ∧ t₀.sum = t.sum := by
  induction h with
  | refl s => exact ⟨t, ht, by simp, rfl⟩
  | @fold j s f u hle hcard hrest ih =>
    obtain ⟨t₀, ht₀, hcount, hsum⟩ := ih ht
    by_cases hmem : f.sum ∈ t₀
    · obtain ⟨r, rfl⟩ := Multiset.exists_cons_of_mem hmem
      have hr : r ≤ s - f := by
        rw [add_comm, Multiset.singleton_add] at ht₀
        exact (Multiset.cons_le_cons_iff _).mp ht₀
      refine ⟨r + f, ?_, ?_, ?_⟩
      · calc r + f ≤ (s - f) + f := by gcongr
          _ = s := Multiset.sub_add_cancel hle
      · rw [Multiset.card_cons] at hcount
        rw [Multiset.card_add, Nat.mul_succ]
        omega
      · rw [Multiset.sum_add, ← hsum, Multiset.sum_cons, add_comm]
    · refine ⟨t₀, ?_, ?_, hsum⟩
      · have hrest' : t₀ ≤ s - f := by
          rw [add_comm, Multiset.singleton_add] at ht₀
          exact (Multiset.le_cons_of_notMem hmem).mp ht₀
        exact hrest'.trans (Multiset.sub_le_self s f)
      · rw [Nat.mul_succ]
        omega

section Canonical

variable [CanonicallyOrderedAdd M]

theorem count_le_iff {n s : M} {xs : List M} {k : ℕ} (h : n ≤ s + xs.sum) :
    count n s xs ≤ k ↔ n ≤ s + (xs.take k).sum := by
  induction xs generalizing s k with
  | nil => simpa [count] using h
  | cons x xs ih =>
    rw [count]
    split
    · next hs => exact iff_of_true (Nat.zero_le k) (hs.trans le_self_add)
    · next hs =>
      cases k with
      | zero => simpa using hs
      | succ k =>
        rw [Nat.succ_le_succ_iff, ih (by rwa [add_assoc, ← List.sum_cons]), List.take_succ_cons,
          List.sum_cons, add_assoc]

theorem count_le_length {n s : M} {xs : List M} (h : n ≤ s + xs.sum) : count n s xs ≤ xs.length := by
  rwa [count_le_iff h, List.take_length]

-- Folding the largest items leaves the cover shorter by all of them but one.
theorem count_fold {n : M} (hn : 0 < n) {xs : List M} {k : ℕ} (hcovered : n ≤ xs.sum) :
    count n 0 ((xs.take k).sum :: xs.drop k) = max 1 (count n 0 xs + 1 - k) := by
  have htotal : n ≤ 0 + ((xs.take k).sum :: xs.drop k).sum := by
    rwa [List.sum_cons, ← List.sum_append, List.take_append_drop, zero_add]
  have hbefore : n ≤ 0 + xs.sum := by rwa [zero_add]
  refine eq_of_forall_ge_iff fun i => ?_
  rw [count_le_iff htotal, zero_add, max_le_iff]
  cases i with
  | zero => simpa using hn.ne'
  | succ i =>
    have htake : ((xs.take k).sum :: xs.drop k).take (i + 1) = (xs.take k).sum :: (xs.drop k).take i := rfl
    rw [htake, List.sum_cons, ← List.sum_append, ← List.take_add, ← zero_add (List.sum _), ← count_le_iff hbefore]
    omega

variable [IsOrderedAddMonoid M]

theorem count_le_card {n : M} {xs : List M} (hsorted : xs.Pairwise (· ≥ ·)) {t : Multiset M}
    (ht : t ≤ ↑xs) (hcovers : n ≤ t.sum) : count n 0 xs ≤ t.card := by
  obtain ⟨ys, rfl⟩ : ∃ ys : List M, (ys : Multiset M) = t := Quot.exists_rep t
  obtain ⟨zs, hperm, hsub⟩ := Multiset.coe_le.mp ht
  rw [Multiset.sum_coe, ← hperm.sum_eq] at hcovers
  have htake := hcovers.trans (sum_le_take hsorted hsub)
  have htotal : n ≤ 0 + xs.sum := by
    rw [zero_add]
    exact hcovers.trans (hsub.sum_le_sum fun _ _ => zero_le)
  rw [count_le_iff htotal, Multiset.coe_card, ← hperm.length_eq, zero_add]
  exact htake

-- Foldings that leave a cover of `n` with at most `arity` items are no fewer than the excess over `arity` asks.
theorem count_le_of_folds {width j arity : ℕ} (hwidth : 0 < width) {n : M} {xs : List M}
    (hsorted : xs.Pairwise (· ≥ ·)) {u t : Multiset M} (h : Folds width j ↑xs u) (ht : t ≤ u)
    (harity : t.card ≤ arity) (hcovers : n ≤ t.sum) : count n 0 xs ≤ arity + (width - 1) * j := by
  obtain ⟨t₀, ht₀, hcard, hsum⟩ := h.support hwidth ht
  have hcount := count_le_card hsorted ht₀ (hsum ▸ hcovers)
  omega

end Canonical

end Cover
