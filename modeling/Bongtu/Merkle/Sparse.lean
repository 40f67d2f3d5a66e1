import Mathlib.Tactic

namespace Merkle

variable {W : Type}

-- Values fixed at some (level, index) cells of a binary tree; a cell left open is a hash of its
-- children, and an open leaf is the empty value.
abbrev Cells (W : Type) := ℕ → ℕ → Option W

def blank : Cells W := fun _ _ => none

def assign (c : Cells W) (s m : ℕ) (v : W) : Cells W :=
  fun l i => if l = s ∧ i = m then some v else c l i

def zeroNode (h : W → W → W) (z : W) : ℕ → W
  | 0 => z
  | k + 1 => h (zeroNode h z k) (zeroNode h z k)

-- The same ladder as a loop over an array that starts out at `z`.
def ladder (h : W → W → W) (z : W) (H : ℕ) : ℕ → W :=
  (List.range' 1 H).foldl
    (fun zeros k => Function.update zeros k (h (zeros (k - 1)) (zeros (k - 1)))) (fun _ => z)

def node (h : W → W → W) (z : W) (c : Cells W) : ℕ → ℕ → W
  | 0, i => (c 0 i).getD z
  | l + 1, i => (c (l + 1) i).getD (h (node h z c l (2 * i)) (node h z c l (2 * i + 1)))

def Fresh (c : Cells W) (n : ℕ) : Prop := ∀ l i v, c l i = some v → (i + 1) * 2 ^ l ≤ n

variable {h : W → W → W} {z : W}

@[simp] theorem assign_same (c : Cells W) (s m : ℕ) (v : W) : assign c s m v s m = some v := by
  simp [assign]

theorem assign_of_level_ne (c : Cells W) {s l : ℕ} (m i : ℕ) (v : W) (hl : l ≠ s) :
    assign c s m v l i = c l i := by simp [assign, hl]

theorem assign_of_index_ne (c : Cells W) {m i : ℕ} (s l : ℕ) (v : W) (hi : i ≠ m) :
    assign c s m v l i = c l i := by simp [assign, hi]

theorem ladder_eq (H : ℕ) : ∀ i, i ≤ H → ladder h z H i = zeroNode h z i := by
  unfold ladder
  induction H with
  | zero =>
    intro i hi
    obtain rfl : i = 0 := by omega
    rfl
  | succ H ih =>
    intro i hi
    rw [List.range'_concat, List.foldl_append, List.foldl_cons, List.foldl_nil]
    by_cases hlast : i = 1 + 1 * H
    · subst hlast
      rw [Function.update_self, ih _ (by omega), show 1 + 1 * H = H + 1 by omega]
      rfl
    · rw [Function.update_of_ne hlast, ih i (by omega)]

theorem node_open (c : Cells W) (l i : ℕ) (hc : c (l + 1) i = none) :
    node h z c (l + 1) i = h (node h z c l (2 * i)) (node h z c l (2 * i + 1)) := by
  simp [node, hc]

theorem node_fixed (c : Cells W) (l i : ℕ) (v : W) (hc : c l i = some v) :
    node h z c l i = v := by
  cases l <;> simp [node, hc]

theorem fresh_blank (n : ℕ) : Fresh (blank : Cells W) n := by
  intro l i v hv
  simp [blank] at hv

theorem Fresh.mono {c : Cells W} {n m : ℕ} (hc : Fresh c n) (hnm : n ≤ m) : Fresh c m :=
  fun l i v hv => (hc l i v hv).trans hnm

theorem Fresh.open_of_lt {c : Cells W} {n l i : ℕ} (hc : Fresh c n) (hi : n < (i + 1) * 2 ^ l) :
    c l i = none := by
  cases hv : c l i with
  | none => rfl
  | some v => exact absurd (hc l i v hv) (by omega)

theorem Fresh.assign {c : Cells W} {n m s i : ℕ} (v : W) (hc : Fresh c n) (hnm : n ≤ m)
    (hi : (i + 1) * 2 ^ s ≤ m) : Fresh (assign c s i v) m := by
  intro l j w hw
  by_cases hlj : l = s ∧ j = i
  · obtain ⟨rfl, rfl⟩ := hlj
    exact hi
  · rw [Merkle.assign, if_neg hlj] at hw
    exact (hc l j w hw).trans hnm

-- A node depends only on the cells below it.
theorem node_congr {c d : Cells W} (l : ℕ) : ∀ i : ℕ,
    (∀ a j, a ≤ l → i * 2 ^ l ≤ j * 2 ^ a → (j + 1) * 2 ^ a ≤ (i + 1) * 2 ^ l → c a j = d a j) →
    node h z c l i = node h z d l i := by
  induction l with
  | zero =>
    intro i hcd
    simp only [node, hcd 0 i le_rfl le_rfl le_rfl]
  | succ l ih =>
    intro i hcd
    have hself := hcd (l + 1) i le_rfl le_rfl le_rfl
    have hpow : 2 ^ (l + 1) = 2 * 2 ^ l := by ring
    have hpos : 0 < 2 ^ l := by positivity
    have hleft := ih (2 * i) fun a j ha hlo hhi => hcd a j (by omega)
      (by rw [hpow]; linarith [show i * (2 * 2 ^ l) = 2 * i * 2 ^ l by ring])
      (by rw [hpow]; nlinarith [show (i + 1) * (2 * 2 ^ l) = (2 * i + 1) * 2 ^ l + 2 ^ l by ring])
    have hright := ih (2 * i + 1) fun a j ha hlo hhi => hcd a j (by omega)
      (by rw [hpow]; nlinarith [show (2 * i + 1) * 2 ^ l = i * (2 * 2 ^ l) + 2 ^ l by ring])
      (by rw [hpow]; linarith [show (i + 1) * (2 * 2 ^ l) = (2 * i + 1 + 1) * 2 ^ l by ring])
    simp only [node, hself, hleft, hright]

theorem node_blank (l i : ℕ) : node h z (blank : Cells W) l i = zeroNode h z l := by
  induction l generalizing i with
  | zero => rfl
  | succ l ih => rw [node_open _ _ _ rfl, ih, ih, zeroNode]

theorem node_of_fresh {c : Cells W} {n l i : ℕ} (hc : Fresh c n) (hi : n ≤ i * 2 ^ l) :
    node h z c l i = zeroNode h z l := by
  rw [← node_blank (h := h) (z := z) l i]
  apply node_congr
  intro a j _ hlo _
  refine hc.open_of_lt ?_
  have : 0 < 2 ^ a := by positivity
  nlinarith [show (j + 1) * 2 ^ a = j * 2 ^ a + 2 ^ a by ring]

-- Fixing a cell at the value it already has changes no node.
theorem node_assign_self (c : Cells W) (s m : ℕ) :
    node h z (assign c s m (node h z c s m)) = node h z c := by
  funext l
  induction l with
  | zero =>
    funext i
    by_cases hi : 0 = s ∧ i = m
    · obtain ⟨rfl, rfl⟩ := hi
      exact node_fixed _ _ _ _ (by simp)
    · simp [node, assign, hi]
  | succ l ih =>
    funext i
    by_cases hi : l + 1 = s ∧ i = m
    · obtain ⟨rfl, rfl⟩ := hi
      exact node_fixed _ _ _ _ (by simp)
    · rw [node, node, ih, assign, if_neg hi]

-- Nodes that do not lie over the assigned cell are unchanged.
theorem node_assign_of_not_over (c : Cells W) (s m : ℕ) (v : W) (l : ℕ) : ∀ i : ℕ,
    ¬(s ≤ l ∧ i = m / 2 ^ (l - s)) → node h z (assign c s m v) l i = node h z c l i := by
  induction l with
  | zero =>
    intro i hi
    have hcell : ¬(0 = s ∧ i = m) := by
      rintro ⟨rfl, rfl⟩
      exact hi (by simp)
    simp only [node, assign, if_neg hcell]
  | succ l ih =>
    intro i hi
    have hcell : ¬(l + 1 = s ∧ i = m) := by
      rintro ⟨rfl, rfl⟩
      exact hi (by simp)
    have hchild : ∀ j, j / 2 = i → ¬(s ≤ l ∧ j = m / 2 ^ (l - s)) := by
      rintro j hj ⟨hsl, rfl⟩
      refine hi ⟨by omega, ?_⟩
      rw [← hj, Nat.succ_sub hsl, pow_succ, Nat.div_div_eq_div_mul]
    rw [node, node, ih _ (hchild _ (by omega)), ih _ (hchild _ (by omega)), assign, if_neg hcell]

theorem node_assign_left {c : Cells W} {s m l i : ℕ} (v : W) (hi : (i + 1) * 2 ^ l ≤ m * 2 ^ s) :
    node h z (assign c s m v) l i = node h z c l i := by
  apply node_assign_of_not_over
  rintro ⟨hsl, rfl⟩
  obtain ⟨e, rfl⟩ := Nat.exists_eq_add_of_le hsl
  have hlt := Nat.lt_div_mul_add (a := m) (b := 2 ^ e) (by positivity)
  rw [Nat.add_sub_cancel_left, pow_add, mul_comm (2 ^ s), ← mul_assoc] at hi
  have := Nat.le_of_mul_le_mul_right hi (by positivity)
  linarith [add_mul (m / 2 ^ e) 1 (2 ^ e)]

end Merkle
