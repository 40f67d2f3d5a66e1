import Bongtu.Merkle.Dense

namespace Merkle

variable {W : Type} {h : W → W → W} {z : W}

-- The other child of a node's parent.
def buddy (i : ℕ) : ℕ := if i % 2 = 1 then i - 1 else i + 1

theorem buddy_odd {i : ℕ} (hi : i % 2 = 1) : buddy i = i - 1 := if_pos hi

theorem buddy_even {i : ℕ} (hi : i % 2 = 0) : buddy i = i + 1 := if_neg (by omega)

theorem buddy_add_even (a i : ℕ) : buddy (2 * a + i) = 2 * a + buddy i := by
  rcases Nat.mod_two_eq_zero_or_one i with hi | hi
  · rw [buddy_even hi, buddy_even (by omega), add_assoc]
  · rw [buddy_odd hi, buddy_odd (by omega)]
    omega

theorem buddy_lt {i m : ℕ} (hi : i < 2 * m) : buddy i < 2 * m := by
  rcases Nat.mod_two_eq_zero_or_one i with hmod | hmod
  · rw [buddy_even hmod]
    omega
  · rw [buddy_odd hmod]
    omega

-- Two nodes are equal when the cells under them are, each counted from its own left end.
theorem node_window {c d : Cells W} (l : ℕ) : ∀ i j : ℕ,
    (∀ o < 2 ^ l, (c 0 (i * 2 ^ l + o)).getD z = (d 0 (j * 2 ^ l + o)).getD z) →
    (∀ a, 0 < a → a ≤ l → ∀ o < 2 ^ (l - a),
      c a (i * 2 ^ (l - a) + o) = d a (j * 2 ^ (l - a) + o)) →
    node h z c l i = node h z d l j := by
  induction l with
  | zero =>
    intro i j hleaf _
    simpa [node] using hleaf 0 (by simp)
  | succ l ih =>
    intro i j hleaf hcell
    have hself : c (l + 1) i = d (l + 1) j := by
      simpa using hcell (l + 1) (Nat.succ_pos l) le_rfl 0 (by simp)
    have hchild : ∀ s, s < 2 → node h z c l (2 * i + s) = node h z d l (2 * j + s) := by
      intro s hs
      refine ih _ _ (fun o ho => ?_) fun a ha hal o ho => ?_
      · have hlt : s * 2 ^ l + o < 2 ^ (l + 1) := by
          rw [pow_succ]
          nlinarith
        have hwide := hleaf (s * 2 ^ l + o) hlt
        rwa [← show (2 * i + s) * 2 ^ l + o = i * 2 ^ (l + 1) + (s * 2 ^ l + o) by ring,
          ← show (2 * j + s) * 2 ^ l + o = j * 2 ^ (l + 1) + (s * 2 ^ l + o) by ring] at hwide
      · have hpow : 2 ^ (l + 1 - a) = 2 * 2 ^ (l - a) := by
          rw [Nat.succ_sub hal, pow_succ, mul_comm]
        have hlt : s * 2 ^ (l - a) + o < 2 ^ (l + 1 - a) := by
          rw [hpow]
          nlinarith
        have hwide := hcell a ha (by omega) (s * 2 ^ (l - a) + o) hlt
        rw [hpow] at hwide
        rwa [← show (2 * i + s) * 2 ^ (l - a) + o = i * (2 * 2 ^ (l - a)) + (s * 2 ^ (l - a) + o) by
            ring,
          ← show (2 * j + s) * 2 ^ (l - a) + o = j * (2 * 2 ^ (l - a)) + (s * 2 ^ (l - a) + o) by
            ring] at hwide
    rw [node, node, hself, hchild 1 (by decide)]
    simpa using congrArg (fun left => (d (l + 1) j).getD (h left (node h z d l (2 * j + 1))))
      (hchild 0 (by decide))

-- Contents that agree on the nodes of one level and are open above it agree on every node above.
theorem node_above {c d : Cells W} {k : ℕ} (hc : ∀ l, k < l → ∀ i, c l i = none)
    (hd : ∀ l, k < l → ∀ i, d l i = none) (hk : ∀ i, node h z c k i = node h z d k i) (e : ℕ) :
    ∀ i, node h z c (k + e) i = node h z d (k + e) i := by
  induction e with
  | zero => exact hk
  | succ e ih =>
    intro i
    rw [← add_assoc, node_open c _ _ (hc _ (by omega) i), node_open d _ _ (hd _ (by omega) i), ih, ih]

theorem getD_nodes {N : ℕ → W} {m i : ℕ} {d : W} (hright : m ≤ i → N i = d) :
    ((List.range m).map N).getD i d = N i := by
  rcases Nat.lt_or_ge i m with hi | hi
  · simp [List.getD_eq_getElem?_getD, hi]
  · simp [List.getD_eq_getElem?_getD, not_lt.mpr hi, hright hi]

theorem getD_nodes_lt {N : ℕ → W} {m i : ℕ} (d : W) (hi : i < m) :
    ((List.range m).map N).getD i d = N i := by
  simp [List.getD_eq_getElem?_getD, hi]

theorem pairUp_level {N N' : ℕ → W} {zeros : ℕ → W} {j m : ℕ}
    (hhash : ∀ i, N' i = h (N (2 * i)) (N (2 * i + 1))) (hright : ∀ i, m ≤ i → N i = zeros j) :
    pairUp h zeros ((List.range m).map N) j = (List.range ((m + 1) / 2)).map N' := by
  have hget : ∀ i, ((List.range m).map N).getD i (zeros j) = N i := fun i => getD_nodes (hright i)
  simp only [pairUp, List.length_map, List.length_range, hget, ← hhash]

end Merkle
