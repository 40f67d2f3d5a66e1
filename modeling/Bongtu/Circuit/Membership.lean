import Bongtu.Circuit.ImtProof
import Bongtu.Merkle.Dense

namespace Bongtu.Circuit

open Core Merkle

section Binding

variable {W : Type} {poseidon2 : W → W → W}

-- Two paths of one index and length to one root start at one leaf.
theorem foldToRoot_binds (hinj : Function.Injective2 poseidon2) {leaf leaf' : W} (index : ℕ) (siblings : List W) :
    ∀ siblings', siblings'.length = siblings.length →
      foldToRoot poseidon2 leaf siblings index = foldToRoot poseidon2 leaf' siblings' index → leaf = leaf' := by
  induction siblings using List.reverseRecOn with
  | nil =>
    intro siblings' hlen heq
    obtain rfl := List.length_eq_zero_iff.mp hlen
    exact heq
  | append_singleton siblings sibling ih =>
    intro siblings' hlen heq
    obtain ⟨init, last, rfl⟩ : ∃ init last, siblings' = init ++ [last] := by
      refine ⟨siblings'.dropLast, siblings'.getLast ?_, (List.dropLast_append_getLast _).symm⟩
      rintro rfl
      simp at hlen
    have hinit : init.length = siblings.length := by simpa using hlen
    rw [foldToRoot_snoc, foldToRoot_snoc, hinit] at heq
    split_ifs at heq
    · exact ih init hinit (hinj heq).2
    · exact ih init hinit (hinj heq).1

-- A path to the root of known leaves starts at the leaf of its index.
theorem leaf_of_path [Zero W] (hinj : Function.Injective2 poseidon2) {xs siblings : List W} {leaf : W} {index H : ℕ}
    (hindex : index < 2 ^ H) (hlen : siblings.length = H)
    (hfold : foldToRoot poseidon2 leaf siblings index = (Content.ofLeaves xs).root poseidon2 0 H) :
    leaf = xs.getD index 0 := by
  have hnodes := foldToRoot_nodes (N := (Content.ofLeaves xs).nodeAt poseidon2 0) index H
    fun l _ => Content.ofLeaves_hash xs l _
  rw [Nat.div_eq_of_lt hindex, Content.ofLeaves_leaf] at hnodes
  refine foldToRoot_binds hinj index siblings _ ?_ (hfold.trans hnodes.symm)
  rw [List.length_map, List.length_range, hlen]

-- A node over a full range of leaves fixes them.
theorem leaves_of_node [Zero W] (hinj : Function.Injective2 poseidon2) {xs ys : List W} (l : ℕ) :
    ∀ i, (Content.ofLeaves xs).nodeAt poseidon2 0 l i = (Content.ofLeaves ys).nodeAt poseidon2 0 l i →
      ∀ j < 2 ^ l, xs.getD (i * 2 ^ l + j) 0 = ys.getD (i * 2 ^ l + j) 0 := by
  induction l with
  | zero =>
    intro i heq j hj
    rw [Content.ofLeaves_leaf, Content.ofLeaves_leaf] at heq
    obtain rfl : j = 0 := Nat.lt_one_iff.mp hj
    simpa using heq
  | succ l ih =>
    intro i heq j hj
    rw [Content.ofLeaves_hash, Content.ofLeaves_hash] at heq
    obtain ⟨hleft, hright⟩ := hinj heq
    have hpow : i * 2 ^ (l + 1) = 2 * i * 2 ^ l := by ring
    rcases Nat.lt_or_ge j (2 ^ l) with hlow | hhigh
    · rw [hpow]
      exact ih (2 * i) hleft j hlow
    · have hj' : j - 2 ^ l < 2 ^ l := by
        rw [pow_succ] at hj
        omega
      have hplace : i * 2 ^ (l + 1) + j = (2 * i + 1) * 2 ^ l + (j - 2 ^ l) := by
        rw [hpow, Nat.add_mul, Nat.one_mul]
        omega
      rw [hplace]
      exact ih (2 * i + 1) hright _ hj'

-- The root of a full subtree fixes its leaves.
theorem leaves_of_root [Zero W] (hinj : Function.Injective2 poseidon2) {xs ys : List W} {k : ℕ}
    (hxs : xs.length = 2 ^ k) (hys : ys.length = 2 ^ k)
    (heq : (Content.ofLeaves xs).nodeAt poseidon2 0 k 0 = (Content.ofLeaves ys).nodeAt poseidon2 0 k 0) : xs = ys := by
  refine List.ext_getElem (hxs.trans hys.symm) fun j hj hj' => ?_
  have hleaf := leaves_of_node hinj k 0 heq j (hxs ▸ hj)
  rwa [Nat.zero_mul, Nat.zero_add, List.getD_eq_getElem?_getD, List.getElem?_eq_getElem hj,
    List.getD_eq_getElem?_getD, List.getElem?_eq_getElem hj'] at hleaf

end Binding

variable {W : Type} [CommRing W]

-- The templates accept no other values than the ones they are documented to compute.
structure Gadgets.Sound (g : Gadgets W) (poseidon2 : W → W → W) : Prop where
  num2Bits : ∀ {n x bits}, g.num2Bits n x bits →
    ∃ m : ℕ, m < 2 ^ n ∧ x = (m : W) ∧ ∀ j < n, bits j = ((m / 2 ^ j % 2 : ℕ) : W)
  switcher_left : ∀ {l r out}, g.switcher 0 l r out → out = (l, r)
  switcher_right : ∀ {l r out}, g.switcher 1 l r out → out = (r, l)
  poseidon2 : ∀ {l r out}, g.poseidon2 l r out → out = poseidon2 l r
  forceEqual : ∀ {l r}, g.forceEqualIfEnabled 1 l r → l = r

-- An enabled slot of the template holds a path of its index from its leaf to the root.
theorem checkIMTProof_path {g : Gadgets W} {poseidon2 : W → W → W} (hg : g.Sound poseidon2) {nInputs nLevels : ℕ}
    {leaves leafIndices : ℕ → W} {pathElements : ℕ → ℕ → W} {root : W} {enabled : ℕ → W}
    (h : CheckIMTProof g nInputs nLevels leaves leafIndices pathElements root enabled) {i : ℕ} (hi : i < nInputs)
    (henabled : enabled i = 1) :
    ∃ m : ℕ, m < 2 ^ nLevels ∧ leafIndices i = (m : W) ∧
      foldToRoot poseidon2 (leaves i) ((List.range nLevels).map (pathElements i)) m = root := by
  obtain ⟨idxBits, sw, cur, hbits, hcur, hlevels, hforce⟩ := h i hi
  obtain ⟨m, hm, hindex, hbit⟩ := hg.num2Bits hbits
  have hrun : ∀ j ≤ nLevels, foldToRoot poseidon2 (leaves i) ((List.range j).map (pathElements i)) m = cur j := by
    intro j
    induction j with
    | zero => exact fun _ => hcur.symm
    | succ j ih =>
      intro hj
      obtain ⟨hswitch, hhash⟩ := hlevels j hj
      rw [List.range_succ, List.map_append, List.map_singleton, foldToRoot_snoc, ih (Nat.le_of_succ_le hj),
        List.length_map, List.length_range, hg.poseidon2 hhash]
      rw [hbit j hj] at hswitch
      rcases Nat.mod_two_eq_zero_or_one (m / 2 ^ j) with hzero | hone
      · rw [hzero, Nat.cast_zero] at hswitch
        rw [if_neg (by omega), hg.switcher_left hswitch]
      · rw [hone, Nat.cast_one] at hswitch
        rw [if_pos hone, hg.switcher_right hswitch]
  rw [henabled] at hforce
  exact ⟨m, hm, hindex, (hrun nLevels le_rfl).trans (hg.forceEqual hforce)⟩

section Plain

variable [IsDomain W]

theorem bit_cases {b : W} (h : b * (b - 1) = 0) : b = 0 ∨ b = 1 := by
  rcases mul_eq_zero.mp h with h | h
  · exact .inl h
  · exact .inr (sub_eq_zero.mp h)

theorem exists_bits (out : ℕ → W) (n : ℕ) (h : ∀ j < n, out j * (out j - 1) = 0) :
    ∃ m : ℕ, m < 2 ^ n ∧ ∑ j ∈ Finset.range n, out j * 2 ^ j = (m : W) ∧ ∀ j < n, out j = ((m / 2 ^ j % 2 : ℕ) : W) := by
  induction n with
  | zero => exact ⟨0, by simp, by simp, fun j hj => absurd hj (Nat.not_lt_zero j)⟩
  | succ n ih =>
    obtain ⟨m, hm, hsum, hbits⟩ := ih fun j hj => h j (Nat.lt_succ_of_lt hj)
    obtain ⟨b, hb, hout⟩ : ∃ b : ℕ, b < 2 ∧ out n = (b : W) := by
      rcases bit_cases (h n (Nat.lt_succ_self n)) with h0 | h1
      · exact ⟨0, by omega, by simpa using h0⟩
      · exact ⟨1, by omega, by simpa using h1⟩
    refine ⟨m + b * 2 ^ n, ?_, ?_, fun j hj => ?_⟩
    · rw [pow_succ]
      nlinarith
    · rw [Finset.sum_range_succ, hsum, hout]
      push_cast
      rfl
    · rcases Nat.lt_succ_iff_lt_or_eq.mp hj with hj | rfl
      · have hsplit : b * 2 ^ n = 2 ^ j * (2 * (b * 2 ^ (n - j - 1))) := by
          obtain ⟨d, rfl⟩ := Nat.exists_eq_add_of_lt hj
          have hd : j + d + 1 - j - 1 = d := by omega
          rw [hd]
          ring
        rw [hbits j hj, hsplit, Nat.add_mul_div_left _ _ (Nat.two_pow_pos j), Nat.add_mul_mod_self_left]
      · rw [hout, Nat.add_mul_div_right _ _ (Nat.two_pow_pos j), Nat.div_eq_of_lt hm, Nat.zero_add,
          Nat.mod_eq_of_lt hb]

-- The constraints of the library's own templates, over any domain.
theorem plainGadgets_sound (poseidon2 : W → W → W) : (plainGadgets poseidon2).Sound poseidon2 where
  num2Bits := by
    rintro n x bits ⟨hbits, hsum⟩
    obtain ⟨m, hm, hvalue, hbit⟩ := exists_bits bits n hbits
    exact ⟨m, hm, hsum.symm.trans hvalue, hbit⟩
  switcher_left := by
    rintro l r out ⟨aux, haux, hl, hr⟩
    refine Prod.ext ?_ ?_
    · rw [hl, haux]
      ring
    · rw [hr, haux]
      ring
  switcher_right := by
    rintro l r out ⟨aux, haux, hl, hr⟩
    refine Prod.ext ?_ ?_
    · rw [hl, haux]
      ring
    · rw [hr, haux]
      ring
  poseidon2 h := h
  forceEqual := by
    rintro l r ⟨inv, out, -, hout, hone⟩
    have hout' : out = 1 := by linear_combination -hone
    rw [hout', mul_one] at hout
    exact (sub_eq_zero.mp hout).symm

end Plain

end Bongtu.Circuit
