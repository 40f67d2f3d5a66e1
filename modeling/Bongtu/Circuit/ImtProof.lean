import Bongtu.Core.MerklePath
import Mathlib.Algebra.Field.ZMod
import Mathlib.Algebra.BigOperators.Intervals
import Mathlib.Tactic.Ring

namespace Bongtu.Circuit

open Core

-- The library templates the circuits instantiate, each as the relation its constraints set up between
-- its inputs and outputs. Signal arrays are functions of the index, read below their length only.
structure Gadgets (F : Type) where
  num2Bits : ℕ → F → (ℕ → F) → Prop
  switcher : F → F → F → F × F → Prop
  poseidon2 : F → F → F → Prop
  forceEqualIfEnabled : F → F → F → Prop

-- The templates accept the values they are documented to compute.
structure Gadgets.Honest {F : Type} [Field F] (g : Gadgets F) (poseidon2 : F → F → F) : Prop where
  num2Bits : ∀ n v : ℕ, v < 2 ^ n → g.num2Bits n (v : F) fun j => ((v / 2 ^ j % 2 : ℕ) : F)
  switcher_left : ∀ l r, g.switcher 0 l r (l, r)
  switcher_right : ∀ l r, g.switcher 1 l r (r, l)
  poseidon2 : ∀ l r, g.poseidon2 l r (poseidon2 l r)
  forceEqual : ∀ x, g.forceEqualIfEnabled 1 x x

variable {F : Type} [Field F]

def CheckIMTProof (g : Gadgets F) (nInputs nLevels : ℕ) (leaves leafIndices : ℕ → F)
    (pathElements : ℕ → ℕ → F) (root : F) (enabled : ℕ → F) : Prop :=
  ∀ i < nInputs, ∃ (idxBits : ℕ → F) (sw : ℕ → F × F) (cur : ℕ → F),
    g.num2Bits nLevels (leafIndices i) idxBits ∧ cur 0 = leaves i ∧
    (∀ j < nLevels, g.switcher (idxBits j) (cur j) (pathElements i j) (sw j) ∧
      g.poseidon2 (sw j).1 (sw j).2 (cur (j + 1))) ∧
    g.forceEqualIfEnabled (enabled i) (cur nLevels) root

theorem foldToRoot_take (poseidon2 : F → F → F) (leaf : F) (siblings : List F) (leafIndex : ℕ) {j : ℕ}
    (hj : j < siblings.length) :
    foldToRoot poseidon2 leaf (siblings.take (j + 1)) leafIndex =
      if leafIndex / 2 ^ j % 2 = 1 then
        poseidon2 (siblings.getD j 0) (foldToRoot poseidon2 leaf (siblings.take j) leafIndex)
      else poseidon2 (foldToRoot poseidon2 leaf (siblings.take j) leafIndex) (siblings.getD j 0) := by
  have hget : siblings.getD j 0 = siblings[j] := by simp [hj]
  rw [List.take_succ_eq_append_getElem hj, foldToRoot_snoc, List.length_take, Nat.min_eq_left hj.le, hget]

-- The running hash of the template is the fold over the siblings so far.
theorem checkIMTProof_of_fold {g : Gadgets F} {poseidon2 : F → F → F} (hg : g.Honest poseidon2) {leaf root : F}
    {siblings : List F} {leafIndex : ℕ} (hindex : leafIndex < 2 ^ siblings.length)
    (hfold : foldToRoot poseidon2 leaf siblings leafIndex = root) :
    CheckIMTProof g 1 siblings.length (fun _ => leaf) (fun _ => (leafIndex : F))
      (fun _ j => siblings.getD j 0) root fun _ => 1 := by
  let cur (j : ℕ) : F := foldToRoot poseidon2 leaf (siblings.take j) leafIndex
  let sw (j : ℕ) : F × F :=
    if leafIndex / 2 ^ j % 2 = 1 then (siblings.getD j 0, cur j) else (cur j, siblings.getD j 0)
  refine fun _ _ => ⟨fun j => ((leafIndex / 2 ^ j % 2 : ℕ) : F), sw, cur, hg.num2Bits _ _ hindex, rfl,
    fun j hj => ?_, ?_⟩
  · have hcur : cur (j + 1) = poseidon2 (sw j).1 (sw j).2 := by
      simp only [cur, sw, foldToRoot_take poseidon2 leaf siblings leafIndex hj]
      split <;> rfl
    refine ⟨?_, hcur ▸ hg.poseidon2 _ _⟩
    rcases Nat.mod_two_eq_zero_or_one (leafIndex / 2 ^ j) with hbit | hbit
    · simp only [sw, hbit, zero_ne_one, if_false, Nat.cast_zero]
      exact hg.switcher_left _ _
    · simp only [sw, hbit, if_true, Nat.cast_one]
      exact hg.switcher_right _ _
  · have hend : cur siblings.length = root := by
      simp only [cur, List.take_length, hfold]
    rw [hend]
    exact hg.forceEqual root

section Plain

-- The constraints of the library's own templates, over any ring.
def plainGadgets {F : Type} [CommRing F] (poseidon2 : F → F → F) : Gadgets F where
  num2Bits n v out := (∀ j < n, out j * (out j - 1) = 0) ∧ ∑ j ∈ Finset.range n, out j * 2 ^ j = v
  switcher sel l r out := ∃ aux, aux = (r - l) * sel ∧ out.1 = aux + l ∧ out.2 = -aux + r
  poseidon2 l r out := out = poseidon2 l r
  forceEqualIfEnabled enabled l r :=
    ∃ inv out, out = -(r - l) * inv + 1 ∧ (r - l) * out = 0 ∧ (1 - out) * enabled = 0

theorem sum_bits (v n : ℕ) : ∑ j ∈ Finset.range n, v / 2 ^ j % 2 * 2 ^ j = v % 2 ^ n := by
  induction n with
  | zero => simp [Nat.mod_one]
  | succ n ih =>
    rw [Finset.sum_range_succ, ih, Nat.mod_pow_succ]
    ring

theorem plainGadgets_honest (poseidon2 : F → F → F) : (plainGadgets poseidon2).Honest poseidon2 where
  num2Bits n v hv := by
    refine ⟨fun j _ => ?_, ?_⟩
    · rcases Nat.mod_two_eq_zero_or_one (v / 2 ^ j) with hbit | hbit <;> simp [hbit]
    · have hsum := congrArg (Nat.cast : ℕ → F) (sum_bits v n)
      rw [Nat.mod_eq_of_lt hv] at hsum
      push_cast at hsum ⊢
      exact hsum
  switcher_left l r := ⟨0, by ring, by ring, by ring⟩
  switcher_right l r := ⟨r - l, by ring, by ring, by ring⟩
  poseidon2 l r := rfl
  forceEqual x := ⟨0, 1, by ring, by ring, by ring⟩

end Plain

end Bongtu.Circuit
