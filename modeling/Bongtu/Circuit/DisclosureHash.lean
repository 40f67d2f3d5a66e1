import Bongtu.Circuit.ImtProof
import Bongtu.HashChain
import Bongtu.Merkle.Dense

namespace Bongtu.Circuit

open Merkle

variable {F : Type}

-- What the disburse circuit hashes: the receiver ciphertexts flattened, the view tags, the commitments.
def ctFlat (nOutputs : ℕ) (cipherTexts : ℕ → ℕ → F) (viewTags outputCommitments : ℕ → F) : List F :=
  (List.range nOutputs).flatMap (fun i => (List.range 4).map (cipherTexts i)) ++
    (List.range nOutputs).map viewTags ++ (List.range nOutputs).map outputCommitments

theorem length_ctFlat (n : ℕ) (cipherTexts : ℕ → ℕ → F) (viewTags outputCommitments : ℕ → F) :
    (ctFlat n cipherTexts viewTags outputCommitments).length = 6 * n := by
  simp [ctFlat, List.length_flatMap]
  omega

theorem commitments_ctFlat (n : ℕ) (cipherTexts : ℕ → ℕ → F) (viewTags outputCommitments : ℕ → F) :
    ((ctFlat n cipherTexts viewTags outputCommitments).drop (5 * n)).take n =
      (List.range n).map outputCommitments := by
  have hlen : ((List.range n).flatMap (fun i => (List.range 4).map (cipherTexts i)) ++
      (List.range n).map viewTags).length = 5 * n := by
    simp [List.length_flatMap]
    omega
  rw [ctFlat, ← hlen, List.drop_left, List.take_of_length_le (by simp)]

variable [Zero F]

def DisclosureHash (g : Gadgets F) (nOutputs : ℕ) (cipherTexts : ℕ → ℕ → F)
    (viewTags outputCommitments : ℕ → F) (disclosureHash : F) : Prop :=
  ∃ dh : ℕ → F, dh 0 = 0 ∧
    (∀ i < 6 * nOutputs,
      g.poseidon2 (dh i) ((ctFlat nOutputs cipherTexts viewTags outputCommitments).getD i 0) (dh (i + 1))) ∧
    disclosureHash = dh (6 * nOutputs)

def SubtreeRoot (g : Gadgets F) (nOutputs : ℕ) (outputCommitments : ℕ → F) (subtreeRoot : F) : Prop :=
  ∃ subNodes : ℕ → F, (∀ i < nOutputs, subNodes (nOutputs - 1 + i) = outputCommitments i) ∧
    (∀ i < nOutputs - 1, g.poseidon2 (subNodes (2 * i + 1)) (subNodes (2 * i + 2)) (subNodes i)) ∧
    subtreeRoot = subNodes 0

-- A satisfied hash template holds the hash.
def Gadgets.Hashes (g : Gadgets F) (poseidon2 : F → F → F) : Prop :=
  ∀ l r out, g.poseidon2 l r out → out = poseidon2 l r

variable {g : Gadgets F} {poseidon2 : F → F → F} {n k : ℕ} {cipherTexts : ℕ → ℕ → F}
  {viewTags outputCommitments : ℕ → F}

-- Each running value of the circuit is the fold over the elements before it.
theorem foldl_take (elements : List F) {i : ℕ} (hi : i < elements.length) :
    (elements.take (i + 1)).foldl poseidon2 0 =
      poseidon2 ((elements.take i).foldl poseidon2 0) (elements.getD i 0) := by
  have hget : elements.getD i 0 = elements[i] := by simp [hi]
  rw [List.take_succ_eq_append_getElem hi, List.foldl_append, List.foldl_cons, List.foldl_nil, hget]

theorem disclosureHash_eq (hg : g.Hashes poseidon2) {disclosureHash : F}
    (h : DisclosureHash g n cipherTexts viewTags outputCommitments disclosureHash) :
    disclosureHash = (ctFlat n cipherTexts viewTags outputCommitments).foldl poseidon2 0 := by
  obtain ⟨dh, hzero, hstep, rfl⟩ := h
  have hlen := length_ctFlat n cipherTexts viewTags outputCommitments
  have hrun : ∀ i ≤ 6 * n,
      dh i = ((ctFlat n cipherTexts viewTags outputCommitments).take i).foldl poseidon2 0 := by
    intro i
    induction i with
    | zero => exact fun _ => hzero
    | succ i ih =>
      intro hi
      rw [hg _ _ _ (hstep i hi), ih (by omega), foldl_take _ (by omega)]
  rw [hrun _ le_rfl, ← hlen, List.take_length]

theorem disclosureHash_fold (hg : ∀ l r, g.poseidon2 l r (poseidon2 l r)) (n : ℕ) (cipherTexts : ℕ → ℕ → F)
    (viewTags outputCommitments : ℕ → F) :
    DisclosureHash g n cipherTexts viewTags outputCommitments
      ((ctFlat n cipherTexts viewTags outputCommitments).foldl poseidon2 0) := by
  have hlen := length_ctFlat n cipherTexts viewTags outputCommitments
  refine ⟨fun i => ((ctFlat n cipherTexts viewTags outputCommitments).take i).foldl poseidon2 0, rfl,
    fun i hi => ?_, ?_⟩
  · dsimp only
    rw [foldl_take _ (by omega)]
    exact hg _ _
  · dsimp only
    rw [← hlen, List.take_length]

-- The circuit's heap holds level `l` of the tree over the commitments from index `2 ^ (k - l) - 1` on.
theorem subtreeRoot_eq (hg : g.Hashes poseidon2) {subtreeRoot : F}
    (h : SubtreeRoot g (2 ^ k) outputCommitments subtreeRoot) :
    subtreeRoot = (Content.ofLeaves ((List.range (2 ^ k)).map outputCommitments)).nodeAt poseidon2 0 k 0 := by
  obtain ⟨subNodes, hleaf, hstep, rfl⟩ := h
  have hlevel : ∀ l ≤ k, ∀ i < 2 ^ (k - l), subNodes (2 ^ (k - l) - 1 + i) =
      (Content.ofLeaves ((List.range (2 ^ k)).map outputCommitments)).nodeAt poseidon2 0 l i := by
    intro l
    induction l with
    | zero =>
      intro _ i hi
      rw [Nat.sub_zero] at hi ⊢
      rw [hleaf i hi, Content.ofLeaves_leaf]
      simp [hi]
    | succ l ih =>
      intro hl i hi
      obtain ⟨m, rfl⟩ := Nat.exists_eq_add_of_lt hl
      have hlow : l + m + 1 - l = m + 1 := by omega
      have hhigh : l + m + 1 - (l + 1) = m := by omega
      rw [hlow] at ih
      rw [hhigh] at hi ⊢
      have hpos := Nat.one_le_two_pow (n := m)
      have hdouble : 2 ^ (m + 1) = 2 * 2 ^ m := by ring
      have hbelow : 2 ^ (m + 1) ≤ 2 ^ (l + m + 1) := Nat.pow_le_pow_right (by omega) (by omega)
      have hleft : 2 * (2 ^ m - 1 + i) + 1 = 2 ^ (m + 1) - 1 + 2 * i := by omega
      have hright : 2 * (2 ^ m - 1 + i) + 2 = 2 ^ (m + 1) - 1 + (2 * i + 1) := by omega
      have hparent := hg _ _ _ (hstep (2 ^ m - 1 + i) (by omega))
      rw [hleft, hright, ih (by omega) (2 * i) (by omega), ih (by omega) (2 * i + 1) (by omega)] at hparent
      rw [hparent, Content.ofLeaves_hash]
  have hroot := hlevel k le_rfl 0 (by simp)
  rwa [Nat.sub_self, pow_zero, Nat.sub_self] at hroot

end Bongtu.Circuit
