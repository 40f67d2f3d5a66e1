import Bongtu.Core.Capacity

set_option linter.unusedSectionVars false

namespace Bongtu.Core.ImtTree

open Outcome

variable {W : Type} [Zero W] (poseidon2 : W → W → W)

section Calls

variable [DecidableEq W]

-- A caller that catches every throw goes on with the tree the throw left behind.
def call (t : ImtTree W) (op : TreeOp W) : ImtTree W := (apply poseidon2 op t).state

def calls (start : ImtTree W) (ops : List (TreeOp W)) : ImtTree W := ops.foldl (call poseidon2) start

end Calls

variable {poseidon2} {H k n : ℕ}

theorem construct_ok {height batchSize : ℕ} {t : ImtTree W}
    (h : construct poseidon2 height batchSize = .ok t) :
    1 ≤ height ∧ ∃ k ≤ height, batchSize = 2 ^ k ∧ t = init poseidon2 height (2 ^ k) := by
  unfold construct at h
  split at h
  · cases h
  · next hheight =>
    split at h
    · cases h
    · next hpow =>
      split at h
      · cases h
      · next hlog =>
        cases h
        rw [isPowerOfTwo, Bool.eq_false_iff, not_not, Bool.and_eq_true, beq_iff_eq] at hpow
        refine ⟨not_lt.mp hheight, Nat.log2 batchSize, not_lt.mp hlog, hpow.2, ?_⟩
        rw [← hpow.2]

theorem within_init : (init poseidon2 H (2 ^ k)).Within poseidon2 H k 0 :=
  ⟨params_init poseidon2 H k, le_rfl, Nat.zero_le _⟩

theorem appendLeaf_spec {t : ImtTree W} (ht : t.Within poseidon2 H k n) (v : W) :
    (t.nextLeafIndex < 2 ^ H ∧ ∃ t', appendLeaf poseidon2 v t = .returned t' ∧
      t'.nextLeafIndex = t.nextLeafIndex + 1) ∨
    (t.nextLeafIndex = 2 ^ H ∧ appendLeaf poseidon2 v t = .threw .treeIsFull (recordLeaf v t)) := by
  have hH := ht.params.H_eq
  rcases Nat.lt_or_eq_of_le ht.le with hlt | heq
  · exact .inl ⟨hlt, appendLeaf_room poseidon2 v (by rw [hH]; exact hlt)⟩
  · exact .inr ⟨heq, appendLeaf_full v (by rw [hH]; omega)⟩

theorem padLoop_room (j : ℕ) : ∀ {t : ImtTree W}, t.Within poseidon2 H k n → t.nextLeafIndex + j ≤ 2 ^ H →
    ∃ t', padLoop poseidon2 j t = .returned t' ∧ t'.Within poseidon2 H k n ∧
      t'.nextLeafIndex = t.nextLeafIndex + j := by
  induction j with
  | zero => exact fun ht _ => ⟨_, rfl, ht, rfl⟩
  | succ j ih =>
    intro t ht hroom
    obtain ⟨t₁, ht₁, hnext⟩ := appendLeaf_room poseidon2 (t.zeros 0) (t := t)
      (by rw [ht.params.H_eq]; omega)
    have hstep := ht.appendLeaf (t.zeros 0)
    rw [ht₁, Run.state_returned] at hstep
    obtain ⟨t', ht', hwithin, hnext'⟩ := ih hstep (by omega)
    refine ⟨t', ?_, hwithin, by omega⟩
    rw [padLoop, ← appendLeaf, ht₁]
    exact ht'

theorem padToBlockBoundary_spec {t : ImtTree W} (ht : t.Within poseidon2 H k n) (hk : k ≤ H) :
    ∃ padded, padToBlockBoundary poseidon2 t = .returned padded ∧ padded.Within poseidon2 H k n ∧
      padded.nextLeafIndex = t.nextLeafIndex + Merkle.Content.padding k t.nextLeafIndex ∧
      2 ^ k ∣ padded.nextLeafIndex := by
  obtain ⟨padded, hpadded, hwithin, hnext⟩ :=
    padLoop_room (Merkle.Content.padding k t.nextLeafIndex) ht (Merkle.Frontier.padding_room hk ht.le)
  refine ⟨padded, ?_, hwithin, hnext, ?_⟩
  · rw [padToBlockBoundary, ht.params.B_eq]
    exact hpadded
  · rw [hnext, Merkle.Frontier.add_padding]
    exact Nat.dvd_mul_left _ _

variable [DecidableEq W]

-- What an attach does: its own checks first, then the padding, which always finds room, then the block.
theorem attachSubtree_spec {t : ImtTree W} (ht : t.Within poseidon2 H k n) (hk : k ≤ H) (r : W)
    (leaves : Option (List W)) :
    (∃ e, checkLeaves poseidon2 t r leaves = .error e ∧ attachSubtree poseidon2 r leaves t = .threw e t) ∨
    (checkLeaves poseidon2 t r leaves = .ok () ∧ ∃ padded, padToBlockBoundary poseidon2 t = .returned padded ∧
      padded.Within poseidon2 H k n ∧
      padded.nextLeafIndex = t.nextLeafIndex + Merkle.Content.padding k t.nextLeafIndex ∧
      ((padded.nextLeafIndex < 2 ^ H ∧ ∃ t', attachSubtree poseidon2 r leaves t = .returned t' ∧
          insertNode poseidon2 r k (recordBlock leaves padded) = .returned t') ∨
        (padded.nextLeafIndex = 2 ^ H ∧
          attachSubtree poseidon2 r leaves t = .threw .treeIsFull (recordBlock leaves padded)))) := by
  cases hcheck : checkLeaves poseidon2 t r leaves with
  | error e =>
    refine .inl ⟨e, rfl, ?_⟩
    rw [attachSubtree, hcheck]
  | ok u =>
    obtain ⟨padded, hpadded, hwithin, hnext, hdvd⟩ := padToBlockBoundary_spec ht hk
    have hattach : attachSubtree poseidon2 r leaves t = insertNode poseidon2 r k (recordBlock leaves padded) := by
      rw [attachSubtree, hcheck]
      dsimp only
      rw [hpadded, Run.bind_returned, hwithin.params.logB_eq]
    have haligned : (recordBlock leaves padded).nextLeafIndex % 2 ^ k = 0 := Nat.mod_eq_zero_of_dvd hdvd
    have hrecord := (hwithin.recordBlock leaves).params
    refine .inr ⟨rfl, padded, hpadded, hwithin, hnext, ?_⟩
    rw [hattach]
    rcases Nat.lt_or_eq_of_le hwithin.le with hlt | heq
    · have hroom : padded.nextLeafIndex + 2 ^ k ≤ 2 ^ H := next_block hdvd (pow_dvd_pow 2 hk) hlt
      obtain ⟨t', ht'⟩ := insertNode_room r haligned (by rw [hrecord.H_eq]; exact hroom)
      exact .inl ⟨hlt, t', ht', ht'⟩
    · refine .inr ⟨heq, ?_⟩
      have hover : 2 ^ (recordBlock leaves padded).H < (recordBlock leaves padded).nextLeafIndex + 2 ^ k := by
        rw [hrecord.H_eq, ← heq]
        exact Nat.lt_add_of_pos_right (Nat.two_pow_pos _)
      rw [insertNode, if_neg (not_not.mpr haligned), if_pos hover]

theorem Within.call {t : ImtTree W} (ht : t.Within poseidon2 H k n) (hk : k ≤ H) (op : TreeOp W) :
    (call poseidon2 t op).Within poseidon2 H k n := by
  cases op with
  | append v => exact ht.appendLeaf v
  | attach r leaves =>
    rw [ImtTree.call, apply]
    rcases attachSubtree_spec ht hk r leaves with ⟨e, -, hthrew⟩ | ⟨-, padded, -, hwithin, -, h⟩
    · rw [hthrew]
      exact ht
    · rcases h with ⟨-, t', hreturned, hinsert⟩ | ⟨-, hthrew⟩
      · have hblock := (hwithin.recordBlock leaves).insertNode r k
        rw [hreturned]
        rw [hinsert] at hblock
        exact hblock
      · rw [hthrew]
        exact hwithin.recordBlock leaves

theorem Within.calls {t : ImtTree W} (ht : t.Within poseidon2 H k n) (hk : k ≤ H) (ops : List (TreeOp W)) :
    (calls poseidon2 t ops).Within poseidon2 H k n := by
  induction ops generalizing t with
  | nil => exact ht
  | cons op ops ih => exact ih (ht.call hk op)

end Bongtu.Core.ImtTree
