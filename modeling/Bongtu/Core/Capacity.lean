import Bongtu.Core.Imt

set_option linter.unusedSectionVars false

namespace Bongtu.Core.ImtTree

open Outcome

variable {W : Type} [Zero W] {poseidon2 : W → W → W} {H k n : ℕ}

-- A tree of these parameters whose next leaf lies between `n` and the capacity.
structure Within (poseidon2 : W → W → W) (H k n : ℕ) (t : ImtTree W) : Prop where
  params : t.Params poseidon2 H k
  ge : n ≤ t.nextLeafIndex
  le : t.nextLeafIndex ≤ 2 ^ H

theorem Within.insertNode {t : ImtTree W} (ht : t.Within poseidon2 H k n) (node : W) (s : ℕ) :
    (insertNode poseidon2 node s t).state.Within poseidon2 H k n := by
  cases h : ImtTree.insertNode poseidon2 node s t with
  | returned t' =>
    refine ⟨ht.params.insertNode h, ?_, ?_⟩
    · rw [Run.state_returned, (insertNode_returned h).2.2.2.2.2]
      exact ht.ge.trans (Nat.le_add_right _ _)
    · rw [ImtTree.insertNode] at h
      split at h
      · cases h
      · split at h
        · cases h
        · case isFalse hroom =>
          cases h
          rw [ht.params.H_eq] at hroom
          exact not_lt.mp hroom
  | threw e t' => exact insertNode_threw h ▸ ht

theorem Within.recordLeaf {t : ImtTree W} (ht : t.Within poseidon2 H k n) (v : W) :
    (recordLeaf v t).Within poseidon2 H k n :=
  ⟨ht.params.recordLeaf v, ht.ge, ht.le⟩

theorem Within.recordBlock {t : ImtTree W} (ht : t.Within poseidon2 H k n)
    (leaves : Option (List W)) : (recordBlock leaves t).Within poseidon2 H k n :=
  ⟨ht.params.recordBlock leaves, ht.ge, ht.le⟩

theorem Within.appendLeaf {t : ImtTree W} (ht : t.Within poseidon2 H k n) (v : W) :
    (appendLeaf poseidon2 v t).state.Within poseidon2 H k n :=
  (ht.recordLeaf v).insertNode v 0

theorem Within.padLoop (j : ℕ) : ∀ {t : ImtTree W}, t.Within poseidon2 H k n →
    (padLoop poseidon2 j t).state.Within poseidon2 H k n := by
  induction j with
  | zero => exact id
  | succ j ih => exact fun ht => Run.bind_keeps (ht.appendLeaf _) fun _ _ => ih

theorem attachSubtree_none [DecidableEq W] (r : W) (t : ImtTree W) :
    attachSubtree poseidon2 r none t = (padToBlockBoundary poseidon2 t).bind fun padded =>
      insertNode poseidon2 r padded.logB (recordBlock none padded) := rfl

theorem Within.attachSubtree [DecidableEq W] {t : ImtTree W} (ht : t.Within poseidon2 H k n)
    (r : W) : (attachSubtree poseidon2 r none t).state.Within poseidon2 H k n := by
  rw [attachSubtree_none]
  exact Run.bind_keeps (ht.padLoop _) fun s _ hs => (hs.recordBlock none).insertNode r s.logB

theorem insertNode_room {t : ImtTree W} {s : ℕ} (node : W) (haligned : t.nextLeafIndex % 2 ^ s = 0)
    (hroom : t.nextLeafIndex + 2 ^ s ≤ 2 ^ t.H) : ∃ t', insertNode poseidon2 node s t = .returned t' := by
  simp [insertNode, haligned, not_lt.mpr hroom]

theorem appendLeaf_room (poseidon2 : W → W → W) {t : ImtTree W} (v : W)
    (hroom : t.nextLeafIndex + 1 ≤ 2 ^ t.H) :
    ∃ t', appendLeaf poseidon2 v t = .returned t' ∧ t'.nextLeafIndex = t.nextLeafIndex + 1 := by
  obtain ⟨t', ht'⟩ := insertNode_room (t := recordLeaf v t) (s := 0) v
    (Nat.mod_one _) hroom
  exact ⟨t', ht', (insertNode_returned ht').2.2.2.2.2⟩

theorem appendLeaf_full {t : ImtTree W} (v : W) (hfull : 2 ^ t.H < t.nextLeafIndex + 1) :
    appendLeaf poseidon2 v t = .threw .treeIsFull (recordLeaf v t) := by
  simp [appendLeaf, insertNode, recordLeaf, Nat.mod_one, hfull]

theorem padToBlockBoundary_aligned {t : ImtTree W} (h : t.nextLeafIndex % t.B = 0) :
    padToBlockBoundary poseidon2 t = .returned t := by
  simp [padToBlockBoundary, h, padLoop]

theorem next_block {n b c : ℕ} (hn : b ∣ n) (hc : b ∣ c) (hlt : n < c) : n + b ≤ c := by
  obtain ⟨i, rfl⟩ := hn
  obtain ⟨j, rfl⟩ := hc
  have hij : i + 1 ≤ j := lt_of_mul_lt_mul_left hlt (Nat.zero_le b)
  calc b * i + b = b * (i + 1) := by ring
    _ ≤ b * j := Nat.mul_le_mul_left b hij

-- An attach to a tree that is not full gets at least one node in.
theorem attachSubtree_grows [DecidableEq W] {t : ImtTree W} (ht : t.Within poseidon2 H k n)
    (hk : k ≤ H) (hroom : t.nextLeafIndex < 2 ^ H) (r : W) :
    t.nextLeafIndex < (attachSubtree poseidon2 r none t).state.nextLeafIndex := by
  have hB := ht.params.B_eq
  rw [attachSubtree_none]
  by_cases haligned : t.nextLeafIndex % t.B = 0
  · have hdvd : 2 ^ k ∣ t.nextLeafIndex := Nat.dvd_of_mod_eq_zero (hB ▸ haligned)
    have hnext : t.nextLeafIndex + 2 ^ k ≤ 2 ^ H := next_block hdvd (pow_dvd_pow 2 hk) hroom
    have hrec := (ht.recordBlock none).params
    obtain ⟨t', ht'⟩ := insertNode_room (t := recordBlock none t) (s := t.logB) r
      (by rw [ht.params.logB_eq, ← hB]; exact haligned)
      (by rw [ht.params.logB_eq, hrec.H_eq]; exact hnext)
    rw [padToBlockBoundary_aligned haligned, Run.bind_returned, ht', Run.state_returned,
      (insertNode_returned ht').2.2.2.2.2]
    exact Nat.lt_add_of_pos_right (Nat.two_pow_pos _)
  · obtain ⟨j, hj⟩ : ∃ j, (t.B - t.nextLeafIndex % t.B) % t.B = j + 1 := by
      refine Nat.exists_eq_succ_of_ne_zero ?_
      have := Nat.mod_lt t.nextLeafIndex (show t.B > 0 by rw [hB]; positivity)
      rw [Nat.mod_eq_of_lt (by omega)]
      omega
    obtain ⟨t1, ht1, hnext1⟩ := appendLeaf_room poseidon2 (t.zeros 0)
      (by rw [ht.params.H_eq]; exact hroom)
    have h1 : t1.Within poseidon2 H k (t.nextLeafIndex + 1) := by
      have hw := ht.appendLeaf (t.zeros 0)
      rw [ht1] at hw
      exact ⟨hw.params, hnext1.ge, hw.le⟩
    rw [padToBlockBoundary, hj, padLoop, ← appendLeaf, ht1, Run.bind_returned]
    exact (Run.bind_keeps (h1.padLoop j) fun s _ hs => (hs.recordBlock none).insertNode r s.logB).ge

theorem attachSubtree_full [DecidableEq W] {t : ImtTree W} (ht : t.Within poseidon2 H k n)
    (hk : k ≤ H) (hfull : t.nextLeafIndex = 2 ^ H) (r : W) :
    attachSubtree poseidon2 r none t = .threw .treeIsFull (recordBlock none t) := by
  have haligned : t.nextLeafIndex % t.B = 0 := by
    rw [hfull, ht.params.B_eq]
    exact Nat.mod_eq_zero_of_dvd (pow_dvd_pow 2 hk)
  have hstride : (recordBlock none t).nextLeafIndex % 2 ^ t.logB = 0 := by
    rw [ht.params.logB_eq, ← ht.params.B_eq]
    exact haligned
  have hover : 2 ^ (recordBlock none t).H < (recordBlock none t).nextLeafIndex + 2 ^ t.logB := by
    change 2 ^ t.H < t.nextLeafIndex + 2 ^ t.logB
    rw [ht.params.H_eq, hfull]
    exact Nat.lt_add_of_pos_right (Nat.two_pow_pos _)
  rw [attachSubtree_none, padToBlockBoundary_aligned haligned, Run.bind_returned, insertNode,
    if_neg (not_not.mpr hstride), if_pos hover]

end Bongtu.Core.ImtTree
