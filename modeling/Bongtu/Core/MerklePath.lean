import Bongtu.Core.Imt
import Bongtu.Merkle.Path

set_option linter.unusedSectionVars false

namespace Bongtu.Core

open Merkle

variable {W : Type}

structure PathFold (W : Type) where
  siblings : List W
  pathIndices : List ℕ
  level : List W

namespace ImtTree

variable [Zero W] (poseidon2 : W → W → W)

def merklePathLevel (zeros : ℕ → W) (leafIndex : ℕ) (acc : PathFold W) (j : ℕ) : PathFold W :=
  let idx := leafIndex / 2 ^ j
  let bit := idx % 2
  let siblingIndex := if bit = 1 then idx - 1 else idx + 1
  { siblings := acc.siblings ++ [acc.level.getD siblingIndex (zeros j)]
    pathIndices := acc.pathIndices ++ [bit]
    level := pairLevel poseidon2 zeros acc.level j }

def merklePath (t : ImtTree W) (leafIndex : ℕ) : Except ImtError (List W × List ℕ) :=
  if leafIndex ≥ t.nextLeafIndex then .error (.leafIndexOutOfRange leafIndex t.nextLeafIndex)
  else match (List.range t.nextLeafIndex).find? fun i => (t.leaves.getD i none).isNone with
    | some i => .error (.leafNotRecorded i)
    | none =>
      let folded := (List.range t.H).foldl (merklePathLevel poseidon2 t.zeros leafIndex)
        ⟨[], [], (t.leaves.take t.nextLeafIndex).map fun x => x.getD 0⟩
      .ok (folded.siblings, folded.pathIndices)

end ImtTree

-- `pathIndices[j]` is bit j of the leaf index, so the fold reads the index alone.
def foldToRoot (poseidon2 : W → W → W) (leaf : W) (siblings : List W) (leafIndex : ℕ) : W :=
  siblings.zipIdx.foldl (fun node sibling =>
    if leafIndex / 2 ^ sibling.2 % 2 = 1 then poseidon2 sibling.1 node else poseidon2 node sibling.1) leaf

theorem foldToRoot_injective {poseidon2 : W → W → W} (h : Function.Injective2 poseidon2) {leaf leaf' : W}
    {siblings : List W} {leafIndex : ℕ}
    (heq : foldToRoot poseidon2 leaf siblings leafIndex = foldToRoot poseidon2 leaf' siblings leafIndex) :
    leaf = leaf' := by
  have key : ∀ (nodes : List (W × ℕ)) (a b : W),
      nodes.foldl (fun node sibling => if leafIndex / 2 ^ sibling.2 % 2 = 1 then
        poseidon2 sibling.1 node else poseidon2 node sibling.1) a =
      nodes.foldl (fun node sibling => if leafIndex / 2 ^ sibling.2 % 2 = 1 then
        poseidon2 sibling.1 node else poseidon2 node sibling.1) b → a = b := by
    intro nodes
    induction nodes with
    | nil => exact fun _ _ hab => hab
    | cons sibling nodes ih =>
      intro a b hab
      have hstep := ih _ _ hab
      dsimp only at hstep
      split_ifs at hstep
      · exact (h hstep).2
      · exact (h hstep).1
  exact key _ leaf leaf' heq

theorem foldToRoot_snoc (poseidon2 : W → W → W) (leaf sibling : W) (siblings : List W) (leafIndex : ℕ) :
    foldToRoot poseidon2 leaf (siblings ++ [sibling]) leafIndex =
      if leafIndex / 2 ^ siblings.length % 2 = 1 then
        poseidon2 sibling (foldToRoot poseidon2 leaf siblings leafIndex)
      else poseidon2 (foldToRoot poseidon2 leaf siblings leafIndex) sibling := by
  simp [foldToRoot, List.zipIdx_append]

section Nodes

variable {poseidon2 : W → W → W} {N : ℕ → ℕ → W}

-- A node and its sibling join to the node above them, on the side the index bit says.
theorem join_buddy {l i : ℕ}
    (hN : N (l + 1) (i / 2) = poseidon2 (N l (2 * (i / 2))) (N l (2 * (i / 2) + 1))) :
    (if i % 2 = 1 then poseidon2 (N l (buddy i)) (N l i) else poseidon2 (N l i) (N l (buddy i))) =
      N (l + 1) (i / 2) := by
  rcases Nat.mod_two_eq_zero_or_one i with hi | hi
  · rw [if_neg (by omega), buddy_even hi, hN, show 2 * (i / 2) = i by omega]
  · rw [if_pos hi, buddy_odd hi, hN, show 2 * (i / 2) + 1 = i by omega,
      show 2 * (i / 2) = i - 1 by omega]

theorem foldToRoot_nodes (i H : ℕ) (hN : ∀ l < H, N (l + 1) (i / 2 ^ (l + 1)) =
      poseidon2 (N l (2 * (i / 2 ^ (l + 1)))) (N l (2 * (i / 2 ^ (l + 1)) + 1))) :
    foldToRoot poseidon2 (N 0 i) ((List.range H).map fun l => N l (buddy (i / 2 ^ l))) i =
      N H (i / 2 ^ H) := by
  induction H with
  | zero => simp [foldToRoot]
  | succ H ih =>
    have hhalf : i / 2 ^ (H + 1) = i / 2 ^ H / 2 := by rw [pow_succ, Nat.div_div_eq_div_mul]
    have hstep := hN H (Nat.lt_succ_self H)
    rw [hhalf] at hstep
    rw [List.range_succ, List.map_append, List.map_singleton, foldToRoot_snoc,
      ih fun l hl => hN l (by omega), List.length_map, List.length_range, hhalf]
    exact join_buddy hstep

variable [Zero W]

theorem foldl_merklePathLevel (zeros : ℕ → W) {n : ℕ} (leafIndex d : ℕ)
    (hhash : ∀ l < d, ∀ i, N (l + 1) i = poseidon2 (N l (2 * i)) (N l (2 * i + 1)))
    (hright : ∀ l < d, ∀ i, n ≤ i * 2 ^ l → N l i = zeros l) :
    ∃ m, n ≤ m * 2 ^ d ∧
      (List.range d).foldl (ImtTree.merklePathLevel poseidon2 zeros leafIndex)
        ⟨[], [], (List.range n).map (N 0)⟩ =
      ⟨(List.range d).map fun l => N l (buddy (leafIndex / 2 ^ l)),
        (List.range d).map fun l => leafIndex / 2 ^ l % 2, (List.range m).map (N d)⟩ := by
  induction d with
  | zero => exact ⟨n, by simp, rfl⟩
  | succ d ih =>
    obtain ⟨m, hm, hfold⟩ := ih (fun l hl => hhash l (by omega)) fun l hl => hright l (by omega)
    have hend : ∀ i, m ≤ i → N d i = zeros d := fun i hi =>
      hright d (Nat.lt_succ_self d) i (hm.trans (Nat.mul_le_mul_right _ hi))
    refine ⟨(m + 1) / 2, ?_, ?_⟩
    · have hhalf : m ≤ (m + 1) / 2 * 2 := by omega
      rw [pow_succ', ← mul_assoc]
      exact hm.trans (Nat.mul_le_mul_right _ hhalf)
    · rw [List.range_succ, List.foldl_append, hfold, List.foldl_cons, List.foldl_nil,
        ImtTree.merklePathLevel, ImtTree.pairLevel_eq,
        pairUp_level (hhash d (Nat.lt_succ_self d)) hend, List.map_append, List.map_append]
      refine congrArg₂ (PathFold.mk · _ ·) ?_ rfl
      exact congrArg₂ _ rfl (congrArg (fun x => [x]) (getD_nodes (hend _)))

theorem merklePath_nodes {t : ImtTree W} {H k leafIndex : ℕ} (hp : t.Params poseidon2 H k)
    (hleaves : t.leaves = (List.range t.nextLeafIndex).map fun i => some (N 0 i))
    (hhash : ∀ l i, N (l + 1) i = poseidon2 (N l (2 * i)) (N l (2 * i + 1)))
    (hright : ∀ l i, t.nextLeafIndex ≤ i * 2 ^ l → N l i = zeroNode poseidon2 0 l)
    (hindex : leafIndex < t.nextLeafIndex) :
    t.merklePath poseidon2 leafIndex =
      .ok ((List.range H).map fun l => N l (buddy (leafIndex / 2 ^ l)),
        (List.range H).map fun l => leafIndex / 2 ^ l % 2) := by
  have hnone : (List.range t.nextLeafIndex).find? (fun i => (t.leaves.getD i none).isNone) = none := by
    rw [List.find?_eq_none]
    intro i hi
    have hlt := List.mem_range.mp hi
    simp [hleaves, List.getD_eq_getElem?_getD, hlt]
  have hbase : (t.leaves.take t.nextLeafIndex).map (fun x => x.getD 0) =
      (List.range t.nextLeafIndex).map (N 0) := by
    rw [hleaves, List.take_of_length_le (by simp), List.map_map]
    rfl
  obtain ⟨m, -, hfold⟩ := foldl_merklePathLevel t.zeros leafIndex H
    (fun l _ => hhash l) fun l hl i hi => (hright l i hi).trans (hp.zeros_eq l hl.le).symm
  simp only [ImtTree.merklePath, ge_iff_le, not_le.mpr hindex, if_false, hnone, hbase, hp.H_eq, hfold]

end Nodes

namespace ImtTree

-- The tree has recorded every leaf below the frontier.
def Dense [Zero W] (L : ℕ → W) (t : ImtTree W) : Prop :=
  t.leaves = (List.range t.nextLeafIndex).map fun i => some (L i)

section Dense

variable [Zero W] {poseidon2 : W → W → W} {L : ℕ → W} {t t' : ImtTree W}

theorem jsSet_dense (n : ℕ) {v : W} (hv : L n = v) :
    jsSet ((List.range n).map fun i => some (L i)) n (some v) =
      (List.range (n + 1)).map fun i => some (L i) := by
  simp [jsSet, List.range_succ, hv]

theorem Dense.insertNode {k : ℕ}
    (ht : t.leaves = (List.range (t.nextLeafIndex + 2 ^ k)).map fun i => some (L i))
    {node : W} (h : ImtTree.insertNode poseidon2 node k t = .returned t') : Dense L t' := by
  obtain ⟨-, -, -, -, hleaves, hnext⟩ := insertNode_returned h
  rw [Dense, hleaves, hnext, ht]

theorem Dense.appendLeaf (ht : Dense L t) {v : W} (hv : L t.nextLeafIndex = v)
    (h : appendLeaf poseidon2 v t = .returned t') : Dense L t' := by
  refine Dense.insertNode ?_ h
  rw [recordLeaf, ht, jsSet_dense _ hv, pow_zero]

theorem Dense.padLoop (j : ℕ) : ∀ {t t' : ImtTree W}, Dense L t →
    (∀ i, t.nextLeafIndex ≤ i → i < t.nextLeafIndex + j → L i = t.zeros 0) →
    padLoop poseidon2 j t = .returned t' → Dense L t' ∧ t'.nextLeafIndex = t.nextLeafIndex + j := by
  induction j with
  | zero =>
    intro t t' ht _ h
    cases h
    exact ⟨ht, rfl⟩
  | succ j ih =>
    intro t t' ht hpad h
    obtain ⟨m, hm, h⟩ := Outcome.Run.bind_eq_returned.mp h
    obtain ⟨-, -, -, hzeros, -, hnext⟩ := insertNode_returned hm
    have hnext' : m.nextLeafIndex = t.nextLeafIndex + 1 := hnext
    have hdense : Dense L m := ht.appendLeaf (hpad _ le_rfl (by omega)) hm
    obtain ⟨hdense', hlast⟩ := ih hdense (fun i hlo hhi => by
      rw [hzeros]
      exact hpad i (by omega) (by omega)) h
    exact ⟨hdense', by omega⟩

theorem Dense.recordBlock (ht : Dense L t) {leaves : List W}
    (hblock : ∀ o < t.B, L (t.nextLeafIndex + o) = leaves.getD o (t.zeros 0)) :
    (recordBlock (some leaves) t).leaves =
      (List.range (t.nextLeafIndex + t.B)).map fun i => some (L i) := by
  have key : ∀ n ≤ t.B, (List.range n).foldl
      (fun acc k => jsSet acc (t.nextLeafIndex + k) (some (leaves.getD k (t.zeros 0)))) t.leaves =
      (List.range (t.nextLeafIndex + n)).map fun i => some (L i) := by
    intro n
    induction n with
    | zero => exact fun _ => ht
    | succ n ih =>
      intro hn
      rw [List.range_succ, List.foldl_append, ih (by omega), List.foldl_cons, List.foldl_nil,
        jsSet_dense _ (hblock n hn), add_assoc]
  exact key t.B le_rfl

theorem Dense.attachSubtree [DecidableEq W] {H k : ℕ} (hp : t.Params poseidon2 H k) (ht : Dense L t)
    {r : W} {leaves : List W}
    (hpad : ∀ i, t.nextLeafIndex ≤ i → i < t.nextLeafIndex + Content.padding k t.nextLeafIndex → L i = 0)
    (hblock : ∀ o < 2 ^ k,
      L (t.nextLeafIndex + Content.padding k t.nextLeafIndex + o) = leaves.getD o 0)
    (h : attachSubtree poseidon2 r (some leaves) t = .returned t') : Dense L t' := by
  rw [ImtTree.attachSubtree] at h
  split at h
  · cases h
  · obtain ⟨m, hm, h⟩ := Outcome.Run.bind_eq_returned.mp h
    have hp' := hp.padLoop _ hm
    rw [padToBlockBoundary, hp.B_eq] at hm
    have hzero : t.zeros 0 = 0 := hp.zeros_eq 0 (Nat.zero_le H)
    obtain ⟨hdense, hnext⟩ := ht.padLoop _ (fun i hlo hhi => (hpad i hlo hhi).trans hzero.symm) hm
    have hzero' : m.zeros 0 = 0 := hp'.zeros_eq 0 (Nat.zero_le H)
    refine Dense.insertNode ?_ h
    rw [hdense.recordBlock fun o ho => ?_, hp'.B_eq, hp'.logB_eq]
    · rfl
    · rw [hp'.B_eq] at ho
      rw [hnext, hzero']
      exact hblock o ho

end Dense

end ImtTree

end Bongtu.Core
