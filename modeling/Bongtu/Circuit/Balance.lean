import Bongtu.Circuit.Notes
import Bongtu.PublicVector

namespace Bongtu.Circuit

open Core Merkle

variable {W Key : Type} [CommRing W]

-- What a proof shows of the notes it moves: inputs that open under the root, outputs in range, and as much value spent
-- and paid in as created and paid out, as soon as the inputs are in range themselves.
structure Moves (poseidon2 : W → W → W) (h : NoteHash W Key) (toNat : W → ℕ) (nLevels : ℕ) (root : W)
    (nullifiers leaves : List W) (paidIn paidOut : ℕ) (inputs : List (Input W)) (outputs : List (Opening W Key)) :
    Prop where
  opened : List.Forall₂ (fun nf y => y.Opens poseidon2 h nLevels root nf) nullifiers inputs
  committed : List.Forall₂ (fun leaf o => Ranged o.value ∧ (leaf = 0 ∨ leaf = h.commitment o)) leaves outputs
  balance : (∀ y ∈ inputs, Ranged y.value) → (outputs.map fun o : Opening W Key => toNat o.value).sum + paidOut ≤
    (inputs.map fun y : Input W => toNat y.value).sum + paidIn

theorem ranged_zero : Ranged (0 : W) := ⟨0, by decide, Nat.cast_zero.symm⟩

theorem sum_range_list (v : ℕ → ℕ) (n : ℕ) : ((List.range n).map v).sum = ∑ i ∈ Finset.range n, v i := by
  rw [← List.sum_toFinset v List.nodup_range, List.toFinset_range]

theorem sum_live (nInputs : ℕ) (live : ℕ → Prop) [DecidablePred live] {v : ℕ → ℕ}
    (hidle : ∀ i < nInputs, ¬live i → v i = 0) :
    (((List.range nInputs).filter fun i => live i).map v).sum = ∑ i ∈ Finset.range nInputs, v i := by
  induction nInputs with
  | zero => rfl
  | succ n ih =>
    rw [List.range_succ, List.filter_append, List.map_append, List.sum_append, Finset.sum_range_succ,
      ih fun i hi => hidle i (Nat.lt_succ_of_lt hi)]
    by_cases hlive : live n
    · simp [hlive]
    · simp [hlive, hidle n (Nat.lt_succ_self n) hlive]

section Spends

variable [DecidableEq W] {g : NoteGadgets W Key} {poseidon2 : W → W → W} {h : NoteHash W Key}
  {toNat : W → ℕ} {nInputs nOutputs nLevels : ℕ} {nullifiers enabled outputCommitments : ℕ → W}
  {root out : W} {x : SpendSignals W Key}

-- The injected flags: an input is enabled exactly when its nullifier is set.
def Injected (nInputs : ℕ) (nullifiers enabled : ℕ → W) : Prop :=
  ∀ i < nInputs, enabled i = if nullifiers i ≠ 0 then 1 else 0

theorem Injected.idle (hinjected : Injected nInputs nullifiers enabled)
    (hbelt : ValueBelt nInputs enabled x.inputValues) : ∀ i < nInputs, nullifiers i = 0 → x.inputValues i = 0 := by
  intro i hi hnf
  refine hbelt.idle hi ?_
  rw [hinjected i hi, if_neg (not_not_intro hnf)]

theorem SpendBase.moves [Nontrivial W] (hread : ReadsNumbers toNat) (hg : g.Sound poseidon2 h)
    (hx : SpendBase g nInputs nOutputs nLevels nullifiers enabled root outputCommitments x)
    (hinjected : Injected nInputs nullifiers enabled)
    (hidle : ∀ i < nInputs, nullifiers i = 0 → x.inputValues i = 0) {paidIn paidOut : ℕ}
    (hbalance : (∀ i < nInputs, Ranged (x.inputValues i)) →
      ∑ j ∈ Finset.range nOutputs, toNat (x.outputValues j) + paidOut ≤
        ∑ i ∈ Finset.range nInputs, toNat (x.inputValues i) + paidIn) :
    ∃ inputs outputs, Moves poseidon2 h toNat nLevels root (stripZeros ((List.range nInputs).map nullifiers))
      ((List.range nOutputs).map outputCommitments) paidIn paidOut inputs outputs := by
  have hopens : ∀ i, ∃ leafIndex, i < nInputs → nullifiers i ≠ 0 →
      (x.spent nLevels i leafIndex).Opens poseidon2 h nLevels root (nullifiers i) := by
    intro i
    by_cases hi : i < nInputs ∧ nullifiers i ≠ 0
    · have henabled : enabled i = 1 := by rw [hinjected i hi.1, if_pos hi.2]
      obtain ⟨leafIndex, hleaf⟩ := hx.opens hg hi.1 henabled hi.2
      exact ⟨leafIndex, fun _ _ => hleaf⟩
    · exact ⟨0, fun hlt hne => absurd ⟨hlt, hne⟩ hi⟩
  choose leafIndex hleaf using hopens
  have hzero : toNat (0 : W) = 0 := by
    have hread0 := hread 0 (by decide)
    rwa [Nat.cast_zero] at hread0
  have hstrip : stripZeros ((List.range nInputs).map nullifiers) =
      ((List.range nInputs).filter fun i => nullifiers i ≠ 0).map nullifiers := by
    rw [stripZeros, List.filter_map]
    rfl
  refine ⟨((List.range nInputs).filter fun i => nullifiers i ≠ 0).map fun i => x.spent nLevels i (leafIndex i),
    (List.range nOutputs).map x.output, ?_, ?_, fun hranged => ?_⟩
  · rw [hstrip, List.forall₂_map_left_iff, List.forall₂_map_right_iff, List.forall₂_same]
    intro i hi
    obtain ⟨hmem, hne⟩ := List.mem_filter.mp hi
    exact hleaf i (List.mem_range.mp hmem) (by simpa using hne)
  · rw [List.forall₂_map_left_iff, List.forall₂_map_right_iff, List.forall₂_same]
    intro j hj
    have hj := List.mem_range.mp hj
    exact ⟨hg.checkPositive hx.positive j hj, hg.checkHashes hx.outputs j hj⟩
  · have hall : ∀ i < nInputs, Ranged (x.inputValues i) := by
      intro i hi
      by_cases hnf : nullifiers i = 0
      · rw [hidle i hi hnf]
        exact ranged_zero
      · exact hranged _ (List.mem_map_of_mem (List.mem_filter.mpr ⟨List.mem_range.mpr hi, by simpa using hnf⟩))
    have hlive := sum_live nInputs (nullifiers · ≠ 0) (v := fun i => toNat (x.inputValues i)) fun i hi hnf => by rw [hidle i hi (not_not.mp hnf), hzero]
    rw [List.map_map, List.map_map]
    change (List.map (fun j => toNat (x.outputValues j)) (List.range nOutputs)).sum + paidOut ≤
      (List.map (fun i => toNat (x.inputValues i)) ((List.range nInputs).filter fun i => nullifiers i ≠ 0)).sum + paidIn
    rw [hlive, sum_range_list]
    exact hbalance hall

section Templates

variable [Nontrivial W] (hread : ReadsNumbers toNat) (hg : g.Sound poseidon2 h)
  (hinjected : Injected nInputs nullifiers enabled)

include hread hg hinjected

theorem ZetoTransferSmall.moves
    (hx : ZetoTransferSmall g nInputs nOutputs nLevels nullifiers enabled root outputCommitments x)
    (hfew : nInputs ≤ 2 ^ 64) (hfew' : nOutputs ≤ 2 ^ 64) :
    ∃ inputs outputs, Moves poseidon2 h toNat nLevels root (stripZeros ((List.range nInputs).map nullifiers))
      ((List.range nOutputs).map outputCommitments) 0 0 inputs outputs := by
  obtain ⟨hbase, hsum, hbelt⟩ := hx
  refine hbase.moves hread hg hinjected (hinjected.idle hbelt) fun hinputs => ?_
  exact (checkSum_numbers hread hg hsum hfew hfew' hinputs (hg.checkPositive hbase.positive)).ge

theorem CheckNullifiersInputsOutputsValueIMT.moves
    (hx : CheckNullifiersInputsOutputsValueIMT g nInputs nOutputs nLevels nullifiers enabled root outputCommitments out
      x) (hfew : nInputs ≤ 2) (hfew' : nOutputs ≤ 1) :
    ∃ inputs outputs, Moves poseidon2 h toNat nLevels root (stripZeros ((List.range nInputs).map nullifiers))
      ((List.range nOutputs).map outputCommitments) 0 (toNat out) inputs outputs := by
  obtain ⟨hbase, hbelt, hge, hout⟩ := hx
  refine hbase.moves hread hg hinjected (hinjected.idle hbelt) fun hinputs => ?_
  exact (withdraw_numbers hread hg hfew hfew' hge hout hinputs (hg.checkPositive hbase.positive)).ge

theorem Zeto.moves {subtreeRoot : W}
    (hx : Zeto g nInputs nOutputs nLevels nullifiers enabled root subtreeRoot outputCommitments x)
    (hlive : ∀ i < nInputs, nullifiers i ≠ 0) (hfew : nInputs ≤ 2 ^ 64) (hfew' : nOutputs ≤ 2 ^ 64) :
    ∃ inputs outputs, Moves poseidon2 h toNat nLevels root (stripZeros ((List.range nInputs).map nullifiers))
      ((List.range nOutputs).map outputCommitments) 0 0 inputs outputs := by
  obtain ⟨hbase, hsum, -⟩ := hx
  refine hbase.moves hread hg hinjected (fun i hi hnf => absurd hnf (hlive i hi)) fun hinputs => ?_
  exact (checkSum_numbers hread hg hsum hfew hfew' hinputs (hg.checkPositive hbase.positive)).ge

end Templates

end Spends

theorem BongtuDepositAuthority.moves {g : NoteGadgets W Key} {poseidon2 : W → W → W} {h : NoteHash W Key}
    {toNat : W → ℕ} {nOutputs : ℕ} {outputCommitments : ℕ → W} {out : W} {x : MintSignals W Key}
    (hread : ReadsNumbers toNat) (hg : g.Sound poseidon2 h)
    (hx : BongtuDepositAuthority g nOutputs outputCommitments out x) (hfew : nOutputs ≤ 2 ^ 64) (nLevels : ℕ) (root : W) :
    ∃ inputs outputs, Moves poseidon2 h toNat nLevels root [] ((List.range nOutputs).map outputCommitments) (toNat out) 0
      inputs outputs := by
  obtain ⟨hpositive, hhashes, hout⟩ := hx
  refine ⟨[], (List.range nOutputs).map x.output, .nil, ?_, fun _ => ?_⟩
  · rw [List.forall₂_map_left_iff, List.forall₂_map_right_iff, List.forall₂_same]
    intro j hj
    have hj := List.mem_range.mp hj
    exact ⟨hg.checkPositive hpositive j hj, hg.checkHashes hhashes j hj⟩
  · rw [List.map_map, deposit_numbers hread hfew hout (hg.checkPositive hpositive), ← sum_range_list]
    exact le_of_eq (Nat.zero_add _).symm

-- A proof that moves notes still shows what it spends when none of its outputs is kept.
theorem Moves.dropped {poseidon2 : W → W → W} {h : NoteHash W Key} {toNat : W → ℕ} {nLevels : ℕ} {root : W}
    {nullifiers leaves : List W} {paidIn paidOut : ℕ} {inputs : List (Input W)} {outputs : List (Opening W Key)}
    (hm : Moves poseidon2 h toNat nLevels root nullifiers leaves paidIn paidOut inputs outputs) :
    Moves poseidon2 h toNat nLevels root nullifiers [] paidIn paidOut inputs [] :=
  ⟨hm.opened, .nil, fun hinputs => le_trans (by simp) (hm.balance hinputs)⟩

end Bongtu.Circuit
