import Bongtu.Indexer.Disclosure
import Bongtu.Circuit.DisclosureHash
import Bongtu.Core.Primes
import Bongtu.Evm.Gate

namespace Bongtu.Indexer

open Core Merkle

section Fold

variable {p : Primitives} {run : List ℕ}

-- A level of `2 ^ j` nodes folds to the node `j` levels above its first.
theorem foldPairs_nodes {j : ℕ} : ∀ {fuel l : ℕ}, j ≤ fuel →
    foldPairs p fuel ((List.range (2 ^ j)).map ((Content.ofLeaves run).nodeAt p.poseidon2 0 l)) =
      [(Content.ofLeaves run).nodeAt p.poseidon2 0 (l + j) 0] := by
  induction j with
  | zero =>
    intro fuel l _
    cases fuel <;> simp [foldPairs]
  | succ j ih =>
    intro fuel l hj
    obtain ⟨fuel, rfl⟩ := Nat.exists_eq_add_of_lt hj
    have hpos := Nat.one_le_two_pow (n := j)
    have hdouble : 2 ^ (j + 1) = 2 * 2 ^ j := by ring
    have hnext : (List.range (2 ^ j)).map (fun m => p.poseidon2
        (((List.range (2 ^ (j + 1))).map ((Content.ofLeaves run).nodeAt p.poseidon2 0 l)).getD (2 * m) 0)
        (((List.range (2 ^ (j + 1))).map ((Content.ofLeaves run).nodeAt p.poseidon2 0 l)).getD (2 * m + 1) 0)) =
        (List.range (2 ^ j)).map ((Content.ofLeaves run).nodeAt p.poseidon2 0 (l + 1)) := by
      refine List.map_congr_left fun m hm => ?_
      have hm := List.mem_range.mp hm
      rw [Content.ofLeaves_hash, getD_nodes_lt 0 (by omega), getD_nodes_lt 0 (by omega)]
    rw [foldPairs, if_neg (by simp), List.length_map, List.length_range, hdouble,
      Nat.mul_div_cancel_left _ Nat.two_pos, ← hdouble, hnext, ih (by omega)]
    congr 2
    omega

theorem foldRun_eq {k : ℕ} (hrun : run.length = 2 ^ k) :
    foldRun p run = (Content.ofLeaves run).nodeAt p.poseidon2 0 k 0 := by
  have hleaves : run = (List.range (2 ^ k)).map ((Content.ofLeaves run).nodeAt p.poseidon2 0 0) := by
    refine List.ext_getElem (by simp [hrun]) fun i hi _ => ?_
    simp [Content.ofLeaves_leaf, hi]
  have hfold : foldPairs p run.length run = [(Content.ofLeaves run).nodeAt p.poseidon2 0 (0 + k) 0] := by
    conv_lhs => rw [hleaves]
    exact foldPairs_nodes (by simpa [hrun] using Nat.lt_two_pow_self.le)
  rw [foldRun, hfold, Nat.zero_add, List.getD_cons_zero]

end Fold

section Verdict

variable {p : Primitives} {disclosure : List ℕ} {onchainDH subtreeRoot batchSize startLeafIndex : ℕ}
  {txHash : TxHash}

-- The checks of a verdict, in their order.
structure Published (p : Primitives) (disclosure : List ℕ) (onchainDH subtreeRoot batchSize : ℕ) : Prop where
  length : disclosure.length = consumerDisclosureLen batchSize
  canonical : ∀ x ∈ disclosure, x < snarkScalarField
  chain : p.disclosureChain disclosure = onchainDH
  fold : foldRun p ((disclosure.drop (5 * batchSize)).take batchSize) = subtreeRoot

theorem verifyConsumerDisclosure_published (hB : 0 < batchSize)
    (h : Published p disclosure onchainDH subtreeRoot batchSize) :
    verifyConsumerDisclosure p disclosure onchainDH subtreeRoot batchSize txHash startLeafIndex =
      ⟨⟨.verified, txHash, startLeafIndex, disclosure.length, 4 * batchSize, onchainDH, onchainDH⟩,
        some ((disclosure.drop (5 * batchSize)).take batchSize)⟩ := by
  have hlen : disclosure.length ≠ 0 := by
    rw [h.length, consumerDisclosureLen]
    omega
  have hany : disclosure.any (snarkScalarField ≤ ·) ≠ true := fun hany => by
    obtain ⟨x, hx, hge⟩ := List.any_eq_true.mp hany
    exact absurd (h.canonical x hx) (by simpa using hge)
  rw [verifyConsumerDisclosure]
  dsimp only
  rw [if_neg hlen, if_neg (not_not.mpr h.length), if_neg hany, if_neg (not_not.mpr h.chain),
    if_neg (not_not.mpr h.fold), h.chain]

theorem published_of_verified {v : ConsumerDisclosureVerdict}
    (hv : verifyConsumerDisclosure p disclosure onchainDH subtreeRoot batchSize txHash startLeafIndex = v)
    (hpass : v.result.status = .verified ∨ v.leaves ≠ none) :
    Published p disclosure onchainDH subtreeRoot batchSize := by
  subst hv
  unfold verifyConsumerDisclosure at hpass
  dsimp only at hpass
  split_ifs at hpass with hempty hlen hany hchain hfold
  all_goals try simp at hpass
  refine ⟨not_not.mp hlen, fun x hx => ?_, not_not.mp hchain, not_not.mp hfold⟩
  by_contra hge
  exact hany (List.any_eq_true.mpr ⟨x, hx, by simpa using hge⟩)

theorem verified_iff (hB : 0 < batchSize) :
    (verifyConsumerDisclosure p disclosure onchainDH subtreeRoot batchSize txHash
        startLeafIndex).result.status = .verified ↔
      Published p disclosure onchainDH subtreeRoot batchSize := by
  refine ⟨fun h => published_of_verified rfl (.inl h), fun h => ?_⟩
  rw [verifyConsumerDisclosure_published hB h]

theorem leaves_isSome_iff (hB : 0 < batchSize) :
    (verifyConsumerDisclosure p disclosure onchainDH subtreeRoot batchSize txHash
        startLeafIndex).leaves.isSome ↔
      Published p disclosure onchainDH subtreeRoot batchSize := by
  refine ⟨fun h => published_of_verified rfl (.inr (Option.ne_none_iff_isSome.mpr h)), fun h => ?_⟩
  rw [verifyConsumerDisclosure_published hB h]
  rfl

theorem length_run (hlen : disclosure.length = 6 * batchSize) :
    ((disclosure.drop (5 * batchSize)).take batchSize).length = batchSize := by
  rw [List.length_take, List.length_drop, hlen]
  omega

theorem checkDisclosure_ok {W T : Type} [Zero W] {env : Evm.Env W T} {words : List W}
    (hcanonical : ∀ x ∈ words.map env.toNat, x < snarkScalarField) :
    Evm.World.checkDisclosure env words = .ok () := by
  have hfind : words.findIdx? (fun x => decide (snarkScalarField ≤ env.toNat x)) = none := by
    refine List.findIdx?_eq_none_iff.mpr fun x hx => ?_
    simpa using hcanonical _ (List.mem_map_of_mem hx)
  rw [Evm.World.checkDisclosure, hfind]

end Verdict

section Circuit

open Circuit

abbrev ScalarField : Type := ZMod snarkScalarField

instance : NeZero snarkScalarField := ⟨snarkScalarField_pos.ne'⟩

variable {p : Primitives} {poseidon2 : ScalarField → ScalarField → ScalarField}

-- The hash over integers reduces what it reads and returns the field's hash.
def Reduces (p : Primitives) (poseidon2 : ScalarField → ScalarField → ScalarField) : Prop :=
  ∀ a b : ℕ, p.poseidon2 a b = (poseidon2 a b).val

theorem Reduces.foldl (hp : Reduces p poseidon2) (elements : List ScalarField) : ∀ acc : ScalarField,
    (elements.map ZMod.val).foldl p.poseidon2 acc.val = (elements.foldl poseidon2 acc).val := by
  induction elements with
  | nil => exact fun _ => rfl
  | cons x elements ih =>
    intro acc
    rw [List.map_cons, List.foldl_cons, List.foldl_cons, hp, ZMod.natCast_zmod_val, ZMod.natCast_zmod_val, ih]

theorem Reduces.chain (hp : Reduces p poseidon2) (elements : List ScalarField) :
    p.disclosureChain (elements.map ZMod.val) = (elements.foldl poseidon2 0).val := by
  rw [← hp.foldl elements 0, ZMod.val_zero]
  rfl

theorem Reduces.node (hp : Reduces p poseidon2) (run : List ScalarField) (l : ℕ) : ∀ i,
    (Content.ofLeaves (run.map ZMod.val)).nodeAt p.poseidon2 0 l i =
      ((Content.ofLeaves run).nodeAt poseidon2 0 l i).val := by
  induction l with
  | zero =>
    intro i
    rw [Content.ofLeaves_leaf, Content.ofLeaves_leaf, List.getD_eq_getElem?_getD, List.getD_eq_getElem?_getD,
      List.getElem?_map]
    cases run[i]? <;> simp
  | succ l ih =>
    intro i
    rw [Content.ofLeaves_hash, Content.ofLeaves_hash, ih, ih, hp, ZMod.natCast_zmod_val,
      ZMod.natCast_zmod_val]

theorem map_val_natCast {elements : List ℕ} (hcanonical : ∀ x ∈ elements, x < snarkScalarField) :
    (elements.map fun x : ℕ => (x : ScalarField)).map ZMod.val = elements := by
  rw [List.map_map]
  conv_rhs => rw [← List.map_id elements]
  exact List.map_congr_left fun x hx => ZMod.val_natCast_of_lt (hcanonical x hx)

variable {g : Gadgets ScalarField} {k : ℕ} {cipherTexts : ℕ → ℕ → ScalarField}
  {viewTags outputCommitments : ℕ → ScalarField} {disclosureHash subtreeRoot : ScalarField}

-- What the circuit hashed, published as integers, verifies.
theorem published_of_circuit (hp : Reduces p poseidon2) (hg : g.Hashes poseidon2)
    (hhash : DisclosureHash g (2 ^ k) cipherTexts viewTags outputCommitments disclosureHash)
    (hroot : SubtreeRoot g (2 ^ k) outputCommitments subtreeRoot) :
    Published p ((ctFlat (2 ^ k) cipherTexts viewTags outputCommitments).map ZMod.val) disclosureHash.val
      subtreeRoot.val (2 ^ k) where
  length := by rw [List.length_map, length_ctFlat, consumerDisclosureLen]
  canonical x hx := by
    obtain ⟨v, -, rfl⟩ := List.mem_map.mp hx
    exact v.val_lt
  chain := by rw [hp.chain, disclosureHash_eq hg hhash]
  fold := by
    rw [← List.map_drop, ← List.map_take, commitments_ctFlat, foldRun_eq (k := k) (by simp), hp.node,
      subtreeRoot_eq hg hroot]

-- The only published list that verifies is the one the circuit hashed.
theorem Published.eq_circuit {disclosure : List ℕ} {root : ℕ} (hp : Reduces p poseidon2)
    (hg : g.Hashes poseidon2) (h : Published p disclosure disclosureHash.val root (2 ^ k))
    (hhash : DisclosureHash g (2 ^ k) cipherTexts viewTags outputCommitments disclosureHash)
    (hfree : HashChain.CollisionFree poseidon2
      (HashChain.hashed poseidon2 0 (disclosure.map fun x : ℕ => (x : ScalarField)) ++
        HashChain.hashed poseidon2 0 (ctFlat (2 ^ k) cipherTexts viewTags outputCommitments))) :
    disclosure = (ctFlat (2 ^ k) cipherTexts viewTags outputCommitments).map ZMod.val := by
  have hlen : (disclosure.map fun x : ℕ => (x : ScalarField)).length =
      (ctFlat (2 ^ k) cipherTexts viewTags outputCommitments).length := by
    rw [List.length_map, h.length, length_ctFlat, consumerDisclosureLen]
  have hfold := h.chain
  rw [← map_val_natCast h.canonical, hp.chain, disclosureHash_eq hg hhash] at hfold
  rw [← (HashChain.foldl_injective hlen hfree (ZMod.val_injective _ hfold)).2, map_val_natCast h.canonical]

theorem consumer_disclosure_verdict (p : Primitives) (disclosure : List ℕ) (onchainDH subtreeRoot k : ℕ)
    (txHash : TxHash) (startLeafIndex : ℕ) :
    let verdict := verifyConsumerDisclosure p disclosure onchainDH subtreeRoot (2 ^ k) txHash startLeafIndex
    let run := (disclosure.drop (5 * 2 ^ k)).take (2 ^ k)
    (verdict.result.status = .verified ∧ verdict.leaves = some run ↔
      disclosure.length = 6 * 2 ^ k ∧ (∀ x ∈ disclosure, x < snarkScalarField) ∧
        p.disclosureChain disclosure = onchainDH ∧
        (Content.ofLeaves run).nodeAt p.poseidon2 0 k 0 = subtreeRoot) ∧
    (verdict.result.status = .verified ↔ verdict.leaves.isSome) ∧
    (verdict.result.status = .verified →
      (∀ (poseidon2 : ScalarField → ScalarField → ScalarField) (g : Gadgets ScalarField)
        (cipherTexts : ℕ → ℕ → ScalarField) (viewTags outputCommitments : ℕ → ScalarField)
        (disclosureHash : ScalarField), Reduces p poseidon2 → g.Hashes poseidon2 →
        DisclosureHash g (2 ^ k) cipherTexts viewTags outputCommitments disclosureHash →
        disclosureHash.val = onchainDH →
        HashChain.CollisionFree poseidon2
          (HashChain.hashed poseidon2 0 (disclosure.map fun x : ℕ => (x : ScalarField)) ++
            HashChain.hashed poseidon2 0 (ctFlat (2 ^ k) cipherTexts viewTags outputCommitments)) →
        disclosure = (ctFlat (2 ^ k) cipherTexts viewTags outputCommitments).map ZMod.val) ∧
      ∀ (W T : Type) [Zero W] (env : Evm.Env W T) (words : List W), words.map env.toNat = disclosure →
        words.length = 6 * 2 ^ k ∧ Evm.World.checkDisclosure env words = .ok ()) := by
  have hB : 0 < 2 ^ k := Nat.two_pow_pos k
  intro verdict run
  have hstatus : verdict.result.status = .verified ↔ Published p disclosure onchainDH subtreeRoot (2 ^ k) :=
    verified_iff hB
  refine ⟨⟨fun h => ?_, fun h => ?_⟩, hstatus.trans (leaves_isSome_iff hB).symm, fun h => ⟨?_, ?_⟩⟩
  · obtain ⟨hlen, hcanonical, hchain, hfold⟩ := hstatus.mp h.1
    refine ⟨hlen, hcanonical, hchain, ?_⟩
    rwa [foldRun_eq (length_run hlen)] at hfold
  · obtain ⟨hlen, hcanonical, hchain, hfold⟩ := h
    rw [← foldRun_eq (length_run hlen)] at hfold
    have hv : verdict = _ := verifyConsumerDisclosure_published hB ⟨hlen, hcanonical, hchain, hfold⟩
    rw [hv]
    exact ⟨rfl, rfl⟩
  · rintro poseidon2 g cipherTexts viewTags outputCommitments disclosureHash hp hg hhash rfl hfree
    exact (hstatus.mp h).eq_circuit hp hg hhash hfree
  · rintro W T _ env words rfl
    have hpublished := hstatus.mp h
    have hlen := hpublished.length
    rw [List.length_map, consumerDisclosureLen] at hlen
    exact ⟨hlen, checkDisclosure_ok hpublished.canonical⟩

-- A batch of one output under a hash that is linear in its inputs.
def sampleHash (l r : ScalarField) : ScalarField := 1 + 3 * l + r

def linearPrimitives : Primitives :=
  { plainPrimitives with poseidonN := fun xs => (sampleHash (xs.getD 0 0 : ℕ) (xs.getD 1 0 : ℕ)).val }

theorem consumer_disclosure_verdict_sample :
    let verdict := verifyConsumerDisclosure linearPrimitives [1, 2, 3, 4, 5, 6] 907 6 1 7 0
    verdict.result.status = .verified ∧ verdict.leaves = some [6] ∧
      [1, 2, 3, 4, 5, 6] =
        (ctFlat (2 ^ 0) (fun _ j => (j + 1 : ScalarField)) (fun _ => 5) fun _ => 6).map ZMod.val ∧
      Evm.World.checkDisclosure Evm.permissive [1, 2, 3, 4, 5, 6] = .ok () := by
  intro verdict
  obtain ⟨hverdict, -, hpass⟩ := consumer_disclosure_verdict linearPrimitives [1, 2, 3, 4, 5, 6] 907 6 0 7 0
  have hv : verdict.result.status = .verified ∧ verdict.leaves = some [6] :=
    hverdict.mpr ⟨by decide, by decide, by decide, by decide⟩
  obtain ⟨hcircuit, hcontract⟩ := hpass hv.1
  refine ⟨hv.1, hv.2, hcircuit sampleHash (plainGadgets sampleHash) _ _ _ 907 (fun a b => rfl)
    (fun _ _ _ h => h) ?_ (by decide) ?_, (hcontract ℕ Unit Evm.permissive _ (by simp [Evm.permissive])).2⟩
  · have hrun := disclosureHash_fold (g := plainGadgets sampleHash) (fun _ _ => rfl) (2 ^ 0)
      (fun _ j => (j + 1 : ScalarField)) (fun _ => 5) fun _ => 6
    have hend : (ctFlat (2 ^ 0) (fun _ j => (j + 1 : ScalarField)) (fun _ => 5) fun _ => 6).foldl sampleHash 0 =
        907 := by decide
    rwa [hend] at hrun
  · have hlist : ([1, 2, 3, 4, 5, 6] : List ℕ).map (fun x : ℕ => (x : ScalarField)) =
        ctFlat (2 ^ 0) (fun _ j => (j + 1 : ScalarField)) (fun _ => 5) fun _ => 6 := by decide
    have hdistinct : ((HashChain.hashed sampleHash 0 (ctFlat (2 ^ 0) (fun _ j => (j + 1 : ScalarField))
        (fun _ => 5) fun _ => 6)).map fun q => sampleHash q.1 q.2).Nodup := by decide
    rw [hlist]
    refine HashChain.CollisionFree.mono (List.inj_on_of_nodup_map hdistinct) ?_
    simp

end Circuit

end Bongtu.Indexer
