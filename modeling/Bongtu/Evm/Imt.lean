import Bongtu.Outcome
import Bongtu.TreeOp

set_option linter.unusedSectionVars false

namespace Bongtu.Evm

open Merkle Outcome

abbrev Address := ℕ

inductive PoolError (W : Type) where
  | notInitialized
  | zeroArbiterKey
  | unknownRoot (root : W)
  | nullifierAlreadyUsed (nullifier : W)
  | zeroNullifier
  | invalidProof
  | reentrancy
  | batchSizeNotPowerOfTwo (batchSize : ℕ)
  | misalignedInsert
  | treeFull
  | wrongCiphertextLength (got want : ℕ)
  | wrongKemCiphertextLength (got want : ℕ)
  | zeroKemPkHash
  | zeroVerifier
  | zeroOutputCommitment
  | invalidRecipient (recipient : W)
  | moduleNotRegistered (module : Address)
  | moduleAlreadyRegistered (module : Address)
  | mixedAppendShape
  | zeroModule
  | emptyOp
  | unauthorizedAccount (account : Address)
  | invalidInitialization
  | arithmeticPanic
  | tokenTransferFailed
deriving DecidableEq, Repr

structure Imt (W : Type) where
  B : ℕ
  logB : ℕ
  zeros : ℕ → W
  filledSubtrees : ℕ → W
  root : W
  nextLeafIndex : ℕ

variable {W : Type} [Zero W] (poseidon : W → W → W) (H : ℕ)

namespace Imt

-- `while ((1 << logB) < batchSize) logB++`
def logBatch (batchSize : ℕ) : ℕ → ℕ → ℕ
  | 0, logB => logB
  | fuel + 1, logB => if 1 <<< logB < batchSize then logBatch batchSize fuel (logB + 1) else logB

def zerosLadder : ℕ → W := ladder poseidon 0 H

def init (batchSize : ℕ) : Imt W where
  B := batchSize
  logB := logBatch batchSize batchSize 0
  zeros := zerosLadder poseidon H
  filledSubtrees := zerosLadder poseidon H
  root := zerosLadder poseidon H H
  nextLeafIndex := 0

structure Fold (W : Type) where
  currentIndex : ℕ
  current : W
  filledSubtrees : ℕ → W

def foldLevel (zeros : ℕ → W) (s : Fold W) (i : ℕ) : Fold W :=
  if s.currentIndex % 2 = 0 then
    { currentIndex := s.currentIndex / 2
      current := poseidon s.current (zeros i)
      filledSubtrees := Function.update s.filledSubtrees i s.current }
  else
    { currentIndex := s.currentIndex / 2
      current := poseidon (s.filledSubtrees i) s.current
      filledSubtrees := s.filledSubtrees }

def insertNode (t : Imt W) (node : W) (startLevel : ℕ) : Except (PoolError W) (Imt W) :=
  let stride := 1 <<< startLevel
  if t.nextLeafIndex % stride ≠ 0 then .error .misalignedInsert
  else if t.nextLeafIndex + stride > 1 <<< H then .error .treeFull
  else
    let s := (List.range' startLevel (H - startLevel)).foldl (foldLevel poseidon t.zeros)
      ⟨t.nextLeafIndex / stride, node, t.filledSubtrees⟩
    .ok { t with
      filledSubtrees := s.filledSubtrees
      root := s.current
      nextLeafIndex := t.nextLeafIndex + stride }

def appendLeaf (t : Imt W) (leaf : W) : Except (PoolError W) (Imt W) :=
  insertNode poseidon H t leaf 0

def closeNode (t : Imt W) (rem : ℕ) : W :=
  (List.range t.logB).foldl
    (fun node i =>
      if (rem >>> i) &&& 1 = 1 then poseidon (t.filledSubtrees i) node
      else poseidon node (t.zeros i))
    (t.zeros 0)

def closeBlock (t : Imt W) : Except (PoolError W) (Imt W) :=
  let rem := t.nextLeafIndex % t.B
  if rem ≠ 0 then
    insertNode poseidon H { t with nextLeafIndex := t.nextLeafIndex - rem }
      (closeNode poseidon t rem) t.logB
  else .ok t

def attachSubtree (t : Imt W) (subtreeRoot : W) : Except (PoolError W) (ℕ × Imt W) := do
  let closed ← closeBlock poseidon H t
  let attached ← insertNode poseidon H closed subtreeRoot closed.logB
  return (closed.nextLeafIndex, attached)

def apply (t : Imt W) : TreeOp W → Except (PoolError W) (Imt W)
  | .append leaf => appendLeaf poseidon H t leaf
  | .attach subtreeRoot _ => (attachSubtree poseidon H t subtreeRoot).map Prod.snd

def runFrom (t : Imt W) (ops : List (TreeOp W)) : Except (PoolError W) (Imt W) :=
  ops.foldlM (apply poseidon H) t

def run (k : ℕ) (ops : List (TreeOp W)) : Except (PoolError W) (Imt W) :=
  runFrom poseidon H (init poseidon H (2 ^ k)) ops

theorem runFrom_append {t : Imt W} {ops ops' : List (TreeOp W)} :
    runFrom poseidon H t (ops ++ ops') = runFrom poseidon H t ops >>= fun t' =>
      runFrom poseidon H t' ops' :=
  List.foldlM_append

@[simps]
def frontier (t : Imt W) : Frontier W := ⟨t.nextLeafIndex, t.root, t.filledSubtrees⟩

-- What the rest of the tree code relies on: the batch size is `2 ^ k` and the zeros ladder holds
-- the empty subtree of each level.
structure Params (k : ℕ) (t : Imt W) : Prop where
  B_eq : t.B = 2 ^ k
  logB_eq : t.logB = k
  zeros_eq : ∀ i, i ≤ H → t.zeros i = zeroNode poseidon 0 i

theorem logBatch_pow (k : ℕ) : ∀ fuel logB, logB ≤ k → k ≤ logB + fuel →
    logBatch (2 ^ k) fuel logB = k := by
  intro fuel
  induction fuel with
  | zero =>
    intro logB h1 h2
    simp only [logBatch]
    omega
  | succ fuel ih =>
    intro logB h1 h2
    rw [logBatch, Nat.one_shiftLeft]
    split
    · case isTrue hlt =>
      have := (Nat.pow_lt_pow_iff_right (by norm_num)).mp hlt
      exact ih _ (by omega) (by omega)
    · case isFalse hge =>
      have := (Nat.pow_le_pow_iff_right (by norm_num)).mp (not_lt.mp hge)
      omega

theorem params_init (k : ℕ) : (init poseidon H (2 ^ k)).Params poseidon H k where
  B_eq := rfl
  logB_eq := logBatch_pow k _ _ (Nat.zero_le _) (by have := Nat.lt_two_pow_self (n := k); omega)
  zeros_eq := ladder_eq H

theorem foldl_foldLevel (zeros : ℕ → W) (d : ℕ) : ∀ (i index : ℕ) (current : W) (filled : ℕ → W),
    (∀ j, j < i + d → zeros j = zeroNode poseidon 0 j) →
    let s := (List.range' i d).foldl (foldLevel poseidon zeros) ⟨index, current, filled⟩
    (s.current, s.filledSubtrees) = walk poseidon 0 d i index current filled := by
  induction d with
  | zero => exact fun _ _ _ _ _ => rfl
  | succ d ih =>
    intro i index current filled hz
    have hrest := ih (i + 1) (index / 2) (join poseidon 0 filled i index current)
      (keep filled i index current) fun j hj => hz j (by omega)
    have hstep : foldLevel poseidon zeros ⟨index, current, filled⟩ i =
        ⟨index / 2, join poseidon 0 filled i index current, keep filled i index current⟩ := by
      unfold foldLevel join keep
      rw [hz i (by omega)]
      split <;> rfl
    rw [List.range'_succ, List.foldl_cons, hstep]
    exact hrest

theorem foldl_close {t : Imt W} {k : ℕ} (rem : ℕ) (hz : ∀ j, j < k → t.zeros j = zeroNode poseidon 0 j) :
    ∀ (d i : ℕ) (node : W), i + d = k → (List.range' i d).foldl
      (fun node i =>
        if (rem >>> i) &&& 1 = 1 then poseidon (t.filledSubtrees i) node
        else poseidon node (t.zeros i)) node =
      climb poseidon 0 t.filledSubtrees d i (rem / 2 ^ i) node := by
  intro d
  induction d with
  | zero => exact fun _ _ _ => rfl
  | succ d ih =>
    intro i node hik
    have hbit : (rem >>> i) &&& 1 = rem / 2 ^ i % 2 := by
      rw [Nat.and_one_is_mod, Nat.shiftRight_eq_div_pow]
    rw [List.range'_succ, List.foldl_cons, ih _ _ (by omega), climb, Nat.div_div_eq_div_mul,
      ← pow_succ, hbit, join, hz i (by omega)]
    congr 1
    rcases Nat.mod_two_eq_zero_or_one (rem / 2 ^ i) with hb | hb <;> simp [hb]

variable {poseidon H}

theorem insertNode_ok {t t' : Imt W} {node : W} {startLevel : ℕ}
    (ht : insertNode poseidon H t node startLevel = .ok t') :
    t.nextLeafIndex % 2 ^ startLevel = 0 ∧ t.nextLeafIndex + 2 ^ startLevel ≤ 2 ^ H ∧
      t'.nextLeafIndex = t.nextLeafIndex + 2 ^ startLevel ∧ t'.B = t.B ∧ t'.logB = t.logB ∧
      t'.zeros = t.zeros := by
  simp only [insertNode, Nat.one_shiftLeft] at ht
  split at ht
  · cases ht
  · case isFalse haligned =>
    split at ht
    · cases ht
    · case isFalse hroom =>
      obtain rfl := Except.ok.inj ht
      exact ⟨not_not.mp haligned, not_lt.mp hroom, rfl, rfl, rfl, rfl⟩

theorem Params.rewind {t : Imt W} {k : ℕ} (hp : t.Params poseidon H k) (n : ℕ) :
    ({ t with nextLeafIndex := n } : Imt W).Params poseidon H k :=
  ⟨hp.B_eq, hp.logB_eq, hp.zeros_eq⟩

theorem Params.insertNode {t t' : Imt W} {k : ℕ} (hp : t.Params poseidon H k) {node : W}
    {startLevel : ℕ} (ht : insertNode poseidon H t node startLevel = .ok t') :
    t'.Params poseidon H k := by
  obtain ⟨-, -, -, hB, hlogB, hzeros⟩ := insertNode_ok ht
  exact ⟨hB.trans hp.B_eq, hlogB.trans hp.logB_eq, fun i hi => hzeros ▸ hp.zeros_eq i hi⟩

theorem insertNode_frontier {t : Imt W} {k : ℕ} (hp : t.Params poseidon H k) (node : W)
    {startLevel : ℕ} (hs : startLevel ≤ H) :
    (insertNode poseidon H t node startLevel).toOption.map frontier =
      t.frontier.insert poseidon 0 H node startLevel := by
  have hwalk := foldl_foldLevel poseidon t.zeros (H - startLevel) startLevel
    (t.nextLeafIndex / 2 ^ startLevel) node t.filledSubtrees
    fun j hj => hp.zeros_eq j (by omega)
  simp only [insertNode, Frontier.insert, frontier, Nat.one_shiftLeft] at hwalk ⊢
  rw [← hwalk]
  by_cases haligned : t.nextLeafIndex % 2 ^ startLevel = 0
  · by_cases hroom : t.nextLeafIndex + 2 ^ startLevel ≤ 2 ^ H
    · simp [haligned, hroom, not_lt.mpr hroom, Except.toOption, frontier]
    · simp [haligned, hroom, not_le.mp hroom, Except.toOption]
  · simp [haligned, Except.toOption]

theorem closeNode_eq {t : Imt W} {k : ℕ} (hp : t.Params poseidon H k) (hk : k ≤ H) :
    closeNode poseidon t (t.nextLeafIndex % 2 ^ k) =
      climb poseidon 0 t.filledSubtrees k 0 t.nextLeafIndex 0 := by
  have hclose := foldl_close poseidon (t := t) (t.nextLeafIndex % 2 ^ k)
    (fun j hj => hp.zeros_eq j (by omega)) k 0 (t.zeros 0) (Nat.zero_add k)
  rw [closeNode, hp.logB_eq, List.range_eq_range', hclose, hp.zeros_eq 0 (Nat.zero_le H), pow_zero,
    Nat.div_one, climb_mod]
  rfl

theorem closeBlock_frontier {t : Imt W} {k : ℕ} (hp : t.Params poseidon H k) (hk : k ≤ H) :
    (closeBlock poseidon H t).toOption.map frontier = t.frontier.close poseidon 0 H k := by
  simp only [closeBlock, Frontier.close, hp.B_eq]
  by_cases haligned : t.nextLeafIndex % 2 ^ k = 0
  · simp [frontier, haligned, Except.toOption]
  · have hinsert := insertNode_frontier (hp.rewind (t.nextLeafIndex - t.nextLeafIndex % 2 ^ k))
      (closeNode poseidon t (t.nextLeafIndex % 2 ^ k)) hk
    rw [closeNode_eq hp hk] at hinsert ⊢
    simpa [haligned, frontier, hp.logB_eq, hp.B_eq] using hinsert

end Imt

-- The contract's tree stores the content `c`.
structure Imt.Holds (poseidon : W → W → W) (H k : ℕ) (t : Imt W) (c : Content W) : Prop where
  params : t.Params poseidon H k
  tracks : t.frontier.Tracks poseidon 0 H c

namespace Imt

variable {poseidon H}

theorem holds_init (k : ℕ) : (init poseidon H (2 ^ k)).Holds poseidon H k Content.empty where
  params := params_init poseidon H k
  tracks := Frontier.tracks_empty rfl (ladder_eq H H le_rfl)

theorem Params.closeBlock {t t' : Imt W} {k : ℕ} (hp : t.Params poseidon H k)
    (ht : closeBlock poseidon H t = .ok t') : t'.Params poseidon H k := by
  simp only [Imt.closeBlock] at ht
  split at ht
  · exact (hp.rewind _).insertNode ht
  · cases ht
    exact hp

theorem attachSubtree_frontier {t : Imt W} {k : ℕ} (hp : t.Params poseidon H k) (hk : k ≤ H) (r : W) :
    (attachSubtree poseidon H t r).toOption.map (fun a => a.2.frontier) =
      t.frontier.attach poseidon 0 H k r := by
  refine map_bind (closeBlock_frontier hp hk) fun closed hclosed => ?_
  have hp' := hp.closeBlock hclosed
  rw [← insertNode_frontier hp' r hk, hp'.logB_eq]
  cases insertNode poseidon H closed r k <;> rfl

theorem Params.attachSubtree {t : Imt W} {k : ℕ} (hp : t.Params poseidon H k) {r : W} {a : ℕ × Imt W}
    (ht : attachSubtree poseidon H t r = .ok a) : a.2.Params poseidon H k := by
  obtain ⟨closed, hclosed, ht⟩ := bind_ok.mp ht
  obtain ⟨attached, hattached, ht⟩ := bind_ok.mp ht
  obtain rfl := Except.ok.inj ht
  exact (hp.closeBlock hclosed).insertNode hattached

theorem Holds.appendLeaf {t : Imt W} {k : ℕ} {c : Content W} (ht : t.Holds poseidon H k c) (v : W) :
    (c.next + 1 ≤ 2 ^ H ∧
      ∃ t', appendLeaf poseidon H t v = .ok t' ∧ t'.Holds poseidon H k (c.place 0 v)) ∨
      (¬c.next + 1 ≤ 2 ^ H ∧ ∃ e, appendLeaf poseidon H t v = .error e) := by
  have hview := insertNode_frontier ht.params v (Nat.zero_le H)
  rcases ht.tracks.append v with ⟨hroom, g, hg, hgc⟩ | ⟨hroom, hg⟩
  · obtain ⟨t', ht', rfl⟩ := of_map_some (hview.trans hg)
    exact .inl ⟨hroom, t', ht', ht.params.insertNode ht', hgc⟩
  · exact .inr ⟨hroom, of_map_none (hview.trans hg)⟩

theorem Holds.attachSubtree {t : Imt W} {k : ℕ} {c : Content W} (ht : t.Holds poseidon H k c)
    (hk : k ≤ H) (r : W) :
    ((c.attach 0 k r).next ≤ 2 ^ H ∧ ∃ start t', attachSubtree poseidon H t r = .ok (start, t') ∧
      t'.Holds poseidon H k (c.attach 0 k r)) ∨
      (¬(c.attach 0 k r).next ≤ 2 ^ H ∧ ∃ e, attachSubtree poseidon H t r = .error e) := by
  have hview := attachSubtree_frontier ht.params hk r
  rcases ht.tracks.attach hk r with ⟨hroom, g, hg, hgc⟩ | ⟨hroom, hg⟩
  · obtain ⟨⟨start, t'⟩, ht', rfl⟩ := of_map_some (hview.trans hg)
    exact .inl ⟨hroom, start, t', ht', ht.params.attachSubtree ht', hgc⟩
  · exact .inr ⟨hroom, of_map_none (hview.trans hg)⟩

end Imt

end Bongtu.Evm
