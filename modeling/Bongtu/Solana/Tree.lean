import Bongtu.Outcome
import Bongtu.TreeOp

namespace Bongtu.Solana

open Merkle Outcome

inductive PoolError where
  | familyDisabled
  | wrongKemCiphertextLength
  | publicInputNotCanonical
  | invalidProof
  | unknownRoot
  | nullifierAlreadyUsed
  | zeroNullifier
  | zeroOutputCommitment
  | misalignedInsert
  | treeFull
  | invalidAccount
  | pdaMismatch
  | missingNullifierAccount
  | invalidEventAuthority
  | syscallFailed
  | invalidDiscriminator
  | invalidRecipient
  | amountOverflow
  | tokenTransferFailed
  | arbiterKeyUnset
  | wrongBatchSize
  | alreadyInitialized
deriving DecidableEq, Repr

-- `Frontier` of tree.rs, deserialized from a `TreeState` account.
structure TreeState (W : Type) where
  nextLeafIndex : ℕ
  currentRoot : W
  filledSubtrees : ℕ → W

variable {W : Type} [Zero W] (poseidon2 : W → W → W) (treeHeight : ℕ)

namespace TreeState

def ZEROS : ℕ → W := zeroNode poseidon2 0

def init : TreeState W where
  nextLeafIndex := 0
  currentRoot := ZEROS poseidon2 treeHeight
  filledSubtrees := ZEROS poseidon2

def insertLevel (s : ℕ × W × (ℕ → W)) (i : ℕ) : ℕ × W × (ℕ → W) :=
  let (index, current, filled) := s
  if index % 2 = 0 then
    (index / 2, poseidon2 current (ZEROS poseidon2 i), Function.update filled i current)
  else (index / 2, poseidon2 (filled i) current, filled)

def insertNode (t : TreeState W) (node : W) (startLevel : ℕ) : Except PoolError (ℕ × TreeState W) :=
  let stride := 1 <<< startLevel
  if t.nextLeafIndex % stride ≠ 0 then .error .misalignedInsert
  else if t.nextLeafIndex + stride > 1 <<< treeHeight then .error .treeFull
  else
    let s := (List.range' startLevel (treeHeight - startLevel)).foldl (insertLevel poseidon2)
      (t.nextLeafIndex / stride, node, t.filledSubtrees)
    .ok (t.nextLeafIndex,
      { nextLeafIndex := t.nextLeafIndex + stride
        currentRoot := s.2.1
        filledSubtrees := s.2.2 })

def appendLeaf (t : TreeState W) (leaf : W) : Except PoolError (ℕ × TreeState W) :=
  insertNode poseidon2 treeHeight t leaf 0

def closeNode (t : TreeState W) (rem logB : ℕ) : W :=
  (List.range logB).foldl
    (fun node i =>
      if (rem >>> i) &&& 1 = 1 then poseidon2 (t.filledSubtrees i) node
      else poseidon2 node (ZEROS poseidon2 i))
    (ZEROS poseidon2 0)

def closeBlock (t : TreeState W) (logB : ℕ) : Except PoolError (TreeState W) :=
  let rem := t.nextLeafIndex % (1 <<< logB)
  if rem ≠ 0 then do
    let placed ← insertNode poseidon2 treeHeight { t with nextLeafIndex := t.nextLeafIndex - rem }
      (closeNode poseidon2 t rem logB) logB
    return placed.2
  else .ok t

def attachSubtree (t : TreeState W) (subtreeRoot : W) (logB : ℕ) :
    Except PoolError (ℕ × TreeState W) := do
  let closed ← closeBlock poseidon2 treeHeight t logB
  insertNode poseidon2 treeHeight closed subtreeRoot logB

def apply (logB : ℕ) (t : TreeState W) : TreeOp W → Except PoolError (TreeState W)
  | .append leaf => (appendLeaf poseidon2 treeHeight t leaf).map Prod.snd
  | .attach subtreeRoot _ => (attachSubtree poseidon2 treeHeight t subtreeRoot logB).map Prod.snd

def run (logB : ℕ) (ops : List (TreeOp W)) : Except PoolError (TreeState W) :=
  ops.foldlM (apply poseidon2 treeHeight logB) (init poseidon2 treeHeight)

@[simps]
def frontier (t : TreeState W) : Frontier W := ⟨t.nextLeafIndex, t.currentRoot, t.filledSubtrees⟩

theorem foldl_insertLevel (d : ℕ) : ∀ (i index : ℕ) (current : W) (filled : ℕ → W),
    ((List.range' i d).foldl (insertLevel poseidon2) (index, current, filled)).2 =
      walk poseidon2 0 d i index current filled := by
  induction d with
  | zero => exact fun _ _ _ _ => rfl
  | succ d ih =>
    intro i index current filled
    have hstep : insertLevel poseidon2 (index, current, filled) i =
        (index / 2, join poseidon2 0 filled i index current, keep filled i index current) := by
      simp only [insertLevel, join, keep, ZEROS]
      split <;> rfl
    rw [List.range'_succ, List.foldl_cons, hstep, ih, walk]

theorem insertNode_frontier (t : TreeState W) (node : W) (startLevel : ℕ) :
    (insertNode poseidon2 treeHeight t node startLevel).toOption.map (fun a => a.2.frontier) =
      t.frontier.insert poseidon2 0 treeHeight node startLevel := by
  simp only [insertNode, Frontier.insert, frontier, Nat.one_shiftLeft, foldl_insertLevel]
  by_cases haligned : t.nextLeafIndex % 2 ^ startLevel = 0
  · by_cases hroom : t.nextLeafIndex + 2 ^ startLevel ≤ 2 ^ treeHeight
    · simp [haligned, hroom, not_lt.mpr hroom, Except.toOption]
    · simp [haligned, hroom, not_le.mp hroom, Except.toOption]
  · simp [haligned, Except.toOption]

theorem insertNode_start {t : TreeState W} {node : W} {startLevel : ℕ} {a : ℕ × TreeState W}
    (ha : insertNode poseidon2 treeHeight t node startLevel = .ok a) : a.1 = t.nextLeafIndex := by
  simp only [insertNode] at ha
  split at ha
  · cases ha
  · split at ha <;> cases ha
    rfl

theorem foldl_close (t : TreeState W) (rem : ℕ) : ∀ (d i : ℕ) (node : W), (List.range' i d).foldl
    (fun node i =>
      if (rem >>> i) &&& 1 = 1 then poseidon2 (t.filledSubtrees i) node
      else poseidon2 node (ZEROS poseidon2 i)) node =
    climb poseidon2 0 t.filledSubtrees d i (rem / 2 ^ i) node := by
  intro d
  induction d with
  | zero => exact fun _ _ => rfl
  | succ d ih =>
    intro i node
    have hbit : (rem >>> i) &&& 1 = rem / 2 ^ i % 2 := by
      rw [Nat.and_one_is_mod, Nat.shiftRight_eq_div_pow]
    rw [List.range'_succ, List.foldl_cons, ih, climb, Nat.div_div_eq_div_mul, ← pow_succ, hbit, join]
    congr 1
    rcases Nat.mod_two_eq_zero_or_one (rem / 2 ^ i) with hb | hb <;> simp [hb, ZEROS]

theorem closeNode_eq (t : TreeState W) (k : ℕ) :
    closeNode poseidon2 t (t.nextLeafIndex % 2 ^ k) k =
      climb poseidon2 0 t.filledSubtrees k 0 t.nextLeafIndex 0 := by
  rw [closeNode, List.range_eq_range', foldl_close, pow_zero, Nat.div_one, climb_mod]
  rfl

theorem closeBlock_frontier (t : TreeState W) (k : ℕ) :
    (closeBlock poseidon2 treeHeight t k).toOption.map frontier =
      t.frontier.close poseidon2 0 treeHeight k := by
  simp only [closeBlock, Frontier.close, Nat.one_shiftLeft, frontier_next]
  by_cases haligned : t.nextLeafIndex % 2 ^ k = 0
  · simp [haligned, Except.toOption]
  · rw [if_pos haligned, if_neg haligned, closeNode_eq, map_pure]
    exact insertNode_frontier poseidon2 treeHeight { t with nextLeafIndex := _ } _ k

theorem attachSubtree_frontier (t : TreeState W) (r : W) (k : ℕ) :
    (attachSubtree poseidon2 treeHeight t r k).toOption.map (fun a => a.2.frontier) =
      t.frontier.attach poseidon2 0 treeHeight k r :=
  map_bind (closeBlock_frontier poseidon2 treeHeight t k) fun closed _ =>
    insertNode_frontier poseidon2 treeHeight closed r k

variable {poseidon2 treeHeight}

-- The deserialized frontier stores the content `c`.
def Holds (poseidon2 : W → W → W) (treeHeight : ℕ) (t : TreeState W) (c : Content W) : Prop :=
  t.frontier.Tracks poseidon2 0 treeHeight c

theorem holds_init : (init poseidon2 treeHeight).Holds poseidon2 treeHeight Content.empty :=
  Frontier.tracks_empty rfl rfl

theorem Holds.appendLeaf {t : TreeState W} {c : Content W} (ht : t.Holds poseidon2 treeHeight c)
    (v : W) :
    (c.next + 1 ≤ 2 ^ treeHeight ∧ ∃ t', appendLeaf poseidon2 treeHeight t v = .ok (c.next, t') ∧
      t'.Holds poseidon2 treeHeight (c.place 0 v)) ∨
      (¬c.next + 1 ≤ 2 ^ treeHeight ∧ ∃ e, appendLeaf poseidon2 treeHeight t v = .error e) := by
  have hview := insertNode_frontier poseidon2 treeHeight t v 0
  rcases Frontier.Tracks.append ht v with ⟨hroom, g, hg, hgc⟩ | ⟨hroom, hg⟩
  · obtain ⟨⟨start, t'⟩, ht', rfl⟩ := of_map_some (hview.trans hg)
    obtain rfl : start = c.next := (insertNode_start poseidon2 treeHeight ht').trans ht.next_eq
    exact .inl ⟨hroom, t', ht', hgc⟩
  · exact .inr ⟨hroom, of_map_none (hview.trans hg)⟩

theorem Holds.attachSubtree {t : TreeState W} {c : Content W} (ht : t.Holds poseidon2 treeHeight c)
    {k : ℕ} (hk : k ≤ treeHeight) (r : W) :
    ((c.attach 0 k r).next ≤ 2 ^ treeHeight ∧
      ∃ start t', attachSubtree poseidon2 treeHeight t r k = .ok (start, t') ∧
        t'.Holds poseidon2 treeHeight (c.attach 0 k r)) ∨
      (¬(c.attach 0 k r).next ≤ 2 ^ treeHeight ∧
        ∃ e, attachSubtree poseidon2 treeHeight t r k = .error e) := by
  have hview := attachSubtree_frontier poseidon2 treeHeight t r k
  rcases Frontier.Tracks.attach ht hk r with ⟨hroom, g, hg, hgc⟩ | ⟨hroom, hg⟩
  · obtain ⟨⟨start, t'⟩, ht', rfl⟩ := of_map_some (hview.trans hg)
    exact .inl ⟨hroom, start, t', ht', hgc⟩
  · exact .inr ⟨hroom, of_map_none (hview.trans hg)⟩

end TreeState

end Bongtu.Solana
