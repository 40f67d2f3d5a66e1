import Bongtu.Core.Imt

set_option linter.unusedSectionVars false

namespace Bongtu.Indexer

open Bongtu.Core Outcome

structure LeafRow (W : Type) where
  leafIndex : ℕ
  commitment : Option W
  batchRoot : Option W
deriving DecidableEq, Repr

inductive MirrorError where
  | imt (e : ImtError)
  | appendIndex (leafIndex mirrorIndex : ℕ)
  | appendRoot (leafIndex : ℕ)
  | attachStart (start mirrorStart : ℕ)
  | attachRoot (start : ℕ)
  | opGap (start mirrorIndex : ℕ)
  | opEnd (mirrorIndex opEnd : ℕ)
  | opRoot (start : ℕ)
  | rebuildAttach (start leafIndex : ℕ)
  | rebuildAppend (index leafIndex : ℕ)
  | pathRoot (leafIndex : ℕ)
deriving DecidableEq, Repr

-- Block tags are keyed by the first leaf of the block: `startLeafIndex / B` is a fraction when the
-- start is not a block boundary, and two starts never share it.
structure MirrorTree (W : Type) where
  tree : ImtTree W
  leaves : ℕ → Option W
  batchRoots : ℕ → Option W
  filled : ℕ → Bool
  publicFilled : ℕ → Bool
  pendingLeaves : List (LeafRow W)
  zeros : ℕ → W

variable {W : Type} [Zero W] [DecidableEq W] (poseidon2 : W → W → W)

namespace MirrorTree

def construct (height batchSize : ℕ) : Except ImtError (MirrorTree W) := do
  let tree ← ImtTree.construct poseidon2 height batchSize
  return ⟨tree, fun _ => none, fun _ => none, fun _ => false, fun _ => false, [],
    ImtTree.zerosLadder poseidon2 height⟩

def onTree (f : ImtTree W → Run ImtError (ImtTree W)) (t : MirrorTree W) :
    Run MirrorError (MirrorTree W) :=
  match f t.tree with
  | .returned tree => .returned { t with tree := tree }
  | .threw e tree => .threw (.imt e) { t with tree := tree }

def assertAppended (leafIndex : ℕ) (root : W) (t : MirrorTree W) : Run MirrorError (MirrorTree W) :=
  if t.tree.nextLeafIndex - 1 ≠ leafIndex then
    .threw (.appendIndex leafIndex (t.tree.nextLeafIndex - 1)) t
  else if t.tree.root ≠ root then .threw (.appendRoot leafIndex) t
  else .returned t

def applyAppend (leafIndex : ℕ) (leaf root : W) (t : MirrorTree W) : Run MirrorError (MirrorTree W) :=
  if leafIndex < t.tree.nextLeafIndex then .returned t
  else (onTree (ImtTree.appendLeaf poseidon2 leaf) t).bind (assertAppended leafIndex root)

def assertAttached (start : ℕ) (root : W) (t : MirrorTree W) : Run MirrorError (MirrorTree W) :=
  if t.tree.nextLeafIndex ≠ start + t.tree.B then
    .threw (.attachStart start (t.tree.nextLeafIndex - t.tree.B)) t
  else if t.tree.root ≠ root then .threw (.attachRoot start) t
  else .returned t

def wipeBlock (B start : ℕ) (leaves : ℕ → Option W) : ℕ → Option W :=
  fun i => if start ≤ i ∧ i < start + B then none else leaves i

def tagBatch (start : ℕ) (subtreeRoot : W) (t : MirrorTree W) : MirrorTree W :=
  { t with
    pendingLeaves := if t.batchRoots start = none then
      t.pendingLeaves ++ [⟨start, none, some subtreeRoot⟩] else t.pendingLeaves
    leaves := if t.filled start then t.leaves else wipeBlock t.tree.B start t.leaves
    batchRoots := Function.update t.batchRoots start (some subtreeRoot) }

def applyAttach (start : ℕ) (subtreeRoot root : W) (t : MirrorTree W) :
    Run MirrorError (MirrorTree W) :=
  (if start ≥ t.tree.nextLeafIndex then
    (onTree (ImtTree.attachSubtree poseidon2 subtreeRoot none) t).bind (assertAttached start root)
  else .returned t).bind fun t => .returned (t.tagBatch start subtreeRoot)

def recordLeaf (leafIndex : ℕ) (leaf : W) (t : MirrorTree W) : MirrorTree W :=
  { t with
    pendingLeaves := if t.leaves leafIndex = none then
      t.pendingLeaves ++ [⟨leafIndex, some leaf, none⟩] else t.pendingLeaves
    leaves := Function.update t.leaves leafIndex (some leaf) }

def recordLeaves (start : ℕ) (leaves : List W) (t : MirrorTree W) : MirrorTree W :=
  leaves.zipIdx.foldl (fun t leaf => t.recordLeaf (start + leaf.2) leaf.1) t

def assertOp (start leafCount : ℕ) (root : W) (t : MirrorTree W) : Run MirrorError (MirrorTree W) :=
  if t.tree.nextLeafIndex ≠ start + leafCount then
    .threw (.opEnd t.tree.nextLeafIndex (start + leafCount)) t
  else if t.tree.root ≠ root then .threw (.opRoot start) t
  else .returned t

def appendFrom (next start : ℕ) (leaf : W × ℕ) (t : MirrorTree W) : Run MirrorError (MirrorTree W) :=
  if start + leaf.2 ≥ next then onTree (ImtTree.appendLeaf poseidon2 leaf.1) t else .returned t

def applyOpAppend (start : ℕ) (leaves : List W) (resultingRoot : W) (t : MirrorTree W) :
    Run MirrorError (MirrorTree W) :=
  let next := t.tree.nextLeafIndex
  (if start + leaves.length > next then
    if start > next then .threw (.opGap start next) t
    else (Run.forEach (appendFrom poseidon2 next start) leaves.zipIdx t).bind
      (assertOp start leaves.length resultingRoot)
  else .returned t).bind fun t => .returned (t.recordLeaves start leaves)

def fillBatch (start : ℕ) (leaves : List W) (isPublic : Bool) (t : MirrorTree W) : MirrorTree W :=
  { t with
    leaves := fun i => if start ≤ i ∧ i < start + leaves.length then leaves[i - start]? else t.leaves i
    filled := Function.update t.filled start true
    publicFilled := if isPublic then Function.update t.publicFilled start true else t.publicFilled }

def clearPendingLeaves (t : MirrorTree W) : MirrorTree W := { t with pendingLeaves := [] }

def rebuildAttach (row : LeafRow W) (batchRoot : W) (t : MirrorTree W) : Run MirrorError (MirrorTree W) :=
  (onTree (ImtTree.attachSubtree poseidon2 batchRoot none) t).bind fun t =>
    let start := t.tree.nextLeafIndex - t.tree.B
    if start ≠ row.leafIndex then .threw (.rebuildAttach start row.leafIndex) t
    else .returned { t with
      leaves := wipeBlock t.tree.B start t.leaves
      batchRoots := Function.update t.batchRoots start (some batchRoot) }

-- `r.commitment!` of a row without a commitment is read as the zero leaf.
def rebuildAppend (row : LeafRow W) (t : MirrorTree W) : Run MirrorError (MirrorTree W) :=
  let commitment := row.commitment.getD 0
  (onTree (ImtTree.appendLeaf poseidon2 commitment) t).bind fun t =>
    let index := t.tree.nextLeafIndex - 1
    if index ≠ row.leafIndex then .threw (.rebuildAppend index row.leafIndex) t
    else .returned { t with leaves := Function.update t.leaves row.leafIndex (some commitment) }

def rebuildFromLeaves (rows : List (LeafRow W)) (t : MirrorTree W) : Run MirrorError (MirrorTree W) :=
  Run.forEach (fun row t => match row.batchRoot with
    | some batchRoot => rebuildAttach poseidon2 row batchRoot t
    | none => rebuildAppend poseidon2 row t) rows t

end MirrorTree

end Bongtu.Indexer
