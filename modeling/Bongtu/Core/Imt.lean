import Bongtu.Outcome
import Bongtu.TreeOp

set_option linter.unusedSectionVars false

namespace Bongtu.Core

open Merkle Outcome

inductive ImtError where
  | heightNotPositive (height : ℕ)
  | batchSizeNotPowerOfTwo (batchSize : ℕ)
  | logBExceedsHeight (logB height : ℕ)
  | notAligned (nextLeafIndex startLevel : ℕ)
  | treeIsFull
  | leavesExceedBatchSize (leaves batchSize : ℕ)
  | subtreeRootMismatch
  | leafIndexOutOfRange (leafIndex nextLeafIndex : ℕ)
  | leafNotRecorded (leafIndex : ℕ)
deriving DecidableEq, Repr

-- `leaves[i] = v`: writing past the end of a JavaScript array leaves holes.
def jsSet {α : Type} (xs : List (Option α)) (i : ℕ) (v : Option α) : List (Option α) :=
  if i < xs.length then xs.set i v else xs ++ List.replicate (i - xs.length) none ++ [v]

def isPowerOfTwo (n : ℕ) : Bool := decide (1 ≤ n) && n == 2 ^ Nat.log2 n

structure ImtTree (W : Type) where
  H : ℕ
  B : ℕ
  logB : ℕ
  zeros : ℕ → W
  filledSubtrees : ℕ → W
  nextLeafIndex : ℕ
  root : W
  leaves : List (Option W)

variable {W : Type} [Zero W] (poseidon2 : W → W → W)

namespace ImtTree

def zerosLadder (height : ℕ) : ℕ → W := ladder poseidon2 0 height

def init (height batchSize : ℕ) : ImtTree W where
  H := height
  B := batchSize
  logB := Nat.log2 batchSize
  zeros := zerosLadder poseidon2 height
  filledSubtrees := zerosLadder poseidon2 height
  nextLeafIndex := 0
  root := zerosLadder poseidon2 height height
  leaves := []

def construct (height batchSize : ℕ) : Except ImtError (ImtTree W) :=
  if height < 1 then .error (.heightNotPositive height)
  else if isPowerOfTwo batchSize = false then .error (.batchSizeNotPowerOfTwo batchSize)
  else if Nat.log2 batchSize > height then .error (.logBExceedsHeight (Nat.log2 batchSize) height)
  else .ok (init poseidon2 height batchSize)

structure Fold (W : Type) where
  node : W
  index : ℕ
  filledSubtrees : ℕ → W

def foldLevel (zeros : ℕ → W) (startLevel : ℕ) (acc : Fold W) (off : ℕ) : Fold W :=
  let i := startLevel + off
  let even := acc.index % 2 == 0
  let filledSubtrees :=
    if even then Function.update acc.filledSubtrees i acc.node else acc.filledSubtrees
  let left := if even then acc.node else filledSubtrees i
  let right := if even then zeros i else acc.node
  { node := poseidon2 left right, index := acc.index / 2, filledSubtrees := filledSubtrees }

def insertNode (node : W) (startLevel : ℕ) (t : ImtTree W) : Run ImtError (ImtTree W) :=
  let stride := 2 ^ startLevel
  if t.nextLeafIndex % stride ≠ 0 then .threw (.notAligned t.nextLeafIndex startLevel) t
  else if t.nextLeafIndex + stride > 2 ^ t.H then .threw .treeIsFull t
  else
    let folded := (List.range (t.H - startLevel)).foldl (foldLevel poseidon2 t.zeros startLevel)
      ⟨node, t.nextLeafIndex / stride, t.filledSubtrees⟩
    .returned { t with
      filledSubtrees := folded.filledSubtrees
      root := folded.node
      nextLeafIndex := t.nextLeafIndex + stride }

def recordLeaf (leaf : W) (t : ImtTree W) : ImtTree W :=
  { t with leaves := jsSet t.leaves t.nextLeafIndex (some leaf) }

def appendLeaf (commitment : W) (t : ImtTree W) : Run ImtError (ImtTree W) :=
  insertNode poseidon2 commitment 0 (recordLeaf commitment t)

def padLoop : ℕ → ImtTree W → Run ImtError (ImtTree W)
  | 0, t => .returned t
  | pad + 1, t =>
    (insertNode poseidon2 (t.zeros 0) 0 (recordLeaf (t.zeros 0) t)).bind (padLoop pad)

def padToBlockBoundary (t : ImtTree W) : Run ImtError (ImtTree W) :=
  padLoop poseidon2 ((t.B - t.nextLeafIndex % t.B) % t.B) t

def computeSubtreeRoot (t : ImtTree W) (commitments : List W) : Except ImtError W :=
  if commitments.length > t.B then .error (.leavesExceedBatchSize commitments.length t.B)
  else
    let base := (List.range t.B).map fun k => commitments.getD k (t.zeros 0)
    let top := (List.range t.logB).foldl
      (fun level _ => (List.range (level.length / 2)).map fun j =>
        poseidon2 (level.getD (2 * j) 0) (level.getD (2 * j + 1) 0)) base
    .ok (top.getD 0 0)

def checkLeaves [DecidableEq W] (t : ImtTree W) (rootNode : W) : Option (List W) → Except ImtError Unit
  | none => .ok ()
  | some leaves =>
    if leaves.length > t.B then .error (.leavesExceedBatchSize leaves.length t.B)
    else do
      let computed ← computeSubtreeRoot poseidon2 t leaves
      if computed ≠ rootNode then .error .subtreeRootMismatch else .ok ()

def recordBlock (leaves : Option (List W)) (t : ImtTree W) : ImtTree W :=
  { t with
    leaves := (List.range t.B).foldl
      (fun acc k => jsSet acc (t.nextLeafIndex + k) (leaves.map fun ls => ls.getD k (t.zeros 0)))
      t.leaves }

def attachSubtree [DecidableEq W] (subtreeRoot : W) (leaves : Option (List W)) (t : ImtTree W) :
    Run ImtError (ImtTree W) :=
  match checkLeaves poseidon2 t subtreeRoot leaves with
  | .error e => .threw e t
  | .ok () => (padToBlockBoundary poseidon2 t).bind fun padded =>
      insertNode poseidon2 subtreeRoot padded.logB (recordBlock leaves padded)

def apply [DecidableEq W] (op : TreeOp W) (t : ImtTree W) : Run ImtError (ImtTree W) :=
  match op with
  | .append leaf => appendLeaf poseidon2 leaf t
  | .attach subtreeRoot leaves => attachSubtree poseidon2 subtreeRoot leaves t

def run [DecidableEq W] (H k : ℕ) (ops : List (TreeOp W)) : Run ImtError (ImtTree W) :=
  Run.forEach (apply poseidon2) ops (init poseidon2 H (2 ^ k))

-- One level of the dense recompute; a tail without a right sibling takes the empty subtree.
def pairLevel (zeros : ℕ → W) (level : List W) (j : ℕ) : List W :=
  (List.range ((level.length + 1) / 2)).map fun k =>
    poseidon2 (level.getD (2 * k) 0) (level.getD (2 * k + 1) (zeros j))

def naiveRoot (leaves : List (Option W)) (height : ℕ) : W :=
  let zeros := zerosLadder poseidon2 height
  if leaves.length = 0 then zeros height
  else
    ((List.range height).foldl (pairLevel poseidon2 zeros)
      (leaves.map fun x => x.getD 0)).getD 0 0

structure Params (H k : ℕ) (t : ImtTree W) : Prop where
  H_eq : t.H = H
  B_eq : t.B = 2 ^ k
  logB_eq : t.logB = k
  zeros_eq : ∀ i, i ≤ H → t.zeros i = zeroNode poseidon2 0 i

@[simps]
def frontier (t : ImtTree W) : Frontier W := ⟨t.nextLeafIndex, t.root, t.filledSubtrees⟩

theorem params_init (H k : ℕ) : (init poseidon2 H (2 ^ k)).Params poseidon2 H k where
  H_eq := rfl
  B_eq := rfl
  logB_eq := Nat.log2_two_pow
  zeros_eq := ladder_eq H

theorem construct_eq {H k : ℕ} (hH : 1 ≤ H) (hk : k ≤ H) :
    construct poseidon2 H (2 ^ k) = .ok (init poseidon2 H (2 ^ k)) := by
  have hpow : isPowerOfTwo (2 ^ k) = true := by
    simp [isPowerOfTwo, Nat.log2_two_pow, Nat.one_le_two_pow]
  simp [construct, hpow, Nat.log2_two_pow, not_lt.mpr hk, show H ≠ 0 by omega]

theorem foldl_foldLevel (zeros : ℕ → W) (s d : ℕ) (index : ℕ) (current : W) (filled : ℕ → W)
    (hz : ∀ j, j < s + d → zeros j = zeroNode poseidon2 0 j) :
    let r := (List.range d).foldl (foldLevel poseidon2 zeros s) ⟨current, index, filled⟩
    (r.node, r.filledSubtrees) = walk poseidon2 0 d s index current filled := by
  have hshift : (List.range d).foldl (foldLevel poseidon2 zeros s) ⟨current, index, filled⟩ =
      (List.range' s d).foldl (foldLevel poseidon2 zeros 0) ⟨current, index, filled⟩ := by
    rw [List.range'_eq_map_range, List.foldl_map]
    congr 1
    funext acc off
    simp only [foldLevel, Nat.zero_add]
  rw [hshift]
  clear hshift
  induction d generalizing s index current filled with
  | zero => rfl
  | succ d ih =>
    have hstep : foldLevel poseidon2 zeros 0 ⟨current, index, filled⟩ s =
        ⟨join poseidon2 0 filled s index current, index / 2, keep filled s index current⟩ := by
      rcases Nat.mod_two_eq_zero_or_one index with hb | hb <;>
        simp [foldLevel, join, keep, hb, hz s (by omega)]
    rw [List.range'_succ, List.foldl_cons, hstep]
    exact ih (s + 1) _ _ _ fun j hj => hz j (by omega)

variable {poseidon2}

theorem insertNode_frontier {t : ImtTree W} {H k : ℕ} (hp : t.Params poseidon2 H k) (node : W)
    {startLevel : ℕ} (hs : startLevel ≤ H) :
    (insertNode poseidon2 node startLevel t).result.map frontier =
      t.frontier.insert poseidon2 0 H node startLevel := by
  have hwalk := foldl_foldLevel poseidon2 t.zeros startLevel (H - startLevel)
    (t.nextLeafIndex / 2 ^ startLevel) node t.filledSubtrees
    fun j hj => hp.zeros_eq j (by omega)
  simp only [insertNode, Frontier.insert, frontier, hp.H_eq] at hwalk ⊢
  rw [← hwalk]
  by_cases haligned : t.nextLeafIndex % 2 ^ startLevel = 0
  · by_cases hroom : t.nextLeafIndex + 2 ^ startLevel ≤ 2 ^ H
    · simp [haligned, hroom, not_lt.mpr hroom, Run.result, frontier]
    · simp [haligned, hroom, not_le.mp hroom, Run.result]
  · simp [haligned, Run.result]

theorem insertNode_returned {t t' : ImtTree W} {node : W} {startLevel : ℕ}
    (ht : insertNode poseidon2 node startLevel t = .returned t') :
    t'.H = t.H ∧ t'.B = t.B ∧ t'.logB = t.logB ∧ t'.zeros = t.zeros ∧ t'.leaves = t.leaves ∧
      t'.nextLeafIndex = t.nextLeafIndex + 2 ^ startLevel := by
  simp only [insertNode] at ht
  split at ht
  · cases ht
  · split at ht
    · cases ht
    · cases ht
      exact ⟨rfl, rfl, rfl, rfl, rfl, rfl⟩

theorem insertNode_threw {t t' : ImtTree W} {node : W} {startLevel : ℕ} {e : ImtError}
    (ht : insertNode poseidon2 node startLevel t = .threw e t') : t' = t := by
  simp only [insertNode] at ht
  split at ht
  · cases ht
    rfl
  · split at ht <;> cases ht
    rfl

theorem Params.insertNode {t t' : ImtTree W} {H k : ℕ} (hp : t.Params poseidon2 H k) {node : W}
    {startLevel : ℕ} (ht : insertNode poseidon2 node startLevel t = .returned t') :
    t'.Params poseidon2 H k := by
  obtain ⟨hH, hB, hlogB, hzeros, -, -⟩ := insertNode_returned ht
  exact ⟨hH.trans hp.H_eq, hB.trans hp.B_eq, hlogB.trans hp.logB_eq,
    fun i hi => hzeros ▸ hp.zeros_eq i hi⟩

theorem Params.recordLeaf {t : ImtTree W} {H k : ℕ} (hp : t.Params poseidon2 H k) (leaf : W) :
    (recordLeaf leaf t).Params poseidon2 H k :=
  ⟨hp.H_eq, hp.B_eq, hp.logB_eq, hp.zeros_eq⟩

theorem Params.recordBlock {t : ImtTree W} {H k : ℕ} (hp : t.Params poseidon2 H k)
    (leaves : Option (List W)) : (recordBlock leaves t).Params poseidon2 H k :=
  ⟨hp.H_eq, hp.B_eq, hp.logB_eq, hp.zeros_eq⟩

theorem Params.padLoop {H k : ℕ} (j : ℕ) : ∀ {t t' : ImtTree W}, t.Params poseidon2 H k →
    padLoop poseidon2 j t = .returned t' → t'.Params poseidon2 H k := by
  induction j with
  | zero =>
    intro t t' hp ht
    cases ht
    exact hp
  | succ j ih =>
    intro t t' hp ht
    obtain ⟨m, hm, ht⟩ := Run.bind_eq_returned.mp ht
    exact ih ((hp.recordLeaf _).insertNode hm) ht

theorem padLoop_frontier {H k : ℕ} (j : ℕ) : ∀ {t : ImtTree W}, t.Params poseidon2 H k →
    (padLoop poseidon2 j t).result.map frontier = Frontier.fill poseidon2 0 H j t.frontier := by
  induction j with
  | zero => exact fun _ => rfl
  | succ j ih =>
    intro t hp
    have hzero : t.zeros 0 = 0 := hp.zeros_eq 0 (Nat.zero_le H)
    have hp' := hp.recordLeaf (t.zeros 0)
    refine Run.result_bind ?_ fun m hm => ih (hp'.insertNode hm)
    rw [insertNode_frontier hp' _ (Nat.zero_le H), hzero]
    rfl

theorem appendLeaf_frontier {t : ImtTree W} {H k : ℕ} (hp : t.Params poseidon2 H k) (v : W) :
    (appendLeaf poseidon2 v t).result.map frontier = t.frontier.insert poseidon2 0 H v 0 :=
  insertNode_frontier (hp.recordLeaf v) v (Nat.zero_le H)

theorem attachSubtree_frontier [DecidableEq W] {t : ImtTree W} {H k : ℕ}
    (hp : t.Params poseidon2 H k) (hk : k ≤ H) (r : W) {leaves : Option (List W)}
    (hleaves : checkLeaves poseidon2 t r leaves = .ok ()) :
    (attachSubtree poseidon2 r leaves t).result.map frontier =
      t.frontier.attachFilling poseidon2 0 H k r := by
  simp only [attachSubtree, hleaves]
  refine Run.result_bind (u := frontier) ?_ fun m hm => ?_
  · rw [padToBlockBoundary, hp.B_eq]
    exact padLoop_frontier _ hp
  · have hp' := hp.padLoop _ hm
    rw [hp'.logB_eq, insertNode_frontier (hp'.recordBlock leaves) r hk]
    rfl

theorem Params.attachSubtree [DecidableEq W] {t t' : ImtTree W} {H k : ℕ}
    (hp : t.Params poseidon2 H k) {r : W} {leaves : Option (List W)}
    (ht : attachSubtree poseidon2 r leaves t = .returned t') : t'.Params poseidon2 H k := by
  rw [ImtTree.attachSubtree] at ht
  split at ht
  · cases ht
  · obtain ⟨m, hm, ht⟩ := Run.bind_eq_returned.mp ht
    exact ((hp.padLoop _ hm).recordBlock leaves).insertNode ht

end ImtTree

-- The reference tree stores the content `c`.
structure ImtTree.Holds (poseidon2 : W → W → W) (H k : ℕ) (t : ImtTree W) (c : Content W) : Prop where
  params : t.Params poseidon2 H k
  tracks : t.frontier.Tracks poseidon2 0 H c

namespace ImtTree

variable {poseidon2}

theorem holds_init (H k : ℕ) : (init poseidon2 H (2 ^ k)).Holds poseidon2 H k Content.empty where
  params := params_init poseidon2 H k
  tracks := Frontier.tracks_empty rfl (ladder_eq H H le_rfl)

theorem Holds.appendLeaf {t : ImtTree W} {H k : ℕ} {c : Content W} (ht : t.Holds poseidon2 H k c)
    (v : W) :
    (c.next + 1 ≤ 2 ^ H ∧
      ∃ t', appendLeaf poseidon2 v t = .returned t' ∧ t'.Holds poseidon2 H k (c.place 0 v)) ∨
      (¬c.next + 1 ≤ 2 ^ H ∧ ∃ e t', appendLeaf poseidon2 v t = .threw e t') := by
  have hview := appendLeaf_frontier ht.params v
  rcases ht.tracks.append v with ⟨hroom, g, hg, hgc⟩ | ⟨hroom, hg⟩
  · obtain ⟨t', ht', rfl⟩ := Run.of_result_some (hview.trans hg)
    exact .inl ⟨hroom, t', ht', (ht.params.recordLeaf v).insertNode ht', hgc⟩
  · exact .inr ⟨hroom, Run.of_result_none (hview.trans hg)⟩

theorem Holds.attachSubtree [DecidableEq W] {t : ImtTree W} {H k : ℕ} {c : Content W}
    (ht : t.Holds poseidon2 H k c) (hk : k ≤ H) (r : W) {leaves : Option (List W)}
    (hleaves : checkLeaves poseidon2 t r leaves = .ok ()) :
    ((c.attach 0 k r).next ≤ 2 ^ H ∧ ∃ t', attachSubtree poseidon2 r leaves t = .returned t' ∧
      t'.Holds poseidon2 H k (c.attach 0 k r)) ∨
      (¬(c.attach 0 k r).next ≤ 2 ^ H ∧ ∃ e t', attachSubtree poseidon2 r leaves t = .threw e t') := by
  have hview := attachSubtree_frontier ht.params hk r hleaves
  rcases ht.tracks.attachFilling hk r with ⟨hroom, g, hg, hgc⟩ | ⟨hroom, hg⟩
  · obtain ⟨t', ht', rfl⟩ := Run.of_result_some (hview.trans hg)
    exact .inl ⟨hroom, t', ht', ht.params.attachSubtree ht', hgc⟩
  · exact .inr ⟨hroom, Run.of_result_none (hview.trans hg)⟩

theorem pairLevel_eq (zeros : ℕ → W) : pairLevel poseidon2 zeros = pairUp poseidon2 zeros := by
  funext level j
  simp only [pairLevel, pairUp]
  refine List.map_congr_left fun i hi => ?_
  have hlt : 2 * i < level.length := by
    have := List.mem_range.mp hi
    omega
  simp [List.getD_eq_getElem?_getD, hlt]

theorem naiveRoot_eq (xs : List W) (H : ℕ) :
    naiveRoot poseidon2 (xs.map some) H = (Content.ofLeaves xs).root poseidon2 0 H := by
  have hz : ∀ j, j ≤ H → zerosLadder poseidon2 H j = zeroNode poseidon2 0 j := ladder_eq H
  unfold naiveRoot
  by_cases hxs : xs = []
  · subst hxs
    rw [if_pos (by simp), hz H le_rfl]
    exact (node_of_fresh (Content.ofLeaves ([] : List W)).fresh (Nat.zero_le _)).symm
  · have hlen : (xs.map some).length ≠ 0 := by simpa using hxs
    have hmap : (xs.map some).map (fun x => x.getD (0 : W)) = xs := by simp [Function.comp_def]
    rw [if_neg hlen, hmap, pairLevel_eq, foldl_pairUp_root _ 0 hxs fun j hj => hz j (by omega)]

theorem computeSubtreeRoot_eq {t : ImtTree W} {H k : ℕ} (hp : t.Params poseidon2 H k) (hk : k ≤ H)
    {ls : List W} (hlen : ls.length = 2 ^ k) :
    computeSubtreeRoot poseidon2 t ls = .ok ((Content.ofLeaves ls).nodeAt poseidon2 0 k 0) := by
  have hbase : (List.range t.B).map (fun k => ls.getD k (t.zeros 0)) = ls := by
    rw [hp.B_eq, ← hlen]
    refine List.ext_getElem (by simp) fun i _ hi => ?_
    simp [List.getD_eq_getElem?_getD, hi]
  have hhalve : ∀ d, d ≤ k → (List.range d).foldl (fun level _ =>
      (List.range (level.length / 2)).map fun j =>
        poseidon2 (level.getD (2 * j) 0) (level.getD (2 * j + 1) 0)) ls =
      (List.range d).foldl (pairUp poseidon2 t.zeros) ls := by
    intro d
    induction d with
    | zero => exact fun _ => rfl
    | succ d ih =>
      intro hd
      have heven := length_foldl_pairUp (h := poseidon2) t.zeros hlen d (by omega)
      rw [show k - d = k - (d + 1) + 1 by omega, pow_succ] at heven
      rw [List.range_succ, List.foldl_append, List.foldl_append, ih (by omega)]
      generalize (List.range d).foldl (pairUp poseidon2 t.zeros) ls = level at heven
      rw [List.foldl_cons, List.foldl_nil, List.foldl_cons, List.foldl_nil, pairUp,
        show (level.length + 1) / 2 = level.length / 2 by omega]
      refine List.map_congr_left fun i hi => ?_
      have hlt := List.mem_range.mp hi
      have hl : 2 * i < level.length := by omega
      have hr : 2 * i + 1 < level.length := by omega
      simp [List.getD_eq_getElem?_getD, hl, hr]
  have hne : ls ≠ [] := by
    rintro rfl
    exact (Nat.two_pow_pos k).ne hlen
  have hroot := foldl_pairUp_root (h := poseidon2) (z := 0) t.zeros (H := k) 0 hne
    fun j hj => hp.zeros_eq j (by omega)
  rw [computeSubtreeRoot, if_neg (by rw [hp.B_eq, hlen]; exact lt_irrefl _)]
  simp only [hbase, hp.logB_eq, hhalve k le_rfl, hroot]
  rfl

end ImtTree

end Bongtu.Core
