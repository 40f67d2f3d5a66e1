import Bongtu.Core.MerklePath
import Bongtu.Indexer.TreeLog

set_option linter.unusedSectionVars false

namespace Bongtu.Indexer

open Bongtu.Core Merkle Outcome

variable {W : Type} [Zero W] [DecidableEq W] (poseidon2 : W → W → W)

inductive ServedPath (W : Type) where
  | batchLeaf
  | path (siblings : List W) (pathIndices : List ℕ) (root : W)
deriving DecidableEq, Repr

namespace MirrorTree

def leafValue (t : MirrorTree W) (idx : ℕ) : W := (t.leaves idx).getD 0

-- An attached batch whose leaves are not recovered.
def isOpaque (t : MirrorTree W) (block : ℕ) : Bool :=
  (t.batchRoots (block * t.tree.B)).isSome && !t.filled (block * t.tree.B)

def blockLeaves (t : MirrorTree W) (block : ℕ) : List W :=
  (List.range t.tree.B).map fun i => t.leafValue (block * t.tree.B + i)

def halve (level : List W) : List W :=
  (List.range (level.length / 2)).map fun m =>
    poseidon2 (level.getD (2 * m) 0) (level.getD (2 * m + 1) 0)

def blockNode (t : MirrorTree W) (k : ℕ) : W :=
  if t.isOpaque k then (t.batchRoots (k * t.tree.B)).getD 0
  else ((List.range t.tree.logB).foldl (fun level _ => halve poseidon2 level) (t.blockLeaves k)).getD 0 0

-- One level of phase A, within the leaf's own block.
def ownLevel (offset : ℕ) (acc : PathFold W) (j : ℕ) : PathFold W :=
  let idx := offset / 2 ^ j
  let bit := idx % 2
  { siblings := acc.siblings ++ [acc.level.getD (if bit = 1 then idx - 1 else idx + 1) 0]
    pathIndices := acc.pathIndices ++ [bit]
    level := halve poseidon2 acc.level }

-- One level of phase B, over the block nodes.
def blockLevel (zeros : ℕ → W) (logB block : ℕ) (acc : PathFold W) (j : ℕ) : PathFold W :=
  let lvl := logB + j
  let bidx := block / 2 ^ j
  let bit := bidx % 2
  { siblings := acc.siblings ++
      [if bit = 1 then acc.level.getD (bidx - 1) 0
        else if bidx + 1 < acc.level.length then acc.level.getD (bidx + 1) 0 else zeros lvl]
    pathIndices := acc.pathIndices ++ [bit]
    level := ImtTree.pairLevel poseidon2 zeros acc.level lvl }

def path (leafIndex : ℕ) (t : MirrorTree W) : Except MirrorError (ServedPath W) :=
  let block := leafIndex / t.tree.B
  if t.isOpaque block then .ok .batchLeaf
  else
    let own := (List.range t.tree.logB).foldl (ownLevel poseidon2 (leafIndex % t.tree.B))
      ⟨[], [], t.blockLeaves block⟩
    let numBlocks := (t.tree.nextLeafIndex + t.tree.B - 1) / t.tree.B
    let top := (List.range (t.tree.H - t.tree.logB)).foldl
      (blockLevel poseidon2 t.zeros t.tree.logB block)
      ⟨own.siblings, own.pathIndices, (List.range numBlocks).map (t.blockNode poseidon2)⟩
    if top.level.head? = some t.tree.root then .ok (.path top.siblings top.pathIndices t.tree.root)
    else .error (.pathRoot leafIndex)

-- The cells a path is folded from: the root of each opaque batch and the recorded leaves.
def view (t : MirrorTree W) : Cells W := fun l i =>
  if l = t.tree.logB ∧ t.isOpaque i then t.batchRoots (i * t.tree.B)
  else if l = 0 then t.leaves i else none

end MirrorTree

variable {poseidon2} {H k : ℕ} {log : List (TreeEvent W)} {c : Content W} {t : MirrorTree W}

-- What a mirror knows of the log it has applied.
structure Mirrors (poseidon2 : W → W → W) (H k : ℕ) (log : List (TreeEvent W)) (c : Content W)
    (t : MirrorTree W) : Prop where
  tree : t.tree.Holds poseidon2 H k c
  zeros : ∀ l, l ≤ H → t.zeros l = zeroNode poseidon2 0 l
  batch : ∀ {start r}, t.batchRoots start = some r ↔ ∃ root, .subtreeAppended start r root ∈ log
  leaf : ∀ {i v}, t.leaves i = some v → (∃ root, .appended i v root ∈ log) ∨
    t.filled (i / 2 ^ k * 2 ^ k) = true
  fill : ∀ {start}, t.filled start = true → ∃ r root leaves,
    .subtreeAppended start r root ∈ log ∧ leaves.length = 2 ^ k ∧
    (Content.ofLeaves leaves).nodeAt poseidon2 0 k 0 = r ∧
    ∀ o < 2 ^ k, t.leaves (start + o) = leaves[o]?

-- Every leaf the log appends one by one is recorded.
def Recorded (log : List (TreeEvent W)) (t : MirrorTree W) : Prop :=
  ∀ i v root, .appended i v root ∈ log → t.leaves i ≠ none

namespace Mirrors

variable (hm : Mirrors poseidon2 H k log c t)

include hm

theorem B_eq : t.tree.B = 2 ^ k := hm.tree.params.B_eq

theorem logB_eq : t.tree.logB = k := hm.tree.params.logB_eq

theorem isOpaque_iff {b : ℕ} : t.isOpaque b = true ↔
    (∃ r, t.batchRoots (b * 2 ^ k) = some r) ∧ t.filled (b * 2 ^ k) = false := by
  simp [MirrorTree.isOpaque, hm.B_eq, Option.isSome_iff_exists]

theorem view_open {l i : ℕ} (hclear : l = k → t.isOpaque i = false) :
    t.view l i = if l = 0 then t.leaves i else none := by
  rw [MirrorTree.view, hm.logB_eq, if_neg]
  rintro ⟨rfl, hi⟩
  rw [hclear rfl] at hi
  cases hi

theorem view_above {l : ℕ} (hl : k < l) (i : ℕ) : t.view l i = none := by
  rw [hm.view_open fun h => absurd h hl.ne', if_neg (by omega)]

theorem hash {l i : ℕ} (hclear : l + 1 = k → t.isOpaque i = false) :
    node poseidon2 0 t.view (l + 1) i =
      poseidon2 (node poseidon2 0 t.view l (2 * i)) (node poseidon2 0 t.view l (2 * i + 1)) :=
  node_open _ _ _ ((hm.view_open hclear).trans (if_neg (Nat.succ_ne_zero l)))

theorem node_leaf {i : ℕ} (hclear : k = 0 → t.isOpaque i = false) :
    node poseidon2 0 t.view 0 i = t.leafValue i := by
  rw [node, hm.view_open fun h => hclear h.symm, if_pos rfl, MirrorTree.leafValue]

-- In a batch whose leaves are recovered the fold of the leaves is the root the chain attached.
theorem node_filled {b : ℕ} {r root : W} (hr : Records k log c)
    (he : .subtreeAppended (b * 2 ^ k) r root ∈ log) (hfilled : t.filled (b * 2 ^ k) = true) :
    node poseidon2 0 t.view k b = r := by
  obtain ⟨r', root', leaves, he', hlen, hfold, hleaves⟩ := hm.fill hfilled
  obtain rfl : r' = r := by
    have h' := hr.batch he'
    have h := hr.batch he
    exact Option.some.inj (h'.2.symm.trans h.2)
  have hclear : t.isOpaque b = false := by
    rw [Bool.eq_false_iff, ne_eq, hm.isOpaque_iff, hfilled]
    exact fun h => Bool.noConfusion h.2
  rw [← hfold]
  refine node_window k b 0 (fun o ho => ?_) fun a ha hak o ho => ?_
  · have hview : t.view 0 (b * 2 ^ k + o) = t.leaves (b * 2 ^ k + o) := by
      rw [hm.view_open, if_pos rfl]
      rintro rfl
      rw [pow_zero, Nat.lt_one_iff] at ho
      rw [ho, pow_zero, Nat.mul_one, Nat.add_zero]
      exact hclear
    rw [hview, hleaves o ho]
    simp [Content.ofLeaves]
  · rw [hm.view_open, if_neg (by omega)]
    · simp [Content.ofLeaves, Nat.pos_iff_ne_zero.mp ha]
    · rintro rfl
      rw [Nat.sub_self, pow_zero, Nat.lt_one_iff] at ho
      rw [ho, Nat.sub_self, pow_zero, Nat.mul_one, Nat.add_zero]
      exact hclear

-- A block without a batch holds the same leaves in the mirror as on the chain; pads are zero leaves.
theorem node_single {b : ℕ} (hr : Records k log c) (hrec : Recorded log t)
    (hnone : ∀ r root, .subtreeAppended (b * 2 ^ k) r root ∉ log) :
    node poseidon2 0 t.view k b = c.nodeAt poseidon2 0 k b := by
  have hbatch : t.batchRoots (b * 2 ^ k) = none := by
    cases h : t.batchRoots (b * 2 ^ k) with
    | none => rfl
    | some r =>
      obtain ⟨root, he⟩ := hm.batch.mp h
      exact absurd he (hnone r root)
  have hclear : t.isOpaque b = false := by
    rw [Bool.eq_false_iff, ne_eq, hm.isOpaque_iff, hbatch]
    rintro ⟨⟨r, hr⟩, -⟩
    cases hr
  refine node_window k b b (fun o ho => ?_) fun a ha hak o ho => ?_
  · have hview : t.view 0 (b * 2 ^ k + o) = t.leaves (b * 2 ^ k + o) := by
      rw [hm.view_open, if_pos rfl]
      rintro rfl
      rw [pow_zero, Nat.lt_one_iff] at ho
      rw [ho, pow_zero, Nat.mul_one, Nat.add_zero]
      exact hclear
    rw [hview]
    cases hleaf : t.leaves (b * 2 ^ k + o) with
    | some v =>
      rcases hm.leaf hleaf with ⟨root, he⟩ | hfilled
      · rw [hr.leaf he]
      · have hblock : (b * 2 ^ k + o) / 2 ^ k * 2 ^ k = b * 2 ^ k := by
          rw [Nat.mul_comm b, Nat.mul_add_div (Nat.two_pow_pos k), Nat.div_eq_of_lt ho, Nat.add_zero,
            Nat.mul_comm]
        rw [hblock] at hfilled
        obtain ⟨r, root, -, he, -⟩ := hm.fill hfilled
        exact absurd he (hnone r root)
    | none =>
      cases hcell : c.cells 0 (b * 2 ^ k + o) with
      | none => rfl
      | some v =>
        rcases hr.cell hcell with ⟨-, ⟨root, he⟩ | rfl⟩ | ⟨rfl, root, he⟩
        · exact absurd hleaf (hrec _ _ _ he)
        · rfl
        · rw [pow_zero, Nat.lt_one_iff] at ho
          rw [ho, Nat.add_zero, pow_zero, Nat.mul_one, Nat.mul_one] at he
          exact absurd (by simpa using he) (hnone v root)
  · have hopen : t.view a (b * 2 ^ (k - a) + o) = none := by
      rw [hm.view_open, if_neg (by omega)]
      rintro rfl
      rw [Nat.sub_self, pow_zero, Nat.lt_one_iff] at ho
      rw [ho, Nat.sub_self, pow_zero, Nat.mul_one, Nat.add_zero]
      exact hclear
    rw [hopen]
    cases hcell : c.cells a (b * 2 ^ (k - a) + o) with
    | none => rfl
    | some v =>
      rcases hr.cell hcell with ⟨hzero, -⟩ | ⟨rfl, root, he⟩
      · omega
      · rw [Nat.sub_self, pow_zero, Nat.lt_one_iff] at ho
        rw [ho, Nat.sub_self, pow_zero, Nat.mul_one, Nat.add_zero] at he
        exact absurd he (hnone v root)

theorem node_block (hr : Records k log c) (hrec : Recorded log t) (b : ℕ) :
    node poseidon2 0 t.view k b = c.nodeAt poseidon2 0 k b := by
  rcases em (∃ r root, TreeEvent.subtreeAppended (b * 2 ^ k) r root ∈ log) with ⟨r, root, he⟩ | hnone
  · have hcell : c.cells k b = some r := by
      have h := (hr.batch he).2
      rwa [Nat.mul_div_cancel _ (Nat.two_pow_pos k)] at h
    rw [Content.nodeAt, node_fixed c.cells k b r hcell]
    cases hfilled : t.filled (b * 2 ^ k) with
    | true => exact hm.node_filled hr he hfilled
    | false =>
      have htag := hm.batch.mpr ⟨root, he⟩
      refine node_fixed _ _ _ _ ?_
      rw [MirrorTree.view, hm.logB_eq, if_pos ⟨rfl, hm.isOpaque_iff.mpr ⟨⟨r, htag⟩, hfilled⟩⟩, hm.B_eq]
      exact htag
  · exact hm.node_single hr hrec fun r root he => hnone ⟨r, root, he⟩

theorem node_upper (hr : Records k log c) (hrec : Recorded log t) {l : ℕ} (hl : k ≤ l) (i : ℕ) :
    node poseidon2 0 t.view l i = c.nodeAt poseidon2 0 l i := by
  obtain ⟨e, rfl⟩ := Nat.exists_eq_add_of_le hl
  refine node_above (fun l hl i => hm.view_above hl i) (fun l hl i => ?_) (hm.node_block hr hrec) e i
  cases hcell : c.cells l i with
  | none => rfl
  | some v =>
    rcases hr.cell hcell with ⟨hzero, -⟩ | ⟨hk, -⟩ <;> omega

theorem node_right (hr : Records k log c) (hrec : Recorded log t) {l i : ℕ} (hl : k ≤ l)
    (hi : c.next ≤ i * 2 ^ l) : node poseidon2 0 t.view l i = zeroNode poseidon2 0 l :=
  (hm.node_upper hr hrec hl i).trans (node_of_fresh c.fresh hi)

theorem root_eq (hr : Records k log c) (hrec : Recorded log t) (hk : k ≤ H) :
    node poseidon2 0 t.view H 0 = t.tree.root :=
  (hm.node_upper hr hrec hk 0).trans hm.tree.tracks.root_eq.symm

end Mirrors

section Fold

theorem halve_nodes (N : ℕ → W) (m : ℕ) :
    MirrorTree.halve poseidon2 ((List.range (2 * m)).map N) =
      (List.range m).map fun i => poseidon2 (N (2 * i)) (N (2 * i + 1)) := by
  rw [MirrorTree.halve, List.length_map, List.length_range, Nat.mul_div_cancel_left m (by decide)]
  refine List.map_congr_left fun i hi => ?_
  have hlt := List.mem_range.mp hi
  rw [getD_nodes_lt 0 (by omega : 2 * i < 2 * m), getD_nodes_lt 0 (by omega : 2 * i + 1 < 2 * m)]

theorem shift_div {b offset l : ℕ} (hl : l ≤ k) :
    (b * 2 ^ k + offset) / 2 ^ l = b * 2 ^ (k - l) + offset / 2 ^ l := by
  obtain ⟨e, rfl⟩ := Nat.exists_eq_add_of_le hl
  rw [Nat.add_sub_cancel_left, pow_add, mul_comm (2 ^ l), ← mul_assoc, mul_comm _ (2 ^ l),
    Nat.mul_add_div (Nat.two_pow_pos l)]

namespace Mirrors

variable (hm : Mirrors poseidon2 H k log c t) {b : ℕ} (hclear : t.isOpaque b = false)

include hm hclear

theorem blockLeaves_eq : t.blockLeaves b =
    (List.range (2 ^ k)).map fun i => node poseidon2 0 t.view 0 (b * 2 ^ k + i) := by
  rw [MirrorTree.blockLeaves, hm.B_eq]
  refine List.map_congr_left fun i hi => (hm.node_leaf ?_).symm
  rintro rfl
  rw [pow_zero, List.range_one, List.mem_singleton] at hi
  rw [hi, pow_zero, Nat.mul_one, Nat.add_zero]
  exact hclear

-- Halving one level of a block whose leaves are known gives the next.
theorem halve_level {d : ℕ} (hd : d < k) :
    MirrorTree.halve poseidon2
      ((List.range (2 ^ (k - d))).map fun i => node poseidon2 0 t.view d (b * 2 ^ (k - d) + i)) =
    (List.range (2 ^ (k - (d + 1)))).map fun i =>
      node poseidon2 0 t.view (d + 1) (b * 2 ^ (k - (d + 1)) + i) := by
  have hpow : 2 ^ (k - d) = 2 * 2 ^ (k - (d + 1)) := by
    rw [← pow_succ', show k - (d + 1) + 1 = k - d by omega]
  rw [hpow, halve_nodes]
  refine List.map_congr_left fun i hi => ?_
  have hlt := List.mem_range.mp hi
  rw [hm.hash]
  · rw [show 2 * (b * 2 ^ (k - (d + 1)) + i) = b * (2 * 2 ^ (k - (d + 1))) + 2 * i by ring, add_assoc]
  · rintro rfl
    rw [Nat.sub_self, pow_zero, Nat.lt_one_iff] at hlt
    rw [hlt, Nat.sub_self, pow_zero, Nat.mul_one, Nat.add_zero]
    exact hclear

theorem foldl_halve (d : ℕ) (hd : d ≤ k) :
    (List.range d).foldl (fun level _ => MirrorTree.halve poseidon2 level) (t.blockLeaves b) =
      (List.range (2 ^ (k - d))).map fun i => node poseidon2 0 t.view d (b * 2 ^ (k - d) + i) := by
  induction d with
  | zero => exact hm.blockLeaves_eq hclear
  | succ d ih =>
    rw [List.range_succ, List.foldl_append, ih (by omega), List.foldl_cons, List.foldl_nil,
      hm.halve_level hclear hd]

theorem foldl_ownLevel {offset : ℕ} (hoffset : offset < 2 ^ k) (d : ℕ) (hd : d ≤ k) :
    (List.range d).foldl (MirrorTree.ownLevel poseidon2 offset) ⟨[], [], t.blockLeaves b⟩ =
      ⟨(List.range d).map fun l => node poseidon2 0 t.view l (buddy ((b * 2 ^ k + offset) / 2 ^ l)),
        (List.range d).map fun l => (b * 2 ^ k + offset) / 2 ^ l % 2,
        (List.range (2 ^ (k - d))).map fun i => node poseidon2 0 t.view d (b * 2 ^ (k - d) + i)⟩ := by
  induction d with
  | zero => rw [hm.blockLeaves_eq hclear]; rfl
  | succ d ih =>
    have hpow : 2 ^ (k - d) = 2 * 2 ^ (k - (d + 1)) := by
      rw [← pow_succ', show k - (d + 1) + 1 = k - d by omega]
    have hidx : offset / 2 ^ d < 2 * 2 ^ (k - (d + 1)) := by
      rw [← hpow, Nat.div_lt_iff_lt_mul (Nat.two_pow_pos d), ← pow_add, Nat.sub_add_cancel (by omega)]
      exact hoffset
    have hindex : (b * 2 ^ k + offset) / 2 ^ d = 2 * (b * 2 ^ (k - (d + 1))) + offset / 2 ^ d := by
      rw [shift_div (by omega), hpow]
      ring
    have hbit : (b * 2 ^ k + offset) / 2 ^ d % 2 = offset / 2 ^ d % 2 := by
      rw [hindex, Nat.mul_add_mod]
    have hsibling : ((List.range (2 ^ (k - d))).map fun i =>
          node poseidon2 0 t.view d (b * 2 ^ (k - d) + i)).getD (buddy (offset / 2 ^ d)) 0 =
        node poseidon2 0 t.view d (buddy ((b * 2 ^ k + offset) / 2 ^ d)) := by
      rw [getD_nodes_lt 0 (by rw [hpow]; exact buddy_lt hidx), hindex, buddy_add_even, hpow,
        show b * (2 * 2 ^ (k - (d + 1))) = 2 * (b * 2 ^ (k - (d + 1))) by ring]
    rw [List.range_succ, List.foldl_append, ih (by omega), List.foldl_cons, List.foldl_nil,
      MirrorTree.ownLevel, hm.halve_level hclear hd, List.map_append, List.map_append,
      List.map_singleton, List.map_singleton, hbit, ← hsibling]
    rfl

end Mirrors

namespace Mirrors

variable (hm : Mirrors poseidon2 H k log c t) (hr : Records k log c) (hrec : Recorded log t)

include hm hr hrec

theorem blockNode_eq (b : ℕ) : t.blockNode poseidon2 b = node poseidon2 0 t.view k b := by
  rw [MirrorTree.blockNode]
  cases hunfilled : t.isOpaque b with
  | true =>
    obtain ⟨⟨r, hroot⟩, -⟩ := hm.isOpaque_iff.mp hunfilled
    have hcell : t.view k b = some r := by
      rw [MirrorTree.view, hm.logB_eq, if_pos ⟨rfl, hunfilled⟩, hm.B_eq, hroot]
    rw [if_pos rfl, hm.B_eq, hroot, node_fixed t.view k b r hcell]
    rfl
  | false =>
    rw [if_neg Bool.false_ne_true, hm.logB_eq, hm.foldl_halve hunfilled k le_rfl, Nat.sub_self, pow_zero]
    simp

theorem foldl_blockLevel {b d : ℕ} (hb : b * 2 ^ k < c.next) (siblings : List W) (indices : List ℕ)
    (hd : k + d ≤ H) :
    ∃ m, c.next ≤ m * 2 ^ (k + d) ∧
      (List.range d).foldl (MirrorTree.blockLevel poseidon2 t.zeros k b) ⟨siblings, indices,
        (List.range ((c.next + 2 ^ k - 1) / 2 ^ k)).map (t.blockNode poseidon2)⟩ =
      ⟨siblings ++ (List.range d).map fun l => node poseidon2 0 t.view (k + l) (buddy (b / 2 ^ l)),
        indices ++ (List.range d).map fun l => b / 2 ^ l % 2,
        (List.range m).map (node poseidon2 0 t.view (k + d))⟩ := by
  induction d with
  | zero =>
    refine ⟨(c.next + 2 ^ k - 1) / 2 ^ k, ?_, ?_⟩
    · have hpos := Nat.two_pow_pos k
      have hceil := Nat.lt_div_mul_add (a := c.next + 2 ^ k - 1) hpos
      rw [Nat.add_zero]
      omega
    · have hnodes : t.blockNode poseidon2 = node poseidon2 0 t.view k :=
        funext (hm.blockNode_eq hr hrec)
      rw [hnodes]
      simp
  | succ d ih =>
    obtain ⟨m, hm', hfold⟩ := ih (by omega)
    have hzero : t.zeros (k + d) = zeroNode poseidon2 0 (k + d) := hm.zeros _ (by omega)
    have hright : ∀ i, m ≤ i → node poseidon2 0 t.view (k + d) i = t.zeros (k + d) := fun i hi =>
      (hm.node_right hr hrec (Nat.le_add_right k d) (hm'.trans (Nat.mul_le_mul_right _ hi))).trans
        hzero.symm
    have hindex : b / 2 ^ d < m := by
      rw [Nat.div_lt_iff_lt_mul (Nat.two_pow_pos d)]
      refine Nat.lt_of_mul_lt_mul_right (a := 2 ^ k) (hb.trans_le (hm'.trans_eq ?_))
      rw [pow_add]
      ring
    have hsibling : (if b / 2 ^ d % 2 = 1 then
          ((List.range m).map (node poseidon2 0 t.view (k + d))).getD (b / 2 ^ d - 1) 0
        else if b / 2 ^ d + 1 < ((List.range m).map (node poseidon2 0 t.view (k + d))).length then
          ((List.range m).map (node poseidon2 0 t.view (k + d))).getD (b / 2 ^ d + 1) 0
        else t.zeros (k + d)) = node poseidon2 0 t.view (k + d) (buddy (b / 2 ^ d)) := by
      rw [List.length_map, List.length_range]
      split_ifs with hodd hin
      · rw [getD_nodes_lt 0 ((Nat.sub_le _ _).trans_lt hindex), buddy_odd hodd]
      · rw [getD_nodes_lt 0 hin, buddy_even (by omega)]
      · rw [buddy_even (by omega), hright _ (by omega)]
    have hhash : ∀ i, node poseidon2 0 t.view (k + d + 1) i =
        poseidon2 (node poseidon2 0 t.view (k + d) (2 * i))
          (node poseidon2 0 t.view (k + d) (2 * i + 1)) := fun i => hm.hash fun h => by omega
    refine ⟨(m + 1) / 2, ?_, ?_⟩
    · have hhalf : m ≤ (m + 1) / 2 * 2 := by omega
      rw [← add_assoc, pow_succ', ← mul_assoc]
      exact hm'.trans (Nat.mul_le_mul_right _ hhalf)
    · rw [List.range_succ, List.foldl_append, hfold, List.foldl_cons, List.foldl_nil,
        MirrorTree.blockLevel, ImtTree.pairLevel_eq, pairUp_level hhash hright, List.map_append,
        List.map_append, List.map_singleton, List.map_singleton, ← hsibling, List.append_assoc,
        List.append_assoc]
      rfl

theorem path_eq (hk : k ≤ H) {leafIndex : ℕ} (hindex : leafIndex < c.next) :
    t.path poseidon2 leafIndex =
      if t.isOpaque (leafIndex / 2 ^ k) then .ok .batchLeaf
      else .ok (.path
        ((List.range H).map fun l => node poseidon2 0 t.view l (buddy (leafIndex / 2 ^ l)))
        ((List.range H).map fun l => leafIndex / 2 ^ l % 2) t.tree.root) := by
  rw [MirrorTree.path, hm.B_eq]
  cases hunfilled : t.isOpaque (leafIndex / 2 ^ k) with
  | true => rfl
  | false =>
    have hown := hm.foldl_ownLevel hunfilled (Nat.mod_lt leafIndex (Nat.two_pow_pos k)) k le_rfl
    rw [Nat.div_add_mod'] at hown
    have hblock : leafIndex / 2 ^ k * 2 ^ k < c.next := (Nat.div_mul_le_self _ _).trans_lt hindex
    obtain ⟨m, hm', htop⟩ := hm.foldl_blockLevel hr hrec (d := H - k) hblock
      ((List.range k).map fun l => node poseidon2 0 t.view l (buddy (leafIndex / 2 ^ l)))
      ((List.range k).map fun l => leafIndex / 2 ^ l % 2) (by omega)
    have hpos : 0 < m := by
      rcases Nat.eq_zero_or_pos m with rfl | hpos
      · omega
      · exact hpos
    have hlevels : ∀ {α : Type} (f : ℕ → α), (List.range H).map f =
        (List.range k).map f ++ (List.range (H - k)).map fun l => f (k + l) := by
      intro α f
      rw [← Nat.add_sub_cancel' hk, List.range_add, List.map_append, List.map_map,
        Nat.add_sub_cancel_left]
      rfl
    have hhead : ((List.range m).map (node poseidon2 0 t.view (k + (H - k)))).head? =
        some t.tree.root := by
      rw [Nat.add_sub_cancel' hk, ← hm.root_eq hr hrec hk]
      obtain ⟨m, rfl⟩ := Nat.exists_eq_succ_of_ne_zero hpos.ne'
      rw [List.range_succ_eq_map]
      rfl
    have hshift : ∀ l, leafIndex / 2 ^ (k + l) = leafIndex / 2 ^ k / 2 ^ l := fun l => by
      rw [pow_add, Nat.div_div_eq_div_mul]
    simp only [if_neg Bool.false_ne_true, hm.logB_eq, hm.tree.params.H_eq,
      show t.tree.nextLeafIndex = c.next from hm.tree.tracks.next_eq, hown, htop, hhead, if_true]
    rw [hlevels, hlevels]
    simp only [hshift]

end Mirrors

end Fold

end Bongtu.Indexer
