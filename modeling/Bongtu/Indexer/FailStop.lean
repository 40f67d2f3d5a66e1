import Bongtu.Core.Capacity
import Bongtu.Indexer.SolanaIngest

set_option linter.unusedSectionVars false

namespace Bongtu.Indexer

open Bongtu.Core Outcome

variable {W : Type} [Zero W] [DecidableEq W] (poseidon2 : W → W → W)

namespace TreeEvent

-- An event at or behind leaves the mirror already has: a replay.
def Below (e : TreeEvent W) (t : MirrorTree W) : Prop :=
  match e with
  | .appended leafIndex _ _ => leafIndex < t.tree.nextLeafIndex
  | .subtreeAppended start _ _ => start < t.tree.nextLeafIndex
  | .opAppended start leaves _ => start + leaves.length ≤ t.tree.nextLeafIndex

-- The event's leaves go in where the event says, and give the root it carries.
def Agrees (e : TreeEvent W) (t : MirrorTree W) : Prop :=
  match e with
  | .appended leafIndex leaf root => leafIndex = t.tree.nextLeafIndex ∧
      ∃ tree, ImtTree.appendLeaf poseidon2 leaf t.tree = .returned tree ∧ tree.root = root
  | .subtreeAppended start subtreeRoot root =>
      ∃ tree, ImtTree.attachSubtree poseidon2 subtreeRoot none t.tree = .returned tree ∧
        tree.nextLeafIndex = start + t.tree.B ∧ tree.root = root
  | .opAppended start leaves resultingRoot => start ≤ t.tree.nextLeafIndex ∧
      ∃ tree, Run.forEach (ImtTree.appendLeaf poseidon2) (leaves.drop (t.tree.nextLeafIndex - start))
        t.tree = .returned tree ∧ tree.root = resultingRoot

def Disagrees (e : TreeEvent W) (t : MirrorTree W) : Prop := ¬e.Below t ∧ ¬e.Agrees poseidon2 t

-- The wrapped tree cannot take the first leaf, or an op starts past the next leaf.
def Blocked (e : TreeEvent W) (t : MirrorTree W) : Prop :=
  2 ^ t.tree.H ≤ t.tree.nextLeafIndex ∨
    ∃ start leaves root, e = .opAppended start leaves root ∧ t.tree.nextLeafIndex < start

end TreeEvent

namespace MirrorTree

structure Unchanged (t t' : MirrorTree W) : Prop where
  root : t'.tree.root = t.tree.root
  nextLeafIndex : t'.tree.nextLeafIndex = t.tree.nextLeafIndex
  leaves : t'.leaves = t.leaves
  batchRoots : t'.batchRoots = t.batchRoots

-- The event throws, changes nothing a reader sees, and throws again when it is delivered again.
def FailStop (e : TreeEvent W) (t : MirrorTree W) : Prop :=
  ∃ err t', apply poseidon2 e t = .threw err t' ∧ Unchanged t t' ∧
    ∃ err' t'', apply poseidon2 e t' = .threw err' t''

inductive Call (W : Type) where
  | apply (e : TreeEvent W)
  | recordLeaf (leafIndex : ℕ) (leaf : W)
  | fillBatch (start : ℕ) (leaves : List W) (isPublic : Bool)
  | clearPendingLeaves
  | rebuildFromLeaves (rows : List (LeafRow W))

-- The state a call leaves behind, also when it throws.
def after (t : MirrorTree W) : Call W → MirrorTree W
  | .apply e => (apply poseidon2 e t).state
  | .recordLeaf leafIndex leaf => t.recordLeaf leafIndex leaf
  | .fillBatch start leaves isPublic => t.fillBatch start leaves isPublic
  | .clearPendingLeaves => t.clearPendingLeaves
  | .rebuildFromLeaves rows => (rebuildFromLeaves poseidon2 rows t).state

variable {poseidon2} {H k n : ℕ}

theorem onTree_keeps {P : ImtTree W → Prop} {f : ImtTree W → Run ImtError (ImtTree W)}
    {t : MirrorTree W} (ht : P t.tree) (hf : ∀ s, P s → P (f s).state) :
    P (onTree f t).state.tree := by
  have h := hf t.tree ht
  unfold onTree
  cases hr : f t.tree <;> rw [hr] at h <;> exact h

theorem state_assertAppended (i : ℕ) (root : W) (t : MirrorTree W) :
    (assertAppended i root t).state = t := by
  unfold assertAppended
  split
  · rfl
  · split <;> rfl

theorem state_assertAttached (start : ℕ) (root : W) (t : MirrorTree W) :
    (assertAttached start root t).state = t := by
  unfold assertAttached
  split
  · rfl
  · split <;> rfl

theorem state_assertOp (start count : ℕ) (root : W) (t : MirrorTree W) :
    (assertOp start count root t).state = t := by
  unfold assertOp
  split
  · rfl
  · split <;> rfl

@[simp] theorem tree_recordLeaf (i : ℕ) (v : W) (t : MirrorTree W) :
    (t.recordLeaf i v).tree = t.tree := rfl

@[simp] theorem tree_tagBatch (start : ℕ) (r : W) (t : MirrorTree W) :
    (t.tagBatch start r).tree = t.tree := rfl

@[simp] theorem tree_recordLeaves (start : ℕ) (leaves : List W) (t : MirrorTree W) :
    (t.recordLeaves start leaves).tree = t.tree := by
  unfold recordLeaves
  generalize leaves.zipIdx = xs
  induction xs generalizing t with
  | nil => rfl
  | cons x xs ih => exact ih _

theorem apply_keeps {P : ImtTree W → Prop}
    (happend : ∀ v s, P s → P (ImtTree.appendLeaf poseidon2 v s).state)
    (hattach : ∀ r s, P s → P (ImtTree.attachSubtree poseidon2 r none s).state)
    (e : TreeEvent W) {t : MirrorTree W} (ht : P t.tree) : P (apply poseidon2 e t).state.tree := by
  cases e with
  | appended leafIndex leaf root =>
    simp only [apply, applyAppend]
    split
    · exact ht
    · refine Run.bind_keeps (P := fun s : MirrorTree W => P s.tree) (onTree_keeps ht (happend leaf)) fun s _ hs => ?_
      rw [state_assertAppended]
      exact hs
  | subtreeAppended start subtreeRoot root =>
    simp only [apply, applyAttach]
    refine Run.bind_keeps (P := fun s : MirrorTree W => P s.tree) ?_ fun s _ hs => by simpa using hs
    split
    · refine Run.bind_keeps (P := fun s : MirrorTree W => P s.tree) (onTree_keeps ht (hattach subtreeRoot))
        fun s _ hs => ?_
      rw [state_assertAttached]
      exact hs
    · exact ht
  | opAppended start leaves root =>
    simp only [apply, applyOpAppend]
    refine Run.bind_keeps (P := fun s : MirrorTree W => P s.tree) ?_ fun s _ hs => by simpa using hs
    split
    · split
      · exact ht
      · refine Run.bind_keeps (P := fun s : MirrorTree W => P s.tree) ?_ fun s _ hs => ?_
        · refine Run.forEach_keeps (P := fun s : MirrorTree W => P s.tree) _ (fun x _ s hs => ?_) ht
          unfold appendFrom
          split
          · exact onTree_keeps hs (happend x.1)
          · exact hs
        · rw [state_assertOp]
          exact hs
    · exact ht

theorem Within.apply {t : MirrorTree W} (ht : t.tree.Within poseidon2 H k n) (e : TreeEvent W) :
    (apply poseidon2 e t).state.tree.Within poseidon2 H k n :=
  apply_keeps (fun v _ hs => hs.appendLeaf v) (fun r _ hs => hs.attachSubtree r) e ht

theorem Within.after {t : MirrorTree W} (ht : t.tree.Within poseidon2 H k n) (c : Call W) :
    (t.after poseidon2 c).tree.Within poseidon2 H k n := by
  cases c with
  | apply e => exact Within.apply ht e
  | recordLeaf | fillBatch | clearPendingLeaves => exact ht
  | rebuildFromLeaves rows =>
    refine Run.forEach_keeps (P := fun s : MirrorTree W => s.tree.Within poseidon2 H k n) rows
      (fun row _ s hs => ?_) ht
    split
    · refine Run.bind_keeps (P := fun s : MirrorTree W => s.tree.Within poseidon2 H k n)
        (onTree_keeps hs fun _ hu => hu.attachSubtree _) fun u _ hu => ?_
      dsimp only
      split <;> exact hu
    · refine Run.bind_keeps (P := fun s : MirrorTree W => s.tree.Within poseidon2 H k n)
        (onTree_keeps hs fun _ hu => hu.appendLeaf _) fun u _ hu => ?_
      dsimp only
      split <;> exact hu

theorem isPowerOfTwo_ok {b : ℕ} (h : isPowerOfTwo b = true) : b = 2 ^ Nat.log2 b := by
  simp only [isPowerOfTwo, Bool.and_eq_true, beq_iff_eq] at h
  exact h.2

theorem construct_within {height batchSize : ℕ} {t : MirrorTree W}
    (ht : construct poseidon2 height batchSize = .ok t) :
    ∃ k, k ≤ height ∧ t.tree.Within poseidon2 height k 0 := by
  obtain ⟨tree, htree, ht⟩ := bind_ok.mp ht
  cases ht
  unfold ImtTree.construct at htree
  split at htree
  · cases htree
  · split at htree
    · cases htree
    · case isFalse hpow =>
      split at htree
      · cases htree
      · case isFalse hlog =>
        cases htree
        rw [Bool.not_eq_false] at hpow
        refine ⟨Nat.log2 batchSize, not_lt.mp hlog, ?_, Nat.zero_le _, Nat.zero_le _⟩
        have hparams := ImtTree.params_init poseidon2 height (Nat.log2 batchSize)
        rwa [← isPowerOfTwo_ok hpow] at hparams

theorem onTree_bind (f g : ImtTree W → Run ImtError (ImtTree W)) (t : MirrorTree W) :
    onTree (fun s => (f s).bind g) t = (onTree f t).bind (onTree g) := by
  simp only [onTree]
  cases f t.tree <;> rfl

-- The leaves of an op below the frontier are skipped, the rest are appended one after another.
theorem forEach_appendFrom (poseidon2 : W → W → W) (next start : ℕ) (leaves : List W) :
    ∀ (j : ℕ) (t : MirrorTree W),
    start + j ≤ next →
    Run.forEach (appendFrom poseidon2 next start) (leaves.zipIdx j) t =
      onTree (Run.forEach (ImtTree.appendLeaf poseidon2) (leaves.drop (next - (start + j)))) t := by
  induction leaves with
  | nil =>
    intro j t _
    simp [Run.forEach, onTree]
  | cons v leaves ih =>
    intro j t hj
    rw [List.zipIdx_cons, Run.forEach]
    rcases Nat.lt_or_ge (start + j) next with hlt | hge
    · have hskip : appendFrom poseidon2 next start (v, j) t = .returned t := by
        simp [appendFrom, hlt]
      rw [hskip, Run.bind_returned, ih (j + 1) t hlt,
        show next - (start + j) = next - (start + (j + 1)) + 1 by omega, List.drop_succ_cons]
    · have htail : ∀ (xs : List W) (i : ℕ) (s : MirrorTree W), next ≤ start + i →
          Run.forEach (appendFrom poseidon2 next start) (xs.zipIdx i) s =
            onTree (Run.forEach (ImtTree.appendLeaf poseidon2) xs) s := by
        intro xs
        induction xs with
        | nil =>
          intro i s _
          simp [Run.forEach, onTree]
        | cons x xs ihx =>
          intro i s hi
          have hdo : appendFrom poseidon2 next start (x, i) s =
              onTree (ImtTree.appendLeaf poseidon2 x) s := by
            simp [appendFrom, hi]
          rw [List.zipIdx_cons, Run.forEach, hdo]
          exact (congrArg _ (funext fun u => ihx (i + 1) u (by omega))).trans (onTree_bind _ _ s).symm
      rw [← Run.forEach, ← List.zipIdx_cons, htail (v :: leaves) j t hge, Nat.sub_eq_zero_of_le hge,
        List.drop_zero]

theorem onTree_returned {f : ImtTree W → Run ImtError (ImtTree W)} {t : MirrorTree W}
    {tree : ImtTree W} (h : f t.tree = .returned tree) :
    onTree f t = .returned { t with tree := tree } := by
  rw [onTree, h]

theorem onTree_threw {f : ImtTree W → Run ImtError (ImtTree W)} {t : MirrorTree W}
    {e : ImtError} {tree : ImtTree W} (h : f t.tree = .threw e tree) :
    onTree f t = .threw (.imt e) { t with tree := tree } := by
  rw [onTree, h]

theorem applyOpAppend_eq (poseidon2 : W → W → W) (root : W) {start : ℕ} {leaves : List W}
    {t : MirrorTree W}
    (hbelow : ¬start + leaves.length ≤ t.tree.nextLeafIndex) (hstart : start ≤ t.tree.nextLeafIndex) :
    ∃ v vs, leaves.drop (t.tree.nextLeafIndex - start) = v :: vs ∧
      applyOpAppend poseidon2 start leaves root t =
        ((onTree (Run.forEach (ImtTree.appendLeaf poseidon2) (v :: vs)) t).bind
          (assertOp start leaves.length root)).bind fun t => .returned (t.recordLeaves start leaves) := by
  obtain ⟨v, vs, hdrop⟩ : ∃ v vs, leaves.drop (t.tree.nextLeafIndex - start) = v :: vs := by
    refine List.exists_cons_of_ne_nil ?_
    rw [Ne, List.drop_eq_nil_iff]
    omega
  have hloop := forEach_appendFrom poseidon2 t.tree.nextLeafIndex start leaves 0 t
    (by omega)
  rw [Nat.add_zero, hdrop] at hloop
  refine ⟨v, vs, hdrop, ?_⟩
  simp only [applyOpAppend, gt_iff_lt, not_le.mp hbelow, if_true, not_lt.mpr hstart, if_false, hloop]

theorem applyOpAppend_gap {start : ℕ} {leaves : List W} {root : W} {t : MirrorTree W}
    (hbelow : ¬start + leaves.length ≤ t.tree.nextLeafIndex) (hgap : t.tree.nextLeafIndex < start) :
    applyOpAppend poseidon2 start leaves root t = .threw (.opGap start t.tree.nextLeafIndex) t := by
  rw [applyOpAppend, if_pos (not_le.mp hbelow), if_pos hgap, Run.bind_threw]

-- An event that is not blocked gets at least one leaf into the mirror, whatever it carries.
theorem apply_grows {t : MirrorTree W} {e : TreeEvent W} (ht : t.tree.Within poseidon2 H k 0)
    (hk : k ≤ H) (hbelow : ¬e.Below t) (hopen : ¬e.Blocked t) :
    t.tree.nextLeafIndex < (apply poseidon2 e t).state.tree.nextLeafIndex := by
  simp only [TreeEvent.Blocked, not_or, not_le, ht.params.H_eq] at hopen
  obtain ⟨hroom, hgap⟩ := hopen
  have hroom' : t.tree.nextLeafIndex + 1 ≤ 2 ^ t.tree.H := by rwa [ht.params.H_eq]
  cases e with
  | appended leafIndex leaf root =>
    obtain ⟨tree, htree, hnext⟩ := ImtTree.appendLeaf_room poseidon2 leaf hroom'
    simp only [TreeEvent.Below] at hbelow
    rw [apply, applyAppend, if_neg hbelow, onTree_returned htree, Run.bind_returned,
      state_assertAppended]
    exact hnext ▸ Nat.lt_succ_self _
  | subtreeAppended start subtreeRoot root =>
    have hgrow := ImtTree.attachSubtree_grows ht hk hroom subtreeRoot
    simp only [TreeEvent.Below, not_lt] at hbelow
    rw [apply, applyAttach, if_pos hbelow]
    let P : MirrorTree W → Prop := fun s => t.tree.nextLeafIndex < s.tree.nextLeafIndex
    refine Run.bind_keeps (P := P) (Run.bind_keeps (P := P) ?_ fun s _ hs => ?_) fun s _ hs => hs
    · unfold onTree
      cases h : ImtTree.attachSubtree poseidon2 subtreeRoot none t.tree <;> rw [h] at hgrow <;>
        exact hgrow
    · rw [state_assertAttached]
      exact hs
  | opAppended start leaves root =>
    have hstart : start ≤ t.tree.nextLeafIndex :=
      not_lt.mp fun hlt => hgap ⟨start, leaves, root, rfl, hlt⟩
    obtain ⟨v, vs, -, happly⟩ := applyOpAppend_eq poseidon2 root hbelow hstart
    obtain ⟨tree, htree, hnext⟩ := ImtTree.appendLeaf_room poseidon2 v hroom'
    have hwithin : tree.Within poseidon2 H k (t.tree.nextLeafIndex + 1) := by
      have hw := ht.appendLeaf v
      rw [htree] at hw
      exact ⟨hw.params, hnext.ge, hw.le⟩
    rw [apply, happly]
    have hloop : ((onTree (Run.forEach (ImtTree.appendLeaf poseidon2) (v :: vs)) t).state).tree.Within
        poseidon2 H k (t.tree.nextLeafIndex + 1) := by
      have hrest := Run.forEach_keeps (f := ImtTree.appendLeaf poseidon2) vs
        (fun x _ s hs => hs.appendLeaf x) hwithin
      rw [onTree, Run.forEach, htree, Run.bind_returned]
      cases h : Run.forEach (ImtTree.appendLeaf poseidon2) vs tree <;> rw [h] at hrest <;> exact hrest
    let P : MirrorTree W → Prop := fun s => s.tree.Within poseidon2 H k (t.tree.nextLeafIndex + 1)
    refine (Run.bind_keeps (P := P) (Run.bind_keeps (P := P) hloop fun s _ hs => ?_)
      fun s _ hs => ?_).ge
    · rw [state_assertOp]
      exact hs
    · change P (s.recordLeaves start leaves)
      simpa only [P, tree_recordLeaves] using hs

-- A blocked event throws before it changes anything, and stays blocked.
theorem apply_blocked {t : MirrorTree W} {e : TreeEvent W} (ht : t.tree.Within poseidon2 H k 0)
    (hk : k ≤ H) (hbelow : ¬e.Below t) (hblocked : e.Blocked t) :
    ∃ err t', apply poseidon2 e t = .threw err t' ∧ Unchanged t t' ∧
      t'.tree.Within poseidon2 H k 0 ∧ ¬e.Below t' ∧ e.Blocked t' := by
  rcases hblocked with hfull | ⟨start, leaves, root, rfl, hgap⟩
  · have hfull' := hfull
    rw [ht.params.H_eq] at hfull'
    have hover : 2 ^ t.tree.H < t.tree.nextLeafIndex + 1 := Nat.lt_succ_of_le hfull
    cases e with
    | appended leafIndex leaf root =>
      refine ⟨.imt .treeIsFull, { t with tree := ImtTree.recordLeaf leaf t.tree }, ?_,
        ⟨rfl, rfl, rfl, rfl⟩, ht.recordLeaf leaf, hbelow, .inl hfull⟩
      simp only [TreeEvent.Below] at hbelow
      rw [apply, applyAppend, if_neg hbelow, onTree_threw (ImtTree.appendLeaf_full leaf hover),
        Run.bind_threw]
    | subtreeAppended start subtreeRoot root =>
      refine ⟨.imt .treeIsFull, { t with tree := ImtTree.recordBlock none t.tree }, ?_,
        ⟨rfl, rfl, rfl, rfl⟩, ht.recordBlock none, hbelow, .inl hfull⟩
      simp only [TreeEvent.Below, not_lt] at hbelow
      rw [apply, applyAttach, if_pos hbelow,
        onTree_threw (ImtTree.attachSubtree_full ht hk (le_antisymm ht.le hfull') subtreeRoot),
        Run.bind_threw, Run.bind_threw]
    | opAppended start leaves root =>
      rcases Nat.lt_or_ge t.tree.nextLeafIndex start with hgap | hstart
      · exact ⟨_, t, applyOpAppend_gap hbelow hgap, ⟨rfl, rfl, rfl, rfl⟩, ht, hbelow, .inl hfull⟩
      · obtain ⟨v, vs, -, happly⟩ :=
          applyOpAppend_eq poseidon2 root hbelow hstart
        refine ⟨.imt .treeIsFull, { t with tree := ImtTree.recordLeaf v t.tree }, ?_,
          ⟨rfl, rfl, rfl, rfl⟩, ht.recordLeaf v, hbelow, .inl hfull⟩
        have hloop : Run.forEach (ImtTree.appendLeaf poseidon2) (v :: vs) t.tree =
            .threw .treeIsFull (ImtTree.recordLeaf v t.tree) := by
          rw [Run.forEach, ImtTree.appendLeaf_full v hover, Run.bind_threw]
        rw [apply, happly, onTree_threw hloop, Run.bind_threw, Run.bind_threw]
  · exact ⟨_, t, applyOpAppend_gap hbelow hgap, ⟨rfl, rfl, rfl, rfl⟩, ht, hbelow,
      .inr ⟨start, leaves, root, rfl, hgap⟩⟩

theorem failStop_iff {t : MirrorTree W} {e : TreeEvent W} (ht : t.tree.Within poseidon2 H k 0)
    (hk : k ≤ H) (he : e.Disagrees poseidon2 t) : FailStop poseidon2 e t ↔ e.Blocked t := by
  constructor
  · rintro ⟨err, t', hthrew, hsame, -⟩
    by_contra hopen
    have hgrow := apply_grows ht hk he.1 hopen
    rw [hthrew, Run.state_threw, hsame.nextLeafIndex] at hgrow
    exact lt_irrefl _ hgrow
  · intro hblocked
    obtain ⟨err, t', hthrew, hsame, ht', hbelow', hblocked'⟩ := apply_blocked ht hk he.1 hblocked
    obtain ⟨err', t'', hthrew', -⟩ := apply_blocked ht' hk hbelow' hblocked'
    exact ⟨err, t', hthrew, hsame, err', t'', hthrew'⟩

end MirrorTree

end Bongtu.Indexer
