import Bongtu.Core.ImtCalls

set_option linter.unusedSectionVars false

namespace Bongtu.Core.ImtTree

open Outcome

section Write

variable {W : Type}

theorem getElem?_jsSet (xs : List (Option W)) (i : ℕ) (v : Option W) : (jsSet xs i v)[i]? = some v := by
  unfold jsSet
  split
  · next hlt => rw [List.getElem?_set_self hlt]
  · next hge =>
    rw [List.getElem?_append_right (by simp; omega)]
    simp [show i - (xs.length + (i - xs.length)) = 0 by omega]

theorem jsSet_self {xs : List (Option W)} {i : ℕ} {v : Option W} (h : xs[i]? = some v) : jsSet xs i v = xs := by
  obtain ⟨hlt, rfl⟩ := List.getElem?_eq_some_iff.mp h
  rw [jsSet, if_pos hlt, List.set_getElem_self]

-- A write leaves the record as it is only when the very entry stands there already.
theorem jsSet_eq_self {xs : List (Option W)} {i : ℕ} {v : Option W} : jsSet xs i v = xs ↔ xs[i]? = some v :=
  ⟨fun h => h ▸ getElem?_jsSet xs i v, jsSet_self⟩

theorem getElem?_jsSet_lt {xs : List (Option W)} {i j : ℕ} {v : Option W} (hj : j < i) (hlen : j < xs.length) :
    (jsSet xs i v)[j]? = xs[j]? := by
  unfold jsSet
  split
  · exact List.getElem?_set_ne (by omega)
  · rw [List.append_assoc, List.getElem?_append_left hlen]

theorem length_jsSet (xs : List (Option W)) (i : ℕ) (v : Option W) :
    (jsSet xs i v).length = max xs.length (i + 1) := by
  unfold jsSet
  split
  · rw [List.length_set]
    omega
  · simp only [List.length_append, List.length_replicate, List.length_singleton]
    omega

def writeBlock (start : ℕ) (entry : ℕ → Option W) (xs : List (Option W)) (m : ℕ) : List (Option W) :=
  (List.range m).foldl (fun acc o => jsSet acc (start + o) (entry o)) xs

theorem writeBlock_succ {start m : ℕ} {entry : ℕ → Option W} {xs : List (Option W)} :
    writeBlock start entry xs (m + 1) = jsSet (writeBlock start entry xs m) (start + m) (entry m) := by
  simp [writeBlock, List.range_succ]

theorem length_writeBlock {start m : ℕ} {entry : ℕ → Option W} {xs : List (Option W)} (hm : 0 < m) :
    (writeBlock start entry xs m).length = max xs.length (start + m) := by
  induction m with
  | zero => cases hm
  | succ m ih =>
    rw [writeBlock_succ, length_jsSet]
    rcases Nat.eq_zero_or_pos m with rfl | hpos
    · rfl
    · rw [ih hpos]
      omega

theorem getElem?_writeBlock {start m o : ℕ} {entry : ℕ → Option W} {xs : List (Option W)} (ho : o < m) :
    (writeBlock start entry xs m)[start + o]? = some (entry o) := by
  induction m with
  | zero => cases ho
  | succ m ih =>
    rw [writeBlock_succ]
    rcases Nat.lt_succ_iff_lt_or_eq.mp ho with hlt | rfl
    · have hlen : (writeBlock start entry xs m).length = max xs.length (start + m) :=
        length_writeBlock (Nat.zero_lt_of_lt hlt)
      rw [getElem?_jsSet_lt (by omega) (by omega), ih hlt]
    · exact getElem?_jsSet _ _ _

theorem writeBlock_eq_self {start m : ℕ} {entry : ℕ → Option W} {xs : List (Option W)} :
    writeBlock start entry xs m = xs ↔ ∀ o < m, xs[start + o]? = some (entry o) := by
  constructor
  · intro h o ho
    rw [← h]
    exact getElem?_writeBlock ho
  · intro h
    induction m with
    | zero => rfl
    | succ m ih =>
      rw [writeBlock_succ, ih fun o ho => h o (Nat.lt_succ_of_lt ho), jsSet_eq_self]
      exact h m (Nat.lt_succ_self m)

end Write

variable {W : Type} [Zero W] [DecidableEq W] {poseidon2 : W → W → W} {H k n : ℕ}

structure Untouched (t t' : ImtTree W) : Prop where
  root : t'.root = t.root
  nextLeafIndex : t'.nextLeafIndex = t.nextLeafIndex
  frontier : t'.filledSubtrees = t.filledSubtrees
  leaves : t'.leaves = t.leaves

-- The leaf an attach writes at the place `o` of its block.
def blockEntry (t : ImtTree W) (leaves : Option (List W)) (o : ℕ) : Option W :=
  leaves.map fun ls => ls.getD o (t.zeros 0)

-- The call is refused by its own check, or writes over a full tree what stands there already.
def Harmless (poseidon2 : W → W → W) (t : ImtTree W) : TreeOp W → Prop
  | .append leaf => t.leaves[t.nextLeafIndex]? = some (some leaf)
  | .attach subtreeRoot leaves =>
    (∃ e, checkLeaves poseidon2 t subtreeRoot leaves = .error e) ∨
      t.nextLeafIndex = 2 ^ t.H ∧ ∀ o < t.B, t.leaves[t.nextLeafIndex + o]? = some (blockEntry t leaves o)

theorem untouched_appendLeaf {t t' : ImtTree W} {e : ImtError} (ht : t.Within poseidon2 H k n) {v : W}
    (h : appendLeaf poseidon2 v t = .threw e t') : Untouched t t' ↔ Harmless poseidon2 t (.append v) := by
  rcases appendLeaf_spec ht v with ⟨-, t₁, hreturned, -⟩ | ⟨-, hthrew⟩
  · rw [hreturned] at h
    cases h
  · obtain ⟨-, rfl⟩ := Run.threw.inj (hthrew.symm.trans h)
    rw [Harmless, ← jsSet_eq_self]
    exact ⟨fun hsame => hsame.leaves, fun hsame => ⟨rfl, rfl, rfl, hsame⟩⟩

theorem untouched_attachSubtree {t t' : ImtTree W} {e : ImtError} (ht : t.Within poseidon2 H k n)
    (hk : k ≤ H) {r : W} {leaves : Option (List W)}
    (h : attachSubtree poseidon2 r leaves t = .threw e t') :
    Untouched t t' ↔ Harmless poseidon2 t (.attach r leaves) := by
  rcases attachSubtree_spec ht hk r leaves with ⟨e', hcheck, hthrew⟩ | ⟨hcheck, padded, hpad, -, hnext, hcases⟩
  · obtain ⟨-, rfl⟩ := Run.threw.inj (hthrew.symm.trans h)
    exact iff_of_true ⟨rfl, rfl, rfl, rfl⟩ (.inl ⟨e', hcheck⟩)
  · rcases hcases with ⟨-, t₁, hreturned, -⟩ | ⟨hfull, hthrew⟩
    · rw [hreturned] at h
      cases h
    · obtain ⟨-, rfl⟩ := Run.threw.inj (hthrew.symm.trans h)
      have hpassed : ¬∃ e, checkLeaves poseidon2 t r leaves = .error e := by
        rintro ⟨e, he⟩
        rw [hcheck] at he
        cases he
      rw [Harmless, or_iff_right hpassed, ht.params.H_eq]
      rcases Nat.lt_or_eq_of_le ht.le with hlt | heq
      · -- the pads of the partial block stay in the tree
        refine iff_of_false (fun hsame => ?_) fun hat => hlt.ne hat.1
        have hmoved : padded.nextLeafIndex = t.nextLeafIndex := hsame.nextLeafIndex
        omega
      · have haligned : t.nextLeafIndex % t.B = 0 := by
          rw [heq, ht.params.B_eq]
          exact Nat.mod_eq_zero_of_dvd (pow_dvd_pow 2 hk)
        obtain rfl : t = padded := Run.returned.inj ((padToBlockBoundary_aligned haligned).symm.trans hpad)
        rw [and_iff_right heq, ← writeBlock_eq_self]
        exact ⟨fun hsame => hsame.leaves, fun hsame => ⟨rfl, rfl, rfl, hsame⟩⟩

theorem throw_leaves_untouched (poseidon2 : W → W → W) {height batchSize : ℕ} {start : ImtTree W}
    (hstart : construct poseidon2 height batchSize = .ok start) (ops : List (TreeOp W)) (op : TreeOp W)
    {e : ImtError} {t' : ImtTree W} (h : apply poseidon2 op (calls poseidon2 start ops) = .threw e t') :
    Untouched (calls poseidon2 start ops) t' ↔ Harmless poseidon2 (calls poseidon2 start ops) op := by
  obtain ⟨-, k, hk, -, rfl⟩ := construct_ok hstart
  have hinit : (init poseidon2 height (2 ^ k)).Within poseidon2 height k 0 := within_init
  have hreached := hinit.calls hk ops
  cases op with
  | append v => exact untouched_appendLeaf hreached h
  | attach r leaves => exact untouched_attachSubtree hreached hk h

-- An attach whose leaves do not fold to its root, on a partial block.
theorem throw_leaves_untouched_sample :
    let h := fun a b : ℕ => 2 * a + 3 * b + 1
    let t := calls h (init h 2 2) [.append 5]
    ∃ e t', apply h (.attach 7 (some [4, 7])) t = .threw e t' ∧ Untouched t t' := by
  intro h t
  have hstart : construct h 2 2 = .ok (init h 2 2) := rfl
  have hcheck : checkLeaves h t 7 (some [4, 7]) = .error .subtreeRootMismatch := by decide +kernel
  have hthrew : apply h (.attach 7 (some [4, 7])) t = .threw .subtreeRootMismatch t := by
    rw [apply, attachSubtree, hcheck]
  exact ⟨_, _, hthrew, (throw_leaves_untouched h hstart [.append 5] (.attach 7 (some [4, 7])) hthrew).mpr
    (.inl ⟨_, hcheck⟩)⟩

-- An append to a full tree, and an attach that fills the last block's other place and then throws.
theorem throw_not_untouched :
    let h := fun a b : ℕ => 2 * a + 3 * b + 1
    let full := calls h (init h 1 1) [.append 5, .append 6]
    let half := calls h (init h 1 2) [.append 5]
    (∃ e t', apply h (.append 7) full = .threw e t' ∧ ¬Untouched full t') ∧
      ∃ e t', apply h (.attach 30 none) half = .threw e t' ∧ ¬Untouched half t' := by
  refine ⟨⟨_, _, rfl, fun hsame => ?_⟩, _, _, rfl, fun hsame => ?_⟩
  · exact absurd hsame.leaves (by decide)
  · exact absurd hsame.nextLeafIndex (by decide)

end Bongtu.Core.ImtTree
