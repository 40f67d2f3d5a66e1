import Bongtu.Core.Imt
import Bongtu.Evm.Imt
import Bongtu.Solana.Tree

namespace Bongtu

open Merkle Outcome

variable {W : Type} [Zero W] (poseidon : W → W → W) (H k : ℕ)

-- An attach that names its leaves names leaves with that root.
def TreeOp.SuppliesLeaves : TreeOp W → Prop
  | .attach subtreeRoot (some leaves) =>
    Core.ImtTree.computeSubtreeRoot poseidon (Core.ImtTree.init poseidon H (2 ^ k)) leaves =
      .ok subtreeRoot
  | _ => True

variable {poseidon H k}

theorem checkLeaves_ok [DecidableEq W] {t : Core.ImtTree W} (hp : t.Params poseidon H k) {r : W}
    {leaves : Option (List W)} (hop : (TreeOp.attach r leaves).SuppliesLeaves poseidon H k) :
    t.checkLeaves poseidon r leaves = .ok () := by
  cases leaves with
  | none => rfl
  | some ls =>
    have hp0 := Core.ImtTree.params_init poseidon H k
    have hzero : t.zeros 0 = (Core.ImtTree.init poseidon H (2 ^ k)).zeros 0 :=
      (hp.zeros_eq 0 (Nat.zero_le H)).trans (hp0.zeros_eq 0 (Nat.zero_le H)).symm
    have hsame : t.computeSubtreeRoot poseidon ls =
        (Core.ImtTree.init poseidon H (2 ^ k)).computeSubtreeRoot poseidon ls := by
      simp only [Core.ImtTree.computeSubtreeRoot, hp.B_eq, hp.logB_eq, hzero, hp0.B_eq, hp0.logB_eq]
    have hlen : ¬ls.length > t.B := by
      intro hgt
      rw [TreeOp.SuppliesLeaves, Core.ImtTree.computeSubtreeRoot, if_pos (hp0.B_eq ▸ hp.B_eq ▸ hgt)] at hop
      cases hop
    have hroot : t.computeSubtreeRoot poseidon ls = .ok r := hsame.trans hop
    simp only [Core.ImtTree.checkLeaves, if_neg hlen, hroot]
    change (if r ≠ r then _ else _) = _
    simp

structure Synced (poseidon : W → W → W) (H k : ℕ) (e : Evm.Imt W) (s : Solana.TreeState W)
    (t : Core.ImtTree W) (c : Content W) : Prop where
  evm : e.Holds poseidon H k c
  solana : s.Holds poseidon H c
  imt : t.Holds poseidon H k c

theorem synced_init : Synced poseidon H k (Evm.Imt.init poseidon H (2 ^ k))
    (Solana.TreeState.init poseidon H) (Core.ImtTree.init poseidon H (2 ^ k)) Content.empty :=
  ⟨Evm.Imt.holds_init k, Solana.TreeState.holds_init, Core.ImtTree.holds_init H k⟩

theorem Synced.step [DecidableEq W] {e : Evm.Imt W} {s : Solana.TreeState W} {t : Core.ImtTree W}
    {c : Content W} (hest : Synced poseidon H k e s t c) (hk : k ≤ H) (op : TreeOp W)
    (hop : op.SuppliesLeaves poseidon H k) :
    (∃ e' s' t', e.apply poseidon H op = .ok e' ∧ s.apply poseidon H k op = .ok s' ∧
      t.apply poseidon op = .returned t' ∧ Synced poseidon H k e' s' t' (op.content k c)) ∨
    ((∃ x, e.apply poseidon H op = .error x) ∧ (∃ x, s.apply poseidon H k op = .error x) ∧
      ∃ x t', t.apply poseidon op = .threw x t') := by
  cases op with
  | append v =>
    rcases hest.evm.appendLeaf v with ⟨hroom, e', he, hec⟩ | ⟨hroom, he⟩ <;>
    rcases hest.solana.appendLeaf v with ⟨hroom', s', hs, hsc⟩ | ⟨hroom', x, hs⟩ <;>
    rcases hest.imt.appendLeaf v with ⟨hroom'', t', ht, htc⟩ | ⟨hroom'', ht⟩ <;>
    first | contradiction | skip
    · exact .inl ⟨e', s', t', he, by simp only [Solana.TreeState.apply, hs]; rfl, ht, hec, hsc, htc⟩
    · exact .inr ⟨he, ⟨x, by simp only [Solana.TreeState.apply, hs]; rfl⟩, ht⟩
  | attach r leaves =>
    have hleaves := checkLeaves_ok hest.imt.params hop
    rcases hest.evm.attachSubtree hk r with ⟨hroom, _, e', he, hec⟩ | ⟨hroom, x, he⟩ <;>
    rcases hest.solana.attachSubtree hk r with ⟨hroom', _, s', hs, hsc⟩ | ⟨hroom', y, hs⟩ <;>
    rcases hest.imt.attachSubtree hk r hleaves with ⟨hroom'', t', ht, htc⟩ | ⟨hroom'', ht⟩ <;>
    first | contradiction | skip
    · exact .inl ⟨e', s', t', by simp only [Evm.Imt.apply, he]; rfl,
        by simp only [Solana.TreeState.apply, hs]; rfl, ht, hec, hsc, htc⟩
    · exact .inr ⟨⟨x, by simp only [Evm.Imt.apply, he]; rfl⟩,
        ⟨y, by simp only [Solana.TreeState.apply, hs]; rfl⟩, ht⟩

theorem Synced.run [DecidableEq W] (hk : k ≤ H) (ops : List (TreeOp W))
    (hops : ∀ op ∈ ops, op.SuppliesLeaves poseidon H k) :
    ∀ {e : Evm.Imt W} {s : Solana.TreeState W} {t : Core.ImtTree W} {c : Content W}
      {e' : Evm.Imt W} {s' : Solana.TreeState W} {t' : Core.ImtTree W},
      Synced poseidon H k e s t c → ops.foldlM (Evm.Imt.apply poseidon H) e = .ok e' →
      ops.foldlM (Solana.TreeState.apply poseidon H k) s = .ok s' →
      Run.forEach (Core.ImtTree.apply poseidon) ops t = .returned t' →
      Synced poseidon H k e' s' t' (ops.foldl (TreeOp.content k) c) := by
  induction ops with
  | nil =>
    intro e s t c e' s' t' hest he hs ht
    cases he
    cases hs
    cases ht
    exact hest
  | cons op ops ih =>
    intro e s t c e' s' t' hest he hs ht
    obtain ⟨e1, he1, he⟩ := bind_ok.mp he
    obtain ⟨s1, hs1, hs⟩ := bind_ok.mp hs
    rcases hest.step hk op (hops op (by simp)) with ⟨e2, s2, t2, he2, hs2, ht2, hnext⟩ | ⟨⟨x, hx⟩, -, -⟩
    · obtain rfl := Except.ok.inj (he1.symm.trans he2)
      obtain rfl := Except.ok.inj (hs1.symm.trans hs2)
      rw [Run.forEach, ht2] at ht
      exact ih (fun op hop => hops op (by simp [hop])) hnext he hs ht
    · rw [hx] at he1
      cases he1

theorem agrees_dense {block : W → List W} (ops : List (TreeOp W))
    (hblock : ∀ r leaves, TreeOp.attach r leaves ∈ ops → (block r).length = 2 ^ k ∧
      (Content.ofLeaves (block r)).nodeAt poseidon 0 k 0 = r) :
    ∀ {c : Content W} {xs : List W}, c.Agrees poseidon 0 k (Content.ofLeaves xs) →
      (ops.foldl (TreeOp.content k) c).Agrees poseidon 0 k
        (Content.ofLeaves (ops.foldl (TreeOp.dense k block) xs)) := by
  induction ops with
  | nil => exact fun hc => hc
  | cons op ops ih =>
    intro c xs hc
    refine ih (fun r leaves hop => hblock r leaves (by simp [hop])) ?_
    cases op with
    | append v => exact (hc.place v).of_same (Content.ofLeaves_snoc xs v).symm
    | attach r leaves =>
      obtain ⟨hlen, hr⟩ := hblock r leaves (by simp)
      exact hc.attach hlen hr

theorem naiveRoot_dense (hk : k ≤ H) {block : W → List W} {ops : List (TreeOp W)}
    (hblock : ∀ r leaves, TreeOp.attach r leaves ∈ ops → (block r).length = 2 ^ k ∧
      Core.ImtTree.computeSubtreeRoot poseidon (Core.ImtTree.init poseidon H (2 ^ k)) (block r) =
        .ok r) :
    (denseOf k block ops).length = (contentOf k ops).next ∧
      Core.ImtTree.naiveRoot poseidon ((denseOf k block ops).map some) H =
        (contentOf k ops).root poseidon 0 H := by
  have hagrees := agrees_dense ops
    (fun r leaves hop => by
      obtain ⟨hlen, hr⟩ := hblock r leaves hop
      rw [Core.ImtTree.computeSubtreeRoot_eq (Core.ImtTree.params_init poseidon H k) hk hlen] at hr
      exact ⟨hlen, Except.ok.inj hr⟩)
    (Content.agrees_empty k)
  exact ⟨hagrees.1.symm, (Core.ImtTree.naiveRoot_eq _ H).trans (hagrees.root hk).symm⟩

theorem trees_agree [DecidableEq W] (hk : k ≤ H) (ops : List (TreeOp W))
    (hops : ∀ op ∈ ops, op.SuppliesLeaves poseidon H k)
    {e : Evm.Imt W} {s : Solana.TreeState W} {t : Core.ImtTree W}
    (he : Evm.Imt.run poseidon H k ops = .ok e) (hs : Solana.TreeState.run poseidon H k ops = .ok s)
    (ht : Core.ImtTree.run poseidon H k ops = .returned t) :
    (s.nextLeafIndex = e.nextLeafIndex ∧ t.nextLeafIndex = e.nextLeafIndex) ∧
    (s.currentRoot = e.root ∧ t.root = e.root) ∧
    (e.nextLeafIndex = (contentOf k ops).next ∧ e.root = (contentOf k ops).root poseidon 0 H) ∧
    (∀ block : W → List W,
      (∀ r leaves, TreeOp.attach r leaves ∈ ops → (block r).length = 2 ^ k ∧
        Core.ImtTree.computeSubtreeRoot poseidon (Core.ImtTree.init poseidon H (2 ^ k)) (block r) =
          .ok r) →
      (denseOf k block ops).length = e.nextLeafIndex ∧
        Core.ImtTree.naiveRoot poseidon ((denseOf k block ops).map some) H = e.root) ∧
    ∀ op : TreeOp W, op.SuppliesLeaves poseidon H k →
      ((∃ e', e.apply poseidon H op = .ok e') ↔ ∃ s', s.apply poseidon H k op = .ok s') ∧
      ((∃ e', e.apply poseidon H op = .ok e') ↔ ∃ t', t.apply poseidon op = .returned t') := by
  have hsync : Synced poseidon H k e s t (contentOf k ops) :=
    Synced.run hk ops hops synced_init he hs ht
  have hnext : e.nextLeafIndex = (contentOf k ops).next := hsync.evm.tracks.next_eq
  have hroot : e.root = (contentOf k ops).root poseidon 0 H := hsync.evm.tracks.root_eq
  refine ⟨⟨?_, ?_⟩, ⟨?_, ?_⟩, ⟨hnext, hroot⟩, fun block hblock => ?_, fun op hop => ?_⟩
  · exact hsync.solana.next_eq.trans hnext.symm
  · exact hsync.imt.tracks.next_eq.trans hnext.symm
  · exact hsync.solana.root_eq.trans hroot.symm
  · exact hsync.imt.tracks.root_eq.trans hroot.symm
  · rw [hnext, hroot]
    exact naiveRoot_dense hk hblock
  · rcases hsync.step hk op hop with ⟨e', s', t', he', hs', ht', -⟩ | ⟨⟨x, hx⟩, ⟨y, hy⟩, ⟨w, t', hw⟩⟩
    · simp [he', hs', ht']
    · simp [hx, hy, hw]

-- An append, a batch attach over the partial block, then a failed attach at capacity.
theorem trees_agree_small :
    ∃ (e : Evm.Imt ℕ) (s : Solana.TreeState ℕ) (t : Core.ImtTree ℕ),
      Evm.Imt.run (fun a b => 2 * a + 3 * b + 1) 2 1 [.append 5, .attach 30 (some [4, 7])] = .ok e ∧
      s.currentRoot = e.root ∧ t.root = e.root ∧
      ((∃ e', e.apply (fun a b => 2 * a + 3 * b + 1) 2 (.append 1) = .ok e') ↔
        ∃ s', s.apply (fun a b => 2 * a + 3 * b + 1) 2 1 (.append 1) = .ok s') := by
  have hops : ∀ op ∈ [TreeOp.append 5, .attach 30 (some [4, 7])],
      TreeOp.SuppliesLeaves (fun a b : ℕ => 2 * a + 3 * b + 1) 2 1 op := by
    intro op hop
    simp only [List.mem_cons, List.not_mem_nil, or_false] at hop
    rcases hop with rfl | rfl
    · trivial
    · rfl
  have h := trees_agree (by decide) [.append 5, .attach 30 (some [4, 7])] hops rfl rfl rfl
  exact ⟨_, _, _, rfl, h.2.1.1, h.2.1.2, (h.2.2.2.2 (.append 1) trivial).1⟩

end Bongtu
