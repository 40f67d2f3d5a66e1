import Bongtu.Admission
import Bongtu.Evm.Accepted

set_option linter.unusedSectionVars false

namespace Bongtu.Evm

open Merkle Outcome World

variable {W T : Type} [DecidableEq W] [Zero W] [One W] {env : Env W T}

namespace Imt

variable {poseidon : W → W → W} {H k : ℕ}

theorem Holds.apply {t t' : Imt W} {c : Content W} (ht : t.Holds poseidon H k c) {op : TreeOp W}
    (hk : ∀ r ls, op = .attach r ls → k ≤ H) (hop : apply poseidon H t op = .ok t') :
    t'.Holds poseidon H k (op.content k c) := by
  cases op with
  | append leaf =>
    rcases ht.appendLeaf leaf with ⟨-, t1, ht1, hc⟩ | ⟨-, e, he⟩
    · obtain rfl := Except.ok.inj (ht1.symm.trans hop)
      exact hc
    · cases he.symm.trans hop
  | attach r leaves =>
    obtain ⟨start, hat⟩ := of_map_snd hop
    rcases ht.attachSubtree (hk r leaves rfl) r with ⟨-, start', t1, ht1, hc⟩ | ⟨-, e, he⟩
    · obtain ⟨-, rfl⟩ := Prod.mk.inj (Except.ok.inj (ht1.symm.trans hat))
      exact hc
    · cases he.symm.trans hat

theorem Holds.runFrom {t' : Imt W} (ops : List (TreeOp W)) : ∀ {t : Imt W} {c : Content W},
    t.Holds poseidon H k c → (∀ r ls, .attach r ls ∈ ops → k ≤ H) →
    runFrom poseidon H t ops = .ok t' → t'.Holds poseidon H k (ops.foldl (TreeOp.content k) c) := by
  induction ops with
  | nil =>
    intro t c ht _ hrun
    cases hrun
    exact ht
  | cons op ops ih =>
    intro t c ht hk hrun
    obtain ⟨t1, ht1, hrun⟩ := bind_ok.mp hrun
    exact ih (ht.apply (fun r ls h => hk r ls (by simp [h])) ht1)
      (fun r ls h => hk r ls (List.mem_cons_of_mem _ h)) hrun

theorem Holds.appends {t t' : Imt W} {c : Content W} {leaves : List W}
    (ht : t.Holds poseidon H k c) (hrun : Imt.runFrom poseidon H t (appends leaves) = .ok t') :
    t'.Holds poseidon H k ((Bongtu.appends leaves).foldl (TreeOp.content k) c) :=
  ht.runFrom _ (fun r ls h => by simp [Bongtu.appends] at h) hrun

end Imt

namespace World

def Known (w : World W T) (root : W) : Prop := w.pool.knownRoots root = true

def Used (w : World W T) (nf : W) : Prop := w.pool.nullifierUsed nf = true

theorem foldlM_spendStrict_complete (nfs : List W) : ∀ w : World W T, nfs.Nodup →
    (∀ nf ∈ nfs, nf ≠ 0 ∧ w.pool.nullifierUsed nf = false) →
    ∃ w', nfs.foldlM spendStrict w = .ok w' := by
  induction nfs with
  | nil => exact fun w _ _ => ⟨w, rfl⟩
  | cons nf nfs ih =>
    intro w hnodup hfresh
    obtain ⟨hnot, hnodup⟩ := List.nodup_cons.mp hnodup
    obtain ⟨hne, hunused⟩ := hfresh nf (by simp)
    have hspend : spendStrict w nf = .ok (w.markUsed nf) :=
      bind_ok.mpr ⟨(), require_ok.mpr hne, bind_ok.mpr ⟨(), require_ok.mpr hunused, rfl⟩⟩
    obtain ⟨w', hw'⟩ := ih (w.markUsed nf) hnodup fun x hx => by
      have hxnf : x ≠ nf := fun h => hnot (h ▸ hx)
      obtain ⟨hx0, hxu⟩ := hfresh x (by simp [hx])
      exact ⟨hx0, by simpa [markUsed, Function.update_of_ne hxnf] using hxu⟩
    exact ⟨w', bind_ok.mpr ⟨_, hspend, hw'⟩⟩

theorem foldlM_appendLeaf_complete {k : ℕ}
    {f : World W T → W → Except (PoolError W) (World W T)} {leaves : List W}
    (hf : ∀ w, ∀ leaf ∈ leaves, f w leaf = World.appendLeaf env w leaf) :
    ∀ {w : World W T} {c : Content W}, w.pool.imt.Holds env.poseidon treeHeight k c →
    c.next + leaves.length ≤ 2 ^ treeHeight → ∃ w', leaves.foldlM f w = .ok w' := by
  induction leaves with
  | nil => exact fun {w} _ _ _ => ⟨w, rfl⟩
  | cons leaf leaves ih =>
    intro w c hw hroom
    rw [List.length_cons] at hroom
    rcases hw.appendLeaf leaf with ⟨-, t, ht, hc⟩ | ⟨hfull, -⟩
    · have happ : ∃ w1, World.appendLeaf env w leaf = .ok w1 ∧ w1.pool.imt = t :=
        ⟨_, bind_ok.mpr ⟨t, ht, rfl⟩, rfl⟩
      obtain ⟨w1, hw1, rfl⟩ := happ
      obtain ⟨w', hw'⟩ := ih (fun w x hx => hf w x (by simp [hx])) hc
        (by rw [Content.place_zero_next]; omega)
      exact ⟨w', bind_ok.mpr ⟨w1, (hf w leaf (by simp)).trans hw1, hw'⟩⟩
    · omega

theorem appendOutput_eq {w : World W T} {leaf : W} (hleaf : leaf ≠ 0) :
    appendOutput env w leaf = World.appendLeaf env w leaf := by
  simp [appendOutput, require, hleaf, bind, Except.bind]

-- A registered module's op that appends leaves goes through exactly when it is admissible.
theorem applyOp_iff {w : World W T} {k : ℕ} {c : Content W} {module : Address} {root : W}
    {nullifiers leaves : List W}
    (hw : w.pool.imt.Holds env.poseidon treeHeight k c) (hinit : w.pool.initialized = true)
    (hreg : w.pool.registeredModules module = true) (hleaves : leaves ≠ []) :
    (∃ out, World.applyOp env w module ⟨root, nullifiers, leaves, 0⟩ = .ok out) ↔
      Admissible w.Known w.Used treeHeight c root nullifiers leaves := by
  constructor
  · rintro ⟨⟨start, w'⟩, hout⟩
    obtain ⟨-, happ⟩ := applyOp_applies hout
    have hops : OpEffects.ops ⟨root, nullifiers, leaves, 0⟩ = appends leaves := by
      simp [OpEffects.ops, appends]
    have htree := hw.appends (hops ▸ happ.effect.tree)
    refine ⟨happ.root, happ.effect.nodup, fun nf hnf => ?_, fun leaf hleaf => ?_, ?_⟩
    · obtain ⟨hne, hunused⟩ := happ.effect.fresh nf hnf
      exact ⟨hne, by simp [Used, hunused]⟩
    · exact happ.leaf_ne leaf (by rw [hops]; exact List.mem_map_of_mem hleaf)
    · rw [← next_appends k leaves c]
      exact htree.tracks.room
  · intro hadm
    obtain ⟨w1, hw1⟩ := foldlM_spendStrict_complete nullifiers w hadm.nodup
      fun nf hnf => ⟨(hadm.fresh nf hnf).1, by simpa [Used] using (hadm.fresh nf hnf).2⟩
    have hspends : Spends env w w1 nullifiers := foldlM_spendStrict hw1
    have himt := hspends.imt
    obtain ⟨w2, hw2⟩ := foldlM_appendLeaf_complete (f := appendOutput env) (w := w1)
      (fun w leaf hleaf => appendOutput_eq (hadm.leaf_ne leaf hleaf)) (himt ▸ hw) hadm.room
    have hroot : w.checkOpRoot ⟨root, nullifiers, leaves, 0⟩ = .ok () := by
      unfold checkOpRoot
      split
      · case isTrue hne => exact require_ok.mpr (hadm.claim.1 (List.length_pos_iff.mp hne))
      · case isFalse hnil =>
        exact require_ok.mpr (hadm.claim.2 (List.length_eq_zero_iff.mp (by simpa using hnil)))
    have happend : appendOp env w1 ⟨root, nullifiers, leaves, 0⟩ =
        .ok (w1.pool.imt.nextLeafIndex, w2) := by
      rw [appendOp, if_neg (by simp)]
      exact bind_ok.mpr ⟨w2, hw2, rfl⟩
    exact ⟨_, bind_ok.mpr ⟨(), require_ok.mpr hinit, bind_ok.mpr ⟨(), require_ok.mpr hreg,
      bind_ok.mpr ⟨(), require_ok.mpr (by simp [hleaves]), bind_ok.mpr ⟨(), hroot,
        bind_ok.mpr ⟨w1, hw1, bind_ok.mpr ⟨_, happend, rfl⟩⟩⟩⟩⟩⟩⟩

end World

end Bongtu.Evm
