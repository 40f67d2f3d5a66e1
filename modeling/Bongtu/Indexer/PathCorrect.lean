import Bongtu.Indexer.PathRun
import Bongtu.TreeAgreement

set_option linter.unusedSectionVars false

namespace Bongtu.Indexer

open Bongtu.Core Merkle Outcome

variable {W : Type} [Zero W] [DecidableEq W]

-- The calls of a reference tree that is told the leaves under each attached root.
def knownOps (B : ℕ) (L : ℕ → W) : TreeEvent W → List (TreeOp W)
  | .appended _ leaf _ => [.append leaf]
  | .subtreeAppended start subtreeRoot _ =>
    [.attach subtreeRoot (some ((List.range B).map fun o => L (start + o)))]
  | .opAppended _ leaves _ => leaves.map .append

structure PathCorrect (poseidon2 : W → W → W) (H k : ℕ) (past : List (TreeEvent W)) (t : MirrorTree W)
    (leafIndex : ℕ) : Prop where
  unfilled : t.isOpaque (leafIndex / 2 ^ k) = true ↔
    (∃ subtreeRoot root, .subtreeAppended (leafIndex / 2 ^ k * 2 ^ k) subtreeRoot root ∈ past) ∧
      t.filled (leafIndex / 2 ^ k * 2 ^ k) = false
  leaf : ∀ leaf root, .appended leafIndex leaf root ∈ past → t.leafValue leafIndex = leaf
  sentinel : t.isOpaque (leafIndex / 2 ^ k) = true → t.path poseidon2 leafIndex = .ok .batchLeaf
  path : t.isOpaque (leafIndex / 2 ^ k) = false → ∃ siblings,
    t.path poseidon2 leafIndex =
      .ok (.path siblings ((List.range H).map fun j => leafIndex / 2 ^ j % 2) t.tree.root) ∧
    siblings.length = H ∧
    foldToRoot poseidon2 (t.leafValue leafIndex) siblings leafIndex = t.tree.root ∧
    ((∀ start, t.batchRoots start ≠ none → t.filled start = true) → ∃ imt,
      ImtTree.run poseidon2 H k (past.flatMap (knownOps (2 ^ k) t.leafValue)) = .returned imt ∧
      imt.merklePath poseidon2 leafIndex =
        .ok (siblings, (List.range H).map fun j => leafIndex / 2 ^ j % 2))

variable {poseidon2 : W → W → W} {H k : ℕ} {log : List (TreeEvent W)} {c : Content W}
  {t : MirrorTree W} {L : ℕ → W}

-- Leaves that are those of the log: the appended ones, zero pads, and batches that fold to their root.
structure Knows (poseidon2 : W → W → W) (k : ℕ) (L : ℕ → W) (log : List (TreeEvent W)) (c : Content W) :
    Prop where
  leaf : ∀ {i v root}, .appended i v root ∈ log → L i = v
  pad : ∀ i < c.next, (∀ e ∈ log, i < e.start ∨ e.stop (2 ^ k) ≤ i) → L i = 0
  fold : ∀ {start r root}, .subtreeAppended start r root ∈ log →
    (Content.ofLeaves ((List.range (2 ^ k)).map fun o => L (start + o))).nodeAt poseidon2 0 k 0 = r

theorem Knows.before {e : TreeEvent W} {c' : Content W} (h : Knows poseidon2 k L (log ++ [e]) c')
    (hstart : c.next ≤ e.start) (hnext : c.next ≤ c'.next) : Knows poseidon2 k L log c where
  leaf he := h.leaf (List.mem_append_left _ he)
  pad i hi hout := by
    refine h.pad i (by omega) fun e' he' => ?_
    rcases List.mem_append.mp he' with he' | he'
    · exact hout e' he'
    · rw [List.mem_singleton.mp he']
      exact .inl (by omega)
  fold he := h.fold (List.mem_append_left _ he)

theorem Logged.known (hlog : Logged poseidon2 H k log c) (hk : k ≤ H) : c.next ≤ 2 ^ H →
    Knows poseidon2 k L log c → ∃ imt,
      ImtTree.run poseidon2 H k (log.flatMap (knownOps (2 ^ k) L)) = .returned imt ∧
      imt.Holds poseidon2 H k c ∧ imt.Dense L := by
  induction hlog with
  | genesis => exact fun _ _ => ⟨_, rfl, ImtTree.holds_init H k, rfl⟩
  | @appended log c leaf hlog ih =>
    intro hroom hknows
    have hnext : c.next ≤ (c.place 0 leaf).next := by
      rw [Content.place_zero_next]
      exact Nat.le_succ _
    obtain ⟨imt, hrun, hholds, hdense⟩ := ih (hnext.trans hroom) (hknows.before le_rfl hnext)
    have hleaf : L imt.nextLeafIndex = leaf := by
      rw [show imt.nextLeafIndex = c.next from hholds.tracks.next_eq]
      exact hknows.leaf (List.mem_append_right _ (List.mem_singleton_self _))
    obtain ⟨-, imt', happend, hholds'⟩ | ⟨hfull, -⟩ := hholds.appendLeaf leaf
    · refine ⟨imt', ?_, hholds', hdense.appendLeaf hleaf happend⟩
      rw [List.flatMap_append, ImtTree.run, Run.forEach_append]
      rw [ImtTree.run] at hrun
      simp [hrun, knownOps, Run.forEach, ImtTree.apply, happend]
    · rw [Content.place_zero_next] at hroom
      exact absurd hroom hfull
  | @attached log c r hlog ih =>
    intro hroom hknows
    obtain ⟨-, hnext, -⟩ := attach_start (k := k) c r
    have hpos := Nat.two_pow_pos k
    have hle : c.next ≤ (c.attach 0 k r).next := by omega
    obtain ⟨imt, hrun, hholds, hdense⟩ := ih (hle.trans hroom)
      (hknows.before (Nat.le_add_right c.next (Content.padding k c.next)) hle)
    have himt : imt.nextLeafIndex = c.next := hholds.tracks.next_eq
    set leaves := (List.range (2 ^ k)).map fun o => L (c.next + Content.padding k c.next + o) with hdef
    have hsupplies : (TreeOp.attach r (some leaves)).SuppliesLeaves poseidon2 H k := by
      have hfold := hknows.fold (List.mem_append_right log (List.mem_singleton_self _))
      rw [TreeOp.SuppliesLeaves, ImtTree.computeSubtreeRoot_eq (ImtTree.params_init poseidon2 H k) hk
        (by simp [hdef]), hfold]
    obtain ⟨-, imt', hattach, hholds'⟩ | ⟨hfull, -⟩ :=
      hholds.attachSubtree hk r (checkLeaves_ok hholds.params hsupplies)
    · refine ⟨imt', ?_, hholds', ?_⟩
      · rw [List.flatMap_append, ImtTree.run, Run.forEach_append]
        rw [ImtTree.run] at hrun
        simp [hrun, knownOps, Run.forEach, ImtTree.apply, ← hdef, hattach]
      · refine hdense.attachSubtree hholds.params ?_ ?_ hattach
        · rw [himt]
          intro i hlo hhi
          refine hknows.pad i (by omega) fun e he => ?_
          rcases List.mem_append.mp he with he | he
          · exact .inr ((hlog.records.stop e he).trans hlo)
          · rw [List.mem_singleton.mp he]
            exact .inl hhi
        · rw [himt]
          intro o ho
          exact (getD_nodes_lt (N := fun o => L (c.next + Content.padding k c.next + o)) 0 ho).symm
    · exact absurd hroom hfull

namespace Mirrors

variable (hm : Mirrors poseidon2 H k log c t) (hr : Records k log c) (hrec : Recorded log t)

include hm hr hrec

theorem leafValue_eq {i : ℕ} {v root : W} (he : .appended i v root ∈ log) : t.leafValue i = v := by
  obtain ⟨w, hw⟩ := Option.ne_none_iff_exists'.mp (hrec i v root he)
  rcases hm.leaf hw with ⟨root', he'⟩ | hfilled
  · rw [MirrorTree.leafValue, hw, hr.leaf_unique he he']
    rfl
  · obtain ⟨r, root', -, he', -⟩ := hm.fill hfilled
    have hlt := Nat.lt_div_mul_add (a := i) (Nat.two_pow_pos k)
    have hle := Nat.div_mul_le_self i (2 ^ k)
    rcases hr.leaf_outside he he' with h | h <;> omega

variable (hall : ∀ start, t.batchRoots start ≠ none → t.filled start = true)

include hall

theorem knows : Knows poseidon2 k t.leafValue log c where
  leaf := hm.leafValue_eq hr hrec
  pad i _ hout := by
    cases hleaf : t.leaves i with
    | none => simp [MirrorTree.leafValue, hleaf]
    | some v =>
      rcases hm.leaf hleaf with ⟨root, he⟩ | hfilled
      · rcases hout _ he with h | h
        · exact absurd h (lt_irrefl i)
        · exact absurd h (Nat.not_succ_le_self i)
      · obtain ⟨r, root, -, he, -⟩ := hm.fill hfilled
        have hlt := Nat.lt_div_mul_add (a := i) (Nat.two_pow_pos k)
        have hle := Nat.div_mul_le_self i (2 ^ k)
        rcases hout _ he with h | h
        · exact absurd h (not_lt.mpr hle)
        · exact absurd h (not_le.mpr hlt)
  fold {start r root} he := by
    obtain ⟨r', root', leaves, he', hlen, hfold, hleaves⟩ := hm.fill (hall start (by
      rw [hm.batch.mpr ⟨root, he⟩]
      exact Option.some_ne_none r))
    rw [← hr.batch_unique he' he, ← hfold]
    congr 2
    refine List.ext_getElem (by simp [hlen]) fun o ho ho' => ?_
    rw [List.getElem_map, List.getElem_range, MirrorTree.leafValue,
      hleaves o (by rw [← hlen]; exact ho'), List.getElem?_eq_getElem ho']
    rfl

omit hrec in
theorem clear (b : ℕ) : t.isOpaque b = false := by
  rw [Bool.eq_false_iff, ne_eq, hm.isOpaque_iff]
  rintro ⟨⟨r, hroot⟩, hopen⟩
  rw [hall _ (by rw [hroot]; exact Option.some_ne_none r)] at hopen
  cases hopen

omit hrec in
theorem fresh_view : Fresh t.view c.next := by
  intro l i v hv
  rw [hm.view_open fun _ => hm.clear hr hall i] at hv
  split at hv
  · case isTrue hl =>
    subst hl
    have hlt := hm.leaf_lt hr (i := i) (by rw [hv]; exact Option.some_ne_none v)
    simpa using hlt
  · cases hv

theorem merklePath_eq (hlog : Logged poseidon2 H k log c) (hk : k ≤ H) {leafIndex : ℕ}
    (hindex : leafIndex < c.next) : ∃ imt,
      ImtTree.run poseidon2 H k (log.flatMap (knownOps (2 ^ k) t.leafValue)) = .returned imt ∧
      imt.merklePath poseidon2 leafIndex =
        .ok ((List.range H).map fun l => node poseidon2 0 t.view l (buddy (leafIndex / 2 ^ l)),
          (List.range H).map fun l => leafIndex / 2 ^ l % 2) := by
  obtain ⟨imt, hrun, hholds, hdense⟩ :=
    hlog.known hk hm.tree.tracks.room (hm.knows hr hrec hall)
  have himt : imt.nextLeafIndex = c.next := hholds.tracks.next_eq
  refine ⟨imt, hrun, merklePath_nodes hholds.params ?_ (fun l i => hm.hash fun _ => hm.clear hr hall i)
    (fun l i hi => ?_) (himt ▸ hindex)⟩
  · have hnode : ∀ i, t.leafValue i = node poseidon2 0 t.view 0 i := fun i =>
      (hm.node_leaf fun _ => hm.clear hr hall i).symm
    simp only [← hnode]
    exact hdense
  · rw [himt] at hi
    exact node_of_fresh (hm.fresh_view hr hall) hi

end Mirrors

theorem Mirrors.path_correct (hm : Mirrors poseidon2 H k log c t) (hlog : Logged poseidon2 H k log c)
    (hrec : Recorded log t) (hk : k ≤ H) {leafIndex : ℕ} (hindex : leafIndex < c.next) :
    PathCorrect poseidon2 H k log t leafIndex := by
  have hr := hlog.records
  have hpath := hm.path_eq hr hrec hk hindex
  refine ⟨?_, fun leaf root he => hm.leafValue_eq hr hrec he, fun hunfilled => ?_, fun hclear => ?_⟩
  · rw [hm.isOpaque_iff]
    refine and_congr_left' ?_
    simp only [hm.batch]
  · rw [hpath, if_pos hunfilled]
  · rw [if_neg (by rw [hclear]; exact Bool.false_ne_true)] at hpath
    refine ⟨_, hpath, by simp, ?_, fun hall => hm.merklePath_eq hr hrec hall hlog hk hindex⟩
    have hleaf : node poseidon2 0 t.view 0 leafIndex = t.leafValue leafIndex :=
      hm.node_leaf (by rintro rfl; simpa using hclear)
    have hfold := foldToRoot_nodes (N := node poseidon2 0 t.view) leafIndex H
      fun l _ => hm.hash (by rintro rfl; exact hclear)
    rw [hleaf, Nat.div_eq_of_lt (hindex.trans_le hm.tree.tracks.room), hm.root_eq hr hrec hk] at hfold
    exact hfold

theorem mirror_path_correct {ops : List (TreeOp W)} {e : Evm.Imt W}
    (hchain : Evm.Imt.run poseidon2 H k ops = .ok e) {r : Mirrored W}
    (hreach : r.Reached poseidon2 H k (treeLog poseidon2 H k ops))
    (hrec : Recorded ((treeLog poseidon2 H k ops).take r.applied) r.tree) :
    ∀ leafIndex < r.tree.tree.nextLeafIndex,
      PathCorrect poseidon2 H k ((treeLog poseidon2 H k ops).take r.applied) r.tree leafIndex := by
  intro leafIndex hindex
  have hk := hreach.height
  have hlog := logged_treeLog hk hchain
  have hsound := hreach.sound hlog
  obtain ⟨c, hc⟩ := hlog.take r.applied
  have hm := hsound.mirrors c hc
  exact hm.path_correct hc hrec hk (hm.tree.tracks.next_eq ▸ hindex)

section Sample

def samplePoseidon (a b : ℕ) : ℕ := 2 * a + 3 * b + 1

-- A leaf, a batch over the leaves 4 and 7, and another leaf.
def sampleOps : List (TreeOp ℕ) := [.append 5, .attach 30 none, .append 7]

def sampleLog : List (TreeEvent ℕ) :=
  [.appended 0 5 71, .subtreeAppended 2 30 245, .appended 4 7 329]

theorem sampleLog_eq : treeLog samplePoseidon 3 1 sampleOps = sampleLog := by decide +kernel

theorem recorded_sample {t : MirrorTree ℕ} (h0 : t.leaves 0 = some 5) (h4 : t.leaves 4 = some 7) :
    Recorded sampleLog t := by
  intro i v root he
  simp only [sampleLog, List.mem_cons, TreeEvent.appended.injEq, List.not_mem_nil, or_false,
    reduceCtorEq, false_or] at he
  rcases he with ⟨rfl, -, -⟩ | ⟨rfl, -, -⟩
  · rw [h0]
    exact Option.some_ne_none 5
  · rw [h4]
    exact Option.some_ne_none 7

-- The three events with their records, a flush, a reboot, and the batch filled again.
theorem sample_reached : ∃ r : Mirrored ℕ, r.Reached samplePoseidon 3 1 sampleLog ∧
    r.applied = 3 ∧ Recorded sampleLog r.tree ∧ r.tree.tree.nextLeafIndex = 5 := by
  refine ⟨_, .step (.step (.step (.step (.step (.step (.step (.step (.start rfl)
    (.next rfl rfl)) (.record (show .appended 0 5 71 ∈ sampleLog.take 1 by decide)))
    (.next rfl rfl)) (.next rfl rfl)) (.record (show .appended 4 7 329 ∈ sampleLog.take 3 by decide)))
    (.flush ?_)) (.reboot rfl (.refl _) ?_ rfl))
    (.fill true (show .subtreeAppended 2 30 245 ∈ sampleLog.take 3 by decide)
      (show [4, 7].length = 2 ^ 1 from rfl) ?_), rfl, ?_, rfl⟩
  · exact recorded_sample rfl rfl
  · decide
  · rfl
  · exact recorded_sample rfl rfl

theorem mirror_path_correct_sample : ∃ r : Mirrored ℕ, r.Reached samplePoseidon 3 1 sampleLog ∧
    PathCorrect samplePoseidon 3 1 sampleLog r.tree 3 := by
  obtain ⟨r, hreach, happlied, hrec, hnext⟩ := sample_reached
  have hchain : ∃ e, Evm.Imt.run samplePoseidon 3 1 sampleOps = .ok e := ⟨_, rfl⟩
  obtain ⟨e, hchain⟩ := hchain
  have htake : (treeLog samplePoseidon 3 1 sampleOps).take r.applied = sampleLog := by
    rw [sampleLog_eq, happlied]
    rfl
  have h := mirror_path_correct hchain (sampleLog_eq ▸ hreach) (htake ▸ hrec) 3 (by omega)
  rw [htake] at h
  exact ⟨r, hreach, h⟩

end Sample

end Bongtu.Indexer
