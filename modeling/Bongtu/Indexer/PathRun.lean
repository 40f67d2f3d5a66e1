import Bongtu.Indexer.Path

set_option linter.unusedSectionVars false

namespace Bongtu.Indexer

open Bongtu.Core Merkle Outcome

variable {W : Type} [Zero W] [DecidableEq W]

-- The mirror, the log events it has seen, the leaf table, and the events up to the stored cursor.
structure Mirrored (W : Type) where
  tree : MirrorTree W
  applied : ℕ
  rows : List (LeafRow W)
  cursor : ℕ

inductive Mirrored.Step (poseidon2 : W → W → W) (H k : ℕ) (log : List (TreeEvent W)) :
    Mirrored W → Mirrored W → Prop
  | next {r : Mirrored W} {e : TreeEvent W} {tree : MirrorTree W} : log[r.applied]? = some e →
      r.tree.apply poseidon2 e = .returned tree →
      Step poseidon2 H k log r { r with tree := tree, applied := r.applied + 1 }
  | replay {r : Mirrored W} {e : TreeEvent W} {tree : MirrorTree W} : e ∈ log.take r.applied →
      r.tree.apply poseidon2 e = .returned tree → Step poseidon2 H k log r { r with tree := tree }
  | record {r : Mirrored W} {leafIndex : ℕ} {leaf root : W} :
      .appended leafIndex leaf root ∈ log.take r.applied →
      Step poseidon2 H k log r { r with tree := r.tree.recordLeaf leafIndex leaf }
  | fill {r : Mirrored W} {start : ℕ} {subtreeRoot root : W} {leaves : List W} (isPublic : Bool) :
      .subtreeAppended start subtreeRoot root ∈ log.take r.applied → leaves.length = 2 ^ k →
      r.tree.tree.computeSubtreeRoot poseidon2 leaves = .ok subtreeRoot →
      Step poseidon2 H k log r { r with tree := r.tree.fillBatch start leaves isPublic }
  | flush {r : Mirrored W} : Recorded (log.take r.applied) r.tree →
      Step poseidon2 H k log r
        ⟨r.tree.clearPendingLeaves, r.applied, r.rows ++ r.tree.pendingLeaves, r.applied⟩
  | reboot {r : Mirrored W} {empty tree : MirrorTree W} {sorted : List (LeafRow W)} :
      MirrorTree.construct poseidon2 H (2 ^ k) = .ok empty → sorted.Perm r.rows →
      sorted.Pairwise (fun row row' => row.leafIndex ≤ row'.leafIndex) →
      empty.rebuildFromLeaves poseidon2 sorted = .returned tree →
      Step poseidon2 H k log r ⟨tree, r.cursor, r.rows, r.cursor⟩

inductive Mirrored.Reached (poseidon2 : W → W → W) (H k : ℕ) (log : List (TreeEvent W)) :
    Mirrored W → Prop
  | start {tree : MirrorTree W} : MirrorTree.construct poseidon2 H (2 ^ k) = .ok tree →
      Reached poseidon2 H k log ⟨tree, 0, [], 0⟩
  | step {r r' : Mirrored W} : Reached poseidon2 H k log r → Step poseidon2 H k log r r' →
      Reached poseidon2 H k log r'

variable {poseidon2 : W → W → W} {H k : ℕ} {log : List (TreeEvent W)} {c : Content W}
  {t t' : MirrorTree W}

section Events

theorem Increasing.separate {B : ℕ} {e e' : TreeEvent W} (h : Increasing B log) (he : e ∈ log)
    (he' : e' ∈ log) : e = e' ∨ e.stop B ≤ e'.start ∨ e'.stop B ≤ e.start := by
  refine List.Pairwise.forall_of_forall_of_flip (R := fun a b : TreeEvent W =>
    a = b ∨ a.stop B ≤ b.start ∨ b.stop B ≤ a.start) (fun _ _ => .inl rfl) ?_ ?_ he he'
  · exact h.2.imp fun hab => .inr (.inl hab)
  · exact h.2.imp fun hab => .inr (.inr hab)

namespace Records

variable (hr : Records k log c)

include hr

theorem leaf_unique {i : ℕ} {v v' root root' : W} (he : .appended i v root ∈ log)
    (he' : .appended i v' root' ∈ log) : v = v' :=
  Option.some.inj ((hr.leaf he).symm.trans (hr.leaf he'))

theorem batch_unique {start : ℕ} {r r' root root' : W} (he : .subtreeAppended start r root ∈ log)
    (he' : .subtreeAppended start r' root' ∈ log) : r = r' :=
  Option.some.inj ((hr.batch he).2.symm.trans (hr.batch he').2)

theorem leaf_outside {i start : ℕ} {v r root root' : W} (he : .appended i v root ∈ log)
    (he' : .subtreeAppended start r root' ∈ log) : i < start ∨ start + 2 ^ k ≤ i := by
  rcases hr.increasing.separate he he' with h | h | h
  · cases h
  · exact .inl h
  · exact .inr h

theorem block_of_batch {i start : ℕ} {r root : W} (he : .subtreeAppended start r root ∈ log)
    (hlo : start ≤ i) (hhi : i < start + 2 ^ k) : i / 2 ^ k * 2 ^ k = start := by
  obtain ⟨b, rfl⟩ : ∃ b, start = b * 2 ^ k := ⟨_, (hr.batch he).1.symm⟩
  congr 1
  exact Nat.div_eq_of_lt_le hlo (by rwa [add_mul, one_mul])

end Records

-- A log ends in an append or an attach to the content before it.
theorem Logged.last {e : TreeEvent W} (h : Logged poseidon2 H k (log ++ [e]) c) :
    ∃ c₀, Logged poseidon2 H k log c₀ ∧
      ((∃ leaf, e = .appended c₀.next leaf (c.root poseidon2 0 H) ∧ c = c₀.place 0 leaf) ∨
        ∃ r, e = .subtreeAppended (c₀.next + Content.padding k c₀.next) r (c.root poseidon2 0 H) ∧
          c = c₀.attach 0 k r) := by
  generalize hlog : log ++ [e] = whole at h
  cases h with
  | genesis => exact absurd hlog (by simp)
  | appended leaf h =>
    obtain ⟨rfl, he⟩ := List.append_inj' hlog rfl
    exact ⟨_, h, .inl ⟨leaf, List.singleton_inj.mp he, rfl⟩⟩
  | attached r h =>
    obtain ⟨rfl, he⟩ := List.append_inj' hlog rfl
    exact ⟨_, h, .inr ⟨r, List.singleton_inj.mp he, rfl⟩⟩

end Events

section Steps

namespace Mirrors

theorem congr (hm : Mirrors poseidon2 H k log c t) (htree : t'.tree = t.tree) (hzeros : t'.zeros = t.zeros)
    (hbatch : t'.batchRoots = t.batchRoots) (hleaves : t'.leaves = t.leaves)
    (hfilled : t'.filled = t.filled) : Mirrors poseidon2 H k log c t' where
  tree := htree ▸ hm.tree
  zeros := hzeros ▸ hm.zeros
  batch {start r} := by
    rw [hbatch]
    exact hm.batch
  leaf {i v} := by
    rw [hleaves, hfilled]
    exact hm.leaf
  fill {start} := by
    rw [hleaves, hfilled]
    exact hm.fill

variable (hm : Mirrors poseidon2 H k log c t) (hr : Records k log c)

include hm hr

theorem leaf_lt {i : ℕ} (hi : t.leaves i ≠ none) : i < c.next := by
  obtain ⟨v, hv⟩ := Option.ne_none_iff_exists'.mp hi
  rcases hm.leaf hv with ⟨root, he⟩ | hfilled
  · exact hr.stop _ he
  · obtain ⟨r, root, -, he, -⟩ := hm.fill hfilled
    have hstop : i / 2 ^ k * 2 ^ k + 2 ^ k ≤ c.next := hr.stop _ he
    have hlt := Nat.lt_div_mul_add (a := i) (Nat.two_pow_pos k)
    omega

-- The slots of a batch that is not filled are holes.
theorem hole {start i : ℕ} {r root : W} (he : .subtreeAppended start r root ∈ log)
    (hopen : t.filled start = false) (hlo : start ≤ i) (hhi : i < start + 2 ^ k) : t.leaves i = none := by
  by_contra hi
  obtain ⟨v, hv⟩ := Option.ne_none_iff_exists'.mp hi
  rcases hm.leaf hv with ⟨root', he'⟩ | hfilled
  · rcases hr.leaf_outside he' he with h | h <;> omega
  · rw [hr.block_of_batch he hlo hhi, hopen] at hfilled
    cases hfilled

theorem grow_appended {tree : ImtTree W} {v : W} (root : W)
    (htree : tree.Holds poseidon2 H k (c.place 0 v)) :
    Mirrors poseidon2 H k (log ++ [.appended c.next v root]) (c.place 0 v) { t with tree := tree } where
  tree := htree
  zeros := hm.zeros
  batch {start r} := by
    rw [hm.batch]
    simp
  leaf hv := by
    rcases hm.leaf hv with ⟨root', he⟩ | hfilled
    · exact .inl ⟨root', by simp [he]⟩
    · exact .inr hfilled
  fill hfilled := by
    obtain ⟨r, root', leaves, he, hrest⟩ := hm.fill hfilled
    exact ⟨r, root', leaves, by simp [he], hrest⟩

theorem batch_fresh : t.batchRoots (c.next + Content.padding k c.next) = none ∧
    t.filled (c.next + Content.padding k c.next) = false := by
  have hnone : ∀ r root, .subtreeAppended (c.next + Content.padding k c.next) r root ∉ log := by
    intro r root he
    have hstop : c.next + Content.padding k c.next + 2 ^ k ≤ c.next := hr.stop _ he
    have hpos := Nat.two_pow_pos k
    omega
  refine ⟨?_, ?_⟩
  · cases h : t.batchRoots (c.next + Content.padding k c.next) with
    | none => rfl
    | some r =>
      obtain ⟨root, he⟩ := hm.batch.mp h
      exact absurd he (hnone r root)
  · cases h : t.filled (c.next + Content.padding k c.next) with
    | false => rfl
    | true =>
      obtain ⟨r, root, -, he, -⟩ := hm.fill h
      exact absurd he (hnone r root)

theorem wipe_fresh {start : ℕ} (hstart : c.next ≤ start) :
    MirrorTree.wipeBlock (2 ^ k) start t.leaves = t.leaves := by
  funext i
  rw [MirrorTree.wipeBlock]
  split
  · case isTrue hin =>
    by_contra hi
    have := hm.leaf_lt hr (Ne.symm hi)
    omega
  · rfl

theorem grow_attached {tree : ImtTree W} {r : W} (root : W)
    (htree : tree.Holds poseidon2 H k (c.attach 0 k r)) :
    Mirrors poseidon2 H k
      (log ++ [.subtreeAppended (c.next + Content.padding k c.next) r root]) (c.attach 0 k r)
      (({ t with tree := tree } : MirrorTree W).tagBatch (c.next + Content.padding k c.next) r) := by
  obtain ⟨-, hopen⟩ := hm.batch_fresh hr
  have hleaves : (({ t with tree := tree } : MirrorTree W).tagBatch
      (c.next + Content.padding k c.next) r).leaves = t.leaves := by
    simp only [MirrorTree.tagBatch, hopen, Bool.false_eq_true, if_false]
    rw [show tree.B = 2 ^ k from htree.params.B_eq]
    exact hm.wipe_fresh hr (Nat.le_add_right _ _)
  refine
    { tree := htree
      zeros := hm.zeros
      batch := fun {s r'} => ?_
      leaf := fun {i v} hv => ?_
      fill := fun {s} hfilled => ?_ }
  · simp only [MirrorTree.tagBatch, Function.update_apply]
    split_ifs with hs
    · subst hs
      constructor
      · rintro ⟨⟩
        exact ⟨root, by simp⟩
      · rintro ⟨root', he⟩
        rcases List.mem_append.mp he with he | he
        · have htag := hm.batch.mpr ⟨root', he⟩
          rw [(hm.batch_fresh hr).1] at htag
          cases htag
        · cases List.mem_singleton.mp he
          rfl
    · rw [hm.batch]
      simp [hs]
  · rw [hleaves] at hv
    rcases hm.leaf hv with ⟨root', he⟩ | hfilled
    · exact .inl ⟨root', by simp [he]⟩
    · exact .inr hfilled
  · rw [hleaves]
    obtain ⟨r', root', leaves, he, hrest⟩ := hm.fill hfilled
    exact ⟨r', root', leaves, by simp [he], hrest⟩

theorem grow_leaf {i : ℕ} {v root : W} (he : .appended i v root ∈ log) :
    Mirrors poseidon2 H k log c { t with leaves := Function.update t.leaves i (some v) } where
  tree := hm.tree
  zeros := hm.zeros
  batch := hm.batch
  leaf {j w} hw := by
    simp only [Function.update_apply] at hw
    split_ifs at hw with hj
    · cases hw
      subst hj
      exact .inl ⟨root, he⟩
    · exact hm.leaf hw
  fill {start} hfilled := by
    obtain ⟨r, root', leaves, he', hlen, hfold, hleaves⟩ := hm.fill hfilled
    refine ⟨r, root', leaves, he', hlen, hfold, fun o ho => ?_⟩
    have hother : start + o ≠ i := by
      rcases hr.leaf_outside he he' with h | h <;> omega
    simp only [Function.update_apply, if_neg hother]
    exact hleaves o ho

theorem grow_fill {start : ℕ} {r root : W} {leaves : List W} (isPublic : Bool)
    (he : .subtreeAppended start r root ∈ log) (hlen : leaves.length = 2 ^ k)
    (hfold : (Content.ofLeaves leaves).nodeAt poseidon2 0 k 0 = r) :
    Mirrors poseidon2 H k log c (t.fillBatch start leaves isPublic) where
  tree := hm.tree
  zeros := hm.zeros
  batch := hm.batch
  leaf {i v} hv := by
    simp only [MirrorTree.fillBatch, Function.update_apply] at hv ⊢
    split_ifs at hv with hin
    · rw [hlen] at hin
      exact .inr (by rw [if_pos (hr.block_of_batch he hin.1 hin.2)])
    · rcases hm.leaf hv with h | hfilled
      · exact .inl h
      · exact .inr (by split_ifs <;> simp [hfilled])
  fill {s} hfilled := by
    simp only [MirrorTree.fillBatch, Function.update_apply] at hfilled ⊢
    rcases eq_or_ne s start with rfl | hs
    · refine ⟨r, root, leaves, he, hlen, hfold, fun o ho => ?_⟩
      rw [if_pos ⟨Nat.le_add_right _ _, by omega⟩, Nat.add_sub_cancel_left]
    · rw [if_neg hs] at hfilled
      obtain ⟨r', root', leaves', he', hlen', hfold', hleaves⟩ := hm.fill hfilled
      refine ⟨r', root', leaves', he', hlen', hfold', fun o ho => ?_⟩
      have hout : ¬(start ≤ s + o ∧ s + o < start + leaves.length) := by
        rintro ⟨hlo, hhi⟩
        have hstart := hr.block_of_batch he hlo (hlen ▸ hhi)
        rw [hr.block_of_batch he' (Nat.le_add_right s o) (by omega)] at hstart
        exact hs hstart
      rw [if_neg hout]
      exact hleaves o ho

omit hr in
theorem apply_append {v root : W} (h : t.apply poseidon2 (.appended c.next v root) = .returned t') :
    t'.tree.Holds poseidon2 H k (c.place 0 v) ∧ t' = { t with tree := t'.tree } := by
  have hnext : t.tree.nextLeafIndex = c.next := hm.tree.tracks.next_eq
  rw [MirrorTree.apply, MirrorTree.applyAppend, hnext, if_neg (lt_irrefl _), Run.bind_eq_returned] at h
  obtain ⟨t1, ht1, h⟩ := h
  have hassert := MirrorTree.state_assertAppended c.next root t1
  rw [h] at hassert
  obtain rfl : t' = t1 := hassert
  obtain ⟨-, tree, htree, hholds⟩ | ⟨-, e, tree, htree⟩ := hm.tree.appendLeaf v
  · rw [MirrorTree.onTree_returned htree] at ht1
    cases ht1
    exact ⟨hholds, rfl⟩
  · rw [MirrorTree.onTree_threw htree] at ht1
    cases ht1

omit hr in
theorem apply_attach (hk : k ≤ H) {r root : W}
    (h : t.apply poseidon2 (.subtreeAppended (c.next + Content.padding k c.next) r root) =
      .returned t') :
    ∃ tree : ImtTree W, tree.Holds poseidon2 H k (c.attach 0 k r) ∧
      t' = ({ t with tree := tree } : MirrorTree W).tagBatch (c.next + Content.padding k c.next) r := by
  have hnext : t.tree.nextLeafIndex = c.next := hm.tree.tracks.next_eq
  rw [MirrorTree.apply, MirrorTree.applyAttach, hnext, if_pos (Nat.le_add_right _ _),
    Run.bind_eq_returned] at h
  obtain ⟨t1, ht1, h⟩ := h
  cases h
  obtain ⟨t2, ht2, ht1⟩ := Run.bind_eq_returned.mp ht1
  have hassert := MirrorTree.state_assertAttached (c.next + Content.padding k c.next) root t2
  rw [ht1] at hassert
  obtain rfl : t1 = t2 := hassert
  obtain ⟨-, tree, htree, hholds⟩ | ⟨-, e, tree, htree⟩ := hm.tree.attachSubtree hk r
    (show ImtTree.checkLeaves poseidon2 t.tree r none = .ok () from rfl)
  · rw [MirrorTree.onTree_returned htree] at ht2
    cases ht2
    exact ⟨tree, hholds, rfl⟩
  · rw [MirrorTree.onTree_threw htree] at ht2
    cases ht2

-- An event the mirror already has changes nothing.
theorem replay_eq {e : TreeEvent W} (he : e ∈ log) (h : t.apply poseidon2 e = .returned t') : t' = t := by
  have hnext : t.tree.nextLeafIndex = c.next := hm.tree.tracks.next_eq
  have hlt : e.start < c.next := (hr.increasing.1 e he).trans_le (hr.stop e he)
  cases e with
  | appended leafIndex leaf root =>
    have hlt' : leafIndex < c.next := hlt
    rw [MirrorTree.apply, MirrorTree.applyAppend, hnext, if_pos hlt'] at h
    exact (Run.returned.inj h).symm
  | subtreeAppended start r root =>
    have hlt' : start < c.next := hlt
    rw [MirrorTree.apply, MirrorTree.applyAttach, hnext, if_neg (not_le.mpr hlt'), Run.bind_returned] at h
    have htag : t.batchRoots start = some r := hm.batch.mpr ⟨root, he⟩
    have hwipe : (if t.filled start = true then t.leaves
        else MirrorTree.wipeBlock t.tree.B start t.leaves) = t.leaves := by
      split
      · rfl
      · case isFalse hopen =>
        funext i
        rw [MirrorTree.wipeBlock, hm.B_eq]
        split
        · case isTrue hin =>
          exact (hm.hole hr he (Bool.eq_false_iff.mpr hopen) hin.1 hin.2).symm
        · rfl
    rw [← Run.returned.inj h, MirrorTree.tagBatch, hwipe, htag, if_neg (Option.some_ne_none r)]
    rw [Function.update_eq_self_iff.mpr htag.symm]
  | opAppended start leaves root => exact absurd he hr.kinds

end Mirrors

end Steps

section Rows

-- The leaf row an event leaves behind.
def rowOf : TreeEvent W → LeafRow W
  | .appended leafIndex leaf _ => ⟨leafIndex, some leaf, none⟩
  | .subtreeAppended start subtreeRoot _ => ⟨start, none, some subtreeRoot⟩
  | .opAppended start _ _ => ⟨start, none, none⟩

def Seen (t : MirrorTree W) : TreeEvent W → Prop
  | .appended leafIndex _ _ => t.leaves leafIndex ≠ none
  | _ => True

-- The rows written or still buffered: one for each event seen.
structure Held (log : List (TreeEvent W)) (t : MirrorTree W) (rows : List (LeafRow W)) : Prop where
  nodup : (rows ++ t.pendingLeaves).Nodup
  mem : ∀ row, row ∈ rows ++ t.pendingLeaves ↔ ∃ e ∈ log, Seen t e ∧ rowOf e = row

namespace Held

variable {rows : List (LeafRow W)} (hheld : Held log t rows)

include hheld

theorem unseen {e : TreeEvent W} (hpending : t'.pendingLeaves = t.pendingLeaves)
    (hleaves : t'.leaves = t.leaves) (he : ¬Seen t e) : Held (log ++ [e]) t' rows where
  nodup := hpending ▸ hheld.nodup
  mem row := by
    have hsame : ∀ e' : TreeEvent W, Seen t' e' ↔ Seen t e' := fun e' => by
      cases e' <;> simp [Seen, hleaves]
    rw [hpending, hheld.mem]
    constructor
    · rintro ⟨e', he', hseen, hrow⟩
      exact ⟨e', by simp [he'], (hsame e').mpr hseen, hrow⟩
    · rintro ⟨e', he', hseen, hrow⟩
      rw [hsame] at hseen
      rcases List.mem_append.mp he' with he' | he'
      · exact ⟨e', he', hseen, hrow⟩
      · rw [List.mem_singleton.mp he'] at hseen
        exact absurd hseen he

-- A row goes into the buffer for an event that is new to the mirror.
theorem push {log' : List (TreeEvent W)} {e : TreeEvent W}
    (hpending : t'.pendingLeaves = t.pendingLeaves ++ [rowOf e])
    (hnew : ∀ e' ∈ log, Seen t e' → rowOf e' ≠ rowOf e)
    (hseen : ∀ row, (∃ e' ∈ log', Seen t' e' ∧ rowOf e' = row) ↔
      (∃ e' ∈ log, Seen t e' ∧ rowOf e' = row) ∨ row = rowOf e) : Held log' t' rows where
  nodup := by
    rw [hpending, ← List.append_assoc]
    refine List.nodup_append.mpr ⟨hheld.nodup, List.nodup_singleton _, ?_⟩
    intro row hrow row' hrow' heq
    rw [List.mem_singleton] at hrow'
    obtain ⟨e', he', hseen', hrow''⟩ := (hheld.mem row).mp hrow
    exact hnew e' he' hseen' (hrow''.trans (heq.trans hrow'))
  mem row := by
    rw [hpending, ← List.append_assoc, List.mem_append, hheld.mem, List.mem_singleton, hseen]

theorem flush : Held log t.clearPendingLeaves (rows ++ t.pendingLeaves) where
  nodup := by
    rw [MirrorTree.clearPendingLeaves, List.append_nil]
    exact hheld.nodup
  mem row := by
    rw [MirrorTree.clearPendingLeaves, List.append_nil]
    exact hheld.mem row

end Held

theorem Held.attached {rows : List (LeafRow W)} {r root : W} {tree : ImtTree W}
    (hheld : Held log t rows) (hm : Mirrors poseidon2 H k log c t) (hr : Records k log c)
    (htree : tree.Holds poseidon2 H k (c.attach 0 k r)) :
    Held (log ++ [.subtreeAppended (c.next + Content.padding k c.next) r root])
      (({ t with tree := tree } : MirrorTree W).tagBatch (c.next + Content.padding k c.next) r) rows := by
  obtain ⟨hnone, hopen⟩ := hm.batch_fresh hr
  have hleaves : (({ t with tree := tree } : MirrorTree W).tagBatch
      (c.next + Content.padding k c.next) r).leaves = t.leaves := by
    simp only [MirrorTree.tagBatch, hopen, Bool.false_eq_true, if_false]
    rw [show tree.B = 2 ^ k from htree.params.B_eq]
    exact hm.wipe_fresh hr (Nat.le_add_right _ _)
  have hsame : ∀ e' : TreeEvent W, Seen (({ t with tree := tree } : MirrorTree W).tagBatch
      (c.next + Content.padding k c.next) r) e' ↔ Seen t e' := fun e' => by
    cases e' <;> simp [Seen, hleaves]
  refine hheld.push (e := .subtreeAppended (c.next + Content.padding k c.next) r root) ?_ ?_ ?_
  · exact if_pos hnone
  · intro e' he' _ hrow
    have hstop := hr.stop e' he'
    have hstart := hr.increasing.1 e' he'
    cases e' with
    | subtreeAppended start r' root' =>
      cases hrow
      have htag := hm.batch.mpr ⟨root', he'⟩
      rw [hnone] at htag
      cases htag
    | appended | opAppended => simp [rowOf] at hrow
  · intro row
    simp only [hsame, List.mem_append, List.mem_singleton]
    constructor
    · rintro ⟨e', he' | rfl, hseen, hrow⟩
      · exact .inl ⟨e', he', hseen, hrow⟩
      · exact .inr hrow.symm
    · rintro (⟨e', he', hseen, hrow⟩ | hrow)
      · exact ⟨e', .inl he', hseen, hrow⟩
      · exact ⟨_, .inr rfl, trivial, hrow.symm⟩

theorem Held.recorded {rows : List (LeafRow W)} {i : ℕ} {v root : W} (hheld : Held log t rows)
    (hr : Records k log c) (he : .appended i v root ∈ log) : Held log (t.recordLeaf i v) rows := by
  have hseen : ∀ e', Seen (t.recordLeaf i v) e' ↔
      Seen t e' ∨ ∃ v' root', e' = .appended i v' root' := by
    intro e'
    cases e' with
    | appended j w root' =>
      simp only [Seen, MirrorTree.recordLeaf, Function.update_apply]
      split_ifs with hj
      · simp [hj]
      · simp [hj]
    | subtreeAppended | opAppended => simp [Seen]
  cases hleaf : t.leaves i with
  | none =>
    refine hheld.push (e := .appended i v root) (if_pos hleaf) ?_ ?_
    · intro e' he' hseen' hrow
      cases e' with
      | appended j w root' =>
        cases hrow
        exact hseen' hleaf
      | subtreeAppended | opAppended => simp [rowOf] at hrow
    · intro row
      simp only [hseen]
      constructor
      · rintro ⟨e', he', hold | ⟨v', root', rfl⟩, hrow⟩
        · exact .inl ⟨e', he', hold, hrow⟩
        · obtain rfl := hr.leaf_unique he he'
          exact .inr hrow.symm
      · rintro (⟨e', he', hold, hrow⟩ | hrow)
        · exact ⟨e', he', .inl hold, hrow⟩
        · exact ⟨_, he, .inr ⟨v, root, rfl⟩, hrow.symm⟩
  | some w =>
    have hsame : ∀ e', Seen (t.recordLeaf i v) e' ↔ Seen t e' := by
      intro e'
      rw [hseen, or_iff_left_iff_imp]
      rintro ⟨v', root', rfl⟩
      simp [Seen, hleaf]
    have hpending : (t.recordLeaf i v).pendingLeaves = t.pendingLeaves :=
      if_neg (by rw [hleaf]; exact Option.some_ne_none w)
    exact ⟨hpending ▸ hheld.nodup, fun row => by simp only [hpending, hheld.mem, hsame]⟩

theorem Held.filled {rows : List (LeafRow W)} {start : ℕ} {r root : W} {leaves : List W}
    (hheld : Held log t rows) (hr : Records k log c) (he : .subtreeAppended start r root ∈ log)
    (hlen : leaves.length = 2 ^ k) (isPublic : Bool) :
    Held log (t.fillBatch start leaves isPublic) rows := by
  have hsame : ∀ e' ∈ log, (Seen (t.fillBatch start leaves isPublic) e' ↔ Seen t e') := by
    intro e' he'
    cases e' with
    | appended j w root' =>
      have hout : ¬(start ≤ j ∧ j < start + leaves.length) := by
        rw [hlen]
        rcases hr.leaf_outside he' he with h | h <;> omega
      simp only [Seen, MirrorTree.fillBatch, if_neg hout]
    | subtreeAppended | opAppended => simp [Seen]
  refine ⟨hheld.nodup, fun row => (hheld.mem row).trans ?_⟩
  constructor
  · rintro ⟨e', he', hseen, hrow⟩
    exact ⟨e', he', (hsame e' he').mpr hseen, hrow⟩
  · rintro ⟨e', he', hseen, hrow⟩
    exact ⟨e', he', (hsame e' he').mp hseen, hrow⟩

end Rows

section Rebuild

theorem construct_mirrors {empty : MirrorTree W}
    (h : MirrorTree.construct poseidon2 H (2 ^ k) = .ok empty) :
    k ≤ H ∧ Mirrors poseidon2 H k [] Content.empty empty ∧ empty.pendingLeaves = [] := by
  obtain ⟨tree, htree, h⟩ := bind_ok.mp h
  cases h
  unfold ImtTree.construct at htree
  split_ifs at htree with hH hpow hk
  rw [Nat.log2_two_pow] at hk
  cases htree
  refine ⟨not_lt.mp hk, ⟨ImtTree.holds_init H k, ladder_eq H, ?_, ?_, ?_⟩, rfl⟩ <;> simp

theorem rebuildAppend_mirrors {v root : W} (hm : Mirrors poseidon2 H k log c t) (hr : Records k log c)
    (hrec : Recorded log t)
    (h : t.rebuildAppend poseidon2 (rowOf (.appended c.next v root)) = .returned t') :
    Mirrors poseidon2 H k (log ++ [.appended c.next v root]) (c.place 0 v) t' ∧
      Recorded (log ++ [.appended c.next v root]) t' ∧ t'.pendingLeaves = t.pendingLeaves := by
  obtain ⟨t1, ht1, h⟩ := Run.bind_eq_returned.mp h
  obtain ⟨-, tree, htree, hholds⟩ | ⟨-, e, tree, htree⟩ := hm.tree.appendLeaf v
  · rw [show (rowOf (TreeEvent.appended c.next v root)).commitment.getD 0 = v from rfl,
      MirrorTree.onTree_returned htree] at ht1
    cases ht1
    dsimp only at h
    split at h
    · cases h
    · cases h
      have hgrow := hm.grow_appended hr root hholds
      refine ⟨hgrow.grow_leaf (hr.appended v root)
        (show TreeEvent.appended c.next v root ∈ _ by simp), ?_, rfl⟩
      intro i w root' he
      simp only [Function.update_apply]
      split_ifs with hi
      · exact Option.some_ne_none _
      · rcases List.mem_append.mp he with he | he
        · exact hrec i w root' he
        · cases List.mem_singleton.mp he
          exact absurd rfl hi
  · rw [show (rowOf (TreeEvent.appended c.next v root)).commitment.getD 0 = v from rfl,
      MirrorTree.onTree_threw htree] at ht1
    cases ht1

theorem rebuildAttach_mirrors (hk : k ≤ H) {r root : W} (hm : Mirrors poseidon2 H k log c t)
    (hr : Records k log c) (hrec : Recorded log t)
    (h : t.rebuildAttach poseidon2
      (rowOf (.subtreeAppended (c.next + Content.padding k c.next) r root)) r = .returned t') :
    Mirrors poseidon2 H k (log ++ [.subtreeAppended (c.next + Content.padding k c.next) r root])
        (c.attach 0 k r) t' ∧
      Recorded (log ++ [.subtreeAppended (c.next + Content.padding k c.next) r root]) t' ∧
      t'.pendingLeaves = t.pendingLeaves := by
  obtain ⟨t1, ht1, h⟩ := Run.bind_eq_returned.mp h
  obtain ⟨-, tree, htree, hholds⟩ | ⟨-, e, tree, htree⟩ := hm.tree.attachSubtree hk r
    (show ImtTree.checkLeaves poseidon2 t.tree r none = .ok () from rfl)
  · rw [MirrorTree.onTree_returned htree] at ht1
    cases ht1
    have hB : tree.B = 2 ^ k := hholds.params.B_eq
    have hstart : tree.nextLeafIndex - tree.B = c.next + Content.padding k c.next := by
      rw [show tree.nextLeafIndex = _ from hholds.tracks.next_eq, (attach_start c r).2.1, hB,
        Nat.add_sub_cancel]
    have hwipe := hm.wipe_fresh hr (Nat.le_add_right c.next (Content.padding k c.next))
    dsimp only at h
    rw [hstart] at h
    split at h
    · cases h
    · cases h
      have hopen := (hm.batch_fresh hr).2
      refine ⟨(hm.grow_attached hr root hholds).congr rfl rfl rfl ?_ rfl, ?_, rfl⟩
      · simp only [MirrorTree.tagBatch, hopen, Bool.false_eq_true, if_false]
      · intro i w root' he
        rw [show (MirrorTree.wipeBlock tree.B _ t.leaves) = t.leaves from hB ▸ hwipe]
        rcases List.mem_append.mp he with he | he
        · exact hrec i w root' he
        · cases List.mem_singleton.mp he
  · rw [MirrorTree.onTree_threw htree] at ht1
    cases ht1

-- The rows of a log, in leaf order, rebuild the mirror of that log.
theorem Logged.rebuild (hlog : Logged poseidon2 H k log c) {empty : MirrorTree W}
    (hempty : MirrorTree.construct poseidon2 H (2 ^ k) = .ok empty) : ∀ {t' : MirrorTree W},
    empty.rebuildFromLeaves poseidon2 (log.map rowOf) = .returned t' →
    Mirrors poseidon2 H k log c t' ∧ Recorded log t' ∧ t'.pendingLeaves = [] := by
  obtain ⟨hk, hstart, hpending⟩ := construct_mirrors hempty
  induction hlog with
  | genesis =>
    intro t' h
    cases h
    exact ⟨hstart, by simp [Recorded], hpending⟩
  | @appended log c leaf hlog ih =>
    intro t' h
    rw [List.map_append, MirrorTree.rebuildFromLeaves, Run.forEach_append, Run.bind_eq_returned] at h
    obtain ⟨t1, ht1, h⟩ := h
    obtain ⟨hm, hrec, hnone⟩ := ih ht1
    obtain ⟨t2, ht2, h⟩ := Run.bind_eq_returned.mp h
    cases h
    obtain ⟨hm', hrec', hsame⟩ := rebuildAppend_mirrors hm hlog.records hrec ht2
    exact ⟨hm', hrec', hsame.trans hnone⟩
  | @attached log c r hlog ih =>
    intro t' h
    rw [List.map_append, MirrorTree.rebuildFromLeaves, Run.forEach_append, Run.bind_eq_returned] at h
    obtain ⟨t1, ht1, h⟩ := h
    obtain ⟨hm, hrec, hnone⟩ := ih ht1
    obtain ⟨t2, ht2, h⟩ := Run.bind_eq_returned.mp h
    cases h
    obtain ⟨hm', hrec', hsame⟩ := rebuildAttach_mirrors hk hm hlog.records hrec ht2
    exact ⟨hm', hrec', hsame.trans hnone⟩

theorem rowOf_leafIndex (e : TreeEvent W) : (rowOf e).leafIndex = e.start := by
  cases e <;> rfl

theorem Increasing.rows_pairwise {B : ℕ} (h : Increasing B log) :
    (log.map rowOf).Pairwise fun row row' => row.leafIndex < row'.leafIndex := by
  refine List.pairwise_map.mpr ((h.2.imp_of_mem fun he he' hlt => ?_))
  rw [rowOf_leafIndex, rowOf_leafIndex]
  exact (h.1 _ he).trans_le hlt

-- The leaf table read back in leaf order is the log's rows.
theorem sorted_rows {B : ℕ} {sorted rows : List (LeafRow W)} (h : Increasing B log)
    (hperm : sorted.Perm rows)
    (hsorted : sorted.Pairwise fun row row' => row.leafIndex ≤ row'.leafIndex) (hnodup : rows.Nodup)
    (hmem : ∀ row, row ∈ rows ↔ ∃ e ∈ log, rowOf e = row) : sorted = log.map rowOf := by
  have hrows := h.rows_pairwise
  have hall : sorted.Perm (log.map rowOf) := by
    refine hperm.trans ((List.perm_ext_iff_of_nodup hnodup (hrows.imp fun hlt heq => ?_)).mpr fun row => ?_)
    · rw [heq] at hlt
      exact lt_irrefl _ hlt
    · rw [hmem, List.mem_map]
  refine List.Perm.eq_of_pairwise (fun row row' hrow hrow' hle hge => ?_) hsorted
    (hrows.imp fun hlt => hlt.le) hall
  obtain ⟨e, he, rfl⟩ := List.mem_map.mp (hall.mem_iff.mp hrow)
  obtain ⟨e', he', rfl⟩ := List.mem_map.mp hrow'
  rw [rowOf_leafIndex, rowOf_leafIndex] at hle hge
  have hlt := h.1 e he
  have hlt' := h.1 e' he'
  rcases h.separate he he' with rfl | hstop | hstop
  · rfl
  · omega
  · omega

end Rebuild

namespace Mirrored

-- What a run keeps: the tree mirrors the events it has seen, and the table holds the rows of the
-- events up to the cursor.
structure Sound (poseidon2 : W → W → W) (H k : ℕ) (log : List (TreeEvent W)) (r : Mirrored W) :
    Prop where
  mirrors : ∀ c, Logged poseidon2 H k (log.take r.applied) c →
    Mirrors poseidon2 H k (log.take r.applied) c r.tree
  held : Held (log.take r.applied) r.tree r.rows
  durable : ∀ row, row ∈ r.rows ↔ ∃ e ∈ log.take r.cursor, rowOf e = row

theorem Sound.step (hlog : Logged poseidon2 H k log c) (hk : k ≤ H) {r r' : Mirrored W}
    (hsound : r.Sound poseidon2 H k log) (hstep : Step poseidon2 H k log r r') :
    r'.Sound poseidon2 H k log := by
  obtain ⟨c₁, hlog₁⟩ := hlog.take r.applied
  have hm := hsound.mirrors c₁ hlog₁
  have hr := hlog₁.records
  cases hstep with
  | @next e tree he happly =>
    obtain ⟨hlt, rfl⟩ := List.getElem?_eq_some_iff.mp he
    have htake : log.take (r.applied + 1) = log.take r.applied ++ [log[r.applied]] :=
      (List.take_concat_get' log r.applied hlt).symm
    obtain ⟨c', hlog'⟩ := hlog.take (r.applied + 1)
    rw [htake] at hlog'
    refine ⟨fun c hc => ?_, ?_, hsound.durable⟩
    · rw [htake] at hc ⊢
      obtain ⟨c₀, hlog₀, ⟨leaf, heq, rfl⟩ | ⟨x, heq, rfl⟩⟩ := hc.last
      · rw [heq] at happly ⊢
        obtain ⟨hholds, htree⟩ := (hsound.mirrors c₀ hlog₀).apply_append happly
        rw [htree]
        exact (hsound.mirrors c₀ hlog₀).grow_appended hlog₀.records _ hholds
      · rw [heq] at happly ⊢
        obtain ⟨tree', hholds, rfl⟩ := (hsound.mirrors c₀ hlog₀).apply_attach hk happly
        exact (hsound.mirrors c₀ hlog₀).grow_attached hlog₀.records _ hholds
    · rw [htake]
      obtain ⟨c₀, hlog₀, ⟨leaf, heq, rfl⟩ | ⟨x, heq, rfl⟩⟩ := hlog'.last
      · rw [heq] at happly ⊢
        obtain ⟨hholds, htree⟩ := (hsound.mirrors c₀ hlog₀).apply_append happly
        rw [htree]
        refine hsound.held.unseen rfl rfl fun hseen => ?_
        exact lt_irrefl _ ((hsound.mirrors c₀ hlog₀).leaf_lt hlog₀.records hseen)
      · rw [heq] at happly ⊢
        obtain ⟨tree', hholds, rfl⟩ := (hsound.mirrors c₀ hlog₀).apply_attach hk happly
        exact hsound.held.attached (hsound.mirrors c₀ hlog₀) hlog₀.records hholds
  | replay he happly =>
    obtain rfl := hm.replay_eq hr he happly
    exact hsound
  | record he =>
    refine ⟨fun c hc => ?_, hsound.held.recorded hr he, hsound.durable⟩
    exact ((hsound.mirrors c hc).grow_leaf hc.records he).congr rfl rfl rfl rfl rfl
  | fill isPublic he hlen hfold =>
    refine ⟨fun c hc => ?_, hsound.held.filled hr he hlen isPublic, hsound.durable⟩
    rw [ImtTree.computeSubtreeRoot_eq hm.tree.params hk hlen] at hfold
    exact (hsound.mirrors c hc).grow_fill hc.records isPublic he hlen (Except.ok.inj hfold)
  | flush hrec =>
    refine ⟨fun c hc => (hsound.mirrors c hc).congr rfl rfl rfl rfl rfl, hsound.held.flush, fun row => ?_⟩
    rw [hsound.held.mem]
    constructor
    · rintro ⟨e, he, -, hrow⟩
      exact ⟨e, he, hrow⟩
    · rintro ⟨e, he, hrow⟩
      refine ⟨e, he, ?_, hrow⟩
      cases e with
      | appended i v root => exact hrec i v root he
      | subtreeAppended | opAppended => trivial
  | reboot hempty hperm hsorted hbuild =>
    obtain ⟨c₂, hlog₂⟩ := hlog.take r.cursor
    have hnodup : r.rows.Nodup := (List.nodup_append.mp hsound.held.nodup).1
    rw [sorted_rows hlog₂.records.increasing hperm hsorted hnodup hsound.durable] at hbuild
    obtain ⟨-, hrec, hpending⟩ := hlog₂.rebuild hempty hbuild
    refine ⟨fun c hc => (hc.rebuild hempty hbuild).1, ⟨?_, fun row => ?_⟩, hsound.durable⟩
    · rw [hpending, List.append_nil]
      exact hnodup
    · rw [hpending, List.append_nil, hsound.durable]
      constructor
      · rintro ⟨e, he, hrow⟩
        refine ⟨e, he, ?_, hrow⟩
        cases e with
        | appended i v root => exact hrec i v root he
        | subtreeAppended | opAppended => trivial
      · rintro ⟨e, he, -, hrow⟩
        exact ⟨e, he, hrow⟩

theorem Reached.height {r : Mirrored W} (h : r.Reached poseidon2 H k log) : k ≤ H := by
  induction h with
  | start hempty => exact (construct_mirrors hempty).1
  | step _ _ ih => exact ih

theorem Reached.sound (hlog : Logged poseidon2 H k log c) {r : Mirrored W}
    (h : Reached poseidon2 H k log r) : r.Sound poseidon2 H k log := by
  induction h with
  | start hempty =>
    obtain ⟨-, hm, hpending⟩ := construct_mirrors hempty
    refine ⟨fun c hc => ?_, ⟨?_, ?_⟩, ?_⟩
    · generalize hnil : log.take 0 = past at hc ⊢
      rw [List.take_zero] at hnil
      cases hc with
      | genesis => exact hm
      | appended => simp at hnil
      | attached => simp at hnil
    · simp [hpending]
    · simp [hpending]
    · simp
  | step hreach hstep ih => exact ih.step hlog hreach.height hstep

end Mirrored

end Bongtu.Indexer
