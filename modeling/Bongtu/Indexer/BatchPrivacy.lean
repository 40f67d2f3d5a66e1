import Bongtu.Indexer.PublicRoutes

namespace Bongtu.Indexer

open Core Merkle

section Tree

-- The interior of a block differs between two mirrors.
def Differs (t t' : MirrorTree ℕ) (block : ℕ) : Prop := ∃ i, i / t.tree.B = block ∧ t.leaves i ≠ t'.leaves i

-- An attached batch, filled from the leaves the arbiter recovered, that fold to the attached root.
structure ArbiterFilled (poseidon2 : ℕ → ℕ → ℕ) (t : MirrorTree ℕ) (block : ℕ) : Prop where
  root : t.batchRoots (block * t.tree.B) = some (t.blockNode poseidon2 block)
  filled : t.filled (block * t.tree.B) = true
  arbiter : t.isPublicBatch block = false

-- Two mirrors of the same chain that differ in what the arbiter filled alone.
structure SameChain (poseidon2 : ℕ → ℕ → ℕ) (t t' : MirrorTree ℕ) : Prop where
  tree : t.tree = t'.tree
  batchRoots : t.batchRoots = t'.batchRoots
  filled : t.filled = t'.filled
  publicFilled : t.publicFilled = t'.publicFilled
  pendingLeaves : t.pendingLeaves = t'.pendingLeaves
  zeros : t.zeros = t'.zeros
  interior : ∀ block, Differs t t' block → ArbiterFilled poseidon2 t block ∧ ArbiterFilled poseidon2 t' block

variable {poseidon2 : ℕ → ℕ → ℕ} {t t' : MirrorTree ℕ} {block leafIndex : ℕ}

theorem ArbiterFilled.clear (h : ArbiterFilled poseidon2 t block) : t.isOpaque block = false := by
  rw [MirrorTree.isOpaque, h.filled, Bool.not_true, Bool.and_false]

theorem ArbiterFilled.gated (h : ArbiterFilled poseidon2 t block) :
    t.isBatch block = true ∧ t.isPublicBatch block = false := by
  rw [MirrorTree.isBatch, h.root]
  exact ⟨rfl, h.arbiter⟩

-- The block nodes folded up to the root; the leaf's own block decides only which of them are siblings.
def topLevel (poseidon2 : ℕ → ℕ → ℕ) (t : MirrorTree ℕ) (block : ℕ) : List ℕ :=
  ((List.range (t.tree.H - t.tree.logB)).foldl (MirrorTree.blockLevel poseidon2 t.zeros t.tree.logB block)
    ⟨[], [], (List.range ((t.tree.nextLeafIndex + t.tree.B - 1) / t.tree.B)).map (t.blockNode poseidon2)⟩).level

theorem foldl_blockLevel_level (poseidon2 : ℕ → ℕ → ℕ) (zeros : ℕ → ℕ) (logB block : ℕ) (js : List ℕ) : ∀ acc acc' : PathFold ℕ,
    acc.level = acc'.level →
      (js.foldl (MirrorTree.blockLevel poseidon2 zeros logB block) acc).level =
        (js.foldl (MirrorTree.blockLevel poseidon2 zeros logB block) acc').level := by
  induction js with
  | nil => exact fun _ _ h => h
  | cons j js ih =>
    intro acc acc' h
    refine ih _ _ ?_
    simp only [MirrorTree.blockLevel, h]

theorem path_clear (poseidon2 : ℕ → ℕ → ℕ) (hclear : t.isOpaque (leafIndex / t.tree.B) = false) :
    ∃ siblings pathIndices, t.path poseidon2 leafIndex =
      if (topLevel poseidon2 t (leafIndex / t.tree.B)).head? = some t.tree.root then
        .ok (.path siblings pathIndices t.tree.root)
      else .error (.pathRoot leafIndex) := by
  let own := (List.range t.tree.logB).foldl (MirrorTree.ownLevel poseidon2 (leafIndex % t.tree.B))
    ⟨[], [], t.blockLeaves (leafIndex / t.tree.B)⟩
  let nodes := (List.range ((t.tree.nextLeafIndex + t.tree.B - 1) / t.tree.B)).map (t.blockNode poseidon2)
  have hlevel := foldl_blockLevel_level poseidon2 t.zeros t.tree.logB (leafIndex / t.tree.B)
    (List.range (t.tree.H - t.tree.logB)) ⟨own.siblings, own.pathIndices, nodes⟩ ⟨[], [], nodes⟩ rfl
  rw [MirrorTree.path, hclear, topLevel, ← hlevel]
  exact ⟨_, _, rfl⟩

theorem leaves_eq_of_same (hsame : ¬Differs t t' block) {i : ℕ} (hi : i / t.tree.B = block) :
    t.leaves i = t'.leaves i := by
  by_contra hne
  exact hsame ⟨i, hi, hne⟩

namespace SameChain

variable (h : SameChain poseidon2 t t')

include h

theorem isOpaque : t.isOpaque = t'.isOpaque := by
  funext block
  rw [MirrorTree.isOpaque, MirrorTree.isOpaque, h.batchRoots, h.filled, h.tree]

theorem blockLeaves_eq (hsame : ¬Differs t t' block) : t.blockLeaves block = t'.blockLeaves block := by
  rw [MirrorTree.blockLeaves, MirrorTree.blockLeaves, ← h.tree]
  refine List.map_congr_left fun o ho => ?_
  have ho := List.mem_range.mp ho
  have hdiv : (block * t.tree.B + o) / t.tree.B = block := by
    rw [Nat.mul_comm, Nat.mul_add_div (by omega), Nat.div_eq_of_lt ho, Nat.add_zero]
  rw [MirrorTree.leafValue, MirrorTree.leafValue, leaves_eq_of_same hsame hdiv]

-- A filled batch folds to the root both mirrors were told of.
theorem blockNode_eq (block : ℕ) : t.blockNode poseidon2 block = t'.blockNode poseidon2 block := by
  by_cases hdiff : Differs t t' block
  · obtain ⟨hfilled, hfilled'⟩ := h.interior block hdiff
    have hroot := hfilled.root
    rw [h.batchRoots, h.tree, hfilled'.root] at hroot
    exact (Option.some.inj hroot).symm
  · rw [MirrorTree.blockNode, MirrorTree.blockNode, h.isOpaque, h.blockLeaves_eq hdiff, h.batchRoots, h.tree]

theorem blockNodes_eq : t.blockNode poseidon2 = t'.blockNode poseidon2 := funext h.blockNode_eq

-- A path inside a block that does not differ is the same path.
theorem path_eq (hsame : ¬Differs t t' (leafIndex / t.tree.B)) :
    t.path poseidon2 leafIndex = t'.path poseidon2 leafIndex := by
  rw [MirrorTree.path, MirrorTree.path]
  simp only [h.isOpaque, h.blockNodes_eq, h.blockLeaves_eq hsame, h.zeros, ← h.tree]

theorem topLevel_eq (block : ℕ) : topLevel poseidon2 t block = topLevel poseidon2 t' block := by
  rw [topLevel, topLevel, h.blockNodes_eq, h.zeros, h.tree]

-- Inside any open block both mirrors serve a path, or both fail in the same way.
theorem path_status (hclear : t.isOpaque (leafIndex / t.tree.B) = false) :
    (∃ e, t.path poseidon2 leafIndex = .error e ∧ t'.path poseidon2 leafIndex = .error e) ∨
      ∃ siblings pathIndices root siblings' pathIndices' root',
        t.path poseidon2 leafIndex = .ok (.path siblings pathIndices root) ∧
          t'.path poseidon2 leafIndex = .ok (.path siblings' pathIndices' root') := by
  have hclear' : t'.isOpaque (leafIndex / t'.tree.B) = false := by rwa [← h.isOpaque, ← h.tree]
  obtain ⟨siblings, pathIndices, hpath⟩ := path_clear poseidon2 hclear
  obtain ⟨siblings', pathIndices', hpath'⟩ := path_clear poseidon2 hclear'
  rw [← h.tree, ← h.topLevel_eq] at hpath'
  rw [hpath, hpath']
  split_ifs
  · exact .inr ⟨_, _, _, _, _, _, rfl, rfl⟩
  · exact .inl ⟨_, rfl, rfl⟩

end SameChain

end Tree

-- Two hosts that read the same public chain and differ in the batch interiors the arbiter recovered, and in
-- the ledger's notes on their leaves.
structure SamePublic (p : Primitives) (ix ix' : IndexerHost) : Prop where
  tree : SameChain p.poseidon2 ix.indexer.tree ix'.indexer.tree
  store : ix.indexer.store = ix'.indexer.store
  portal : ix.indexer.portal = ix'.indexer.portal
  modules : ix.indexer.modules = ix'.indexer.modules
  kem : ix.indexer.kem = ix'.indexer.kem
  disclosures : ix.disclosures = ix'.disclosures
  kemGraceSeconds : ix.kemGraceSeconds = ix'.kemGraceSeconds
  ledger : ∃ l l', ix.indexer.ledger = some l ∧ ix'.indexer.ledger = some l' ∧
    ∀ owner i, ¬Differs ix.indexer.tree ix'.indexer.tree (i / ix.indexer.tree.tree.B) →
      (l.notesOf owner).filter (·.leafIndex = i) = (l'.notesOf owner).filter (·.leafIndex = i)

-- Whether the ledger gives an owner a leaf of a block.
def OwnsIn (ix : IndexerHost) (owner : Point) (block : ℕ) : Prop :=
  ∃ l, ix.indexer.ledger = some l ∧ ∃ n ∈ l.notesOf owner, n.leafIndex / ix.indexer.tree.tree.B = block

section Routes

variable {p : Primitives} {a : ReadAuth} {ix ix' : IndexerHost} {ctx : RouteContext}

theorem holds_iff {l : PostgresLedger} {owner : Point} {i : ℕ} :
    l.holds owner i = true ↔ (l.notesOf owner).filter (·.leafIndex = i) ≠ [] := by
  rw [PostgresLedger.holds, List.any_eq_true, ne_eq, List.filter_eq_nil_iff, not_forall]
  simp

theorem events_eq (h : SamePublic p ix ix') : ix.events a ctx = ix'.events a ctx := by
  have hserve : ix.serve ctx = ix'.serve ctx := by
    funext e
    rw [IndexerHost.serve, IndexerHost.serve, h.kem, h.kemGraceSeconds, h.disclosures]
  rw [IndexerHost.events, IndexerHost.events, h.store, hserve]

-- Outside the batches that differ a leaf is held in both ledgers or in neither.
theorem holds_same {l l' : PostgresLedger} {owner : Point} {i : ℕ}
    (hnotes : (l.notesOf owner).filter (·.leafIndex = i) = (l'.notesOf owner).filter (·.leafIndex = i)) :
    l.holds owner i = l'.holds owner i := by
  rw [Bool.eq_iff_iff, holds_iff, holds_iff, hnotes]

theorem not_holds {l : PostgresLedger} {owner : Point} {i block : ℕ} (hledger : ix.indexer.ledger = some l)
    (howns : ¬OwnsIn ix owner block) (hi : i / ix.indexer.tree.tree.B = block) : l.holds owner i = false := by
  by_contra hholds
  rw [Bool.not_eq_false, PostgresLedger.holds, List.any_eq_true] at hholds
  obtain ⟨n, hn, hleaf⟩ := hholds
  refine howns ⟨l, hledger, n, hn, ?_⟩
  rw [of_decide_eq_true hleaf, hi]

theorem path_eq_of_same (h : SamePublic p ix ix') {i : ℕ}
    (hsame : ¬Differs ix.indexer.tree ix'.indexer.tree (i / ix.indexer.tree.tree.B)) :
    ix.path p a ctx i = ix'.path p a ctx i := by
  obtain ⟨l, l', hl, hl', hnotes⟩ := h.ledger
  have hholds : ∀ pub, l.holds pub i = l'.holds pub i := fun pub => holds_same (hnotes pub i hsame)
  rw [IndexerHost.path, IndexerHost.path]
  simp only [h.tree.path_eq hsame, h.tree.tree, MirrorTree.isBatch, MirrorTree.isPublicBatch, h.tree.batchRoots,
    h.tree.publicFilled, hl, hl', hholds]

-- A leaf of a batch that differs is served to its owner alone.
theorem path_eq_of_differs (h : SamePublic p ix ix') {i : ℕ}
    (hdiff : Differs ix.indexer.tree ix'.indexer.tree (i / ix.indexer.tree.tree.B))
    (hcaller : ∀ pub, a.authorizeOwner ctx = .ok pub →
      ¬OwnsIn ix pub (i / ix.indexer.tree.tree.B) ∧ ¬OwnsIn ix' pub (i / ix.indexer.tree.tree.B)) :
    ix.path p a ctx i = ix'.path p a ctx i := by
  obtain ⟨l, l', hl, hl', -⟩ := h.ledger
  obtain ⟨hfilled, hfilled'⟩ := h.tree.interior _ hdiff
  have htree := h.tree.tree
  rw [IndexerHost.path, IndexerHost.path]
  simp only [← htree]
  split
  · rfl
  · obtain ⟨e, he, he'⟩ | ⟨siblings, pathIndices, root, siblings', pathIndices', root', hok, hok'⟩ :=
      h.tree.path_status hfilled.clear
    · rw [he, he']
    · rw [hok, hok']
      dsimp only
      rw [if_pos hfilled.gated, if_pos hfilled'.gated]
      cases hauth : a.authorizeOwner ctx with
      | error d => rfl
      | ok pub =>
        obtain ⟨howns, howns'⟩ := hcaller pub hauth
        have hnot := not_holds hl howns rfl
        have hnot' := not_holds hl' howns' (by rw [← htree])
        simp only [hl, hl', hnot, hnot', Bool.false_eq_true, if_false]

end Routes

theorem batch_interiors_private (p : Primitives) (a : ReadAuth) {ix ix' : IndexerHost} (h : SamePublic p ix ix')
    (ctx : RouteContext)
    (hcaller : ∀ pub, a.authorizeOwner ctx = .ok pub →
      ∀ block, Differs ix.indexer.tree ix'.indexer.tree block → ¬OwnsIn ix pub block ∧ ¬OwnsIn ix' pub block) :
    (∀ leafIndex, ix.path p a ctx leafIndex = ix'.path p a ctx leafIndex) ∧
      ix.events a ctx = ix'.events a ctx := by
  refine ⟨fun leafIndex => ?_, events_eq h⟩
  by_cases hdiff : Differs ix.indexer.tree ix'.indexer.tree (leafIndex / ix.indexer.tree.tree.B)
  · exact path_eq_of_differs h hdiff fun pub hauth => hcaller pub hauth _ hdiff
  · exact path_eq_of_same h hdiff

-- A batch of two leaves under a hash that adds, filled with one run of leaves or with another.
def summing : Primitives := { plainPrimitives with poseidonN := List.sum }

def filledMirror (leaves : List ℕ) : MirrorTree ℕ where
  tree := (ImtTree.attachSubtree summing.poseidon2 5 none (ImtTree.init summing.poseidon2 2 2)).state
  leaves i := leaves[i]?
  batchRoots start := if start = 0 then some 5 else none
  filled start := start = 0
  publicFilled _ := false
  pendingLeaves := []
  zeros := ImtTree.zerosLadder summing.poseidon2 2

def filledHost (owner : Point) (leaves : List ℕ) : IndexerHost where
  indexer :=
    { tree := filledMirror leaves
      store := .empty
      ledger := some (PostgresLedger.empty.indexNote ⟨owner, 3, 4, 0, leaves.headD 0, 9, false⟩)
      portal := .empty
      modules := .empty
      kem := .empty }
  disclosures := ⟨fun _ => none, 60⟩
  kemGraceSeconds := 60

def unreadable : ReadAuth := ⟨⟨(0, 1), fun _ _ => (0, 1), fun _ _ => (0, 1), fun _ => none⟩, List.sum, fun _ => none⟩

theorem notesOf_indexNote (note : LedgerNote) (owner : Point) :
    (PostgresLedger.empty.indexNote note).notesOf owner = if owner = note.owner then [note] else [] := by
  by_cases howner : owner = note.owner <;> simp [PostgresLedger.notesOf, PostgresLedger.indexNote,
    PostgresLedger.empty, howner]

theorem differs_filled {block : ℕ} : Differs (filledMirror [1, 4]) (filledMirror [2, 3]) block ↔ block = 0 := by
  constructor
  · rintro ⟨i, rfl, hne⟩
    rcases Nat.lt_or_ge i 2 with hi | hi
    · exact Nat.div_eq_of_lt hi
    · exact absurd ((List.getElem?_eq_none hi).trans (List.getElem?_eq_none hi).symm) hne
  · rintro rfl
    exact ⟨0, rfl, by decide⟩

theorem samePublic_filled : SamePublic summing (filledHost (7, 7) [1, 4]) (filledHost (8, 8) [2, 3]) where
  tree :=
    { tree := rfl
      batchRoots := rfl
      filled := rfl
      publicFilled := rfl
      pendingLeaves := rfl
      zeros := rfl
      interior := fun block hdiff => by
        obtain rfl := differs_filled.mp hdiff
        exact ⟨⟨by decide, rfl, rfl⟩, ⟨by decide, rfl, rfl⟩⟩ }
  store := rfl
  portal := rfl
  modules := rfl
  kem := rfl
  disclosures := rfl
  kemGraceSeconds := rfl
  ledger := by
    refine ⟨_, _, rfl, rfl, fun owner i hsame => ?_⟩
    have hi : i ≠ 0 := by
      rintro rfl
      exact hsame (differs_filled.mpr rfl)
    simp only [notesOf_indexNote]
    split_ifs <;> simp [hi.symm]

theorem batch_interiors_private_sample :
    let ctx : RouteContext := ⟨none, ⟨none, none, none, none, none, none⟩, 0⟩
    Differs (filledMirror [1, 4]) (filledMirror [2, 3]) 0 ∧
      (filledHost (7, 7) [1, 4]).path summing unreadable ctx 0 = .denied .ownerRequired ∧
      ∀ leafIndex, (filledHost (7, 7) [1, 4]).path summing unreadable ctx leafIndex =
        (filledHost (8, 8) [2, 3]).path summing unreadable ctx leafIndex := by
  intro ctx
  refine ⟨differs_filled.mpr rfl, by decide, ?_⟩
  refine (batch_interiors_private summing unreadable samePublic_filled ctx fun pub hauth => ?_).1
  cases hauth

end Bongtu.Indexer
