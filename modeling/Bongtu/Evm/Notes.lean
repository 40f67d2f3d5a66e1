import Bongtu.Escrow
import Bongtu.Evm.Admission
import Bongtu.Evm.Gate
import Bongtu.Evm.Proofs
import Bongtu.TreeAgreement

namespace Bongtu

open Merkle

variable {W : Type} [Zero W]

-- The leaves under an attached root.
def IsBlock (poseidon : W → W → W) (k : ℕ) (r : W) (leaves : List W) : Prop :=
  leaves.length = 2 ^ k ∧ (Content.ofLeaves leaves).nodeAt poseidon 0 k 0 = r

open Classical in
noncomputable def blockOf (poseidon : W → W → W) (k : ℕ) (r : W) : List W :=
  if h : ∃ leaves, IsBlock poseidon k r leaves then h.choose else []

theorem blockOf_eq {poseidon : W → W → W} (hinj : Function.Injective2 poseidon) {k : ℕ} {r : W} {leaves : List W}
    (hblock : IsBlock poseidon k r leaves) : blockOf poseidon k r = leaves := by
  have hex : ∃ leaves, IsBlock poseidon k r leaves := ⟨leaves, hblock⟩
  rw [blockOf, dif_pos hex]
  exact Circuit.leaves_of_root hinj hex.choose_spec.1 hblock.1 (hex.choose_spec.2.trans hblock.2.symm)

theorem dense_append (k : ℕ) (block : W → List W) (leaves : List W) : ∀ xs : List W,
    (leaves.map TreeOp.append).foldl (TreeOp.dense k block) xs = xs ++ leaves := by
  induction leaves with
  | nil => exact fun xs => (List.append_nil xs).symm
  | cons leaf leaves ih =>
    intro xs
    rw [List.map_cons, List.foldl_cons, ih, TreeOp.dense, List.append_assoc, List.singleton_append]

theorem dense_grows (k : ℕ) (block : W → List W) (ops : List (TreeOp W)) : ∀ xs : List W,
    xs <+: ops.foldl (TreeOp.dense k block) xs := by
  induction ops with
  | nil => exact fun xs => List.prefix_refl xs
  | cons op ops ih =>
    intro xs
    refine List.IsPrefix.trans ?_ (ih _)
    cases op with
    | append leaf => exact List.prefix_append _ _
    | attach r leaves =>
      rw [TreeOp.dense, List.append_assoc]
      exact List.prefix_append _ _

theorem denseOf_grows (k : ℕ) (block : W → List W) {ops ops' : List (TreeOp W)} (h : ops <+: ops') :
    denseOf k block ops <+: denseOf k block ops' := by
  obtain ⟨tail, rfl⟩ := h
  rw [denseOf, denseOf, List.foldl_append]
  exact dense_grows k block tail _

end Bongtu

namespace Bongtu.Evm

open Circuit Merkle Outcome World

variable {W T Key : Type}

-- The token the pool holds moves exactly what it is told to.
structure ExactTransfer (env : Env W T) (balanceOf : T → Address → ℕ) : Prop where
  covered : ∀ {t t' payer payee amount}, env.safeTransfer t payer payee amount = some t' → amount ≤ balanceOf t payer
  moved : ∀ {t t' payer payee amount}, env.safeTransfer t payer payee amount = some t' → ∀ a,
    balanceOf t' a + (if a = payer then amount else 0) = balanceOf t a + if a = payee then amount else 0

theorem ExactTransfer.paid {env : Env W T} {balanceOf : T → Address → ℕ} {w w' : World W T} {m : Message W}
    (hexact : ExactTransfer env balanceOf) (hpaid : Paid env w w' (m.payment env))
    (hbare : m.call.isBare = false) (hsender : m.sender ≠ env.pool) :
    balanceOf w.token env.pool + m.call.paidIn env ≤ balanceOf w'.token env.pool + m.call.paidOut env := by
  have hkept : m.payment env = none → m.call.paidIn env = 0 →
      balanceOf w.token env.pool + m.call.paidIn env ≤ balanceOf w'.token env.pool + m.call.paidOut env := by
    intro hnone hzero
    rw [hnone] at hpaid
    rw [hzero, hpaid]
    exact Nat.le_add_right _ _
  have hpull : ∀ amount, m.payment env = some (m.sender, env.pool, amount) → m.call.paidIn env = amount →
      balanceOf w.token env.pool + m.call.paidIn env ≤ balanceOf w'.token env.pool + m.call.paidOut env := by
    intro amount hpull hamount
    rw [hpull] at hpaid
    have hmoved := hexact.moved hpaid env.pool
    rw [if_neg hsender.symm, if_pos rfl] at hmoved
    omega
  have hpush : ∀ payee amount, m.payment env = some (env.pool, payee, amount) → m.call.paidIn env = 0 →
      m.call.paidOut env = amount →
      balanceOf w.token env.pool + m.call.paidIn env ≤ balanceOf w'.token env.pool + m.call.paidOut env := by
    intro payee amount hpush hzero hamount
    rw [hpush] at hpaid
    have hmoved := hexact.moved hpaid env.pool
    rw [if_pos rfl] at hmoved
    omega
  obtain ⟨sender, call⟩ := m
  cases call with
  | applyOpWithPull => cases hbare
  | applyOpWithPush => cases hbare
  | deposit => exact hpull _ rfl rfl
  | depositPriv => exact hpull _ rfl rfl
  | withdraw => exact hpush _ _ rfl rfl rfl
  | withdrawPriv => exact hpush _ _ rfl rfl rfl
  | _ => exact hkept rfl rfl

variable [CommRing W]

section Worth

variable (h : NoteHash W Key) (toNat : W → ℕ)

open Classical in
-- The value of the note a leaf commits to; a padding leaf holds none.
noncomputable def noteValue (leaf : W) : ℕ :=
  if hleaf : leaf ≠ 0 ∧ ∃ o, leaf = h.commitment o then toNat hleaf.2.choose.value else 0

variable {h toNat}

theorem noteValue_commitment (hinj : Function.Injective h.commitment) {o : Opening W Key} (hne : h.commitment o ≠ 0) :
    noteValue h toNat (h.commitment o) = toNat o.value := by
  have hex : h.commitment o ≠ 0 ∧ ∃ o', h.commitment o = h.commitment o' := ⟨hne, o, rfl⟩
  rw [noteValue, dif_pos hex, ← hinj hex.2.choose_spec]

theorem noteValue_le (hinj : Function.Injective h.commitment) {leaf : W} {o : Opening W Key}
    (hleaf : leaf = 0 ∨ leaf = h.commitment o) : noteValue h toNat leaf ≤ toNat o.value := by
  by_cases hzero : leaf = 0
  · rw [hzero, noteValue, dif_neg fun hne => hne.1 rfl]
    exact Nat.zero_le _
  · obtain rfl := hleaf.resolve_left hzero
    exact (noteValue_commitment hinj hzero).le

end Worth

-- A nullifier spends the leaf at a place under a scalar.
def Consumes (h : NoteHash W Key) (leaves : List W) (nf : W) (spend : ℕ × W) : Prop :=
  ∃ value salt, leaves[spend.1]? = some (h.commitment ⟨value, salt, h.publicKey spend.2⟩) ∧
    h.commitment ⟨value, salt, h.publicKey spend.2⟩ ≠ 0 ∧ nf = h.nullifier value salt spend.2

-- No owner has spent under two scalars of its key.
def OneScalar (h : NoteHash W Key) (nfs : List W) : Prop :=
  ∀ value salt scalar value' salt' scalar', h.nullifier value salt scalar ∈ nfs →
    h.nullifier value' salt' scalar' ∈ nfs → h.publicKey scalar = h.publicKey scalar' → scalar = scalar'

section Spends

variable {h : NoteHash W Key} {leaves leaves' : List W} {nfs : List W} {spends : List (ℕ × W)}

theorem Consumes.within {nf : W} {spend : ℕ × W} (hc : Consumes h leaves nf spend) : spend.1 < leaves.length := by
  obtain ⟨value, salt, hleaf, -⟩ := hc
  exact (List.getElem?_eq_some_iff.mp hleaf).1

theorem Consumes.grow {nf : W} {spend : ℕ × W} (hc : Consumes h leaves nf spend) (hpre : leaves <+: leaves') :
    Consumes h leaves' nf spend := by
  have hwithin := hc.within
  obtain ⟨value, salt, hleaf, hrest⟩ := hc
  obtain ⟨tail, rfl⟩ := hpre
  exact ⟨value, salt, (List.getElem?_append_left hwithin).trans hleaf, hrest⟩

theorem Consumes.unique (hinj : Function.Injective h.commitment) {nf nf' : W} {spend : ℕ × W}
    (hc : Consumes h leaves nf spend) (hc' : Consumes h leaves nf' spend) : nf = nf' := by
  obtain ⟨value, salt, hleaf, -, rfl⟩ := hc
  obtain ⟨value', salt', hleaf', -, rfl⟩ := hc'
  have hnote := hinj (Option.some.inj (hleaf.symm.trans hleaf'))
  rw [Opening.mk.injEq] at hnote
  rw [hnote.1, hnote.2.1]

theorem nodup_of_forall₂ {A B : Type} {R : A → B → Prop} (hR : ∀ a a' b, R a b → R a' b → a = a') {as : List A}
    {bs : List B} (hall : List.Forall₂ R as bs) (hnodup : as.Nodup) : bs.Nodup := by
  induction hall with
  | nil => exact List.nodup_nil
  | @cons a b as bs hab hrest ih =>
    obtain ⟨hnot, hnodup⟩ := List.nodup_cons.mp hnodup
    refine List.nodup_cons.mpr ⟨fun hmem => hnot ?_, ih hnodup⟩
    obtain ⟨i, hi, hb⟩ := List.getElem_of_mem hmem
    have hi' : i < as.length := hrest.length_eq ▸ hi
    have hpair := hrest.get hi' hi
    rw [List.get_eq_getElem, List.get_eq_getElem, hb] at hpair
    rw [hR a _ b hab hpair]
    exact List.getElem_mem hi'

theorem spends_nodup (hinj : Function.Injective h.commitment) (hall : List.Forall₂ (Consumes h leaves) nfs spends)
    (hnodup : nfs.Nodup) : spends.Nodup :=
  nodup_of_forall₂ (fun _ _ _ hc hc' => hc.unique hinj hc') hall hnodup

theorem exists_of_mem_right {A B : Type} {R : A → B → Prop} {as : List A} {bs : List B} (hall : List.Forall₂ R as bs)
    {b : B} (hb : b ∈ bs) : ∃ a ∈ as, R a b := by
  induction hall with
  | nil => cases hb
  | cons hab hrest ih =>
    rcases List.mem_cons.mp hb with rfl | hb
    · exact ⟨_, List.mem_cons_self, hab⟩
    · obtain ⟨a, ha, hR⟩ := ih hb
      exact ⟨a, List.mem_cons_of_mem _ ha, hR⟩

-- Under one scalar for each key no place is spent twice.
theorem places_nodup (hinj : Function.Injective h.commitment) (hall : List.Forall₂ (Consumes h leaves) nfs spends)
    (hnodup : nfs.Nodup) (hone : OneScalar h nfs) : (spends.map Prod.fst).Nodup := by
  refine List.Nodup.map_on (fun p hp q hq hplace => ?_) (spends_nodup hinj hall hnodup)
  obtain ⟨nf, hnf, value, salt, hleaf, -, rfl⟩ := exists_of_mem_right hall hp
  obtain ⟨nf', hnf', value', salt', hleaf', -, rfl⟩ := exists_of_mem_right hall hq
  rw [hplace] at hleaf
  have hnote := hinj (Option.some.inj (hleaf.symm.trans hleaf'))
  rw [Opening.mk.injEq] at hnote
  exact Prod.ext hplace (hone _ _ _ _ _ _ hnf hnf' hnote.2.2)

end Spends

variable [DecidableEq W]

-- The leaves of the tree after the calls `done`, blocks filled in.
noncomputable def leavesOf (env : Env W T) (k : ℕ) (done : List (Message W)) : List W :=
  denseOf k (blockOf env.poseidon k) (historyOf done)

-- The invariant of a run: `spends` says which leaf each spent nullifier stood for, and under which scalar.
structure Noted (env : Env W T) (h : NoteHash W Key) (k : ℕ) (w : World W T) (done : List (Message W))
    (spends : List (ℕ × W)) : Prop where
  gate : Gate env k w done
  blocks : ∀ r leaves, .attach r leaves ∈ historyOf done → IsBlock env.poseidon k r (blockOf env.poseidon k r)
  minted : ∀ leaf ∈ leavesOf env k done, leaf = 0 ∨ ∃ o : Opening W Key, Ranged o.value ∧ leaf = h.commitment o
  consumed : List.Forall₂ (Consumes h (leavesOf env k done)) (spentOf done) spends

def Solvent (env : Env W T) (h : NoteHash W Key) (balanceOf : T → Address → ℕ) (k : ℕ) (w : World W T)
    (done : List (Message W)) (spends : List (ℕ × W)) : Prop :=
  OneScalar h (spentOf done) →
    Escrow.owed (noteValue h env.toNat) (leavesOf env k done) (spends.map Prod.fst) ≤ balanceOf w.token env.pool

section Run

variable {env : Env W T} {h : NoteHash W Key} {balanceOf : T → Address → ℕ} {k : ℕ} {w w' : World W T}
  {done : List (Message W)} {spends : List (ℕ × W)}

theorem noted_init (hw : Fresh env k w) : Noted env h k w [] [] where
  gate := gate_init hw
  blocks := by simp [historyOf]
  minted := by simp [leavesOf, historyOf, denseOf]
  consumed := .nil

theorem solvent_init : Solvent env h balanceOf k w [] [] := by
  intro _
  simp [leavesOf, historyOf, denseOf, Escrow.owed]

theorem fresh_of_batch {w0 : World W T} (h0 : Initialized env w0) (hB : w0.pool.imt.B = 2 ^ k) : Fresh env k w0 := by
  obtain ⟨k', hfresh⟩ := fresh_of_initialized h0
  obtain rfl : k' = k := by
    rw [hfresh.imt] at hB
    exact Nat.pow_right_injective le_rfl hB
  exact hfresh

-- The root of the tree after some of the operations is the root over the leaves they made.
theorem root_of_ops (hk : k ≤ treeHeight)
    (hblocks : ∀ r leaves, .attach r leaves ∈ historyOf done → IsBlock env.poseidon k r (blockOf env.poseidon k r))
    {ops : List (TreeOp W)} {t : Imt W} (hpre : ops <+: historyOf done)
    (ht : Imt.run env.poseidon treeHeight k ops = .ok t) :
    t.nextLeafIndex = (denseOf k (blockOf env.poseidon k) ops).length ∧
      t.root = (Content.ofLeaves (denseOf k (blockOf env.poseidon k) ops)).root env.poseidon 0 treeHeight := by
  have hinit : (Imt.init env.poseidon treeHeight (2 ^ k)).Holds env.poseidon treeHeight k Content.empty :=
    Imt.holds_init k
  have hholds := hinit.runFrom ops (fun _ _ _ => hk) ht
  have hagrees : (contentOf k ops).Agrees env.poseidon 0 k
      (Content.ofLeaves (denseOf k (blockOf env.poseidon k) ops)) :=
    agrees_dense ops (fun r leaves hop => hblocks r leaves (hpre.subset hop)) (Content.agrees_empty k)
  exact ⟨hholds.tracks.next_eq.trans hagrees.1, hholds.tracks.root_eq.trans (hagrees.root hk)⟩

-- An input that opens under a known root opens a leaf of the tree.
theorem Noted.leaf (hw : Noted env h k w done spends) (hk : k ≤ treeHeight)
    (hinj : Function.Injective2 env.poseidon) {root nf : W} {y : Input W}
    (hy : y.Opens env.poseidon h treeHeight root nf) (hroot : w.pool.knownRoots root = true) :
    (leavesOf env k done)[y.leafIndex]? = some (h.commitment (y.note h)) := by
  obtain ⟨ops, t, hpre, ht, rfl⟩ := (hw.gate.known root).mp hroot
  have hpath := hy.path
  rw [(root_of_ops hk hw.blocks hpre ht).2] at hpath
  have hleaf := leaf_of_path hinj hy.index_lt hy.length hpath
  have hne := hy.ne_zero
  rw [hleaf] at hne
  obtain ⟨tail, htail⟩ := denseOf_grows k (blockOf env.poseidon k) hpre
  have hlt : y.leafIndex < (denseOf k (blockOf env.poseidon k) ops).length := by
    by_contra hge
    rw [List.getD_eq_getElem?_getD, List.getElem?_eq_none (not_lt.mp hge)] at hne
    exact hne rfl
  rw [leavesOf, ← htail, List.getElem?_append_left hlt, hleaf, List.getD_eq_getElem?_getD,
    List.getElem?_eq_getElem hlt, Option.getD_some]

theorem Noted.ranged (hw : Noted env h k w done spends) (hinj : Function.Injective h.commitment)
    {o : Opening W Key} {i : ℕ} (hleaf : (leavesOf env k done)[i]? = some (h.commitment o))
    (hne : h.commitment o ≠ 0) : Ranged o.value := by
  obtain ⟨o', hranged, ho⟩ := (hw.minted _ (List.mem_of_getElem? hleaf)).resolve_left hne
  rwa [hinj ho]

-- The leaves a call adds: padding up to a block, then what it creates.
theorem leavesOf_snoc (hinj : Function.Injective2 env.poseidon) (done : List (Message W)) {m : Message W}
    {leaves : List W}
    (hm : Creates env.poseidon k m.call.ops leaves) :
    ∃ pad, leavesOf env k (done ++ [m]) = leavesOf env k done ++ (List.replicate pad 0 ++ leaves) := by
  have hhistory : historyOf (done ++ [m]) = historyOf done ++ m.call.ops := by simp [historyOf]
  rw [leavesOf, hhistory, denseOf, List.foldl_append, ← denseOf, ← leavesOf]
  rcases hm with hops | ⟨r, hops, hblock⟩
  · exact ⟨0, by rw [hops, dense_append, List.replicate_zero, List.nil_append]⟩
  · refine ⟨Content.padding k (leavesOf env k done).length, ?_⟩
    rw [hops, List.foldl_cons, List.foldl_nil, TreeOp.dense, blockOf_eq hinj hblock, List.append_assoc]

theorem blocks_snoc (hinj : Function.Injective2 env.poseidon) {m : Message W} {leaves : List W}
    (hblocks : ∀ r leaves, .attach r leaves ∈ historyOf done → IsBlock env.poseidon k r (blockOf env.poseidon k r))
    (hm : Creates env.poseidon k m.call.ops leaves) (r : W) (supplied : Option (List W))
    (hop : .attach r supplied ∈ historyOf (done ++ [m])) : IsBlock env.poseidon k r (blockOf env.poseidon k r) := by
  have hhistory : historyOf (done ++ [m]) = historyOf done ++ m.call.ops := by simp [historyOf]
  rw [hhistory, List.mem_append] at hop
  rcases hop with hop | hop
  · exact hblocks r supplied hop
  · rcases hm with hops | ⟨r', hops, hblock⟩
    · rw [hops] at hop
      obtain ⟨leaf, -, hleaf⟩ := List.mem_map.mp hop
      cases hleaf
    · rw [hops, List.mem_singleton] at hop
      cases hop
      have hblock : IsBlock env.poseidon k r leaves := hblock
      rwa [blockOf_eq hinj hblock]

def spendOf (y : Input W) : ℕ × W := (y.leafIndex, y.ownerPrivateKey)

variable {m : Message W} {root : W} {leaves : List W} {inputs : List (Input W)} {outputs : List (Opening W Key)}

theorem Noted.opened (hw : Noted env h k w done spends) (hk : k ≤ treeHeight)
    (hinj : Function.Injective2 env.poseidon) (hm : Shown env h k w m root leaves inputs outputs) {y : Input W}
    (hy : y ∈ inputs) : (leavesOf env k done)[y.leafIndex]? = some (h.commitment (y.note h)) ∧
      h.commitment (y.note h) ≠ 0 := by
  obtain ⟨nf, hnf, hopens⟩ := exists_of_mem_right hm.moves.opened hy
  exact ⟨hw.leaf hk hinj hopens (hm.known (List.ne_nil_of_mem hnf)), hopens.ne_zero⟩

theorem Noted.consumes (hw : Noted env h k w done spends) (hk : k ≤ treeHeight)
    (hinj : Function.Injective2 env.poseidon) (hm : Shown env h k w m root leaves inputs outputs) :
    List.Forall₂ (Consumes h (leavesOf env k done)) m.call.nullifiers (inputs.map spendOf) := by
  rw [List.forall₂_map_right_iff]
  by_cases hnil : m.call.nullifiers = []
  · have hopened := hm.moves.opened
    rw [hnil, List.forall₂_nil_left_iff] at hopened
    rw [hnil, hopened]
    exact .nil
  · exact hm.moves.opened.imp fun nf y hy =>
      ⟨y.value, y.salt, hw.leaf hk hinj hy (hm.known hnil), hy.ne_zero, hy.nullifier⟩

-- The notes a call creates are worth no more than what its proof says of them.
theorem Shown.created_le (hcommit : Function.Injective h.commitment)
    (hm : Shown env h k w m root leaves inputs outputs) (pad : ℕ) :
    ((List.replicate pad 0 ++ leaves).map (noteValue h env.toNat)).sum ≤
      (outputs.map fun o : Opening W Key => env.toNat o.value).sum := by
  have hzero : noteValue h env.toNat 0 = 0 := by
    rw [noteValue, dif_neg fun hne => hne.1 rfl]
  rw [List.map_append, List.map_replicate, hzero, List.sum_append, List.sum_replicate, smul_zero, Nat.zero_add]
  refine List.Forall₂.sum_le_sum ?_
  rw [List.forall₂_map_left_iff, List.forall₂_map_right_iff]
  exact hm.moves.committed.imp fun leaf o ho => noteValue_le hcommit ho.2

-- The leaves a call spends are worth what its proof says of them.
theorem Noted.spent_worth (hw : Noted env h k w done spends) (hk : k ≤ treeHeight)
    (hinj : Function.Injective2 env.poseidon) (hcommit : Function.Injective h.commitment)
    (hm : Shown env h k w m root leaves inputs outputs) :
    ((inputs.map spendOf).map Prod.fst).map (Escrow.worthAt (noteValue h env.toNat) (leavesOf env k done)) =
      inputs.map fun y : Input W => env.toNat y.value := by
  rw [List.map_map, List.map_map]
  refine List.map_congr_left fun y hy => ?_
  obtain ⟨hleaf, hne⟩ := hw.opened hk hinj hm hy
  exact (Escrow.worthAt_of_getElem? hleaf).trans (noteValue_commitment hcommit hne)

section Step

variable (hk : k ≤ treeHeight) (hinj : Function.Injective2 env.poseidon) (hcommit : Function.Injective h.commitment)

include hk hinj

theorem noted_step (hw : Noted env h k w done spends) (hm : Accepts env w m w')
    (hshown : Shown env h k w m root leaves inputs outputs) :
    Noted env h k w' (done ++ [m]) (spends ++ inputs.map spendOf) := by
  obtain ⟨pad, hleaves⟩ := leavesOf_snoc hinj done hshown.creates
  have hspent : spentOf (done ++ [m]) = spentOf done ++ m.call.nullifiers := by simp [spentOf]
  have hgrow : leavesOf env k done <+: leavesOf env k (done ++ [m]) := by
    rw [hleaves]
    exact List.prefix_append _ _
  refine ⟨gate_step hw.gate hm, fun r => blocks_snoc hinj hw.blocks hshown.creates r, fun leaf hleaf => ?_, ?_⟩
  · rw [hleaves, List.mem_append, List.mem_append] at hleaf
    rcases hleaf with hleaf | hleaf | hleaf
    · exact hw.minted leaf hleaf
    · exact .inl (List.eq_of_mem_replicate hleaf)
    · obtain ⟨o, -, hranged, ho⟩ := exists_of_mem_right hshown.moves.committed.flip hleaf
      exact ho.imp_right fun ho => ⟨o, hranged, ho⟩
  · rw [hspent]
    exact List.rel_append (hw.consumed.imp fun _ _ hc => hc.grow hgrow)
      ((hw.consumes hk hinj hshown).imp fun _ _ hc => hc.grow hgrow)

include hcommit

theorem solvent_step (hexact : ExactTransfer env balanceOf) (hw : Noted env h k w done spends)
    (hsolvent : Solvent env h balanceOf k w done spends) (hm : Accepts env w m w')
    (hshown : Shown env h k w m root leaves inputs outputs) (hbare : m.call.isBare = false)
    (hsender : m.sender ≠ env.pool) :
    Solvent env h balanceOf k w' (done ++ [m]) (spends ++ inputs.map spendOf) := by
  intro hone
  have hw' := noted_step hk hinj hw hm hshown
  obtain ⟨pad, hleaves⟩ := leavesOf_snoc hinj done hshown.creates
  have hspent : spentOf (done ++ [m]) = spentOf done ++ m.call.nullifiers := by simp [spentOf]
  have hbefore : OneScalar h (spentOf done) := by
    intro value salt scalar value' salt' scalar' hnf hnf'
    rw [hspent] at hone
    exact hone _ _ _ _ _ _ (List.mem_append_left _ hnf) (List.mem_append_left _ hnf')
  have honce := places_nodup hcommit hw'.consumed hw'.gate.spent_nodup hone
  rw [List.map_append] at honce ⊢
  let books : Escrow.Books W :=
    { places := leavesOf env k done
      spent := spends.map Prod.fst
      fund := balanceOf w.token env.pool
      once := (List.nodup_append.mp honce).1
      within := by
        intro i hi
        obtain ⟨p, hp, rfl⟩ := List.mem_map.mp hi
        obtain ⟨nf, -, hc⟩ := exists_of_mem_right hw.consumed hp
        exact hc.within }
  let move : Escrow.Move W := ⟨(inputs.map spendOf).map Prod.fst, List.replicate pad 0 ++ leaves,
    m.call.paidIn env, m.call.paidOut env⟩
  have hranged : ∀ y ∈ inputs, Ranged y.value := fun y hy =>
    hw.ranged hcommit (hw.opened hk hinj hshown hy).1 (hw.opened hk hinj hshown hy).2
  have hfair : move.Fair (noteValue h env.toNat) books := by
    refine ⟨honce, fun i hi => ?_, ?_⟩
    · obtain ⟨p, hp, rfl⟩ := List.mem_map.mp hi
      obtain ⟨nf, -, hc⟩ := exists_of_mem_right (hw.consumes hk hinj hshown) hp
      exact hc.within
    · have hbalance := hshown.moves.balance hranged
      have hcreated := hshown.created_le hcommit pad
      have hworth := hw.spent_worth hk hinj hcommit hshown
      change ((List.replicate pad 0 ++ leaves).map (noteValue h env.toNat)).sum + m.call.paidOut env ≤
        (((inputs.map spendOf).map Prod.fst).map
          (Escrow.worthAt (noteValue h env.toNat) (leavesOf env k done))).sum + m.call.paidIn env
      rw [hworth]
      omega
  rw [hleaves]
  exact hfair.solvent (hexact.paid hm.paid hbare hsender) (hsolvent hbefore)

end Step

section Runs

variable [Nontrivial W] {g : NoteGadgets W Key} (hcircuits : Circuits env g k) (hread : ReadsNumbers env.toNat)
  (hg : g.Sound env.poseidon h) (hk : k ≤ treeHeight) (hinj : Function.Injective2 env.poseidon)
  (hcommit : Function.Injective h.commitment)

include hcircuits hread hg hk hinj

-- Anything that the steps of a run keep beside the invariant holds at its end.
theorem noted_run {P : World W T → List (Message W) → List (ℕ × W) → Prop} (ms : List (Message W))
    (hms : ∀ m ∈ ms, m.call.isBare = false)
    (hP : ∀ m ∈ ms, ∀ {w w' done spends root leaves inputs outputs}, Noted env h k w done spends → P w done spends →
      Accepts env w m w' → Shown env h k w m root leaves inputs outputs →
      P w' (done ++ [m]) (spends ++ inputs.map spendOf)) :
    ∀ {w : World W T} {done : List (Message W)} {spends : List (ℕ × W)}, Noted env h k w done spends →
      P w done spends → ∃ more, Noted env h k (World.run env w ms) (done ++ accepted env w ms) (spends ++ more) ∧
        P (World.run env w ms) (done ++ accepted env w ms) (spends ++ more) := by
  induction ms with
  | nil =>
    intro w done spends hw hkept
    refine ⟨[], ?_⟩
    rw [accepted, List.append_nil, List.append_nil]
    exact ⟨hw, hkept⟩
  | cons m ms ih =>
    intro w done spends hw hkept
    have hrest := @ih (fun m hm => hms m (List.mem_cons_of_mem _ hm)) fun m hm => hP m (List.mem_cons_of_mem _ hm)
    rw [World.run, List.foldl_cons, ← World.run, after, accepted]
    cases hm : step env w m with
    | error e => exact hrest hw hkept
    | ok w' =>
      have haccepts := step_accepts hm
      obtain ⟨root, leaves, inputs, outputs, hshown⟩ :=
        accepts_shown hcircuits hread hg hk haccepts (hms m List.mem_cons_self)
      obtain ⟨more, hrun⟩ := hrest (noted_step hk hinj hw haccepts hshown)
        (hP m List.mem_cons_self hw hkept haccepts hshown)
      refine ⟨inputs.map spendOf ++ more, ?_⟩
      rwa [List.append_assoc, List.singleton_append, List.append_assoc] at hrun

include hcommit

-- In every run each spent nullifier stands for a leaf that is in the tree, and no leaf is spent twice under one scalar.
-- As long as no owner has spent under two scalars of its key, the pool holds what its unspent leaves are worth.
end Runs

end Run

-- A pool over the integers with a pairing for every hash and verifiers that search for a witness.
section Sample

def pairInt (a b : ℤ) : ℤ := (Nat.pair (Equiv.intEquivNat a) (Equiv.intEquivNat b) : ℕ)

theorem pairInt_injective : Function.Injective2 pairInt := by
  intro a a' b b' heq
  obtain ⟨ha, hb⟩ := Nat.pair_eq_pair.mp (Int.natCast_inj.mp heq)
  exact ⟨Equiv.intEquivNat.injective ha, Equiv.intEquivNat.injective hb⟩

def pairHash : NoteHash ℤ ℤ where
  publicKey := id
  commitment o := pairInt o.value (pairInt o.salt o.owner)
  nullifier value salt key := pairInt value (pairInt salt key)

theorem pairHash_commitment_injective : Function.Injective pairHash.commitment := by
  rintro ⟨value, salt, owner⟩ ⟨value', salt', owner'⟩ heq
  obtain ⟨rfl, hrest⟩ := pairInt_injective heq
  obtain ⟨rfl, rfl⟩ := pairInt_injective hrest
  rfl

abbrev pairNotes : NoteGadgets ℤ ℤ := plainNotes pairInt pairHash

noncomputable def search (p : Prop) : Bool := @decide p (Classical.propDecidable p)

theorem of_search {p : Prop} (hp : search p = true) : p := @of_decide_eq_true p (Classical.propDecidable p) hp

noncomputable def searching : Env ℤ (Address → ℕ) where
  poseidon := pairInt
  toNat := Int.toNat
  pool := 1
  depositVerifier _ pub := search (∃ x, BongtuDepositAuthority pairNotes 2 (pubAt pub 14) (signal pub 0) x)
  disburseVerifier _ pub := search (∃ outputCommitments x, Zeto pairNotes 1 (2 ^ 1) treeHeight (pubAt pub 5)
    (pubAt pub 7) (signal pub 6) (signal pub 3) outputCommitments x)
  transferVerifier _ pub := search (∃ x, ZetoTransferSmall pairNotes 2 2 treeHeight (pubAt pub 27) (pubAt pub 30)
    (signal pub 29) (pubAt pub 32) x)
  transfer10Verifier _ pub := search (∃ x, ZetoTransferSmall pairNotes 10 10 treeHeight (pubAt pub 107)
    (pubAt pub 118) (signal pub 117) (pubAt pub 128) x)
  transfer10x2Verifier _ pub := search (∃ x, ZetoTransferSmall pairNotes 10 2 treeHeight (pubAt pub 42) (pubAt pub 53)
    (signal pub 52) (pubAt pub 63) x)
  withdrawVerifier _ pub := search (∃ x, CheckNullifiersInputsOutputsValueIMT pairNotes 2 1 treeHeight (pubAt pub 17)
    (pubAt pub 20) (signal pub 19) (pubAt pub 22) (signal pub 0) x)
  depositPrivVerifier _ pub := search (∃ x, BongtuConsumerDeposit pairNotes 2 (pubAt pub 13) (signal pub 0) x)
  transferPrivVerifier _ pub := search (∃ x, BongtuConsumerTransfer pairNotes 2 2 treeHeight (pubAt pub 12)
    (pubAt pub 15) (signal pub 14) (pubAt pub 17) x)
  transfer10x2PrivVerifier _ pub := search (∃ x, BongtuConsumerTransfer pairNotes 10 2 treeHeight (pubAt pub 12)
    (pubAt pub 23) (signal pub 22) (pubAt pub 33) x)
  withdrawPrivVerifier _ pub := search (∃ x, BongtuConsumerWithdrawBase pairNotes 2 1 treeHeight (pubAt pub 8)
    (pubAt pub 11) (signal pub 10) (pubAt pub 13) (signal pub 0) x)
  disbursePrivVerifier _ pub := search (∃ outputCommitments x, BongtuConsumerDisburse pairNotes 1 (2 ^ 1) treeHeight
    (pubAt pub 4) (pubAt pub 6) (signal pub 5) (signal pub 3) outputCommitments x)
  safeTransfer t payer payee amount :=
    if amount ≤ t payer then
      let debited := Function.update t payer (t payer - amount)
      some (Function.update debited payee (debited payee + amount))
    else none
  keccak256 := List.length
  code _ := none

theorem searching_circuits : Circuits searching pairNotes 1 where
  deposit := of_search
  disburse := of_search
  transfer := of_search
  transfer10 := of_search
  transfer10x2 := of_search
  withdraw := of_search
  depositPriv := of_search
  transferPriv := of_search
  transfer10x2Priv := of_search
  withdrawPriv := of_search
  disbursePriv := of_search

theorem searching_reads : ReadsNumbers searching.toNat := fun n _ => Int.toNat_natCast n

def holdings (t : Address → ℕ) (a : Address) : ℕ := t a

theorem searching_exact : ExactTransfer searching holdings := by
  have hsome : ∀ {t t' : Address → ℕ} {payer payee : Address} {amount : ℕ},
      searching.safeTransfer t payer payee amount = some t' → amount ≤ t payer ∧
        t' = Function.update (Function.update t payer (t payer - amount)) payee
          (Function.update t payer (t payer - amount) payee + amount) := by
    intro t t' payer payee amount ht
    simp only [searching] at ht
    split at ht
    · case isTrue hle => exact ⟨hle, (Option.some.inj ht).symm⟩
    · cases ht
  refine ⟨fun ht => (hsome ht).1, fun {t t' payer payee amount} ht a => ?_⟩
  obtain ⟨hle, rfl⟩ := hsome ht
  unfold holdings
  by_cases hpayer : a = payer
  · subst hpayer
    by_cases hpayee : a = payee
    · subst hpayee
      rw [Function.update_self, Function.update_self, if_pos rfl, Nat.sub_add_cancel hle]
    · rw [Function.update_of_ne hpayee, Function.update_self, if_pos rfl, if_neg hpayee, Nat.sub_add_cancel hle,
        Nat.add_zero]
  · by_cases hpayee : a = payee
    · subst hpayee
      rw [Function.update_self, Function.update_of_ne hpayer, if_neg hpayer, if_pos rfl, Nat.add_zero]
    · rw [Function.update_of_ne hpayee, Function.update_of_ne hpayer, if_neg hpayer, if_neg hpayee]

noncomputable def searchingPool : World ℤ (Address → ℕ) :=
  let w := (proxyStorage (fun _ => 100) : World ℤ (Address → ℕ))
  { w with
    pool := { initTreeAndParams searching 2 w.pool with
      owner := 7
      version := 1
      initialized := true } }

theorem searchingPool_initialized : Initialized searching searchingPool := .inr ⟨fun _ => 100, 7, 2, rfl⟩

def blankProof : Proof := ⟨(0, 0), ((0, 0), (0, 0)), (0, 0)⟩

def sampleDeposit : Message ℤ := ⟨7, .deposit blankProof (fun i => i) (List.replicate 1088 0)⟩

def sampleTransfer : Message ℤ := ⟨7, .transfer blankProof (fun i => i) (List.replicate 1088 0)⟩

theorem sample_senders : ∀ m ∈ [sampleDeposit, sampleTransfer], m.call.isBare = false ∧ m.sender ≠ searching.pool :=
  have hne : (7 : Address) ≠ 1 := by decide
  List.forall_mem_cons.mpr ⟨⟨rfl, hne⟩, List.forall_mem_cons.mpr ⟨⟨rfl, hne⟩, List.forall_mem_nil _⟩⟩

end Sample

end Bongtu.Evm
