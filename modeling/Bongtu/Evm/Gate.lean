import Bongtu.Evm.Accepted

set_option linter.unusedSectionVars false

namespace Bongtu

-- The next leaf index after one operation: a leaf, or the padding to a multiple of `B` and a block.
def TreeOp.grow {W : Type} (B n : ℕ) : TreeOp W → ℕ
  | append _ => n + 1
  | attach _ _ => n + (B - n % B) % B + B

end Bongtu

namespace Bongtu.Evm

open Merkle Outcome World

variable {W T : Type} [DecidableEq W] [Zero W] [One W]

def batchStart : Event W → Option ℕ
  | .subtreeAppended start _ _ => some start
  | _ => none

namespace Imt

variable {poseidon : W → W → W} {H k : ℕ}

theorem closeBlock_next {t t' : Imt W} (hp : t.Params poseidon H k)
    (ht : closeBlock poseidon H t = .ok t') :
    t'.nextLeafIndex = t.nextLeafIndex + (2 ^ k - t.nextLeafIndex % 2 ^ k) % 2 ^ k ∧
      2 ^ k ∣ t'.nextLeafIndex := by
  have hlt := Nat.mod_lt t.nextLeafIndex (show 2 ^ k > 0 by positivity)
  have hdiv := Nat.div_add_mod t.nextLeafIndex (2 ^ k)
  simp only [closeBlock, hp.B_eq, hp.logB_eq] at ht
  split at ht
  · case isTrue hrem =>
    obtain ⟨haligned, -, hnext, -⟩ := insertNode_ok ht
    have hle := Nat.mod_le t.nextLeafIndex (2 ^ k)
    rw [hnext, Nat.mod_eq_of_lt (a := 2 ^ k - _) (by omega)]
    refine ⟨by dsimp only; omega, ?_⟩
    exact (Nat.dvd_of_mod_eq_zero haligned).add (dvd_refl _)
  · case isFalse hrem =>
    cases ht
    have hzero : t.nextLeafIndex % 2 ^ k = 0 := not_not.mp hrem
    exact ⟨by simp [hzero], Nat.dvd_of_mod_eq_zero hzero⟩

theorem attachSubtree_next {t t' : Imt W} {start : ℕ} {r : W} (hp : t.Params poseidon H k)
    (ht : attachSubtree poseidon H t r = .ok (start, t')) :
    start = t.nextLeafIndex + (2 ^ k - t.nextLeafIndex % 2 ^ k) % 2 ^ k ∧ 2 ^ k ∣ start ∧
      t'.nextLeafIndex = start + 2 ^ k := by
  obtain ⟨closed, hclosed, ht⟩ := bind_ok.mp ht
  obtain ⟨attached, hattached, ht⟩ := bind_ok.mp ht
  cases ht
  obtain ⟨hnext, hdvd⟩ := closeBlock_next hp hclosed
  have hgrow := (insertNode_ok hattached).2.2.1
  rw [(hp.closeBlock hclosed).logB_eq] at hgrow
  exact ⟨hnext, hdvd, hgrow⟩

theorem apply_next {t t' : Imt W} {op : TreeOp W} (hp : t.Params poseidon H k)
    (ht : apply poseidon H t op = .ok t') :
    t'.nextLeafIndex = op.grow (2 ^ k) t.nextLeafIndex ∧ t'.Params poseidon H k := by
  cases op with
  | append leaf =>
    have hnext := (insertNode_ok ht).2.2.1
    exact ⟨by simpa [TreeOp.grow] using hnext, hp.insertNode ht⟩
  | attach r leaves =>
    obtain ⟨start, hat⟩ := of_map_snd ht
    obtain ⟨hstart, -, hnext⟩ := attachSubtree_next hp hat
    exact ⟨by rw [hnext, hstart, TreeOp.grow], hp.attachSubtree hat⟩

theorem runFrom_next (ops : List (TreeOp W)) : ∀ {t t' : Imt W}, t.Params poseidon H k →
    runFrom poseidon H t ops = .ok t' →
    t'.nextLeafIndex = ops.foldl (fun n op => op.grow (2 ^ k) n) t.nextLeafIndex ∧
      t'.Params poseidon H k := by
  induction ops with
  | nil =>
    intro t t' hp ht
    cases ht
    exact ⟨rfl, hp⟩
  | cons op ops ih =>
    intro t t' hp ht
    obtain ⟨t1, ht1, ht⟩ := bind_ok.mp ht
    obtain ⟨hnext, hp1⟩ := apply_next hp ht1
    rw [List.foldl_cons, ← hnext]
    exact ih hp1 ht

-- Blocks are attached one after another, each at a multiple of the batch size.
theorem events_starts (ops : List (TreeOp W)) : ∀ {t t' : Imt W}, t.Params poseidon H k →
    runFrom poseidon H t ops = .ok t' →
    let starts := (events poseidon H t ops).filterMap batchStart
    t.nextLeafIndex ≤ t'.nextLeafIndex ∧ starts.Pairwise (· < ·) ∧
      ∀ s ∈ starts, t.nextLeafIndex ≤ s ∧ s < t'.nextLeafIndex ∧ 2 ^ k ∣ s := by
  induction ops with
  | nil =>
    intro t t' hp ht
    cases ht
    simp [events]
  | cons op ops ih =>
    intro t t' hp ht
    obtain ⟨t1, ht1, ht⟩ := bind_ok.mp ht
    obtain ⟨hnext, hp1⟩ := apply_next hp ht1
    obtain ⟨hle, hpair, hmem⟩ := ih hp1 ht
    cases op with
    | append leaf =>
      have ht1 : appendLeaf poseidon H t leaf = .ok t1 := ht1
      simp only [TreeOp.grow] at hnext
      simp only [events, ht1, batchStart]
      exact ⟨by omega, hpair, fun s hs => ⟨by have := hmem s hs; omega, (hmem s hs).2⟩⟩
    | attach r leaves =>
      obtain ⟨start, hat⟩ := of_map_snd ht1
      obtain ⟨hstart, hdvd, hnext'⟩ := attachSubtree_next hp hat
      have hpos : 0 < 2 ^ k := by positivity
      simp only [events, hat, batchStart]
      refine ⟨by omega, List.pairwise_cons.mpr ⟨fun s hs => ?_, hpair⟩, fun s hs => ?_⟩
      · have := (hmem s hs).1
        omega
      · rcases List.mem_cons.mp hs with rfl | hs
        · exact ⟨by omega, by omega, hdvd⟩
        · have := hmem s hs
          exact ⟨by omega, this.2⟩

end Imt

def batchStarts (logs : List (Log W)) : List ℕ := logs.filterMap fun log => batchStart log.event

-- The batches that a consumer disburse module has attached and keys its chunk state by.
def chunkBatch (log : Log W) : Option ℕ :=
  match log.event with
  | .disbursedPriv batchId _ subtreeRoot _ _ _ _ _ => if subtreeRoot ≠ 0 then some batchId else none
  | _ => none

def chunkBatches (logs : List (Log W)) : List ℕ := logs.filterMap chunkBatch

variable {env : Env W T}

theorem batchStarts_emitted (w w' : World W T) (m : Message W) (start : ℕ) :
    batchStarts (m.emitted env w w' start) =
      (Imt.events env.poseidon treeHeight w.pool.imt m.call.ops).filterMap batchStart := by
  obtain ⟨pre, post, heq, hquiet⟩ := emitted_split env w w' m start
  have hnil : ∀ logs : List (Log W), (∀ log ∈ logs, isTree log.event = false) →
      batchStarts logs = [] := by
    intro logs hlogs
    refine List.filterMap_eq_nil_iff.mpr fun log hlog => ?_
    have := hlogs log hlog
    cases he : log.event <;> simp_all [batchStart, isTree]
  have htree : batchStarts (treeLogs env w.pool.imt m.call.ops) =
      (Imt.events env.poseidon treeHeight w.pool.imt m.call.ops).filterMap batchStart := by
    simp [batchStarts, treeLogs, List.filterMap_map]
  rw [heq, batchStarts, List.filterMap_append, List.filterMap_append, ← batchStarts, ← batchStarts,
    ← batchStarts, hnil pre fun log h => hquiet log (by simp [h]),
    hnil post fun log h => hquiet log (by simp [h]), htree, List.nil_append, List.append_nil]

theorem chunkBatches_emitted (env : Env W T) (w w' : World W T) (m : Message W) (start : ℕ) :
    chunkBatches (m.emitted env w w' start) = [] ∨
      chunkBatches (m.emitted env w w' start) = [start] ∧ ∃ r, r ≠ 0 ∧ m.call.ops = [.attach r none] := by
  have htree : ∀ ops, chunkBatches (treeLogs env w.pool.imt ops) = [] := by
    intro ops
    refine List.filterMap_eq_nil_iff.mpr fun log hlog => ?_
    obtain ⟨e, he, rfl⟩ := List.mem_map.mp hlog
    have := isTree_events ops e he
    cases e <;> simp_all [chunkBatch, isTree]
  have happ : ∀ xs ys : List (Log W), chunkBatches (xs ++ ys) = chunkBatches xs ++ chunkBatches ys :=
    fun xs ys => List.filterMap_append
  obtain ⟨sender, call⟩ := m
  cases call
  case disbursePriv256 module proof pub disclosure hashes =>
    simp only [Message.emitted, happ, htree, List.nil_append]
    by_cases hzero : pub 3 = 0
    · exact .inl (by simp [chunkBatches, chunkBatch, opAppliedLog, Event.emitDisbursedPriv, hzero])
    · exact .inr ⟨by simp [chunkBatches, List.filterMap_cons, chunkBatch, opAppliedLog,
        Event.emitDisbursedPriv, hzero], pub 3, hzero, by simp [Call.ops, hzero]⟩
  case disburseWithCiphertexts =>
    refine .inl ?_
    change chunkBatches ([_] ++ treeLogs env w.pool.imt _ ++ [_]) = []
    rw [happ, happ, htree]
    rfl
  all_goals
    refine .inl ?_
    simp only [Message.emitted, happ, htree, List.nil_append]
    simp [chunkBatches, chunkBatch, opAppliedLog, Event.emitDeposited, Event.emitTransferred,
      Event.emitTransferred10, Event.emitTransferred10x2, Event.emitWithdrawn,
      Event.emitDepositedPriv, Event.emitTransferredPriv, Event.emitTransferred10x2Priv,
      Event.emitWithdrawnPriv]

-- The pool right after one of its two initializers.
def Initialized (env : Env W T) (w : World W T) : Prop :=
  (∃ token sender batchSize arbiterKey kemPkHash block,
    initializePool env (proxyStorage token) sender batchSize arbiterKey kemPkHash block = .ok w) ∨
  ∃ token sender batchSize, initializeConsumerOnly env (proxyStorage token) sender batchSize = .ok w

theorem checkBatchSize_ok {batchSize : ℕ} {u : Unit}
    (h : checkBatchSize (W := W) batchSize = .ok u) : ∃ k, batchSize = 2 ^ k := by
  have hpow := require_ok.mp h
  simp only [not_or, not_le, not_not] at hpow
  exact (Nat.and_sub_one_eq_zero_iff_isPowerOfTwo (by omega)).mp hpow.2

structure Fresh (env : Env W T) (k : ℕ) (w : World W T) : Prop where
  imt : w.pool.imt = Imt.init env.poseidon treeHeight (2 ^ k)
  known : ∀ r, w.pool.knownRoots r = true ↔ r = w.pool.imt.root
  used : ∀ x, w.pool.nullifierUsed x = false
  chunks : ∀ module b, (w.disburse module).chunkHashes b = []
  starts : batchStarts w.logs = []
  batches : chunkBatches w.logs = []

theorem known_init (root r : W) :
    Function.update (fun _ : W => false) root true r = true ↔ r = root := by
  by_cases h : r = root <;> simp [h]

theorem fresh_of_initialized {w : World W T} (hw : Initialized env w) : ∃ k, Fresh env k w := by
  rcases hw with ⟨token, sender, batchSize, key, hash, block, hw⟩ | ⟨token, sender, batchSize, hw⟩
  · simp only [initializePool, bind_ok] at hw
    obtain ⟨_, -, _, hbatch, _, -, _, -, hw⟩ := hw
    obtain ⟨k, rfl⟩ := checkBatchSize_ok hbatch
    cases hw
    exact ⟨k, rfl, known_init _, fun _ => rfl, fun _ _ => rfl, rfl, rfl⟩
  · simp only [initializeConsumerOnly, bind_ok] at hw
    obtain ⟨_, -, _, hbatch, hw⟩ := hw
    obtain ⟨k, rfl⟩ := checkBatchSize_ok hbatch
    cases hw
    exact ⟨k, rfl, known_init _, fun _ => rfl, fun _ _ => rfl, rfl, rfl⟩

def historyOf (done : List (Message W)) : List (TreeOp W) := done.flatMap fun m => m.call.ops

def spentOf (done : List (Message W)) : List W := done.flatMap fun m => m.call.nullifiers

-- The state after the accepted calls `done`.
structure Gate (env : Env W T) (k : ℕ) (w : World W T) (done : List (Message W)) : Prop where
  imt : Imt.run env.poseidon treeHeight k (historyOf done) = .ok w.pool.imt
  known : ∀ r, w.pool.knownRoots r = true ↔ ∃ ops t, ops <+: historyOf done ∧
    Imt.run env.poseidon treeHeight k ops = .ok t ∧ t.root = r
  used : ∀ x, w.pool.nullifierUsed x = true ↔ x ∈ spentOf done
  spent_nodup : (spentOf done).Nodup
  spent_ne : ∀ nf ∈ spentOf done, nf ≠ 0
  starts : batchStarts w.logs =
    (Imt.events env.poseidon treeHeight (Imt.init env.poseidon treeHeight (2 ^ k))
      (historyOf done)).filterMap batchStart
  batches : (chunkBatches w.logs).Sublist (batchStarts w.logs)
  chunks : ∀ module b, (w.disburse module).chunkHashes b ≠ [] →
    ∃ nf r disclosureHash ecdh nonce root, ⟨module, .disbursedPriv b nf r disclosureHash ecdh nonce root
      ((w.disburse module).chunkHashes b)⟩ ∈ w.logs

theorem gate_init {k : ℕ} {w : World W T} (hw : Fresh env k w) : Gate env k w [] := by
  constructor
  · rw [hw.imt]
    rfl
  · intro r
    rw [hw.known, hw.imt]
    constructor
    · rintro rfl
      exact ⟨[], _, List.prefix_refl _, rfl, rfl⟩
    · rintro ⟨ops, t, hpre, ht, rfl⟩
      rw [List.prefix_nil.mp hpre] at ht
      cases ht
      rfl
  · simp [hw.used, spentOf]
  · exact List.nodup_nil
  · simp [spentOf]
  · rw [hw.starts]
    rfl
  · rw [hw.batches]
    exact List.nil_sublist _
  · exact fun module b h => absurd (hw.chunks module b) h

theorem gate_chunks {k : ℕ} {w w' : World W T} {done : List (Message W)} {m : Message W} {start : ℕ}
    (hw : Gate env k w done) (hlogs : w'.logs = w.logs ++ m.emitted env w w' start)
    (hchunks : ChunksKept w w' m start) (module : Address) (b : ℕ)
    (hne : (w'.disburse module).chunkHashes b ≠ []) :
    ∃ nf r disclosureHash ecdh nonce root, ⟨module, .disbursedPriv b nf r disclosureHash ecdh nonce
      root ((w'.disburse module).chunkHashes b)⟩ ∈ w'.logs := by
  rcases hchunks module b with hsame | ⟨rfl, proof, pub, disclosure, hcall⟩
  · rw [hsame] at hne ⊢
    obtain ⟨nf, r, dh, ecdh, nonce, root, hmem⟩ := hw.chunks module b hne
    exact ⟨nf, r, dh, ecdh, nonce, root, hlogs ▸ List.mem_append_left _ hmem⟩
  · obtain ⟨sender, call⟩ := m
    dsimp only at hcall
    rw [hcall] at hlogs
    refine ⟨pub 4, pub 3, pub 2, slice pub 0 2, pub 7, w'.pool.imt.root, ?_⟩
    rw [hlogs]
    simp [Message.emitted, Event.emitDisbursedPriv]

theorem batchStart_attach {t : Imt W} {r root : W} {start : ℕ}
    (ht : treeLogs env t [.attach r none] = [⟨env.pool, .subtreeAppended start r root⟩]) :
    (Imt.events env.poseidon treeHeight t [.attach r none]).filterMap batchStart = [start] := by
  obtain ⟨e, he, hlog⟩ := List.map_eq_singleton_iff.mp ht
  rw [he, (Log.mk.inj hlog).2]
  rfl

theorem gate_step {k : ℕ} {w w' : World W T} {done : List (Message W)} {m : Message W}
    (hw : Gate env k w done) (hm : Accepts env w m w') : Gate env k w' (done ++ [m]) := by
  obtain ⟨start, hstart, hlogs, hchunks⟩ := hm.logs
  have hhistory : historyOf (done ++ [m]) = historyOf done ++ m.call.ops := by simp [historyOf]
  have hspent : spentOf (done ++ [m]) = spentOf done ++ m.call.nullifiers := by simp [spentOf]
  have hrun : ∀ ops, Imt.run env.poseidon treeHeight k (historyOf done ++ ops) =
      runImt env w.pool.imt ops := by
    intro ops
    rw [Imt.run, Imt.runFrom_append, ← Imt.run, hw.imt]
    rfl
  have hstarts : batchStarts w'.logs = batchStarts w.logs ++ batchStarts (m.emitted env w w' start) := by
    rw [hlogs]
    exact List.filterMap_append
  have hbatches : chunkBatches w'.logs =
      chunkBatches w.logs ++ chunkBatches (m.emitted env w w' start) := by
    rw [hlogs]
    exact List.filterMap_append
  constructor
  · rw [hhistory, hrun]
    exact hm.effect.tree
  · intro r
    rw [hhistory, hm.effect.known, hw.known]
    constructor
    · rintro (⟨ops, t, hpre, ht, hr⟩ | ⟨ops, t, -, hpre, ht, hr⟩)
      · exact ⟨ops, t, hpre.trans (List.prefix_append _ _), ht, hr⟩
      · exact ⟨_, t, (List.prefix_append_right_inj _).mpr hpre, (hrun ops).trans ht, hr⟩
    · rintro ⟨ops, t, hpre, ht, hr⟩
      rcases List.prefix_or_prefix_of_prefix hpre (List.prefix_append (historyOf done) _) with h | h
      · exact .inl ⟨ops, t, h, ht, hr⟩
      · obtain ⟨tail, rfl⟩ := h
        rcases eq_or_ne tail [] with rfl | htail
        · exact .inl ⟨_, t, List.prefix_refl _, by simpa using ht, hr⟩
        · exact .inr ⟨tail, t, htail, (List.prefix_append_right_inj _).mp hpre,
            (hrun tail).symm.trans ht, hr⟩
  · intro x
    rw [hm.effect.used, hw.used, hspent, List.mem_append]
  · rw [hspent]
    refine List.nodup_append.mpr ⟨hw.spent_nodup, hm.effect.nodup, fun a ha b hb hab => ?_⟩
    have hused := (hw.used a).mpr ha
    rw [hab, (hm.effect.fresh b hb).2] at hused
    cases hused
  · intro nf hnf
    rw [hspent, List.mem_append] at hnf
    rcases hnf with hnf | hnf
    · exact hw.spent_ne nf hnf
    · exact (hm.effect.fresh nf hnf).1
  · rw [hstarts, hw.starts, batchStarts_emitted, hhistory, Imt.events_append _ _ hw.imt,
      List.filterMap_append]
  · rw [hstarts, hbatches]
    refine hw.batches.append ?_
    rcases chunkBatches_emitted env w w' m start with h | ⟨h, r, hr, hops⟩
    · rw [h]
      exact List.nil_sublist _
    · rw [hops] at hstart
      rw [h, batchStarts_emitted, hops, batchStart_attach hstart]
  · exact gate_chunks hw hlogs hchunks

theorem gate_run {k : ℕ} (ms : List (Message W)) : ∀ {w : World W T} {done : List (Message W)},
    Gate env k w done → Gate env k (World.run env w ms) (done ++ accepted env w ms) := by
  induction ms with
  | nil =>
    intro w done hw
    simpa [World.run, accepted] using hw
  | cons m ms ih =>
    intro w done hw
    rw [World.run, List.foldl_cons, ← World.run, after, accepted]
    cases hm : step env w m with
    | error e => exact ih hw
    | ok w' => simpa using ih (gate_step hw (step_accepts hm))

-- A pool over the naturals whose verifiers accept every proof.
def permissive : Env ℕ Unit where
  poseidon l r := 1 + l + 2 * r
  toNat := id
  pool := 1
  depositVerifier _ _ := true
  disburseVerifier _ _ := true
  transferVerifier _ _ := true
  transfer10Verifier _ _ := true
  transfer10x2Verifier _ _ := true
  withdrawVerifier _ _ := true
  depositPrivVerifier _ _ := true
  transferPrivVerifier _ _ := true
  transfer10x2PrivVerifier _ _ := true
  withdrawPrivVerifier _ _ := true
  disbursePrivVerifier _ _ := true
  safeTransfer _ _ _ _ := some ()
  keccak256 := List.length
  code _ := none

def permissivePool : World ℕ Unit :=
  let w := (proxyStorage () : World ℕ Unit)
  rotate permissive { w with
    pool := { initTreeAndParams permissive 2 w.pool with
      owner := 7
      version := 1
      initialized := true } } (3, 4) 5 0

end Bongtu.Evm
