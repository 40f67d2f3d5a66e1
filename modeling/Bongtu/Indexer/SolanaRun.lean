import Bongtu.Indexer.FailStop

set_option linter.unusedSectionVars false

namespace Bongtu.Indexer

open Bongtu.Core Outcome

variable {W : Type} [Zero W] [DecidableEq W]

namespace TreeEvent

def start : TreeEvent W → ℕ
  | appended leafIndex _ _ => leafIndex
  | subtreeAppended start _ _ => start
  | opAppended start _ _ => start

def stop (B : ℕ) : TreeEvent W → ℕ
  | appended leafIndex _ _ => leafIndex + 1
  | subtreeAppended start _ _ => start + B
  | opAppended start leaves _ => start + leaves.length

def root : TreeEvent W → W
  | appended _ _ root => root
  | subtreeAppended _ _ root => root
  | opAppended _ _ root => root

theorem below_of_stop_le {e : TreeEvent W} {t : MirrorTree W} {B : ℕ} (he : e.start < e.stop B)
    (h : e.stop B ≤ t.tree.nextLeafIndex) : e.Below t := by
  cases e with
  | appended | subtreeAppended => exact he.trans_le h
  | opAppended => exact h

theorem not_below_of_le_start {e : TreeEvent W} {t : MirrorTree W} {B : ℕ}
    (he : e.start < e.stop B) (h : t.tree.nextLeafIndex ≤ e.start) : ¬e.Below t := by
  cases e with
  | appended | subtreeAppended => exact not_lt.mpr h
  | opAppended => exact not_le.mpr (h.trans_lt he)

end TreeEvent

namespace MirrorTree

variable {poseidon2 : W → W → W} {H k n : ℕ}

theorem apply_below (poseidon2 : W → W → W) {t : MirrorTree W} {e : TreeEvent W} (he : e.Below t) :
    ∃ t', apply poseidon2 e t = .returned t' ∧ t'.tree = t.tree := by
  cases e with
  | appended leafIndex leaf root => exact ⟨t, if_pos he, rfl⟩
  | subtreeAppended start subtreeRoot root =>
    refine ⟨t.tagBatch start subtreeRoot, ?_, rfl⟩
    rw [apply, applyAttach, if_neg (not_le.mpr he), Run.bind_returned]
  | opAppended start leaves root =>
    refine ⟨t.recordLeaves start leaves, ?_, tree_recordLeaves _ _ _⟩
    rw [apply, applyOpAppend, if_neg (not_lt.mpr he), Run.bind_returned]

theorem forEach_appendLeaf_next (vs : List W) : ∀ {t t' : ImtTree W},
    Run.forEach (ImtTree.appendLeaf poseidon2) vs t = .returned t' →
    t'.nextLeafIndex = t.nextLeafIndex + vs.length := by
  induction vs with
  | nil =>
    intro t t' ht
    cases ht
    rfl
  | cons v vs ih =>
    intro t t' ht
    obtain ⟨t1, ht1, ht⟩ := Run.bind_eq_returned.mp ht
    have hnext : t1.nextLeafIndex = t.nextLeafIndex + 1 :=
      (ImtTree.insertNode_returned ht1).2.2.2.2.2
    rw [ih ht, hnext, List.length_cons]
    omega

theorem apply_agrees {t : MirrorTree W} {e : TreeEvent W} (hbelow : ¬e.Below t)
    (he : e.Agrees poseidon2 t) (ht : t.tree.Within poseidon2 H k n) :
    ∃ t', apply poseidon2 e t = .returned t' ∧ t'.tree.root = e.root ∧
      t'.tree.nextLeafIndex = e.stop (2 ^ k) := by
  cases e with
  | appended leafIndex leaf root =>
    obtain ⟨rfl, tree, htree, rfl⟩ := he
    have hnext : tree.nextLeafIndex = t.tree.nextLeafIndex + 1 :=
      (ImtTree.insertNode_returned htree).2.2.2.2.2
    refine ⟨{ t with tree := tree }, ?_, rfl, hnext⟩
    rw [apply, applyAppend, if_neg (lt_irrefl _), onTree_returned htree, Run.bind_returned]
    simp [assertAppended, hnext]
  | subtreeAppended start subtreeRoot root =>
    obtain ⟨tree, htree, hnext, rfl⟩ := he
    have hB : tree.B = t.tree.B := by
      have hw := ht.attachSubtree subtreeRoot
      rw [htree] at hw
      exact hw.params.B_eq.trans ht.params.B_eq.symm
    refine ⟨({ t with tree := tree } : MirrorTree W).tagBatch start subtreeRoot, ?_, rfl, ?_⟩
    · simp only [TreeEvent.Below, not_lt] at hbelow
      rw [apply, applyAttach, if_pos hbelow, onTree_returned htree, Run.bind_returned]
      simp [assertAttached, hnext, hB]
    · rw [TreeEvent.stop, ← ht.params.B_eq]
      exact hnext
  | opAppended start leaves root =>
    obtain ⟨hstart, tree, htree, rfl⟩ := he
    obtain ⟨v, vs, hdrop, happly⟩ :=
      applyOpAppend_eq poseidon2 tree.root hbelow hstart
    have hnext : tree.nextLeafIndex = start + leaves.length := by
      simp only [TreeEvent.Below, not_le] at hbelow
      rw [forEach_appendLeaf_next _ htree, List.length_drop]
      omega
    rw [hdrop] at htree
    refine ⟨({ t with tree := tree } : MirrorTree W).recordLeaves start leaves, ?_, ?_, ?_⟩
    · rw [apply, happly, onTree_returned htree, Run.bind_returned]
      simp [assertOp, hnext]
    · rw [tree_recordLeaves]
      rfl
    · rw [tree_recordLeaves]
      exact hnext

end MirrorTree

-- The root a ledger leaves the chain at: the one its last op event carries.
def chainRoot (empty : W) (ledger : List (SolanaLedgerTx W)) : W :=
  ((ledger.flatMap fun tx => tx.events).getLast?.map SolanaEventAnchor.resultingRoot).getD empty

namespace SolanaLedgerTx

def decode (signature : ℕ) (pairs : List (SolanaOpIx W × SolanaEventAnchor W)) : List (TreeEvent W) :=
  pairs.filterMap fun pair => (treeEventOf signature pair.1 pair.2).toOption

def decoded (tx : SolanaLedgerTx W) : List (TreeEvent W) := decode tx.signature (tx.ops.zip tx.events)

def Decodes (tx : SolanaLedgerTx W) : Prop :=
  tx.ops.length = tx.events.length ∧
    ∀ pair ∈ tx.ops.zip tx.events, ∃ e, treeEventOf tx.signature pair.1 pair.2 = .ok e

end SolanaLedgerTx

def treeEvents (ledger : List (SolanaLedgerTx W)) : List (TreeEvent W) :=
  ledger.flatMap fun tx => tx.decoded

-- Every op adds leaves, and starts where the ops before it have ended or later.
def Increasing (B : ℕ) (es : List (TreeEvent W)) : Prop :=
  (∀ e ∈ es, e.start < e.stop B) ∧ es.Pairwise fun e e' => e.stop B ≤ e'.start

variable (poseidon2 : W → W → W)

-- The events one pass hands to the mirror, each with the mirror it meets.
def deliveredOps (signature : ℕ) :
    List (SolanaOpIx W × SolanaEventAnchor W) → MirrorTree W → List (TreeEvent W × MirrorTree W)
  | [], _ => []
  | pair :: pairs, t =>
    match treeEventOf signature pair.1 pair.2 with
    | .error _ => []
    | .ok e => (e, t) :: match t.apply poseidon2 e with
      | .returned t' => deliveredOps signature pairs t'
      | .threw _ _ => []

def delivered : List (SolanaLedgerTx W) → MirrorTree W → List (TreeEvent W × MirrorTree W)
  | [], _ => []
  | tx :: txs, t => (if tx.ops.length ≠ tx.events.length then []
      else deliveredOps poseidon2 tx.signature (tx.ops.zip tx.events) t) ++
    match applyLedgerTx poseidon2 tx t with
    | .returned t' => delivered txs t'
    | .threw _ _ => []

def Guarded (d : TreeEvent W × MirrorTree W) : Prop := d.1.Disagrees poseidon2 d.2 → d.1.Blocked d.2

-- In every poll of the run, an event that disagrees with the mirror it meets is blocked.
def Rail.Guarded (r : Rail W) : List (Poll W) → Prop
  | [] => True
  | p :: ps => (∀ d ∈ delivered poseidon2 ((r.ledger ++ p.landed).drop r.indexer.cursor) r.indexer.tree,
      Indexer.Guarded poseidon2 d) ∧ Rail.Guarded (r.poll poseidon2 p) ps

def chainNext (B : ℕ) (ledger : List (SolanaLedgerTx W)) : ℕ :=
  ((treeEvents ledger).getLast?.map (TreeEvent.stop B)).getD 0

-- An indexer that has ingested the whole ledger.
structure Rail.Synced (empty : W) (H k : ℕ) (r : Rail W) : Prop where
  within : r.indexer.tree.tree.Within poseidon2 H k 0
  cursor : r.indexer.cursor = r.ledger.length
  decodes : ∀ tx ∈ r.ledger, tx.Decodes
  root : r.indexer.tree.tree.root = chainRoot empty r.ledger
  next : r.indexer.tree.tree.nextLeafIndex = chainNext (2 ^ k) r.ledger

variable {poseidon2} {H k : ℕ} {empty : W}

def rootAfter (empty : W) (es : List (TreeEvent W)) : W :=
  (es.getLast?.map TreeEvent.root).getD empty

-- The mirror stands after `done`, with the rest of the ledger still ahead of it.
structure At (poseidon2 : W → W → W) (empty : W) (H k : ℕ) (done rest : List (TreeEvent W))
    (t : MirrorTree W) : Prop where
  within : t.tree.Within poseidon2 H k 0
  root : t.tree.root = rootAfter empty done
  stops : ∀ e ∈ done, e.stop (2 ^ k) ≤ t.tree.nextLeafIndex
  starts : ∀ e ∈ rest, t.tree.nextLeafIndex ≤ e.start

-- The mirror stands somewhere between `pre` and `seen` in the final ledger.
def Between (poseidon2 : W → W → W) (empty : W) (H k : ℕ) (final pre seen : List (TreeEvent W))
    (t : MirrorTree W) : Prop :=
  ∃ done rest, final = done ++ rest ∧ pre <+: done ∧ done <+: seen ∧ At poseidon2 empty H k done rest t

theorem Between.mono {final pre pre' seen seen' : List (TreeEvent W)} {t : MirrorTree W}
    (ht : Between poseidon2 empty H k final pre seen t) (hpre : pre' <+: pre) (hseen : seen <+: seen') :
    Between poseidon2 empty H k final pre' seen' t := by
  obtain ⟨done, rest, hfinal, hdone, hpast, hat⟩ := ht
  exact ⟨done, rest, hfinal, hpre.trans hdone, hpast.trans hseen, hat⟩

theorem Between.apply {final pre seen : List (TreeEvent W)} {t : MirrorTree W} {e : TreeEvent W}
    (hk : k ≤ H) (hfinal : Increasing (2 ^ k) final) (tail : List (TreeEvent W)) (hsplit : final = pre ++ e :: tail)
    (hseen : pre ++ [e] <+: seen) (hguard : Guarded poseidon2 (e, t))
    (ht : Between poseidon2 empty H k final pre seen t) :
    (∀ t', t.apply poseidon2 e = .returned t' → Between poseidon2 empty H k final (pre ++ [e]) seen t') ∧
      ∀ err t', t.apply poseidon2 e = .threw err t' → Between poseidon2 empty H k final pre seen t' := by
  obtain ⟨done, rest, hsplit', ⟨ahead, rfl⟩, hpast, hat⟩ := ht
  have hmem : e ∈ final := by simp [hsplit]
  have hsize := hfinal.1 e hmem
  have hwithin := MirrorTree.Within.apply hat.within e
  have htail : e :: tail = ahead ++ rest := by
    rw [hsplit, List.append_assoc] at hsplit'
    exact List.append_cancel_left hsplit'
  rcases List.cons_eq_append_iff.mp htail with ⟨rfl, rfl⟩ | ⟨ahead', rfl, -⟩
  · have hstart := hat.starts e (by simp)
    have hbelow := TreeEvent.not_below_of_le_start hsize hstart
    by_cases hagrees : e.Agrees poseidon2 t
    · obtain ⟨t', happly, hroot, hnext⟩ := MirrorTree.apply_agrees hbelow hagrees hat.within
      rw [happly] at hwithin
      rw [happly]
      refine ⟨fun s hs => ?_, fun err s hs => by cases hs⟩
      cases hs
      refine ⟨pre ++ [e], tail, by simp [hsplit], List.prefix_refl _, hseen, hwithin, ?_, ?_, ?_⟩
      · simp [rootAfter, hroot]
      · intro e' he'
        rcases List.mem_append.mp he' with he' | he'
        · have := hat.stops e' (by simpa using he')
          omega
        · rw [List.mem_singleton.mp he', hnext]
      · intro e' he'
        have hpair := hfinal.2
        rw [hsplit] at hpair
        rw [hnext]
        exact List.rel_of_pairwise_cons (List.pairwise_append.mp hpair).2.1 he'
    · obtain ⟨err, t', happly, hsame, hwithin', -⟩ :=
        MirrorTree.apply_blocked hat.within hk hbelow (hguard ⟨hbelow, hagrees⟩)
      rw [happly]
      refine ⟨fun s hs => (by cases hs), fun err s hs => ?_⟩
      cases hs
      refine ⟨pre ++ [], e :: tail, by simpa using hsplit, List.prefix_append _ _, hpast, hwithin',
        ?_, ?_, ?_⟩
      · rw [hsame.root, hat.root]
      · rw [hsame.nextLeafIndex]
        exact hat.stops
      · rw [hsame.nextLeafIndex]
        exact hat.starts
  · have hbelow := TreeEvent.below_of_stop_le hsize (hat.stops e (by simp))
    obtain ⟨t', happly, htree⟩ := MirrorTree.apply_below poseidon2 hbelow
    rw [happly]
    refine ⟨fun s hs => ?_, fun err s hs => by cases hs⟩
    cases hs
    refine ⟨pre ++ e :: ahead', rest, hsplit', ?_, hpast, ?_, ?_, ?_, ?_⟩
    · exact ⟨ahead', by simp⟩
    · rw [htree]
      exact hat.within
    · rw [htree]
      exact hat.root
    · rw [htree]
      exact hat.stops
    · rw [htree]
      exact hat.starts

open SolanaLedgerTx

theorem decode_cons {signature : ℕ} {pair : SolanaOpIx W × SolanaEventAnchor W} {e : TreeEvent W}
    (he : treeEventOf signature pair.1 pair.2 = .ok e)
    (pairs : List (SolanaOpIx W × SolanaEventAnchor W)) :
    decode signature (pair :: pairs) = e :: decode signature pairs := by
  simp [decode, he, Except.toOption]

theorem applyLedgerTxs_cons (tx : SolanaLedgerTx W) (txs : List (SolanaLedgerTx W))
    (t : MirrorTree W) : applyLedgerTxs poseidon2 (tx :: txs) t =
      (applyLedgerTx poseidon2 tx t).bind (applyLedgerTxs poseidon2 txs) := rfl

theorem Between.ops {final seen : List (TreeEvent W)} (hk : k ≤ H)
    (hfinal : Increasing (2 ^ k) final) (tail : List (TreeEvent W)) (signature : ℕ)
    (pairs : List (SolanaOpIx W × SolanaEventAnchor W)) : ∀ {pre : List (TreeEvent W)} {t : MirrorTree W},
    final = pre ++ decode signature pairs ++ tail → pre ++ decode signature pairs <+: seen →
    (∀ d ∈ deliveredOps poseidon2 signature pairs t, Guarded poseidon2 d) →
    Between poseidon2 empty H k final pre seen t →
    (∀ t', Run.forEach (applyOne poseidon2 signature) pairs t = .returned t' →
      Between poseidon2 empty H k final (pre ++ decode signature pairs) seen t' ∧
        ∀ pair ∈ pairs, ∃ e, treeEventOf signature pair.1 pair.2 = .ok e) ∧
    ∀ err t', Run.forEach (applyOne poseidon2 signature) pairs t = .threw err t' →
      Between poseidon2 empty H k final pre seen t' := by
  induction pairs with
  | nil =>
    intro pre t _ _ _ ht
    refine ⟨fun t' h => ?_, fun err t' h => by cases h⟩
    cases h
    exact ⟨by simpa [decode] using ht, by simp⟩
  | cons pair pairs ih =>
    intro pre t hsplit hseen hguard ht
    cases hev : treeEventOf signature pair.1 pair.2 with
    | error err =>
      have hone : applyOne poseidon2 signature pair t = .threw err t := by rw [applyOne, hev]
      rw [Run.forEach, hone, Run.bind_threw]
      refine ⟨fun t' h => (by cases h), fun err' t' h => ?_⟩
      cases h
      exact ht
    | ok e =>
      have hone : applyOne poseidon2 signature pair t = (t.apply poseidon2 e).mapError .mirror := by
        rw [applyOne, hev]
      rw [decode_cons hev] at hsplit hseen ⊢
      rw [deliveredOps, hev] at hguard
      have hpre : pre ++ [e] <+: pre ++ e :: decode signature pairs :=
        (List.prefix_append_right_inj pre).mpr ⟨decode signature pairs, rfl⟩
      obtain ⟨hret, hthrew⟩ := ht.apply hk hfinal (decode signature pairs ++ tail)
        (by simpa using hsplit) (hpre.trans hseen) (hguard _ (by simp))
      rw [Run.forEach, hone]
      cases happly : t.apply poseidon2 e with
      | threw err s =>
        rw [Run.mapError, Run.bind_threw]
        refine ⟨fun t' h => (by cases h), fun err' t' h => ?_⟩
        cases h
        exact hthrew err s happly
      | returned s =>
        simp only [happly] at hguard
        obtain ⟨hret', hthrew'⟩ := @ih (pre ++ [e]) s (by simpa using hsplit) (by simpa using hseen)
          (fun d hd => hguard d (by simp [hd])) (hret s happly)
        rw [Run.mapError, Run.bind_returned]
        refine ⟨fun t' h => ?_, fun err t' h =>
          (hthrew' err t' h).mono (List.prefix_append _ _) (List.prefix_refl _)⟩
        obtain ⟨hbetween, hall⟩ := hret' t' h
        refine ⟨by simpa using hbetween, fun p hp => ?_⟩
        rcases List.mem_cons.mp hp with rfl | hp
        · exact ⟨e, hev⟩
        · exact hall p hp

theorem Between.txs {final seen tail : List (TreeEvent W)} (hk : k ≤ H)
    (hfinal : Increasing (2 ^ k) final) (txs : List (SolanaLedgerTx W)) :
    ∀ {pre : List (TreeEvent W)} {t : MirrorTree W},
    final = pre ++ treeEvents txs ++ tail → pre ++ treeEvents txs <+: seen →
    (∀ d ∈ delivered poseidon2 txs t, Guarded poseidon2 d) →
    Between poseidon2 empty H k final pre seen t →
    (∀ t', applyLedgerTxs poseidon2 txs t = .returned t' →
      Between poseidon2 empty H k final (pre ++ treeEvents txs) seen t' ∧ ∀ tx ∈ txs, tx.Decodes) ∧
    ∀ err t', applyLedgerTxs poseidon2 txs t = .threw err t' →
      Between poseidon2 empty H k final pre seen t' := by
  induction txs with
  | nil =>
    intro pre t _ _ _ ht
    refine ⟨fun t' h => ?_, fun err t' h => by cases h⟩
    cases h
    exact ⟨by simpa [treeEvents] using ht, by simp⟩
  | cons tx txs ih =>
    intro pre t hsplit hseen hguard ht
    have hcons : treeEvents (tx :: txs) = tx.decoded ++ treeEvents txs := by simp [treeEvents]
    rw [hcons] at hsplit hseen ⊢
    rw [applyLedgerTxs_cons]
    by_cases hlen : tx.ops.length = tx.events.length
    · have htx : applyLedgerTx poseidon2 tx t =
          Run.forEach (applyOne poseidon2 tx.signature) (tx.ops.zip tx.events) t := by
        rw [applyLedgerTx, if_neg (not_not.mpr hlen)]
      rw [delivered, if_neg (not_not.mpr hlen)] at hguard
      have hpre : pre ++ tx.decoded <+: pre ++ (tx.decoded ++ treeEvents txs) :=
        (List.prefix_append_right_inj pre).mpr (List.prefix_append _ _)
      obtain ⟨hret, hthrew⟩ := ht.ops hk hfinal (treeEvents txs ++ tail) tx.signature
        (tx.ops.zip tx.events) (by simpa [decoded] using hsplit) (hpre.trans hseen)
        (fun d hd => hguard d (List.mem_append_left _ hd))
      rw [← htx] at hret hthrew
      cases hone : applyLedgerTx poseidon2 tx t with
      | threw err s =>
        rw [Run.bind_threw]
        refine ⟨fun t' h => (by cases h), fun err' t' h => ?_⟩
        cases h
        exact hthrew err s hone
      | returned s =>
        obtain ⟨hbetween, hall⟩ := hret s hone
        rw [hone] at hguard
        obtain ⟨hret', hthrew'⟩ := @ih (pre ++ tx.decoded) s (by simpa using hsplit)
          (by simpa using hseen) (fun d hd => hguard d (List.mem_append_right _ hd)) hbetween
        rw [Run.bind_returned]
        refine ⟨fun t' h => ?_, fun err t' h =>
          (hthrew' err t' h).mono (List.prefix_append _ _) (List.prefix_refl _)⟩
        obtain ⟨hbetween', hrest⟩ := hret' t' h
        exact ⟨by simpa using hbetween', List.forall_mem_cons.mpr ⟨⟨hlen, hall⟩, hrest⟩⟩
    · rw [applyLedgerTx, if_pos hlen, Run.bind_threw]
      refine ⟨fun t' h => (by cases h), fun err' t' h => ?_⟩
      cases h
      exact ht

theorem treeEventOf_root {signature : ℕ} {op : SolanaOpIx W} {ev : SolanaEventAnchor W}
    {e : TreeEvent W} (he : treeEventOf signature op ev = .ok e) : e.root = ev.resultingRoot := by
  obtain ⟨_, -, he⟩ := bind_ok.mp he
  split at he
  · obtain ⟨_, -, he⟩ := bind_ok.mp he
    obtain ⟨_, -, he⟩ := bind_ok.mp he
    cases he
    rfl
  · cases he
  · cases he
  · obtain ⟨_, -, he⟩ := bind_ok.mp he
    obtain ⟨_, -, he⟩ := bind_ok.mp he
    cases he
    rfl

theorem SolanaLedgerTx.Decodes.roots {tx : SolanaLedgerTx W} (htx : tx.Decodes) :
    tx.decoded.map TreeEvent.root = tx.events.map SolanaEventAnchor.resultingRoot := by
  obtain ⟨hlen, hall⟩ := htx
  have hgen : ∀ (signature : ℕ) (ops : List (SolanaOpIx W)) (events : List (SolanaEventAnchor W)),
      ops.length = events.length →
      (∀ pair ∈ ops.zip events, ∃ e, treeEventOf signature pair.1 pair.2 = .ok e) →
      (decode signature (ops.zip events)).map TreeEvent.root =
        events.map SolanaEventAnchor.resultingRoot := by
    intro signature ops
    induction ops with
    | nil =>
      intro events h _
      rw [List.length_nil, eq_comm, List.length_eq_zero_iff] at h
      simp [h, decode]
    | cons op ops ih =>
      intro events h hdec
      cases events with
      | nil => simp at h
      | cons ev events =>
        obtain ⟨e, he⟩ := hdec (op, ev) (by simp)
        have ih := ih events (by simpa using h) fun pair hpair => hdec pair (by simp [hpair])
        rw [List.zip_cons_cons, decode_cons he, List.map_cons, List.map_cons, ih, treeEventOf_root he]
  exact hgen _ _ _ hlen hall

theorem rootAfter_treeEvents {ledger : List (SolanaLedgerTx W)} (h : ∀ tx ∈ ledger, tx.Decodes) :
    rootAfter empty (treeEvents ledger) = chainRoot empty ledger := by
  have hroots : (treeEvents ledger).map TreeEvent.root =
      (ledger.flatMap fun tx => tx.events).map SolanaEventAnchor.resultingRoot := by
    rw [treeEvents, List.map_flatMap, List.map_flatMap]
    exact List.flatMap_congr fun tx htx => (h tx htx).roots
  rw [rootAfter, chainRoot, ← List.getLast?_map, ← List.getLast?_map, hroots]

-- The state of the rail on a ledger of which `later` is still to land; `old` was committed before.
structure Rail.Follows (poseidon2 : W → W → W) (empty : W) (H k : ℕ) (final later : List (TreeEvent W))
    (old : List (Commit W)) (r : Rail W) : Prop where
  ledger : final = treeEvents r.ledger ++ later
  cursor : r.indexer.cursor ≤ r.ledger.length
  decodes : ∀ tx ∈ r.ledger.take r.indexer.cursor, tx.Decodes
  between : Between poseidon2 empty H k final (treeEvents (r.ledger.take r.indexer.cursor))
    (treeEvents r.ledger) r.indexer.tree
  commits : ∀ c ∈ r.indexer.database, c ∈ old ∨
    c.cursor ≤ r.ledger.length ∧ c.root = chainRoot empty (r.ledger.take c.cursor)

theorem state_checkHead (head : W × ℕ) (s : SolanaIndexer W) : (s.checkHead head).state = s := by
  unfold SolanaIndexer.checkHead
  split
  · rfl
  · split <;> rfl

theorem treeEvents_append (xs ys : List (SolanaLedgerTx W)) :
    treeEvents (xs ++ ys) = treeEvents xs ++ treeEvents ys := List.flatMap_append

theorem Rail.Follows.lands {final later : List (TreeEvent W)} {old : List (Commit W)} {r : Rail W}
    {landed : List (SolanaLedgerTx W)}
    (hr : r.Follows poseidon2 empty H k final (treeEvents landed ++ later) old) :
    Rail.Follows poseidon2 empty H k final later old ⟨r.ledger ++ landed, r.indexer⟩ := by
  have htake : (r.ledger ++ landed).take r.indexer.cursor = r.ledger.take r.indexer.cursor :=
    List.take_append_of_le_length hr.cursor
  constructor
  · rw [treeEvents_append, List.append_assoc]
    exact hr.ledger
  · rw [List.length_append]
    exact hr.cursor.trans (Nat.le_add_right _ _)
  · rw [htake]
    exact hr.decodes
  · rw [htake, treeEvents_append]
    exact hr.between.mono (List.prefix_refl _) (List.prefix_append _ _)
  · intro c hc
    refine (hr.commits c hc).imp_right fun ⟨hle, hroot⟩ => ⟨?_, ?_⟩
    · rw [List.length_append]
      exact hle.trans (Nat.le_add_right _ _)
    · rw [List.take_append_of_le_length hle]
      exact hroot

-- A pass that returned has brought the mirror to the end of the ledger.
theorem Between.root {final seen : List (TreeEvent W)} {t : MirrorTree W}
    (ht : Between poseidon2 empty H k final seen seen t) : t.tree.root = rootAfter empty seen := by
  obtain ⟨done, rest, -, hpre, hpast, hat⟩ := ht
  rw [List.IsPrefix.eq_of_length_le hpre hpast.length_le]
  exact hat.root

theorem Rail.Follows.ingest {final later : List (TreeEvent W)} {old : List (Commit W)} {r : Rail W}
    (hk : k ≤ H) (hfinal : Increasing (2 ^ k) final) (commits : Bool) (head : W × ℕ)
    (hr : r.Follows poseidon2 empty H k final later old)
    (hguard : ∀ d ∈ delivered poseidon2 (r.ledger.drop r.indexer.cursor) r.indexer.tree,
      Indexer.Guarded poseidon2 d) :
    Rail.Follows poseidon2 empty H k final later old
      ⟨r.ledger, (r.indexer.ingest poseidon2 r.ledger commits head).state⟩ := by
  have hsplit : treeEvents (r.ledger.take r.indexer.cursor) ++
      treeEvents (r.ledger.drop r.indexer.cursor) = treeEvents r.ledger := by
    rw [← treeEvents_append, List.take_append_drop]
  obtain ⟨hret, hthrew⟩ := hr.between.txs hk hfinal (r.ledger.drop r.indexer.cursor)
    (by rw [hsplit]; exact hr.ledger) (by rw [hsplit]) hguard
  let P : SolanaIndexer W → Prop := fun s => Rail.Follows poseidon2 empty H k final later old ⟨r.ledger, s⟩
  refine Run.bind_keeps (P := P) ?_ fun s _ hs => (by rw [state_checkHead]; exact hs)
  unfold SolanaIndexer.applyTxs
  cases happly : applyLedgerTxs poseidon2 (r.ledger.drop r.indexer.cursor) r.indexer.tree with
  | threw err t => exact ⟨hr.ledger, hr.cursor, hr.decodes, hthrew err t happly, hr.commits⟩
  | returned t =>
    obtain ⟨hbetween, hdecodes⟩ := hret t happly
    rw [hsplit] at hbetween
    have hkept : P { r.indexer with tree := t } := by
      refine ⟨hr.ledger, hr.cursor, hr.decodes, hbetween.mono ?_ (List.prefix_refl _), hr.commits⟩
      rw [← hsplit]
      exact List.prefix_append _ _
    rw [Run.bind_returned]
    cases (r.ledger.drop r.indexer.cursor).getLast? with
    | none => exact hkept
    | some last =>
      cases commits with
      | false => exact hkept
      | true =>
        have hcursor : r.indexer.cursor + (r.ledger.drop r.indexer.cursor).length = r.ledger.length := by
          rw [List.length_drop]
          exact Nat.add_sub_of_le hr.cursor
        have hall : ∀ tx ∈ r.ledger, tx.Decodes := by
          intro tx htx
          rw [← List.take_append_drop r.indexer.cursor r.ledger] at htx
          exact (List.mem_append.mp htx).elim (hr.decodes tx) (hdecodes tx)
        simp only [SolanaIndexer.persistSolana, if_true, Run.state_returned, P]
        refine ⟨hr.ledger, hcursor.le, ?_, ?_, fun c hc => ?_⟩
        · exact fun tx htx => hall tx (List.mem_of_mem_take htx)
        · simp only [hcursor, List.take_length]
          obtain ⟨done, rest, hdone, hpre, hpast, hat⟩ := hbetween
          exact ⟨done, rest, hdone, hpre, hpast, hat.within, hat.root, hat.stops, hat.starts⟩
        · rcases List.mem_append.mp hc with hc | hc
          · exact hr.commits c hc
          · rw [List.mem_singleton.mp hc]
            refine .inr ⟨hcursor.le, ?_⟩
            simp only [hcursor, List.take_length]
            rw [hbetween.root, rootAfter_treeEvents hall]

theorem Rail.run_ledger (ps : List (Poll W)) : ∀ r : Rail W,
    (r.run poseidon2 ps).ledger = r.ledger ++ ps.flatMap fun p => p.landed := by
  induction ps with
  | nil => simp [Rail.run]
  | cons p ps ih =>
    intro r
    rw [Rail.run, List.foldl_cons, ← Rail.run, ih, List.flatMap_cons, ← List.append_assoc]
    rfl

theorem Rail.Follows.run {final : List (TreeEvent W)} {old : List (Commit W)} (hk : k ≤ H)
    (hfinal : Increasing (2 ^ k) final) (ps : List (Poll W)) : ∀ {r : Rail W},
    r.Follows poseidon2 empty H k final (treeEvents (ps.flatMap fun p => p.landed)) old →
    r.Guarded poseidon2 ps → (r.run poseidon2 ps).Follows poseidon2 empty H k final [] old := by
  induction ps with
  | nil => exact fun hr _ => hr
  | cons p ps ih =>
    intro r hr hguard
    rw [List.flatMap_cons, treeEvents_append] at hr
    exact ih (hr.lands.ingest hk hfinal p.commits p.head hguard.1) hguard.2

theorem Increasing.stop_le {B : ℕ} {pre tail : List (TreeEvent W)} {last : TreeEvent W}
    (h : Increasing B (pre ++ last :: tail)) :
    (∀ e ∈ pre ++ [last], e.stop B ≤ last.stop B) ∧ ∀ e ∈ tail, last.stop B ≤ e.start := by
  obtain ⟨hsize, hpair⟩ := h
  obtain ⟨-, htail, hcross⟩ := List.pairwise_append.mp hpair
  have hlast := hsize last (by simp)
  refine ⟨fun e he => ?_, fun e he => List.rel_of_pairwise_cons htail he⟩
  rcases List.mem_append.mp he with he | he
  · exact (hcross e he last (by simp)).trans hlast.le
  · rw [List.mem_singleton.mp he]

theorem Rail.Synced.follows {r : Rail W} (hr : r.Synced poseidon2 empty H k)
    (later : List (SolanaLedgerTx W)) (hfinal : Increasing (2 ^ k) (treeEvents (r.ledger ++ later))) :
    r.Follows poseidon2 empty H k (treeEvents (r.ledger ++ later)) (treeEvents later)
      r.indexer.database := by
  have htake : r.ledger.take r.indexer.cursor = r.ledger := by rw [hr.cursor, List.take_length]
  refine ⟨treeEvents_append _ _, hr.cursor.le, ?_, ?_, fun c hc => .inl hc⟩
  · rw [htake]
    exact hr.decodes
  · rw [htake]
    refine ⟨treeEvents r.ledger, treeEvents later, treeEvents_append _ _, List.prefix_refl _,
      List.prefix_refl _, hr.within, ?_, ?_, ?_⟩
    · rw [hr.root, rootAfter_treeEvents hr.decodes]
    all_goals
      rw [hr.next, chainNext]
      rw [treeEvents_append] at hfinal
      rcases List.eq_nil_or_concat (treeEvents r.ledger) with hnil | ⟨pre, last, hpre⟩
    · simp [hnil]
    · rw [hpre, List.concat_eq_append] at hfinal ⊢
      simpa using (Increasing.stop_le (by simpa using hfinal)).1
    · simp [hnil]
    · rw [hpre, List.concat_eq_append] at hfinal ⊢
      simpa using (Increasing.stop_le (by simpa using hfinal)).2

theorem Rail.Follows.commit {final : List (TreeEvent W)} {old : List (Commit W)} {r : Rail W}
    (hr : r.Follows poseidon2 empty H k final [] old) (c : Commit W) (hc : c ∈ r.indexer.database) :
    c ∈ old ∨ c.root = chainRoot empty (r.ledger.take c.cursor) :=
  (hr.commits c hc).imp_right And.right

theorem divergence_fail_stop :
    (∀ (height batchSize : ℕ) (t0 : MirrorTree W),
      MirrorTree.construct poseidon2 height batchSize = .ok t0 →
      ∀ (calls : List (MirrorTree.Call W)) (e : TreeEvent W),
        let t := calls.foldl (MirrorTree.after poseidon2) t0
        e.Disagrees poseidon2 t → (t.FailStop poseidon2 e ↔ e.Blocked t)) ∧
    ∀ (H k : ℕ) (empty : W) (r : Rail W) (ps : List (Poll W)), k ≤ H →
      r.Synced poseidon2 empty H k → Increasing (2 ^ k) (treeEvents (r.run poseidon2 ps).ledger) →
      r.Guarded poseidon2 ps → ∀ c ∈ (r.run poseidon2 ps).indexer.database,
        c ∈ r.indexer.database ∨
          c.root = chainRoot empty ((r.run poseidon2 ps).ledger.take c.cursor) := by
  constructor
  · intro height batchSize t0 h0 calls e t he
    obtain ⟨k, hk, hwithin⟩ := MirrorTree.construct_within h0
    refine MirrorTree.failStop_iff (H := height) (k := k) ?_ hk he
    have hall : ∀ (calls : List (MirrorTree.Call W)) (s : MirrorTree W),
        s.tree.Within poseidon2 height k 0 →
        (calls.foldl (MirrorTree.after poseidon2) s).tree.Within poseidon2 height k 0 := by
      intro calls
      induction calls with
      | nil => exact fun _ hs => hs
      | cons c calls ih => exact fun s hs => ih _ (MirrorTree.Within.after hs c)
    exact hall calls t0 hwithin
  · intro H k empty r ps hk hr hfinal hguard
    rw [Rail.run_ledger] at hfinal
    exact ((hr.follows _ hfinal).run hk hfinal ps hguard).commit

-- A mirror over the constant hash, and a one-leaf deposit whose event carries the root `root`.
def flatHash (_ _ : ℕ) : ℕ := 0

def flatMirror : MirrorTree ℕ :=
  ⟨ImtTree.init flatHash treeHeight 1, fun _ => none, fun _ => none, fun _ => false, fun _ => false, [],
    ImtTree.zerosLadder flatHash treeHeight⟩

def flatDeposit (root : ℕ) : SolanaLedgerTx ℕ :=
  ⟨10, 1, [⟨.deposit, 0, [5], 0, [], 0, 0, 0, 0⟩], [.op 0 0 1 root []]⟩

theorem flatMirror_within : flatMirror.tree.Within flatHash treeHeight 0 0 :=
  ⟨ImtTree.params_init flatHash treeHeight 0, le_rfl, Nat.zero_le _⟩

theorem flatMirror_open (leaves : List ℕ) (root : ℕ) :
    ¬(TreeEvent.opAppended 0 leaves root).Blocked flatMirror := by
  rintro (h | ⟨start, leaves', root', h, hgap⟩)
  · exact absurd h (by decide)
  · cases h
    exact absurd hgap (lt_irrefl 0)

-- The mirror keeps the leaf of the event it threw on; the next poll skips it and commits.
theorem divergent_deposit_committed :
    let e : TreeEvent ℕ := .opAppended 0 [5] 7
    let r := Rail.run flatHash ⟨[], flatMirror, 0, []⟩
      [⟨[flatDeposit 7], true, (7, 1)⟩, ⟨[], true, (7, 1)⟩]
    e.Disagrees flatHash flatMirror ∧ ¬flatMirror.FailStop flatHash e ∧
      r.indexer.database.map (fun c => (c.cursor, c.root)) = [(1, 0)] ∧ chainRoot 0 r.ledger = 7 := by
  intro e r
  have he : e.Disagrees flatHash flatMirror := by
    constructor
    · exact Nat.not_succ_le_zero 0
    · rintro ⟨-, tree, htree, hroot⟩
      cases htree
      exact absurd hroot (by decide)
  refine ⟨he, ?_, by rfl, rfl⟩
  rw [MirrorTree.failStop_iff flatMirror_within (Nat.zero_le _) he]
  exact flatMirror_open [5] 7

theorem divergence_fail_stop_flat :
    let r := Rail.run flatHash ⟨[], flatMirror, 0, []⟩ [⟨[flatDeposit 0], true, (0, 1)⟩]
    flatMirror.FailStop flatHash (.opAppended 1 [5] 7) ∧
      ∀ c ∈ r.indexer.database, c.root = chainRoot 0 (r.ledger.take c.cursor) := by
  intro r
  have hgap : (TreeEvent.opAppended 1 [5] 7).Disagrees flatHash flatMirror :=
    ⟨Nat.not_succ_le_zero 1, fun h => absurd h.1 (by decide)⟩
  have hagrees : (TreeEvent.opAppended 0 [5] 0).Agrees flatHash flatMirror :=
    ⟨le_rfl, _, rfl, rfl⟩
  have hsynced : Rail.Synced flatHash 0 treeHeight 0 ⟨[], flatMirror, 0, []⟩ :=
    ⟨flatMirror_within, rfl, by simp, rfl, rfl⟩
  have hguard : Rail.Guarded flatHash ⟨[], flatMirror, 0, []⟩ [⟨[flatDeposit 0], true, (0, 1)⟩] :=
    ⟨fun d hd h => absurd hagrees (by rw [List.mem_singleton.mp hd] at h; exact h.2), trivial⟩
  have hincreasing : Increasing (2 ^ 0) (treeEvents r.ledger) := by
    change Increasing 1 [TreeEvent.opAppended 0 [5] 0]
    exact ⟨by simp [TreeEvent.start, TreeEvent.stop], List.pairwise_singleton _ _⟩
  obtain ⟨hstop, hrun⟩ := @divergence_fail_stop ℕ _ _ flatHash
  constructor
  · exact (hstop treeHeight 1 flatMirror rfl [] _ hgap).mpr (.inr ⟨1, [5], 7, rfl, by decide⟩)
  · intro c hc
    exact (hrun treeHeight 0 0 _ _ (Nat.zero_le _) hsynced hincreasing hguard c hc).resolve_left
      List.not_mem_nil

end Bongtu.Indexer
