import Bongtu.Indexer.DisclosureVerdict
import Bongtu.Indexer.OpPass

namespace Bongtu.Indexer

open Bongtu.Core Outcome

open Evm (Address Call Env Event Log Message World)

variable {T : Type} {env : Env ℕ T} {cfg : IngestConfig} {logs own : List ParsedLog} {s : IndexerState}

section Decoded

variable {call : Call ℕ} {trees tail : List (Log ℕ)}

theorem decoded_events {emitted : List (Log ℕ)} {ls : List ParsedLog}
    (h : List.Forall₂ (Decodes call) emitted ls) :
    ls.map (·.event) = emitted.map fun log => .ofEvent log.event := by
  induction h with
  | nil => rfl
  | cons hdec _ ih => rw [List.map_cons, List.map_cons, hdec.event, ih]

theorem forall₂_split {α β : Type} {R : α → β → Prop} (xs : List α) {ys : List α} : ∀ {zs : List β},
    List.Forall₂ R (xs ++ ys) zs → ∃ zs₁ zs₂, zs = zs₁ ++ zs₂ ∧ List.Forall₂ R xs zs₁ ∧ List.Forall₂ R ys zs₂ := by
  induction xs with
  | nil => exact fun h => ⟨[], _, rfl, .nil, h⟩
  | cons x xs ih =>
    intro zs h
    rw [List.cons_append] at h
    cases h with
    | cons hz h =>
      obtain ⟨zs₁, zs₂, rfl, h₁, h₂⟩ := ih h
      exact ⟨_ :: zs₁, zs₂, rfl, .cons hz h₁, h₂⟩

theorem decoded_split (h : List.Forall₂ (Decodes call) (trees ++ tail) own) : ∃ ts ls, own = ts ++ ls ∧
    ts.map (·.event) = trees.map (fun log => .ofEvent log.event) ∧ List.Forall₂ (Decodes call) tail ls := by
  obtain ⟨ts, ls, rfl, hts, hls⟩ := forall₂_split trees h
  exact ⟨ts, ls, rfl, decoded_events hts, hls⟩

theorem forall₂_one {α β : Type} {R : α → β → Prop} {a : α} {zs : List β} (h : List.Forall₂ R [a] zs) :
    ∃ z, zs = [z] ∧ R a z := by
  cases h with
  | cons hz h =>
    cases h
    exact ⟨_, rfl, hz⟩

theorem forall₂_two {α β : Type} {R : α → β → Prop} {a b : α} {zs : List β} (h : List.Forall₂ R [a, b] zs) :
    ∃ y z, zs = [y, z] ∧ R a y ∧ R b z := by
  cases h with
  | cons hy h =>
    obtain ⟨z, rfl, hz⟩ := forall₂_one h
    exact ⟨_, z, rfl, hy, hz⟩

theorem forall₂_three {α β : Type} {R : α → β → Prop} {a b c : α} {zs : List β}
    (h : List.Forall₂ R [a, b, c] zs) : ∃ x y z, zs = [x, y, z] ∧ R a x ∧ R b y ∧ R c z := by
  cases h with
  | cons hx h =>
    obtain ⟨y, z, rfl, hy, hz⟩ := forall₂_two h
    exact ⟨_, y, z, rfl, hx, hy, hz⟩

end Decoded

section Trees

-- The pairs an op's appends leave in the logs: its leaves, one after another from the next index on.
theorem treeLogs_pairs (leaves : List ℕ) : ∀ {t t' : Evm.Imt ℕ},
    World.runImt env t (leaves.map .append) = .ok t' → ∃ pairs : List AppendedPair,
      (World.treeLogs env t (leaves.map .append)).map (fun log => ParsedEvent.ofEvent log.event) =
        pairs.map AppendedPair.event ∧
      pairs.map (·.leaf) = leaves ∧ pairs.map (·.leafIndex) = List.range' t.nextLeafIndex leaves.length ∧
      ∀ last ∈ pairs.getLast?, last.root = t'.root := by
  induction leaves with
  | nil =>
    intro t t' _
    exact ⟨[], rfl, rfl, rfl, by simp⟩
  | cons leaf leaves ih =>
    intro t t' h
    obtain ⟨t₁, ht₁, h⟩ := bind_ok.mp h
    have hok : Evm.Imt.appendLeaf env.poseidon Evm.treeHeight t leaf = .ok t₁ := ht₁
    have hnext : t₁.nextLeafIndex = t.nextLeafIndex + 1 := by
      have := (Evm.Imt.insertNode_ok hok).2.2.1
      simpa using this
    obtain ⟨pairs, hevents, hleaves, hindices, hlast⟩ := ih h
    refine ⟨⟨t.nextLeafIndex, leaf, t₁.root⟩ :: pairs, ?_, by rw [List.map_cons, hleaves], ?_, ?_⟩
    · rw [World.treeLogs] at hevents
      simp only [World.treeLogs, List.map_cons, Evm.Imt.events, hok, hevents]
      rfl
    · rw [List.map_cons, hindices, hnext, List.length_cons, List.range'_succ]
    · cases pairs with
      | nil =>
        cases leaves with
        | nil =>
          cases h
          simp
        | cons => simp at hleaves
      | cons pair pairs => exact hlast

-- The logs of an op that appends its leaves first.
theorem decoded_pairs {call : Call ℕ} {w w' : World ℕ T} {leaves : List ℕ} {tail : List (Log ℕ)}
    (h : List.Forall₂ (Decodes call) (World.treeLogs env w.pool.imt (leaves.map .append) ++ tail) own)
    (htree : World.runImt env w.pool.imt (leaves.map .append) = .ok w'.pool.imt) :
    ∃ ts ls, own = ts ++ ls ∧ List.Forall₂ (Decodes call) tail ls ∧ ∃ pairs : List AppendedPair,
      ts.map (·.event) = pairs.map AppendedPair.event ∧ pairs.map (·.leaf) = leaves ∧
      pairs.map (·.leafIndex) = List.range' w.pool.imt.nextLeafIndex leaves.length ∧
      ∀ last ∈ pairs.getLast?, last.root = w'.pool.imt.root := by
  obtain ⟨ts, ls, hown, hts, hls⟩ := decoded_split h
  obtain ⟨pairs, hevents, hpairs⟩ := treeLogs_pairs leaves htree
  exact ⟨ts, ls, hown, hls, pairs, hts.trans hevents, hpairs⟩

theorem pair_of_leaves {pairs : List AppendedPair} {oc0 oc1 start root : ℕ}
    (hleaves : pairs.map (·.leaf) = [oc0, oc1]) (hindices : pairs.map (·.leafIndex) = List.range' start 2)
    (hlast : ∀ last ∈ pairs.getLast?, last.root = root) : ∃ p0 p1 : AppendedPair, pairs = [p0, p1] ∧
      p0.leaf = oc0 ∧ p1.leaf = oc1 ∧ p0.leafIndex = start ∧ p1.root = root := by
  obtain ⟨p0, p1, rfl⟩ := List.length_eq_two.mp (by simpa using congrArg List.length hleaves)
  obtain ⟨h0, h1⟩ : p0.leaf = oc0 ∧ p1.leaf = oc1 := by simpa using hleaves
  have hstart : p0.leafIndex = start := by
    rw [List.map_cons, List.range'_succ] at hindices
    exact (List.cons.inj hindices).1
  exact ⟨p0, p1, rfl, h0, h1, hstart, hlast p1 rfl⟩

end Trees

section Posting

variable {ts ls : List ParsedLog} {pairs : List AppendedPair} {fam : ParsedLog} {x : Posting}

theorem posting_trees (hts : ts.map (·.event) = pairs.map AppendedPair.event) :
    posting cfg (ts ++ ls) = ls.findSome? (postingAt cfg (ts ++ ls)) := by
  rw [posting, List.findSome?_append, findSome_quiet ts (quiet_trees hts)]
  rfl

-- The announcement of an op that ends in one.
theorem ownAnnouncement_last {pre : List ParsedLog} {ann : ParsedLog}
    (h : ∀ l ∈ pre, l.event.announcement = none) : ownAnnouncement (pre ++ [ann]) = ann.event.announcement := by
  have hnone : pre.findSome? (·.event.announcement) = none := List.findSome?_eq_none_iff.mpr h
  rw [ownAnnouncement, List.findSome?_append, hnone, List.findSome?_singleton]
  rfl

theorem announcement_trees (hts : ts.map (·.event) = pairs.map AppendedPair.event) :
    ∀ l ∈ ts, l.event.announcement = none := by
  intro l hl
  obtain ⟨pair, -, heq⟩ := exists_pair hts hl
  rw [heq]
  rfl

theorem announced_withdraw (pairs : List AppendedPair) (at' : FeedPosition) (nullifiers : List ℕ)
    (a : Option Announcement) :
    (Posting.mk pairs (projectFeedEntry at' (.withdraw none)) nullifiers none none).announced a =
      ⟨pairs, projectFeedEntry at' (.withdraw a), nullifiers, none, none⟩ := by
  cases a <;> rfl

theorem announced_withdrawPriv (pairs : List AppendedPair) (at' : FeedPosition) (nullifiers : List ℕ)
    (args : ConsumerArgs) (place : ℕ) (a : Option Announcement) :
    (Posting.mk pairs (projectFeedEntry at' (.withdrawPriv args.ecdhPublicKey args.encryptionNonce place
      args.cts args.viewTags args.kemCiphertexts none)) nullifiers none none).announced a =
      ⟨pairs, projectFeedEntry at' (.withdrawPriv args.ecdhPublicKey args.encryptionNonce place args.cts
        args.viewTags args.kemCiphertexts a), nullifiers, none, none⟩ := by
  cases a <;> rfl

end Posting

-- What the logs of an op with a family event come to.
structure Followed (cfg : IngestConfig) (logs : List ParsedLog) (op : Mined) (s : IndexerState) (x : Posting) :
    Prop where
  posting : posting cfg op.logs = some x
  passes : Passes cfg logs op.logs s (s.post x)
  nullifiers : stripZeros x.nullifiers = op.message.call.nullifiers
  key : ∃ l ∈ op.logs, x.entry.key = l.key
  pairs : x.pairs = ownPairs op.logs

-- The texts of the batch an op opens are its own, wherever the op's logs stand.
def Undisturbed (logs : List ParsedLog) (op : Mined) : Prop :=
  ∀ l ∈ op.logs, ∀ start subtreeRoot root, l.event = .subtreeAppended start subtreeRoot root →
    ciphertextsOf logs op.txHash start = ciphertextsOf op.logs op.txHash start ∧
    privDisclosureOf logs op.txHash start = privDisclosureOf op.logs op.txHash start

-- The batch a consumer disburse opens; its leaves are published only where they fold to its root.
structure Opens (cfg : IngestConfig) (op : Mined) (module : Address) (start subtreeRoot : ℕ) (hashes : List ℕ)
    (x : Posting) : Prop where
  batch : ∃ row, x.batch = some row ∧ row.batchId = start ∧ row.module = module ∧ row.chunkHashes = hashes ∧
    (row.txHash, x.entry.logIndex) = x.entry.key
  leaves : ∀ leaves, x.leaves = some leaves →
    leaves.length = cfg.arbiter.B ∧ foldRun cfg.arbiter.primitives leaves = subtreeRoot
  attached : ∃ l ∈ op.logs, ∃ root, l.event = .subtreeAppended start subtreeRoot root

theorem leaves_verified {p : Primitives} {disclosure leaves : List ℕ} {onchainDH subtreeRoot B start : ℕ}
    {txHash : TxHash} (hB : 0 < B)
    (h : (verifyConsumerDisclosure p disclosure onchainDH subtreeRoot B txHash start).leaves = some leaves) :
    leaves.length = B ∧ foldRun p leaves = subtreeRoot := by
  have hpublished : Published p disclosure onchainDH subtreeRoot B :=
    published_of_verified rfl (.inr (by rw [h]; exact Option.some_ne_none leaves))
  rw [verifyConsumerDisclosure_published hB hpublished] at h
  obtain rfl := Option.some.inj h
  exact ⟨length_run hpublished.length, hpublished.fold⟩

section Families

variable {w w' : World ℕ T} {op : Mined} {start : ℕ} {leaves : List ℕ} {ev : Event ℕ}
  {X : ParsedLog → List AppendedPair → Posting} (htx : ∀ l ∈ op.logs, l.txHash = op.txHash)
  (htree : World.runImt env w.pool.imt op.message.call.ops = .ok w'.pool.imt)
  (hlogs : List.Forall₂ (Decodes op.message.call) (op.message.emitted env w w' start) op.logs)

include htx htree hlogs

section Appends

variable (leaves ev) (hops : op.message.call.ops = leaves.map .append)
  (hquiet : (ParsedEvent.ofEvent ev).pair = none ∧ (ParsedEvent.ofEvent ev).subtree = none ∧
    (ParsedEvent.ofEvent ev).applied = none)
  (hX : ∀ fam pairs, (X fam pairs).pairs = pairs ∧ (X fam pairs).entry.key = fam.key ∧
    stripZeros (X fam pairs).nullifiers = op.message.call.nullifiers ∧ (X fam pairs).batch = none)
  (hposting : ∀ fam own, fam.event = .ofEvent ev → postingAt cfg own fam = some (X fam (ownPairs own)))

include hops hquiet hX hposting

-- An op of the pool that appends its leaves and reports itself last.
theorem followed_appends (hledger : s.ledger = none)
    (hemitted : op.message.emitted env w w' start =
      World.treeLogs env w.pool.imt (leaves.map .append) ++ [⟨env.pool, ev⟩])
    (hhandle : ∀ fam pairs rest p, fam.event = .ofEvent ev → pairs.map AppendedPair.leaf = leaves →
      p.appended fam.txHash = pairs ++ rest → p.indexer.ledger = none → handle cfg logs fam p =
        .returned (Pass.posted (X fam pairs) { p with
          appended := Function.update p.appended fam.txHash rest })) :
    ∃ x, Followed cfg logs op s x ∧ x.batch = none := by
  rw [hemitted] at hlogs
  rw [hops] at htree
  obtain ⟨ts, ls, hown, hls, pairs, hts, hleaves, -, -⟩ := decoded_pairs hlogs htree
  obtain ⟨fam, rfl, hfam⟩ := forall₂_one hls
  have hev : fam.event = .ofEvent ev := hfam.event
  rw [← hev] at hquiet
  obtain ⟨hpair, hsubtree, happlied⟩ := hquiet
  obtain ⟨hXpairs, hXkey, hXnullifiers, hXbatch⟩ := hX fam pairs
  have hpairs : ownPairs op.logs = pairs := by
    rw [hown]
    exact ownPairs_mid hts (by simpa using hpair)
  refine ⟨X fam pairs, ⟨?_, ?_, hXnullifiers, ⟨fam, by simp [hown], hXkey⟩, hXpairs.trans hpairs.symm⟩, hXbatch⟩
  · have hself := hposting fam op.logs hev
    rw [hpairs] at hself
    rw [hown] at hself ⊢
    rw [posting_trees hts, List.findSome?_cons, hself]
  · have hsame : ∀ l ∈ op.logs, l.txHash = fam.txHash := fun l hl =>
      (htx l hl).trans (htx fam (by simp [hown])).symm
    rw [hown] at hsame ⊢
    exact passes_pairs hts hledger hsame hpair hsubtree happlied fun rest p hqueue hledger =>
      hhandle fam pairs rest p hev hleaves hqueue hledger

end Appends

theorem followed_deposit {proof : Proof} {pub : Fin 19 → ℕ} {kem : Bytes}
    (hcall : op.message.call = .deposit proof pub kem) (hledger : s.ledger = none) :
    ∃ x, Followed cfg logs op s x ∧ x.batch = none := by
  refine followed_appends [pub 14, pub 15] (.emitDeposited w.currentEpoch start w'.pool.imt.root pub kem) htx htree
    hlogs (by rw [hcall]; rfl) ⟨rfl, rfl, rfl⟩
    (X := fun fam pairs => ⟨pairs, projectFeedEntry fam.position .deposit, [], none, none⟩)
    (fun fam pairs => ⟨rfl, rfl, by rw [hcall]; rfl, rfl⟩) ?_ hledger (by rw [Message.emitted, hcall]; rfl) ?_
  · intro fam own hev
    simp only [postingAt, hev, ParsedEvent.ofEvent, Event.emitDeposited]
  · intro fam pairs rest p hev hleaves hqueue hledger
    exact handle_deposited hqueue hledger hev hleaves

theorem followed_transfer {proof : Proof} {pub : Fin 37 → ℕ} {kem : Bytes}
    (hcall : op.message.call = .transfer proof pub kem) (hledger : s.ledger = none) :
    ∃ x, Followed cfg logs op s x ∧ x.batch = none := by
  refine followed_appends [pub 32, pub 33] (.emitTransferred w.currentEpoch w'.pool.imt.root pub kem) htx htree
    hlogs (by rw [hcall]; rfl) ⟨rfl, rfl, rfl⟩
    (X := fun fam pairs => ⟨pairs, projectFeedEntry fam.position (.transfer .transfer w.currentEpoch
      (pointOf (slice pub 0 2)) (pub 34) (pairs.map (·.leafIndex)) (slice pub 2 4 ++ slice pub 6 4)
      (slice pub 10 16)), [pub 27, pub 28], none, none⟩)
    (fun fam pairs => ⟨rfl, rfl, by rw [hcall]; rfl, rfl⟩) ?_ hledger (by rw [Message.emitted, hcall]; rfl) ?_
  · intro fam own hev
    simp only [postingAt, hev, ParsedEvent.ofEvent, Event.emitTransferred]
  · intro fam pairs rest p hev hleaves hqueue hledger
    exact handle_transferred hqueue hledger hev hleaves

theorem followed_transfer10 {proof : Proof} {pub : Fin 141 → ℕ} {kem : Bytes}
    (hcall : op.message.call = .transfer10 proof pub kem) (hledger : s.ledger = none) :
    ∃ x, Followed cfg logs op s x ∧ x.batch = none := by
  refine followed_appends (slice pub 128 10) (.emitTransferred10 w.currentEpoch w'.pool.imt.root pub kem) htx htree
    hlogs (by rw [hcall]; rfl) ⟨rfl, rfl, rfl⟩
    (X := fun fam pairs => ⟨pairs, projectFeedEntry fam.position (.transfer .transfer10 w.currentEpoch
      (pointOf (slice pub 0 2)) (pub 138) (pairs.map (·.leafIndex)) (slice pub 2 40) (slice pub 42 64)),
      slice pub 107 10, none, none⟩)
    (fun fam pairs => ⟨rfl, rfl, by rw [hcall]; rfl, rfl⟩) ?_ hledger (by rw [Message.emitted, hcall]; rfl) ?_
  · intro fam own hev
    simp only [postingAt, hev, ParsedEvent.ofEvent, Event.emitTransferred10]
  · intro fam pairs rest p hev hleaves hqueue hledger
    exact handle_transferred hqueue hledger hev hleaves

theorem followed_transfer10x2 {proof : Proof} {pub : Fin 68 → ℕ} {kem : Bytes}
    (hcall : op.message.call = .transfer10x2 proof pub kem) (hledger : s.ledger = none) :
    ∃ x, Followed cfg logs op s x ∧ x.batch = none := by
  refine followed_appends (slice pub 63 2) (.emitTransferred10x2 w.currentEpoch w'.pool.imt.root pub kem) htx htree
    hlogs (by rw [hcall]; rfl) ⟨rfl, rfl, rfl⟩
    (X := fun fam pairs => ⟨pairs, projectFeedEntry fam.position (.transfer .transfer10x2 w.currentEpoch
      (pointOf (slice pub 0 2)) (pub 65) (pairs.map (·.leafIndex)) (slice pub 2 8) (slice pub 10 31)),
      slice pub 42 10, none, none⟩)
    (fun fam pairs => ⟨rfl, rfl, by rw [hcall]; rfl, rfl⟩) ?_ hledger (by rw [Message.emitted, hcall]; rfl) ?_
  · intro fam own hev
    simp only [postingAt, hev, ParsedEvent.ofEvent, Event.emitTransferred10x2]
  · intro fam pairs rest p hev hleaves hqueue hledger
    exact handle_transferred hqueue hledger hev hleaves

theorem followed_withdraw {proof : Proof} {pub : Fin 27 → ℕ} {kem : Bytes} {eph : ℕ} {tag : UInt8}
    (hcall : op.message.call = .withdraw proof pub kem eph tag) (hledger : s.ledger = none) :
    ∃ x, Followed cfg logs op s x ∧ x.batch = none := by
  have hemitted : op.message.emitted env w w' start = World.treeLogs env w.pool.imt ([pub 22].map .append) ++
      [⟨env.pool, .emitWithdrawn w.currentEpoch w'.pool.imt.root pub kem⟩,
        ⟨env.pool, .withdrawAnnouncement (pub 26) eph tag⟩] := by
    rw [Message.emitted, hcall]
    rfl
  rw [hemitted] at hlogs
  have hops : op.message.call.ops = [pub 22].map .append := by
    rw [hcall]
    rfl
  rw [hops] at htree
  obtain ⟨ts, ls, hown, hls, pairs, hts, hleaves, -, -⟩ := decoded_pairs hlogs htree
  obtain ⟨fam, ann, rfl, hfam, hann⟩ := forall₂_two hls
  have hevent : fam.event = .withdrawn [pub 17, pub 18] (pub 22) ⟨pointOf (slice pub 1 2), pub 23,
      slice pub 3 13, some ⟨pub 16, kem⟩⟩ := hfam.event
  have hannounces : ann.event = .withdrawAnnouncement (pub 26) eph tag.toNat := hann.event
  have hnone : fam.event.pair = none ∧ fam.event.subtree = none ∧ fam.event.applied = none ∧
      fam.event.announcement = none := by
    rw [hevent]
    exact ⟨rfl, rfl, rfl, rfl⟩
  have hpairs : ownPairs op.logs = pairs := by
    rw [hown]
    refine ownPairs_mid hts ?_
    simp only [List.mem_cons, List.not_mem_nil, or_false, forall_eq_or_imp, forall_eq, hnone.1, true_and,
      hannounces]
    rfl
  have hannouncement : ownAnnouncement op.logs = ann.event.announcement := by
    have hsplit : ts ++ [fam, ann] = (ts ++ [fam]) ++ [ann] := by simp
    rw [hown, hsplit]
    refine ownAnnouncement_last fun l hl => ?_
    rcases List.mem_append.mp hl with hl | hl
    · exact announcement_trees hts l hl
    · rw [List.mem_singleton.mp hl]
      exact hnone.2.2.2
  refine ⟨⟨pairs, projectFeedEntry fam.position (.withdraw ann.event.announcement), [pub 17, pub 18], none,
    none⟩, ⟨?_, ?_, by rw [hcall]; rfl, ⟨fam, by simp [hown], rfl⟩, hpairs.symm⟩, rfl⟩
  · have hself : postingAt cfg op.logs fam = some ⟨pairs, projectFeedEntry fam.position
        (.withdraw ann.event.announcement), [pub 17, pub 18], none, none⟩ := by
      simp only [postingAt, hevent, hpairs, hannouncement]
    rw [hown] at hself ⊢
    rw [posting_trees hts, List.findSome?_cons, hself]
  · have hsame : ∀ l ∈ op.logs, l.txHash = fam.txHash := fun l hl =>
      (htx l hl).trans (htx fam (by simp [hown])).symm
    rw [hown] at hsame ⊢
    rw [← announced_withdraw]
    exact passes_paid hts hledger hsame hnone.1 hnone.2.1 hnone.2.2.1 rfl hannounces
      fun rest p hqueue hledger => handle_withdrawn hqueue hledger hevent hleaves

omit htree in
theorem followed_disburse {proof : Proof} {pub : Fin 11 → ℕ} {cts : List ℕ} {kem : Bytes}
    (hcall : op.message.call = .disburseWithCiphertexts proof pub cts kem) (hledger : s.ledger = none)
    (hstart : Evm.StartsAt env w w' start [.attach (pub 3) none]) (hown : Undisturbed logs op)
    (hne : pub 5 ≠ 0) : ∃ x, Followed cfg logs op s x ∧ x.batch = none := by
  have hemitted : op.message.emitted env w w' start =
      [⟨env.pool, .emitDisbursed w.currentEpoch w'.pool.imt.root pub kem⟩,
        ⟨env.pool, .subtreeAppended start (pub 3) w'.pool.imt.root⟩,
        ⟨env.pool, .disburseCiphertexts start cts⟩] := by
    have htrees : World.treeLogs env w.pool.imt [.attach (pub 3) none] =
        [⟨env.pool, .subtreeAppended start (pub 3) w'.pool.imt.root⟩] := hstart
    rw [Message.emitted, hcall]
    dsimp only
    rw [show Call.ops (.disburseWithCiphertexts proof pub cts kem) = [.attach (pub 3) none] from rfl, htrees]
    rfl
  rw [hemitted] at hlogs
  obtain ⟨fam, sub, ctl, hlist, hfam, hsub, hctl⟩ := forall₂_three hlogs
  set st : SubtreePair := ⟨start, pub 3, w'.pool.imt.root⟩
  have hevent : fam.event = .disbursed w.currentEpoch (pub 5) st.subtreeRoot (pub 2) (pointOf (slice pub 0 2))
      (pub 8) (some ⟨pub 4, kem⟩) := hfam.event
  have hattach : sub.event = .subtreeAppended st.startLeafIndex st.subtreeRoot st.root := hsub.event
  have htexts : ctl.event = .disburseCiphertexts start cts := hctl.event
  have hnone : fam.event.pair = none ∧ fam.event.subtree = none ∧ fam.event.applied = none := by
    rw [hevent]
    exact ⟨rfl, rfl, rfl⟩
  have htxHash : fam.txHash = op.txHash := htx fam (by simp [hlist])
  have hsame : ∀ l ∈ op.logs, l.txHash = fam.txHash := fun l hl => (htx l hl).trans htxHash.symm
  have hct := (hown sub (by simp [hlist]) _ _ _ hattach).1
  rw [← htxHash] at hct
  have hst : ownSubtree op.logs = st := by
    rw [hlist, ownSubtree]
    simp only [List.filterMap_cons, hnone.2.1, (sub_event hattach).2.1, htexts]
    rfl
  have hself : postingAt cfg op.logs fam = some ⟨[], disburseEntry fam.position w.currentEpoch
      (pointOf (slice pub 0 2)) (pub 8) st.startLeafIndex cfg.arbiter.B
      (ciphertextsOf op.logs fam.txHash st.startLeafIndex) (verifyDisclosure cfg.arbiter.primitives
        (ciphertextsOf op.logs fam.txHash st.startLeafIndex) (pub 2) cfg.arbiter.B fam.txHash
        st.startLeafIndex).status, [pub 5], none, none⟩ := by
    simp only [postingAt, hevent, hst]
  refine ⟨⟨[], disburseEntry fam.position w.currentEpoch (pointOf (slice pub 0 2)) (pub 8) st.startLeafIndex
    cfg.arbiter.B (ciphertextsOf op.logs fam.txHash st.startLeafIndex) (verifyDisclosure cfg.arbiter.primitives
      (ciphertextsOf op.logs fam.txHash st.startLeafIndex) (pub 2) cfg.arbiter.B fam.txHash
      st.startLeafIndex).status, [pub 5], none, none⟩,
    ⟨?_, ?_, by rw [hcall]; simp [stripZeros, Call.nullifiers, hne], ⟨fam, by simp [hlist], rfl⟩, ?_⟩, rfl⟩
  · rw [hlist] at hself ⊢
    rw [posting, List.findSome?_cons, hself]
  · rw [← hct]
    rw [hlist] at hsame ⊢
    exact passes_disburse hattach hledger hsame hnone.1 hnone.2.1 hnone.2.2 htexts
      fun rest p hqueue hledger => handle_disbursed hqueue hledger hevent
  · rw [hlist, ownPairs]
    simp only [List.filterMap_cons, hnone.1, (sub_event hattach).1, htexts]
    rfl

section Consumer

variable (ev) {module : Address} (fx : Evm.OpEffects ℕ) (hstart : start = w.pool.imt.nextLeafIndex)
  (hknown : s.modules.isKnown module = true)

include hstart hknown

-- An op of a consumer module with two outputs.
theorem followed_consumer {family : ConsumerSmall} {nullifiers : List ℕ} {oc0 oc1 : ℕ} {args : ConsumerArgs}
    (hops : op.message.call.ops = [oc0, oc1].map .append)
    (hemitted : op.message.emitted env w w' start = World.treeLogs env w.pool.imt ([oc0, oc1].map .append) ++
      [Evm.opAppliedLog env w' module start fx, ⟨module, ev⟩])
    (hev : ParsedEvent.ofEvent ev = .consumer family nullifiers oc0 oc1 args)
    (hnullifiers : stripZeros nullifiers = op.message.call.nullifiers)
    (hshape : fx.nullifiers = stripZeros nullifiers ∧ fx.leaves.length = 2 ∧ fx.subtreeRoot = 0) :
    ∃ x, Followed cfg logs op s x ∧ x.batch = none := by
  rw [hemitted] at hlogs
  rw [hops] at htree
  obtain ⟨ts, ls, hown, hls, pairs, hts, hleaves, hindices, hlast⟩ := decoded_pairs hlogs htree
  obtain ⟨p0, p1, rfl, rfl, rfl, hindex, hroot⟩ := pair_of_leaves hleaves hindices hlast
  obtain ⟨app, fam, rfl, happ, hfam⟩ := forall₂_two hls
  have hevent : fam.event = .consumer family nullifiers p0.leaf p1.leaf args := hfam.event.trans hev
  have hnone : fam.event.pair = none ∧ fam.event.subtree = none ∧ fam.event.applied = none := by
    rw [hevent]
    exact ⟨rfl, rfl, rfl⟩
  have happlied : app.event = .opApplied module p0.leafIndex (nonzeroCount nullifiers) 2 0 p1.root := by
    rw [happ.event, hindex, ← hstart, hroot, nonzeroCount, ← stripZeros, ← hshape.1, ← hshape.2.1, ← hshape.2.2]
    rfl
  have hpairs : ownPairs op.logs = [p0, p1] := by
    rw [hown]
    refine ownPairs_mid hts ?_
    simp only [List.mem_cons, List.not_mem_nil, or_false, forall_eq_or_imp, forall_eq, hnone.1, and_true, happlied]
    rfl
  refine ⟨⟨[p0, p1], projectFeedEntry fam.position (.consumer family args.ecdhPublicKey args.encryptionNonce
    p0.leafIndex p1.leafIndex args.cts args.viewTags args.kemCiphertexts), nullifiers, none, none⟩,
    ⟨?_, ?_, hnullifiers, ⟨fam, by simp [hown], rfl⟩, hpairs.symm⟩, rfl⟩
  · have hquiet : postingAt cfg op.logs app = none := postingAt_quiet (by rw [happlied]; rfl)
    have hself : postingAt cfg op.logs fam = some ⟨[p0, p1], projectFeedEntry fam.position (.consumer family
        args.ecdhPublicKey args.encryptionNonce p0.leafIndex p1.leafIndex args.cts args.viewTags
        args.kemCiphertexts), nullifiers, none, none⟩ := by
      simp only [postingAt, hevent, hpairs]
      rfl
    rw [hown] at hquiet hself ⊢
    rw [posting_trees hts, List.findSome?_cons, hquiet, List.findSome?_cons, hself]
  · have hsame : ∀ l ∈ op.logs, l.txHash = fam.txHash := fun l hl =>
      (htx l hl).trans (htx fam (by simp [hown])).symm
    rw [hown] at hsame ⊢
    refine passes_module ⟨module, ⟨p0.leafIndex, nonzeroCount nullifiers, 2, 0, p1.root⟩⟩ hts happlied
      hsame hnone.1 hnone.2.1 hnone.2.2 fun rest ops p hqueue hop hs => ?_
    exact handle_consumer hop hfam.address (hs ▸ hknown) hqueue hevent rfl

theorem followed_depositPriv {proof : Proof} {pub : Fin 16 → ℕ} {kems : List Bytes}
    (hcall : op.message.call = .depositPriv module proof pub kems) :
    ∃ x, Followed cfg logs op s x ∧ x.batch = none :=
  followed_consumer (.emitDepositedPriv start w'.pool.imt.root pub kems) htx htree hlogs
    ⟨0, [], [pub 13, pub 14], 0⟩ hstart hknown (by rw [hcall]; rfl) (by rw [Message.emitted, hcall]; rfl) rfl
    (by rw [hcall]; rfl) ⟨rfl, rfl, rfl⟩

theorem followed_transferPriv {proof : Proof} {pub : Fin 20 → ℕ} {kems : List Bytes}
    (hcall : op.message.call = .transferPriv module proof pub kems) :
    ∃ x, Followed cfg logs op s x ∧ x.batch = none :=
  followed_consumer (.emitTransferredPriv w'.pool.imt.root pub kems) htx htree hlogs
    ⟨pub 14, stripZeros [pub 12, pub 13], [pub 17, pub 18], 0⟩ hstart hknown (by rw [hcall]; rfl) (by rw [Message.emitted, hcall]; rfl) rfl
    (by rw [hcall]; rfl) ⟨rfl, rfl, rfl⟩

theorem followed_transfer10x2Priv {proof : Proof} {pub : Fin 36 → ℕ} {kems : List Bytes}
    (hcall : op.message.call = .transfer10x2Priv module proof pub kems) :
    ∃ x, Followed cfg logs op s x ∧ x.batch = none :=
  followed_consumer (.emitTransferred10x2Priv w'.pool.imt.root pub kems) htx htree hlogs
    ⟨pub 22, stripZeros (slice pub 12 10), [pub 33, pub 34], 0⟩ hstart hknown (by rw [hcall]; rfl) (by rw [Message.emitted, hcall]; rfl) rfl
    (by rw [hcall]; rfl) ⟨rfl, rfl, rfl⟩

theorem followed_withdrawPriv {proof : Proof} {pub : Fin 16 → ℕ} {kems : List Bytes} {eph : ℕ} {tag : UInt8}
    (hcall : op.message.call = .withdrawPriv module proof pub kems eph tag) :
    ∃ x, Followed cfg logs op s x ∧ x.batch = none := by
  have hemitted : op.message.emitted env w w' start = World.treeLogs env w.pool.imt ([pub 13].map .append) ++
      [Evm.opAppliedLog env w' module start ⟨pub 10, stripZeros [pub 8, pub 9], [pub 13], 0⟩,
        ⟨module, .emitWithdrawnPriv w'.pool.imt.root pub kems⟩,
        ⟨module, .withdrawAnnouncement (pub 15) eph tag⟩] := by
    rw [Message.emitted, hcall]
    rfl
  rw [hemitted] at hlogs
  have hops : op.message.call.ops = [pub 13].map .append := by
    rw [hcall]
    rfl
  rw [hops] at htree
  obtain ⟨ts, ls, hown, hls, pairs, hts, hleaves, hindices, hlast⟩ := decoded_pairs hlogs htree
  obtain ⟨pc, rfl⟩ := List.length_eq_one_iff.mp (by simpa using congrArg List.length hleaves)
  obtain ⟨hleaf, hindex⟩ : pc.leaf = pub 13 ∧ pc.leafIndex = start := by
    rw [hstart]
    exact ⟨List.singleton_inj.mp hleaves, List.singleton_inj.mp hindices⟩
  have hroot : pc.root = w'.pool.imt.root := hlast pc rfl
  obtain ⟨app, fam, ann, rfl, happ, hfam, hann⟩ := forall₂_three hls
  set args : ConsumerArgs := ⟨pointOf (slice pub 1 2), pub 14, slice pub 3 4, [pub 7], kems⟩
  have hevent : fam.event = .withdrawnPriv [pub 8, pub 9] pc.leaf args := by
    rw [hleaf]
    exact hfam.event
  have hannounces : ann.event = .withdrawAnnouncement (pub 15) eph tag.toNat := hann.event
  have happlied : app.event = .opApplied module pc.leafIndex (nonzeroCount [pub 8, pub 9]) 1 0 pc.root := by
    rw [happ.event, hindex, hroot]
    rfl
  have hnone : fam.event.pair = none ∧ fam.event.subtree = none ∧ fam.event.applied = none ∧
      fam.event.announcement = none := by
    rw [hevent]
    exact ⟨rfl, rfl, rfl, rfl⟩
  have hpairs : ownPairs op.logs = [pc] := by
    rw [hown]
    refine ownPairs_mid hts ?_
    simp only [List.mem_cons, List.not_mem_nil, or_false, forall_eq_or_imp, forall_eq, hnone.1, true_and,
      hannounces, happlied]
    exact ⟨rfl, rfl⟩
  have hannouncement : ownAnnouncement op.logs = ann.event.announcement := by
    have hsplit : ts ++ [app, fam, ann] = (ts ++ [app, fam]) ++ [ann] := by simp
    rw [hown, hsplit]
    refine ownAnnouncement_last fun l hl => ?_
    rcases List.mem_append.mp hl with hl | hl
    · exact announcement_trees hts l hl
    · rcases List.mem_pair.mp hl with rfl | rfl
      · rw [happlied]
        rfl
      · exact hnone.2.2.2
  refine ⟨⟨[pc], projectFeedEntry fam.position (.withdrawPriv args.ecdhPublicKey args.encryptionNonce
    pc.leafIndex args.cts args.viewTags args.kemCiphertexts ann.event.announcement), [pub 8, pub 9], none,
    none⟩, ⟨?_, ?_, by rw [hcall]; rfl, ⟨fam, by simp [hown], rfl⟩, hpairs.symm⟩, rfl⟩
  · have hquiet : postingAt cfg op.logs app = none := postingAt_quiet (by rw [happlied]; rfl)
    have hself : postingAt cfg op.logs fam = some ⟨[pc], projectFeedEntry fam.position (.withdrawPriv
        args.ecdhPublicKey args.encryptionNonce pc.leafIndex args.cts args.viewTags args.kemCiphertexts
        ann.event.announcement), [pub 8, pub 9], none, none⟩ := by
      simp only [postingAt, hevent, hpairs, hannouncement]
      rfl
    rw [hown] at hquiet hself ⊢
    rw [posting_trees hts, List.findSome?_cons, hquiet, List.findSome?_cons, hself]
  · have hsame : ∀ l ∈ op.logs, l.txHash = fam.txHash := fun l hl =>
      (htx l hl).trans (htx fam (by simp [hown])).symm
    rw [hown] at hsame ⊢
    rw [← announced_withdrawPriv]
    refine passes_modulePaid ⟨module, ⟨pc.leafIndex, nonzeroCount [pub 8, pub 9], 1, 0, pc.root⟩⟩ hts
      happlied hsame hnone.1 hnone.2.1 hnone.2.2.1 rfl hannounces fun rest ops p hqueue hop hs => ?_
    exact handle_withdrawnPriv hop hfam.address (hs ▸ hknown) hqueue hevent rfl

omit htree hstart in
theorem followed_disbursePriv256 {proof : Proof} {pub : Fin 8 → ℕ} {disclosure hashes : List ℕ}
    (hcall : op.message.call = .disbursePriv256 module proof pub disclosure hashes)
    (hstart : Evm.StartsAt env w w' start [.attach (pub 3) none]) (hown : Undisturbed logs op)
    (hne : pub 4 ≠ 0) (hroot : pub 3 ≠ 0) (hB : 0 < cfg.arbiter.B) :
    ∃ x, Followed cfg logs op s x ∧ Opens cfg op module start (pub 3) hashes x := by
  have hemitted : op.message.emitted env w w' start =
      [⟨env.pool, .subtreeAppended start (pub 3) w'.pool.imt.root⟩,
        Evm.opAppliedLog env w' module start ⟨pub 5, [pub 4], [], pub 3⟩,
        ⟨module, .emitDisbursedPriv start w'.pool.imt.root pub hashes⟩,
        ⟨module, .disbursePrivDisclosure start disclosure⟩] := by
    have htrees : World.treeLogs env w.pool.imt [.attach (pub 3) none] =
        [⟨env.pool, .subtreeAppended start (pub 3) w'.pool.imt.root⟩] := hstart
    have hops : Call.ops (.disbursePriv256 module proof pub disclosure hashes) = [.attach (pub 3) none] :=
      if_pos hroot
    rw [Message.emitted, hcall]
    dsimp only
    rw [hops, htrees]
    rfl
  rw [hemitted] at hlogs
  obtain ⟨sub, ls, hlist', hsub, hrest⟩ : ∃ sub ls, op.logs = sub :: ls ∧
      Decodes op.message.call ⟨env.pool, .subtreeAppended start (pub 3) w'.pool.imt.root⟩ sub ∧
      List.Forall₂ (Decodes op.message.call) _ ls := by
    cases hown' : op.logs with
    | nil =>
      rw [hown'] at hlogs
      cases hlogs
    | cons sub ls =>
      rw [hown'] at hlogs
      cases hlogs with
      | cons hsub hrest => exact ⟨sub, ls, rfl, hsub, hrest⟩
  obtain ⟨app, fam, disc, rfl, happ, hfam, hdisc⟩ := forall₂_three hrest
  have hlist : op.logs = [sub, app, fam, disc] := hlist'
  set st : SubtreePair := ⟨start, pub 3, w'.pool.imt.root⟩
  have hattach : sub.event = .subtreeAppended st.startLeafIndex st.subtreeRoot st.root := hsub.event
  have hevent : fam.event = .disbursedPriv (pub 4) st.subtreeRoot (pub 2) (pointOf (slice pub 0 2)) (pub 7)
      hashes := hfam.event
  have happlied : app.event = .opApplied module st.startLeafIndex 1 0 st.subtreeRoot st.root := happ.event
  have htexts : disc.event = .disbursePrivDisclosure start disclosure := hdisc.event
  have hnone : fam.event.pair = none ∧ fam.event.subtree = none ∧ fam.event.applied = none := by
    rw [hevent]
    exact ⟨rfl, rfl, rfl⟩
  have htxHash : fam.txHash = op.txHash := htx fam (by simp [hlist])
  have hsame : ∀ l ∈ op.logs, l.txHash = fam.txHash := fun l hl => (htx l hl).trans htxHash.symm
  have htext := (hown sub (by simp [hlist]) _ _ _ hattach).2
  rw [← htxHash] at htext
  have hst : ownSubtree op.logs = st := by
    rw [hlist, ownSubtree]
    simp only [List.filterMap_cons, (sub_event hattach).2.1]
    rfl
  set text := privDisclosureOf op.logs fam.txHash st.startLeafIndex
  set verdict := verifyConsumerDisclosure cfg.arbiter.primitives text (pub 2) st.subtreeRoot cfg.arbiter.B
    fam.txHash st.startLeafIndex with hverdict
  set x : Posting := ⟨[], projectFeedEntry fam.position (.disbursePriv (pointOf (slice pub 0 2)) (pub 7)
    st.startLeafIndex cfg.arbiter.B text verdict.result.status), [pub 4],
    some ⟨st.startLeafIndex, module, fam.txHash, hashes, fam.blockTimestamp, cfg.arbiter.B⟩, verdict.leaves⟩
  have haddress : fam.address = some module := hfam.address
  have hself : postingAt cfg op.logs fam = some x := by
    simp only [postingAt, hevent, hst, haddress]
    rfl
  refine ⟨x, ⟨?_, ?_, by rw [hcall]; simp [x, stripZeros, Call.nullifiers, hne], ⟨fam, by simp [hlist], rfl⟩, ?_⟩,
    ⟨_, rfl, rfl, rfl, rfl, rfl⟩, fun leaves hleaves => leaves_verified hB hleaves, sub, by simp [hlist], _, hattach⟩
  · have hquiet : postingAt cfg op.logs sub = none ∧ postingAt cfg op.logs app = none :=
      ⟨postingAt_quiet (by rw [hattach]; rfl), postingAt_quiet (by rw [happlied]; rfl)⟩
    rw [hlist] at hself hquiet ⊢
    rw [posting, List.findSome?_cons, hquiet.1, List.findSome?_cons, hquiet.2, List.findSome?_cons, hself]
  · rw [hlist] at hsame ⊢
    refine passes_disbursePriv hattach ⟨module, ⟨st.startLeafIndex, 1, 0, st.subtreeRoot, st.root⟩⟩
      happlied hsame hnone.1 hnone.2.1 hnone.2.2 htexts fun rest ops p hqueue hop hs => ?_
    have hhandle : handle cfg logs fam p = _ :=
      handle_disbursedPriv hqueue hevent hop haddress (hs ▸ hknown) rfl htext hverdict.symm
    rw [haddress] at hhandle
    exact hhandle
  · rw [hlist, ownPairs]
    simp only [List.filterMap_cons, hnone.1, (sub_event hattach).1, htexts, happlied]
    rfl

end Consumer

end Families

def toggleEvent (toggle : Address × Bool) : ParsedEvent :=
  if toggle.2 then .moduleRegistered toggle.1 else .moduleRemoved toggle.1

-- What a call means to the indexer: an op with an entry of its own, a batch opened, modules switched on or
-- off, a chunk accepted, or nothing.
inductive Filed (env : Env ℕ T) (cfg : IngestConfig) (logs : List ParsedLog) (op : Mined) (s : IndexerState)
    (w w' : World ℕ T) : Prop
  | family {x : Posting} : Followed cfg logs op s x → x.batch = none → Evm.Still w w' → Filed env cfg logs op s w w'
  | opened {x : Posting} {module : Address} {start subtreeRoot : ℕ} {hashes : List ℕ} :
      Followed cfg logs op s x → Opens cfg op module start subtreeRoot hashes x →
      w.pool.registeredModules module = true → w'.pool.registeredModules = w.pool.registeredModules →
      w'.disburse = (w.setChunkHashes module start hashes).disburse →
      op.message.call.ops = [.attach subtreeRoot none] →
      Evm.StartsAt env w w' start [.attach subtreeRoot none] → Filed env cfg logs op s w w'
  | toggled {toggles : List (Address × Bool)} : op.logs.map (·.event) = toggles.map toggleEvent →
      Evm.Toggles w.pool.registeredModules toggles w'.pool.registeredModules →
      (∀ a, (a, true) ∈ toggles → (env.code a).isSome = true) → w'.disburse = w.disburse →
      op.message.call.ops = [] → op.message.call.nullifiers = [] → Filed env cfg logs op s w w'
  | accepted {module : Address} {batchId chunkIndex : ℕ} {chunkData : Bytes} {l : ParsedLog} :
      op.logs = [l] → l.event = .disburseKemChunkAccepted batchId chunkIndex →
      (∀ data, l.chunkData = some data → data = chunkData) →
      w'.pool.registeredModules = w.pool.registeredModules →
      Evm.Stored env w w' 0 (.submitDisburseKemChunk module batchId chunkIndex chunkData) →
      op.message.call.ops = [] → op.message.call.nullifiers = [] → Filed env cfg logs op s w w'
  | quiet : (∀ l ∈ op.logs, l.event = .other) → Evm.Still w w' → op.message.call.ops = [] →
      op.message.call.nullifiers = [] → Filed env cfg logs op s w w'

theorem Filed.of_followed {w w' : World ℕ T} {op : Mined} (hsettles : Evm.Settles env w op.message w')
    (htoggles : op.message.call.toggles = []) (hstored : ∀ start,
      Evm.Stored env w w' start op.message.call → w'.disburse = w.disburse)
    (h : ∃ x, Followed cfg logs op s x ∧ x.batch = none) : Filed env cfg logs op s w w' := by
  obtain ⟨x, hx, hbatch⟩ := h
  obtain ⟨start, -, -, hstore⟩ := hsettles.logs
  have hreg := hsettles.toggles
  rw [htoggles] at hreg
  refine .family hx hbatch ⟨?_, hstored start hstore⟩
  generalize w'.pool.registeredModules = f at hreg ⊢
  cases hreg
  rfl

theorem step_filed {w w' : World ℕ T} {op : Mined} (hstep : World.step env w op.message = .ok w')
    (hemits : op.Emits w w') (hnative : IsNative env op.message.call) (hserves : cfg.Serves env)
    (hB : 0 < cfg.arbiter.B) (hown : Undisturbed logs op) (hledger : s.ledger = none)
    (hknown : ∀ a, w.pool.registeredModules a = true → s.modules.isKnown a = true) :
    Filed env cfg logs op s w w' := by
  have hsettles := Evm.step_settles hstep
  obtain ⟨heffect, hverified, -, -, -, -⟩ := Evm.step_accepts hstep
  obtain ⟨start, hstart, hlogs, hstored⟩ := hsettles.logs
  obtain ⟨⟨emitted, hsame, hdecoded⟩, htx⟩ := hemits
  obtain rfl := List.append_cancel_left (hsame.symm.trans hlogs)
  have htree := heffect.tree
  have hfresh := heffect.fresh
  obtain ⟨⟨sender, call⟩, txHash, own⟩ := op
  cases call with
  | deposit => exact .of_followed hsettles rfl (fun _ h => h) (followed_deposit htx htree hdecoded rfl hledger)
  | disburseWithCiphertexts =>
    exact .of_followed hsettles rfl (fun _ h => h)
      (followed_disburse htx hdecoded rfl hledger hstart hown (hfresh _ (List.mem_singleton_self _)).1)
  | transfer => exact .of_followed hsettles rfl (fun _ h => h) (followed_transfer htx htree hdecoded rfl hledger)
  | transfer10 =>
    exact .of_followed hsettles rfl (fun _ h => h) (followed_transfer10 htx htree hdecoded rfl hledger)
  | transfer10x2 =>
    exact .of_followed hsettles rfl (fun _ h => h) (followed_transfer10x2 htx htree hdecoded rfl hledger)
  | withdraw => exact .of_followed hsettles rfl (fun _ h => h) (followed_withdraw htx htree hdecoded rfl hledger)
  | applyOp => exact hnative.elim
  | applyOpWithPull => exact hnative.elim
  | applyOpWithPush => exact hnative.elim
  | registerModule module =>
    have hevents : own.map (·.event) = [(module, true)].map toggleEvent := decoded_events hdecoded
    refine .toggled hevents hsettles.toggles (fun a ha => ?_) hstored rfl rfl
    obtain rfl : a = module := by simpa using ha
    exact hnative a (List.mem_singleton_self a)
  | removeModule module =>
    have hevents : own.map (·.event) = [(module, false)].map toggleEvent := decoded_events hdecoded
    exact .toggled hevents hsettles.toggles (fun a ha => by simp at ha) hstored rfl rfl
  | rotateArbiter =>
    refine .quiet (fun l hl => ?_) ?_ rfl rfl
    · obtain ⟨x, y, hlist, hx, hy⟩ := forall₂_two hdecoded
      have hl : l ∈ [x, y] := hlist ▸ hl
      rcases List.mem_pair.mp hl with rfl | rfl
      · exact hx.event
      · exact hy.event
    · exact Evm.still_rotateArbiter (Evm.of_mapError hstep)
  | reinitializeV3 modules =>
    have hevents : own.map (·.event) = (modules.map fun module => (module, true)).map toggleEvent := by
      have hevents := decoded_events hdecoded
      simp only [Message.emitted, List.map_map] at hevents ⊢
      exact hevents
    refine .toggled hevents hsettles.toggles (fun a ha => ?_) hstored rfl rfl
    · obtain ⟨module, hmodule, heq⟩ := List.mem_map.mp ha
      exact hnative a ((Prod.mk.inj heq).1 ▸ hmodule)
  | depositPriv module =>
    exact .of_followed hsettles rfl (fun _ h => h)
      (followed_depositPriv htx htree hdecoded hstart (hknown module hverified.2.1) rfl)
  | transferPriv module =>
    exact .of_followed hsettles rfl (fun _ h => h)
      (followed_transferPriv htx htree hdecoded hstart (hknown module hverified.2.1) rfl)
  | transfer10x2Priv module =>
    exact .of_followed hsettles rfl (fun _ h => h)
      (followed_transfer10x2Priv htx htree hdecoded hstart (hknown module hverified.2.1) rfl)
  | withdrawPriv module =>
    exact .of_followed hsettles rfl (fun _ h => h)
      (followed_withdrawPriv htx htree hdecoded hstart (hknown module hverified.2.1) rfl)
  | disbursePriv256 module proof pub disclosure hashes =>
    obtain ⟨-, hregistered, hproof, -⟩ := hverified
    have hroot : pub 3 ≠ 0 := hserves.batch_ne proof (inject pub 6 [1]) hproof
    have hops : Call.ops (.disbursePriv256 module proof pub disclosure hashes) = [.attach (pub 3) none] :=
      if_pos hroot
    have hattach : Evm.StartsAt env w w' start [.attach (pub 3) none] := hops ▸ hstart
    obtain ⟨x, hx, hopens⟩ := followed_disbursePriv256 htx hdecoded (hknown module hregistered) rfl hattach hown
      (hfresh _ (List.mem_singleton_self _)).1 hroot hB
    have hreg := hsettles.toggles
    refine .opened hx hopens hregistered ?_ hstored hops hattach
    generalize w'.pool.registeredModules = f at hreg ⊢
    cases hreg
    rfl
  | submitDisburseKemChunk module batchId chunkIndex chunkData =>
    obtain ⟨l, hlist, hl⟩ := forall₂_one hdecoded
    have hreg := hsettles.toggles
    refine .accepted hlist hl.event (fun data hdata => ?_) ?_ hstored rfl rfl
    · obtain ⟨_, _, _, hcall⟩ := hl.chunk data hdata
      injection hcall with _ _ _ hdata
      exact hdata.symm
    · generalize w'.pool.registeredModules = f at hreg ⊢
      cases hreg
      rfl

end Bongtu.Indexer
