import Bongtu.Fifo
import Bongtu.Indexer.ChainLogs

namespace Bongtu.Indexer

open Bongtu.Core Outcome

open Evm (Address)

namespace ParsedEvent

def pair : ParsedEvent → Option AppendedPair
  | appended leafIndex leaf root => some ⟨leafIndex, leaf, root⟩
  | _ => none

def subtree : ParsedEvent → Option SubtreePair
  | subtreeAppended start subtreeRoot root => some ⟨start, subtreeRoot, root⟩
  | _ => none

def applied : ParsedEvent → Option OpAppliedRef
  | opApplied module start nullifierCount leafCount subtreeRoot root =>
    some ⟨module, ⟨start, nullifierCount, leafCount, subtreeRoot, root⟩⟩
  | _ => none

-- A plain withdraw announces nothing.
def announcement : ParsedEvent → Option Announcement
  | withdrawAnnouncement recipient ephemeralPub viewTag =>
    if ephemeralPub ≠ 0 then some ⟨recipient, ephemeralPub, viewTag⟩ else none
  | _ => none

-- The logs that only feed the queues.
def isQuiet : ParsedEvent → Bool
  | appended .. | subtreeAppended .. | opApplied .. | disburseCiphertexts ..
  | disbursePrivDisclosure .. | other => true
  | _ => false

end ParsedEvent

section Queues

variable (logs : List ParsedLog)

theorem appendedOf_eq : appendedOf logs = Fifo.queue (·.txHash) (·.event.pair) logs := by
  funext txHash
  refine List.filterMap_congr fun l _ => ?_
  dsimp only
  generalize l.event = e
  cases e <;> simp [ParsedEvent.pair]

theorem subtreesOf_eq : subtreesOf logs = Fifo.queue (·.txHash) (·.event.subtree) logs := by
  funext txHash
  refine List.filterMap_congr fun l _ => ?_
  dsimp only
  generalize l.event = e
  cases e <;> simp [ParsedEvent.subtree]

theorem opAppliedOf_eq : opAppliedOf logs = Fifo.queue (·.txHash) (·.event.applied) logs := by
  funext txHash
  refine List.filterMap_congr fun l _ => ?_
  dsimp only
  generalize l.event = e
  cases e <;> simp [ParsedEvent.applied]

end Queues

-- What a family event leaves in the indexer once its own leaves are taken.
structure Posting where
  pairs : List AppendedPair
  entry : FeedEntry
  nullifiers : List ℕ
  batch : Option KemBatchRow
  leaves : Option (List ℕ)

namespace IndexerState

def recordPairs (pairs : List AppendedPair) (s : IndexerState) : IndexerState :=
  { s with tree := pairs.foldl (fun tree pair => tree.recordLeaf pair.leafIndex pair.leaf) s.tree }

-- A fresh entry brings its nullifiers and its batch; one the feed has already brings nothing.
def post (x : Posting) (s : IndexerState) : IndexerState :=
  let s := s.recordPairs x.pairs
  if x.entry.key ∈ s.store.seen then s
  else { s with
    store := (s.store.addEvent x.entry).2.addNullifiers x.nullifiers
    kem := x.batch.elim s.kem fun row => s.kem.recordBatch x.entry.logIndex row
    tree := (x.batch.bind fun row => x.leaves.map fun leaves => (row.batchId, leaves)).elim s.tree
      fun fill => s.tree.fillBatch fill.1 fill.2 true }

end IndexerState

section Own

variable (cfg : IngestConfig) (own : List ParsedLog)

def ownPairs : List AppendedPair := own.filterMap (·.event.pair)

def ownSubtree : SubtreePair := (own.filterMap (·.event.subtree)).headD ⟨0, 0, 0⟩

def ownAnnouncement : Option Announcement := own.findSome? (·.event.announcement)

-- What the logs of one op alone say about its family event.
def postingAt (l : ParsedLog) : Option Posting :=
  let B := cfg.arbiter.B
  let pairs := ownPairs own
  let st := ownSubtree own
  let place (i : ℕ) := (pairs.map (·.leafIndex)).getD i 0
  match l.event with
  | .deposited .. => some ⟨pairs, projectFeedEntry l.position .deposit, [], none, none⟩
  | .transferred family epoch nullifiers _ receiverCts envelope =>
    some ⟨pairs, projectFeedEntry l.position (.transfer family epoch envelope.ecdhPublicKey
      envelope.encryptionNonce (pairs.map (·.leafIndex)) receiverCts envelope.authorityCt), nullifiers, none, none⟩
  | .withdrawn nullifiers _ _ =>
    some ⟨pairs, projectFeedEntry l.position (.withdraw (ownAnnouncement own)), nullifiers, none, none⟩
  | .disbursed epoch nullifier _ disclosureHash ecdhPublicKey encryptionNonce _ =>
    let ct := ciphertextsOf own l.txHash st.startLeafIndex
    let verdict := verifyDisclosure cfg.arbiter.primitives ct disclosureHash B l.txHash st.startLeafIndex
    some ⟨[], disburseEntry l.position epoch ecdhPublicKey encryptionNonce st.startLeafIndex B ct verdict.status,
      [nullifier], none, none⟩
  | .consumer family nullifiers _ _ args =>
    some ⟨pairs, projectFeedEntry l.position (.consumer family args.ecdhPublicKey args.encryptionNonce (place 0)
      (place 1) args.cts args.viewTags args.kemCiphertexts), nullifiers, none, none⟩
  | .withdrawnPriv nullifiers _ args =>
    some ⟨pairs, projectFeedEntry l.position (.withdrawPriv args.ecdhPublicKey args.encryptionNonce (place 0)
      args.cts args.viewTags args.kemCiphertexts (ownAnnouncement own)), nullifiers, none, none⟩
  | .disbursedPriv nullifier _ disclosureHash ecdhPublicKey encryptionNonce hashes =>
    let disclosure := privDisclosureOf own l.txHash st.startLeafIndex
    let verdict := verifyConsumerDisclosure cfg.arbiter.primitives disclosure disclosureHash st.subtreeRoot B
      l.txHash st.startLeafIndex
    some ⟨[], projectFeedEntry l.position (.disbursePriv ecdhPublicKey encryptionNonce st.startLeafIndex B
      disclosure verdict.result.status), [nullifier],
      some ⟨st.startLeafIndex, l.address.getD 0, l.txHash, hashes, l.blockTimestamp, B⟩, verdict.leaves⟩
  | _ => none

def posting : Option Posting := own.findSome? (postingAt cfg own)

end Own

namespace Pass

-- The queues hold what the logs still to come put in line.
structure Aligned (logs : List ParsedLog) (p : Pass) : Prop where
  appended : p.appended = appendedOf logs
  subtrees : p.subtrees = subtreesOf logs
  opApplied : p.opApplied = opAppliedOf logs
  withdrawEntries : p.withdrawEntries = fun _ => []

theorem takeAppend_ok {txHash : TxHash} {pair : AppendedPair} {rest : List AppendedPair} {p : Pass}
    (h : p.appended txHash = pair :: rest) : p.takeAppend txHash pair.leaf =
      .ok (pair, { p with appended := Function.update p.appended txHash rest }) := by
  simp [takeAppend, h]

theorem takeAppends_ok {txHash : TxHash} {rest : List AppendedPair} (pairs : List AppendedPair) : ∀ {p : Pass},
    p.appended txHash = pairs ++ rest → p.takeAppends txHash (pairs.map (·.leaf)) =
      .ok (pairs, { p with appended := Function.update p.appended txHash rest }) := by
  induction pairs with
  | nil =>
    intro p h
    rw [List.nil_append] at h
    rw [← h, Function.update_eq_self]
    rfl
  | cons pair pairs ih =>
    intro p h
    have hhead := takeAppend_ok h
    have htail := ih (p := { p with appended := Function.update p.appended txHash (pairs ++ rest) })
      (Function.update_self ..)
    simp only [List.map_cons, takeAppends, bind_ok]
    refine ⟨_, hhead, _, htail, ?_⟩
    simp only [Function.update_idem]
    rfl

theorem takeSubtree_ok {txHash : TxHash} {st : SubtreePair} {rest : List SubtreePair} {p : Pass}
    (h : p.subtrees txHash = st :: rest) : p.takeSubtree txHash st.subtreeRoot =
      .ok (st, { p with subtrees := Function.update p.subtrees txHash rest }) := by
  simp [takeSubtree, h]

theorem takeOpApplied_ok {l : ParsedLog} {op : OpAppliedRef} {rest : List OpAppliedRef} {p : Pass}
    (h : p.opApplied l.txHash = op :: rest) (haddress : l.address = some op.module)
    (hknown : p.indexer.modules.isKnown op.module = true) : p.takeOpApplied l op.applied =
      .ok { p with opApplied := Function.update p.opApplied l.txHash rest } := by
  simp [takeOpApplied, h, haddress, hknown, require]
  rfl

end Pass

section Handlers

variable {cfg : IngestConfig} {logs : List ParsedLog} {l : ParsedLog} {p : Pass}

theorem handle_quiet (h : l.event.isQuiet = true) : handle cfg logs l p = .returned p := by
  unfold handle
  cases hl : l.event <;> rw [hl] at h <;> first | rfl | cases h

theorem forEach_quiet (ls : List ParsedLog) (h : ∀ l ∈ ls, l.event.isQuiet = true) :
    Run.forEach (handle cfg logs) ls p = .returned p := by
  induction ls with
  | nil => rfl
  | cons l ls ih =>
    rw [Run.forEach, handle_quiet (h l (by simp)), Run.bind_returned]
    exact ih fun l' hl' => h l' (List.mem_cons_of_mem l hl')

namespace Pass

theorem applyLedger_public {op : OpEnvelope} (h : p.indexer.ledger = none) :
    p.applyLedger cfg op = .returned p := by
  rw [applyLedger, h]

def posted (x : Posting) (p : Pass) : Pass := p.onIndexer (·.post x)

theorem record_seen {x : Posting} {q : Pass} (h : x.entry.key ∈ q.indexer.store.seen) :
    (q.recordPairs x.pairs).addEvent x.entry = (none, q.posted x) := by
  simp [addEvent, Store.addEvent, h, posted, onStore, onIndexer, IndexerState.post, IndexerState.recordPairs,
    recordPairs]

theorem posted_seen {x : Posting} {q : Pass} (h : x.entry.key ∈ q.indexer.store.seen) :
    q.posted x = q.recordPairs x.pairs := by
  simp [posted, onIndexer, IndexerState.post, IndexerState.recordPairs, recordPairs, h]

theorem record_new {x : Posting} {q : Pass} (h : x.entry.key ∉ q.indexer.store.seen) :
    (q.recordPairs x.pairs).addEvent x.entry = (some q.indexer.store.feed.length,
      (q.recordPairs x.pairs).onStore fun s => (s.addEvent x.entry).2) := by
  simp [addEvent, Store.addEvent, h, onStore, onIndexer, recordPairs]

theorem posted_new {x : Posting} {q : Pass} (h : x.entry.key ∉ q.indexer.store.seen) (hbatch : x.batch = none) :
    q.posted x = ((q.recordPairs x.pairs).onStore fun s => (s.addEvent x.entry).2).onStore
      (·.addNullifiers x.nullifiers) := by
  simp [posted, onIndexer, onStore, IndexerState.post, IndexerState.recordPairs, recordPairs, h, hbatch]

theorem posted_batch {x : Posting} {q : Pass} {row : KemBatchRow} (h : x.entry.key ∉ q.indexer.store.seen)
    (hbatch : x.batch = some row) : q.posted x =
      (((q.recordPairs x.pairs).onStore fun s => (s.addEvent x.entry).2).onStore
        (·.addNullifiers x.nullifiers)).onIndexer fun s => { s with
          kem := s.kem.recordBatch x.entry.logIndex row
          tree := x.leaves.elim s.tree fun leaves => s.tree.fillBatch row.batchId leaves true } := by
  cases hleaves : x.leaves <;> simp [posted, onIndexer, onStore, IndexerState.post, IndexerState.recordPairs,
    recordPairs, h, hbatch, hleaves]

-- A withdraw that is new to the feed waits for its announcement.
def withdrawn (txHash : TxHash) (x : Posting) (q : Pass) : Pass :=
  if x.entry.key ∈ q.indexer.store.seen then q.posted x
  else (q.posted x).queueWithdraw txHash q.indexer.store.feed.length

end Pass

theorem key_projectFeedEntry (at' : FeedPosition) (x : OpProjection) :
    (projectFeedEntry at' x).key = (at'.txHash, at'.logIndex) := by
  cases x <;> rfl

section Announce

namespace Store

theorem attach_addNullifiers (place : ℕ) (a : Announcement) (nullifiers : List ℕ) : ∀ s : Store,
    (s.addNullifiers nullifiers).attach place a = (s.attach place a).addNullifiers nullifiers := by
  induction nullifiers with
  | nil => exact fun _ => rfl
  | cons nf nullifiers ih =>
    intro s
    have hstep : (s.addNullifier nf).attach place a = (s.attach place a).addNullifier nf := by
      by_cases h : nf = 0 ∨ nf ∈ s.nullifierSet <;> simp [addNullifier, attach, h]
    exact (ih (s.addNullifier nf)).trans (congrArg (addNullifiers nullifiers) hstep)

theorem modify_last {α : Type} (f : α → α) (x : α) (xs : List α) :
    (xs ++ [x]).modify xs.length f = xs ++ [f x] := by
  induction xs with
  | nil => rfl
  | cons y xs ih =>
    rw [List.cons_append, List.length_cons, List.modify_succ_cons, ih, List.cons_append]

theorem attach_addEvent {e : FeedEntry} {s : Store} (h : e.key ∉ s.seen) (a : Announcement) :
    (s.addEvent e).2.attach s.feed.length a = (s.addEvent { e with announcement := some a }).2 := by
  have hkey : ({ e with announcement := some a } : FeedEntry).key = e.key := rfl
  simp only [addEvent, hkey, h, if_false, attach, modify_last]

end Store

def Posting.announced (x : Posting) (a : Option Announcement) : Posting :=
  { x with entry := a.elim x.entry fun a => { x.entry with announcement := some a } }

-- The announcement goes to the withdraw that waits, and so does the one of a plain withdraw.
theorem handle_announcement {x : Posting} {q : Pass} {recipient ephemeralPub viewTag : ℕ}
    (hl : l.event = .withdrawAnnouncement recipient ephemeralPub viewTag) (hbatch : x.batch = none)
    (hwait : q.withdrawEntries = fun _ => []) :
    handle cfg logs l (q.withdrawn l.txHash x) = .returned (q.posted (x.announced l.event.announcement)) := by
  by_cases h : x.entry.key ∈ q.indexer.store.seen
  · have hq : q.withdrawn l.txHash x = q.posted x := if_pos h
    have hempty : (q.posted x).withdrawEntries l.txHash = [] := congrFun hwait l.txHash
    have hsame : q.posted (x.announced l.event.announcement) = q.posted x := by
      have hkey : (x.announced l.event.announcement).entry.key ∈ q.indexer.store.seen := by
        cases l.event.announcement <;> exact h
      rw [Pass.posted_seen hkey, Pass.posted_seen h]
      rfl
    rw [hq, hsame]
    simp only [handle, hl, handleWithdrawAnnouncement, hempty]
  · have hq : q.withdrawn l.txHash x = (q.posted x).queueWithdraw l.txHash q.indexer.store.feed.length :=
      if_neg h
    have hentries : (q.withdrawn l.txHash x).withdrawEntries =
        Function.update (fun _ => []) l.txHash [q.indexer.store.feed.length] := by
      rw [hq]
      simp [Pass.queueWithdraw, Pass.posted, Pass.onIndexer, hwait]
    have hclear : { q.withdrawn l.txHash x with
        withdrawEntries := Function.update (q.withdrawn l.txHash x).withdrawEntries l.txHash [] } = q.posted x := by
      rw [hentries, Function.update_idem, Function.update_eq_self_iff.mpr rfl, hq]
      simp [Pass.queueWithdraw, Pass.posted, Pass.onIndexer, hwait]
    have hhead : (q.withdrawn l.txHash x).withdrawEntries l.txHash = [q.indexer.store.feed.length] := by
      rw [hentries, Function.update_self]
    simp only [handle, hl, handleWithdrawAnnouncement, hhead, hclear]
    rw [ParsedEvent.announcement]
    by_cases hplain : ephemeralPub = 0
    · simp [hplain, Posting.announced]
    · have hnew : (x.announced (some ⟨recipient, ephemeralPub, viewTag⟩)).entry.key ∉ q.indexer.store.seen := h
      have hstore : ((q.indexer.store.addEvent x.entry).2.addNullifiers x.nullifiers).attach
          q.indexer.store.feed.length ⟨recipient, ephemeralPub, viewTag⟩ =
          (q.indexer.store.addEvent { x.entry with
            announcement := some ⟨recipient, ephemeralPub, viewTag⟩ }).2.addNullifiers x.nullifiers := by
        rw [Store.attach_addNullifiers, Store.attach_addEvent h]
      rw [if_pos hplain, if_pos hplain, Pass.posted_new h hbatch, Pass.posted_new hnew hbatch]
      exact congrArg (fun store => Run.returned ((q.recordPairs x.pairs).onStore fun _ => store)) hstore

end Announce

section Family

variable {pairs rest : List AppendedPair} (hqueue : p.appended l.txHash = pairs ++ rest)
  (hledger : p.indexer.ledger = none)

include hqueue hledger

theorem handle_deposited {oc0 oc1 : ℕ} {envelope : EnvelopeArgs} (hl : l.event = .deposited oc0 oc1 envelope)
    (hleaves : pairs.map (·.leaf) = [oc0, oc1]) : handle cfg logs l p =
      .returned (Pass.posted ⟨pairs, projectFeedEntry l.position .deposit, [], none, none⟩
        { p with appended := Function.update p.appended l.txHash rest }) := by
  have htake := Pass.takeAppends_ok pairs hqueue
  rw [hleaves] at htake
  set q : Pass := { p with appended := Function.update p.appended l.txHash rest } with hq
  set x : Posting := ⟨pairs, projectFeedEntry l.position .deposit, [], none, none⟩ with hx
  simp only [handle, hl, handleDeposited, htake, onTaken]
  by_cases h : x.entry.key ∈ q.indexer.store.seen
  · rw [Pass.record_seen h]
  · rw [Pass.record_new h, Pass.posted_new h rfl]
    exact Pass.applyLedger_public hledger

theorem handle_transferred {family : EnterpriseTransfer} {epoch : ℕ}
    {nullifiers commitments receiverCts : List ℕ} {envelope : EnvelopeArgs}
    (hl : l.event = .transferred family epoch nullifiers commitments receiverCts envelope)
    (hleaves : pairs.map (·.leaf) = commitments) : handle cfg logs l p =
      .returned (Pass.posted ⟨pairs, projectFeedEntry l.position (.transfer family epoch
          envelope.ecdhPublicKey envelope.encryptionNonce (pairs.map (·.leafIndex)) receiverCts
          envelope.authorityCt), nullifiers, none, none⟩
        { p with appended := Function.update p.appended l.txHash rest }) := by
  have htake := Pass.takeAppends_ok pairs hqueue
  rw [hleaves] at htake
  set q : Pass := { p with appended := Function.update p.appended l.txHash rest } with hq
  set x : Posting := ⟨pairs, projectFeedEntry l.position (.transfer family epoch envelope.ecdhPublicKey
    envelope.encryptionNonce (pairs.map (·.leafIndex)) receiverCts envelope.authorityCt), nullifiers, none,
    none⟩ with hx
  simp only [handle, hl, handleTransferred, htake, onTaken]
  by_cases h : x.entry.key ∈ q.indexer.store.seen
  · rw [Pass.record_seen h]
  · rw [Pass.record_new h, Pass.posted_new h rfl]
    exact Pass.applyLedger_public hledger

theorem handle_withdrawn {nullifiers : List ℕ} {change : ℕ} {envelope : EnvelopeArgs}
    (hl : l.event = .withdrawn nullifiers change envelope) (hleaves : pairs.map (·.leaf) = [change]) :
    handle cfg logs l p = .returned (Pass.withdrawn l.txHash
      ⟨pairs, projectFeedEntry l.position (.withdraw none), nullifiers, none, none⟩
      { p with appended := Function.update p.appended l.txHash rest }) := by
  have htake := Pass.takeAppends_ok pairs hqueue
  rw [hleaves] at htake
  set q : Pass := { p with appended := Function.update p.appended l.txHash rest } with hq
  set x : Posting := ⟨pairs, projectFeedEntry l.position (.withdraw none), nullifiers, none, none⟩ with hx
  simp only [handle, hl, handleWithdrawn, htake, onTaken]
  by_cases h : x.entry.key ∈ q.indexer.store.seen
  · rw [Pass.record_seen h, Pass.withdrawn, if_pos h]
  · rw [Pass.record_new h, Pass.withdrawn, if_neg h, Pass.posted_new h rfl]
    exact Pass.applyLedger_public hledger

end Family

section Module

variable {op : OpAppliedRef} {ops : List OpAppliedRef} (hop : p.opApplied l.txHash = op :: ops)
  (haddress : l.address = some op.module) (hknown : p.indexer.modules.isKnown op.module = true)

include hop haddress hknown

theorem handle_consumer {family : ConsumerSmall} {nullifiers : List ℕ} {args : ConsumerArgs}
    {p0 p1 : AppendedPair} {rest : List AppendedPair} (hqueue : p.appended l.txHash = p0 :: p1 :: rest)
    (hl : l.event = .consumer family nullifiers p0.leaf p1.leaf args)
    (happlied : op.applied = ⟨p0.leafIndex, nonzeroCount nullifiers, 2, 0, p1.root⟩) :
    handle cfg logs l p = .returned (Pass.posted
      ⟨[p0, p1], projectFeedEntry l.position (.consumer family args.ecdhPublicKey args.encryptionNonce
        p0.leafIndex p1.leafIndex args.cts args.viewTags args.kemCiphertexts), nullifiers, none, none⟩
      { p with
        appended := Function.update p.appended l.txHash rest
        opApplied := Function.update p.opApplied l.txHash ops }) := by
  have h0 := Pass.takeAppend_ok hqueue
  have h1 := Pass.takeAppend_ok (p := { p with appended := Function.update p.appended l.txHash (p1 :: rest) })
    (Function.update_self ..)
  have h2 := Pass.takeOpApplied_ok (p := { p with appended := Function.update p.appended l.txHash rest })
    hop haddress hknown
  rw [happlied] at h2
  simp only [Function.update_idem] at h1
  set q : Pass := { p with
    appended := Function.update p.appended l.txHash rest
    opApplied := Function.update p.opApplied l.txHash ops } with hq
  set x : Posting := ⟨[p0, p1], projectFeedEntry l.position (.consumer family args.ecdhPublicKey
    args.encryptionNonce p0.leafIndex p1.leafIndex args.cts args.viewTags args.kemCiphertexts), nullifiers, none,
    none⟩ with hx
  simp only [handle, hl, handleConsumer, h0, h1, h2, bind, Except.bind, pure, Except.pure, onTaken]
  by_cases h : x.entry.key ∈ q.indexer.store.seen
  · rw [Pass.record_seen h]
  · rw [Pass.record_new h, Pass.posted_new h rfl]

theorem handle_withdrawnPriv {nullifiers : List ℕ} {args : ConsumerArgs} {pc : AppendedPair}
    {rest : List AppendedPair} (hqueue : p.appended l.txHash = pc :: rest)
    (hl : l.event = .withdrawnPriv nullifiers pc.leaf args)
    (happlied : op.applied = ⟨pc.leafIndex, nonzeroCount nullifiers, 1, 0, pc.root⟩) :
    handle cfg logs l p = .returned (Pass.withdrawn l.txHash
      ⟨[pc], projectFeedEntry l.position (.withdrawPriv args.ecdhPublicKey args.encryptionNonce pc.leafIndex
        args.cts args.viewTags args.kemCiphertexts none), nullifiers, none, none⟩
      { p with
        appended := Function.update p.appended l.txHash rest
        opApplied := Function.update p.opApplied l.txHash ops }) := by
  have h0 := Pass.takeAppend_ok hqueue
  have h1 := Pass.takeOpApplied_ok (p := { p with appended := Function.update p.appended l.txHash rest })
    hop haddress hknown
  rw [happlied] at h1
  set q : Pass := { p with
    appended := Function.update p.appended l.txHash rest
    opApplied := Function.update p.opApplied l.txHash ops } with hq
  set x : Posting := ⟨[pc], projectFeedEntry l.position (.withdrawPriv args.ecdhPublicKey args.encryptionNonce
    pc.leafIndex args.cts args.viewTags args.kemCiphertexts none), nullifiers, none, none⟩ with hx
  simp only [handle, hl, handleWithdrawnPriv, h0, h1, bind, Except.bind, pure, Except.pure, onTaken]
  by_cases h : x.entry.key ∈ q.indexer.store.seen
  · rw [Pass.record_seen h, Pass.withdrawn, if_pos h]
  · rw [Pass.record_new h, Pass.withdrawn, if_neg h, Pass.posted_new h rfl]
    rfl

end Module

section Batch

variable {st : SubtreePair} {rest : List SubtreePair} (hqueue : p.subtrees l.txHash = st :: rest)

include hqueue

theorem handle_disbursed {epoch nullifier disclosureHash encryptionNonce : ℕ} {ecdhPublicKey : Point}
    {kem : Option KemMaterial} (hledger : p.indexer.ledger = none)
    (hl : l.event = .disbursed epoch nullifier st.subtreeRoot disclosureHash ecdhPublicKey encryptionNonce kem) :
    handle cfg logs l p = .returned (Pass.posted
      ⟨[], disburseEntry l.position epoch ecdhPublicKey encryptionNonce st.startLeafIndex cfg.arbiter.B
        (ciphertextsOf logs l.txHash st.startLeafIndex) (verifyDisclosure cfg.arbiter.primitives
          (ciphertextsOf logs l.txHash st.startLeafIndex) disclosureHash cfg.arbiter.B l.txHash
          st.startLeafIndex).status, [nullifier], none, none⟩
      { p with subtrees := Function.update p.subtrees l.txHash rest }) := by
  have htake := Pass.takeSubtree_ok hqueue
  set q : Pass := { p with subtrees := Function.update p.subtrees l.txHash rest } with hq
  set ct := ciphertextsOf logs l.txHash st.startLeafIndex with hct
  set x : Posting := ⟨[], disburseEntry l.position epoch ecdhPublicKey encryptionNonce st.startLeafIndex
    cfg.arbiter.B ct (verifyDisclosure cfg.arbiter.primitives ct disclosureHash cfg.arbiter.B l.txHash
      st.startLeafIndex).status, [nullifier], none, none⟩ with hx
  simp only [handle, hl, handleDisbursed, htake, onTaken]
  by_cases h : x.entry.key ∈ q.indexer.store.seen
  · have hrecord := Pass.record_seen h
    rw [show q.recordPairs x.pairs = q from rfl] at hrecord
    rw [hrecord]
  · have hrecord := Pass.record_new h
    rw [show q.recordPairs x.pairs = q from rfl] at hrecord
    rw [hrecord, Pass.posted_new h rfl]
    dsimp only
    split
    · exact Pass.applyLedger_public hledger
    · rfl

theorem handle_disbursedPriv {nullifier disclosureHash encryptionNonce : ℕ} {ecdhPublicKey : Point}
    {hashes : List ℕ} {op : OpAppliedRef} {ops : List OpAppliedRef}
    (hl : l.event = .disbursedPriv nullifier st.subtreeRoot disclosureHash ecdhPublicKey encryptionNonce hashes)
    (hop : p.opApplied l.txHash = op :: ops) (haddress : l.address = some op.module)
    (hknown : p.indexer.modules.isKnown op.module = true)
    (happlied : op.applied = ⟨st.startLeafIndex, 1, 0, st.subtreeRoot, st.root⟩) {disclosure : List ℕ}
    (hdisclosure : privDisclosureOf logs l.txHash st.startLeafIndex = disclosure)
    {verdict : ConsumerDisclosureVerdict} (hverdict : verifyConsumerDisclosure cfg.arbiter.primitives disclosure
      disclosureHash st.subtreeRoot cfg.arbiter.B l.txHash st.startLeafIndex = verdict) :
    handle cfg logs l p = .returned (Pass.posted
      ⟨[], projectFeedEntry l.position (.disbursePriv ecdhPublicKey encryptionNonce st.startLeafIndex
        cfg.arbiter.B disclosure verdict.result.status), [nullifier],
        some ⟨st.startLeafIndex, l.address.getD 0, l.txHash, hashes, l.blockTimestamp, cfg.arbiter.B⟩,
        verdict.leaves⟩
      { p with
        subtrees := Function.update p.subtrees l.txHash rest
        opApplied := Function.update p.opApplied l.txHash ops }) := by
  have h0 := Pass.takeSubtree_ok hqueue
  have h1 := Pass.takeOpApplied_ok (p := { p with subtrees := Function.update p.subtrees l.txHash rest })
    hop haddress hknown
  rw [happlied] at h1
  set q : Pass := { p with
    subtrees := Function.update p.subtrees l.txHash rest
    opApplied := Function.update p.opApplied l.txHash ops } with hq
  set x : Posting := ⟨[], projectFeedEntry l.position (.disbursePriv ecdhPublicKey encryptionNonce
    st.startLeafIndex cfg.arbiter.B disclosure verdict.result.status), [nullifier],
    some ⟨st.startLeafIndex, l.address.getD 0, l.txHash, hashes, l.blockTimestamp, cfg.arbiter.B⟩,
    verdict.leaves⟩ with hx
  simp only [handle, hl, handleDisbursedPriv, h0, h1, bind, Except.bind, pure, Except.pure, onTaken,
    hdisclosure, hverdict]
  by_cases h : x.entry.key ∈ q.indexer.store.seen
  · have hrecord := Pass.record_seen h
    rw [show q.recordPairs x.pairs = q from rfl] at hrecord
    rw [hrecord]
  · have hrecord := Pass.record_new h
    rw [show q.recordPairs x.pairs = q from rfl] at hrecord
    rw [hrecord]
    rw [Pass.posted_batch h rfl]
    rfl

end Batch

end Handlers

end Bongtu.Indexer
