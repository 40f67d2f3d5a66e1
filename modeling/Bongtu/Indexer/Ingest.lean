import Bongtu.Indexer.Disclosure
import Bongtu.Indexer.Registries
import Bongtu.Indexer.SolanaIngest
import Bongtu.Indexer.Store

namespace Bongtu.Indexer

open Bongtu.Core Outcome

open Evm (Address)

structure EnvelopeArgs where
  ecdhPublicKey : Point
  encryptionNonce : ℕ
  authorityCt : List ℕ
  kem : Option KemMaterial
deriving DecidableEq, Repr

structure ConsumerArgs where
  ecdhPublicKey : Point
  encryptionNonce : ℕ
  cts : List ℕ
  viewTags : List ℕ
  kemCiphertexts : List Bytes
deriving DecidableEq, Repr

-- The arguments the handlers read of each decoded event. The three enterprise transfers share one
-- grammar, and so do the three two-output consumer ops.
inductive ParsedEvent where
  | appended (leafIndex leaf root : ℕ)
  | subtreeAppended (startLeafIndex subtreeRoot root : ℕ)
  | opApplied (module : Address) (startLeafIndex nullifierCount leafCount subtreeRoot root : ℕ)
  | deposited (oc0 oc1 : ℕ) (envelope : EnvelopeArgs)
  | transferred (family : EnterpriseTransfer) (epoch : ℕ) (nullifiers outputCommitments receiverCts : List ℕ)
      (envelope : EnvelopeArgs)
  | withdrawn (nullifiers : List ℕ) (changeCommitment : ℕ) (envelope : EnvelopeArgs)
  | withdrawAnnouncement (recipient stealthEphemeralPub stealthViewTag : ℕ)
  | disbursed (epoch nullifier subtreeRoot disclosureHash : ℕ) (ecdhPublicKey : Point)
      (encryptionNonce : ℕ) (kem : Option KemMaterial)
  | disburseCiphertexts (startLeafIndex : ℕ) (receiverCiphertexts : List ℕ)
  | moduleRegistered (module : Address)
  | moduleRemoved (module : Address)
  | consumer (family : ConsumerSmall) (nullifiers : List ℕ) (oc0 oc1 : ℕ) (args : ConsumerArgs)
  | withdrawnPriv (nullifiers : List ℕ) (changeCommitment : ℕ) (args : ConsumerArgs)
  | disbursedPriv (nullifier subtreeRoot disclosureHash : ℕ) (ecdhPublicKey : Point)
      (encryptionNonce : ℕ) (kemChunkHashes : List ℕ)
  | disbursePrivDisclosure (startLeafIndex : ℕ) (disclosure : List ℕ)
  | disburseKemChunkAccepted (batchId chunkIndex : ℕ)
  | swept (salt : ℕ) (sweeper : Address) (amount : ℕ)
  | announced (salt ephemeralPub viewTag : ℕ)
  | other
deriving DecidableEq, Repr

-- `chunkData` is what the tx fetch decoded for an accepted chunk.
structure ParsedLog where
  address : Option Address
  txHash : TxHash
  blockNumber : ℕ
  logIndex : ℕ
  blockTimestamp : ℕ
  event : ParsedEvent
  chunkData : Option Bytes
deriving DecidableEq, Repr

def ParsedLog.key (l : ParsedLog) : OpKey := (l.txHash, l.logIndex)

def ParsedLog.position (l : ParsedLog) : FeedPosition := ⟨l.txHash, l.blockNumber, l.logIndex⟩

namespace ParsedEvent

def isPoolEvent : ParsedEvent → Bool
  | appended .. | subtreeAppended .. | opApplied .. | deposited .. | transferred .. | withdrawn ..
  | withdrawAnnouncement .. | disbursed .. | disburseCiphertexts .. | moduleRegistered _
  | moduleRemoved _ => true
  | _ => false

def isModuleEvent : ParsedEvent → Bool
  | consumer .. | withdrawnPriv .. | disbursedPriv .. | disbursePrivDisclosure ..
  | disburseKemChunkAccepted .. | withdrawAnnouncement .. => true
  | _ => false

def isSwept : ParsedEvent → Bool
  | swept .. => true
  | _ => false

def isAnnounced : ParsedEvent → Bool
  | announced .. => true
  | _ => false

def treeEvent : ParsedEvent → Option (TreeEvent ℕ)
  | appended leafIndex leaf root => some (.appended leafIndex leaf root)
  | subtreeAppended start subtreeRoot root => some (.subtreeAppended start subtreeRoot root)
  | _ => none

end ParsedEvent

structure IngestConfig where
  arbiter : Arbiter
  pool : Address
  portalFactory : Option Address
  portalPrivFactory : Option Address
  keccak256 : Bytes → ℕ

structure IndexerState where
  tree : MirrorTree ℕ
  store : Store
  ledger : Option PostgresLedger
  portal : PortalRegistry
  modules : ModuleRegistry
  kem : KemChunkStore

structure AppendedPair where
  leafIndex : ℕ
  leaf : ℕ
  root : ℕ
deriving DecidableEq, Repr

structure SubtreePair where
  startLeafIndex : ℕ
  subtreeRoot : ℕ
  root : ℕ
deriving DecidableEq, Repr

structure AppliedOp where
  startLeafIndex : ℕ
  nullifierCount : ℕ
  leafCount : ℕ
  subtreeRoot : ℕ
  root : ℕ
deriving DecidableEq, Repr

structure OpAppliedRef where
  module : Address
  applied : AppliedOp
deriving DecidableEq, Repr

inductive IngestError where
  | mirror (e : MirrorError)
  | noAppended (txHash : TxHash)
  | leafMismatch (txHash : TxHash) (leafIndex : ℕ)
  | noSubtree (txHash : TxHash)
  | subtreeMismatch (txHash : TxHash) (start : ℕ)
  | noOpApplied (txHash : TxHash)
  | opAppliedModule (txHash : TxHash) (module : Address)
  | unknownModule (txHash : TxHash) (module : Address)
  | opAppliedDisagrees (txHash : TxHash)
  | derive (e : DeriveError)
  | registry (e : RegistryError)
deriving DecidableEq, Repr

section AddressGate

variable (cfg : IngestConfig)

-- Which logs their emitter is entitled to; the watch set grows along the range.
def gate (watched : Address → Bool) : List ParsedLog → List ParsedLog
  | [] => []
  | l :: logs =>
    let rest := gate (match l.event with
      | .moduleRegistered module => if l.address.elim true (· = cfg.pool) then
          Function.update watched module true else watched
      | _ => watched) logs
    let keeps : Bool := match l.address with
      | none => l.event.isPoolEvent
      | some from' =>
        if from' = cfg.pool then l.event.isPoolEvent
        else if cfg.portalFactory = some from' then l.event.isSwept
        else if cfg.portalPrivFactory = some from' then l.event.isSwept || l.event.isAnnounced
        else watched from' && l.event.isModuleEvent
    if keeps then l :: rest else rest

def entitled (s : IndexerState) (rawLogs : List ParsedLog) : List ParsedLog :=
  gate cfg (s.modules.watches s.kem.pendingModules) rawLogs

end AddressGate

-- Pass 1.
def driveMirror (cfg : IngestConfig) (l : ParsedLog) (s : IndexerState) : Run IngestError IndexerState :=
  match l.event.treeEvent with
  | none => .returned s
  | some e => match MirrorTree.apply cfg.arbiter.primitives.poseidon2 e s.tree with
    | .returned tree => .returned { s with tree := tree }
    | .threw err tree => .threw (.mirror err) { s with tree := tree }

section Queues

variable (logs : List ParsedLog)

def appendedOf (txHash : TxHash) : List AppendedPair :=
  logs.filterMap fun l => match l.event with
    | .appended leafIndex leaf root => if l.txHash = txHash then some ⟨leafIndex, leaf, root⟩ else none
    | _ => none

def subtreesOf (txHash : TxHash) : List SubtreePair :=
  logs.filterMap fun l => match l.event with
    | .subtreeAppended start subtreeRoot root =>
      if l.txHash = txHash then some ⟨start, subtreeRoot, root⟩ else none
    | _ => none

def opAppliedOf (txHash : TxHash) : List OpAppliedRef :=
  logs.filterMap fun l => match l.event with
    | .opApplied module start nullifierCount leafCount subtreeRoot root =>
      if l.txHash = txHash then some ⟨module, ⟨start, nullifierCount, leafCount, subtreeRoot, root⟩⟩ else none
    | _ => none

-- The last log of a start wins, as in a map.
def ciphertextsOf (txHash : TxHash) (start : ℕ) : List ℕ :=
  (logs.filterMap fun l => match l.event with
    | .disburseCiphertexts start' ct => if l.txHash = txHash ∧ start' = start then some ct else none
    | _ => none).getLastD []

def privDisclosureOf (txHash : TxHash) (start : ℕ) : List ℕ :=
  (logs.filterMap fun l => match l.event with
    | .disbursePrivDisclosure start' disclosure =>
      if l.txHash = txHash ∧ start' = start then some disclosure else none
    | _ => none).getLastD []

end Queues

structure SweptArgs where
  sweeper : Address
  amount : ℕ
  txHash : TxHash
deriving DecidableEq, Repr

-- What one call carries along pass 2.
structure Pass where
  indexer : IndexerState
  appended : TxHash → List AppendedPair
  subtrees : TxHash → List SubtreePair
  opApplied : TxHash → List OpAppliedRef
  withdrawEntries : TxHash → List ℕ
  sweptArgs : ℕ → Option SweptArgs

namespace Pass

def start (logs : List ParsedLog) (s : IndexerState) : Pass :=
  ⟨s, appendedOf logs, subtreesOf logs, opAppliedOf logs, fun _ => [], fun _ => none⟩

def takeAppend (txHash : TxHash) (expected : ℕ) (p : Pass) : Except IngestError (AppendedPair × Pass) :=
  match p.appended txHash with
  | [] => .error (.noAppended txHash)
  | pair :: rest =>
    if pair.leaf ≠ expected then .error (.leafMismatch txHash pair.leafIndex)
    else .ok (pair, { p with appended := Function.update p.appended txHash rest })

def takeAppends (txHash : TxHash) : List ℕ → Pass → Except IngestError (List AppendedPair × Pass)
  | [], p => .ok ([], p)
  | expected :: commitments, p => do
    let (pair, p) ← p.takeAppend txHash expected
    let (pairs, p) ← takeAppends txHash commitments p
    return (pair :: pairs, p)

def takeSubtree (txHash : TxHash) (subtreeRoot : ℕ) (p : Pass) : Except IngestError (SubtreePair × Pass) :=
  match p.subtrees txHash with
  | [] => .error (.noSubtree txHash)
  | st :: rest =>
    if st.subtreeRoot ≠ subtreeRoot then .error (.subtreeMismatch txHash st.startLeafIndex)
    else .ok (st, { p with subtrees := Function.update p.subtrees txHash rest })

def takeOpApplied (l : ParsedLog) (expect : AppliedOp) (p : Pass) : Except IngestError Pass :=
  match p.opApplied l.txHash with
  | [] => .error (.noOpApplied l.txHash)
  | op :: rest => do
    require (l.address.elim true (· = op.module)) (.opAppliedModule l.txHash op.module)
    require (p.indexer.modules.isKnown op.module) (.unknownModule l.txHash op.module)
    require (op.applied = expect) (.opAppliedDisagrees l.txHash)
    return { p with opApplied := Function.update p.opApplied l.txHash rest }

def onIndexer (f : IndexerState → IndexerState) (p : Pass) : Pass := { p with indexer := f p.indexer }

def onStore (f : Store → Store) (p : Pass) : Pass := p.onIndexer fun s => { s with store := f s.store }

def recordPairs (pairs : List AppendedPair) (p : Pass) : Pass :=
  p.onIndexer fun s => { s with
    tree := pairs.foldl (fun tree pair => tree.recordLeaf pair.leafIndex pair.leaf) s.tree }

def addEvent (e : FeedEntry) (p : Pass) : Option ℕ × Pass :=
  let added := p.indexer.store.addEvent e
  (added.1, p.onStore fun _ => added.2)

def queueWithdraw (txHash : TxHash) (place : ℕ) (p : Pass) : Pass :=
  { p with withdrawEntries :=
      Function.update p.withdrawEntries txHash (p.withdrawEntries txHash ++ [place]) }

def applyLedger (cfg : IngestConfig) (op : OpEnvelope) (p : Pass) : Run IngestError Pass :=
  match p.indexer.ledger with
  | none => .returned p
  | some ledger => match PostgresLedger.apply cfg.arbiter op (ledger, p.indexer.tree) with
    | .returned (ledger, tree) =>
      .returned (p.onIndexer fun s => { s with ledger := some ledger, tree := tree })
    | .threw e (ledger, tree) =>
      .threw (.derive e) (p.onIndexer fun s => { s with ledger := some ledger, tree := tree })

end Pass

def opEnvelope (kind : Core.OpKind) (l : ParsedLog) (envelope : EnvelopeArgs) (outputLeaves : List OutputLeaf)
    (batch : Option BatchRef) : OpEnvelope :=
  ⟨kind, l.txHash, l.logIndex, l.blockTimestamp, envelope.ecdhPublicKey, envelope.encryptionNonce,
    envelope.authorityCt, envelope.kem, outputLeaves, batch⟩

def EnterpriseTransfer.opKind : EnterpriseTransfer → Core.OpKind
  | .transfer => .transfer
  | .transfer10 => .transfer10
  | .transfer10x2 => .transfer10x2

def outputLeavesOf (pairs : List AppendedPair) : List OutputLeaf :=
  pairs.map fun pair => ⟨pair.leafIndex, pair.leaf⟩

-- Refuses with nothing done yet, or carries on.
def onTaken {α : Type} (p : Pass) (taken : Except IngestError (α × Pass)) (f : α → Pass → Run IngestError Pass) :
    Run IngestError Pass :=
  match taken with
  | .error e => .threw e p
  | .ok (a, p) => f a p

section Handlers

variable (cfg : IngestConfig) (logs : List ParsedLog) (l : ParsedLog)

def handleDeposited (oc0 oc1 : ℕ) (envelope : EnvelopeArgs) (p : Pass) : Run IngestError Pass :=
  onTaken p (p.takeAppends l.txHash [oc0, oc1]) fun pairs p =>
    match (p.recordPairs pairs).addEvent (projectFeedEntry l.position .deposit) with
    | (none, p) => .returned p
    | (some _, p) => p.applyLedger cfg (opEnvelope .deposit l envelope (outputLeavesOf pairs) none)

def handleTransferred (family : EnterpriseTransfer) (epoch : ℕ) (nullifiers outputCommitments : List ℕ)
    (receiverCts : List ℕ) (envelope : EnvelopeArgs) (p : Pass) : Run IngestError Pass :=
  onTaken p (p.takeAppends l.txHash outputCommitments) fun pairs p =>
    match (p.recordPairs pairs).addEvent (projectFeedEntry l.position (.transfer family epoch
      envelope.ecdhPublicKey envelope.encryptionNonce (pairs.map (·.leafIndex)) receiverCts
      envelope.authorityCt)) with
    | (none, p) => .returned p
    | (some _, p) => (p.onStore (·.addNullifiers nullifiers)).applyLedger cfg
        (opEnvelope family.opKind l envelope (outputLeavesOf pairs) none)

def handleWithdrawn (nullifiers : List ℕ) (changeCommitment : ℕ) (envelope : EnvelopeArgs) (p : Pass) :
    Run IngestError Pass :=
  onTaken p (p.takeAppends l.txHash [changeCommitment]) fun pairs p =>
    match (p.recordPairs pairs).addEvent (projectFeedEntry l.position (.withdraw none)) with
    | (none, p) => .returned p
    | (some place, p) => ((p.queueWithdraw l.txHash place).onStore (·.addNullifiers nullifiers)).applyLedger
        cfg (opEnvelope .withdraw l envelope (outputLeavesOf pairs) none)

-- Only a real stealth announcement is attached; the queue is consumed either way.
def handleWithdrawAnnouncement (recipient ephemeralPub viewTag : ℕ) (p : Pass) : Run IngestError Pass :=
  match p.withdrawEntries l.txHash with
  | [] => .returned p
  | place :: rest =>
    let p := { p with withdrawEntries := Function.update p.withdrawEntries l.txHash rest }
    .returned (if ephemeralPub ≠ 0 then p.onStore (·.attach place ⟨recipient, ephemeralPub, viewTag⟩) else p)

def handleSwept (salt : ℕ) (sweeper : Address) (amount : ℕ) (p : Pass) : Run IngestError Pass :=
  let p := p.onIndexer fun s => { s with portal := s.portal.markSwept salt l.txHash amount }
  .returned { p with sweptArgs := Function.update p.sweptArgs salt (some ⟨sweeper, amount, l.txHash⟩) }

def handleAnnounced (salt ephemeralPub viewTag : ℕ) (p : Pass) : Run IngestError Pass :=
  match p.sweptArgs salt with
  | none => .returned p
  | some swept => .returned (p.onIndexer fun s => { s with
      portal := s.portal.recordChainAnnouncement ⟨salt, ephemeralPub, viewTag, swept.sweeper,
        cfg.portalPrivFactory, swept.txHash, swept.amount, l.blockTimestamp⟩ })

def handleDisbursed (epoch nullifier subtreeRoot disclosureHash : ℕ) (ecdhPublicKey : Point)
    (encryptionNonce : ℕ) (kem : Option KemMaterial) (p : Pass) : Run IngestError Pass :=
  onTaken p (p.takeSubtree l.txHash subtreeRoot) fun st p =>
    let B := cfg.arbiter.B
    let ct := ciphertextsOf logs l.txHash st.startLeafIndex
    let disclosure := verifyDisclosure cfg.arbiter.primitives ct disclosureHash B l.txHash st.startLeafIndex
    match p.addEvent (disburseEntry l.position epoch ecdhPublicKey encryptionNonce st.startLeafIndex B ct
      disclosure.status) with
    | (none, p) => .returned p
    | (some _, p) =>
      let p := p.onStore (·.addNullifiers [nullifier])
      if ct.length > B * 4 then p.applyLedger cfg (opEnvelope .disburse l
        ⟨ecdhPublicKey, encryptionNonce, ct.drop (B * 4), kem⟩ []
        (some ⟨st.startLeafIndex, st.subtreeRoot⟩))
      else .returned p

def handleModule (f : OpKey → ModuleRegistry → Run RegistryError ModuleRegistry) (p : Pass) :
    Run IngestError Pass :=
  match f l.key p.indexer.modules with
  | .returned modules => .returned (p.onIndexer fun s => { s with modules := modules })
  | .threw e modules => .threw (.registry e) (p.onIndexer fun s => { s with modules := modules })

def nonzeroCount (nullifiers : List ℕ) : ℕ := (nullifiers.filter (· ≠ 0)).length

def handleConsumer (family : ConsumerSmall) (nullifiers : List ℕ) (oc0 oc1 : ℕ) (args : ConsumerArgs)
    (p : Pass) : Run IngestError Pass :=
  onTaken p (do
    let (p0, p) ← p.takeAppend l.txHash oc0
    let (p1, p) ← p.takeAppend l.txHash oc1
    let p ← p.takeOpApplied l ⟨p0.leafIndex, nonzeroCount nullifiers, 2, 0, p1.root⟩
    return ((p0, p1), p)) fun (p0, p1) p =>
    match (p.recordPairs [p0, p1]).addEvent (projectFeedEntry l.position (.consumer family
      args.ecdhPublicKey args.encryptionNonce p0.leafIndex p1.leafIndex args.cts args.viewTags
      args.kemCiphertexts)) with
    | (none, p) => .returned p
    | (some _, p) => .returned (p.onStore (·.addNullifiers nullifiers))

def handleWithdrawnPriv (nullifiers : List ℕ) (changeCommitment : ℕ) (args : ConsumerArgs) (p : Pass) :
    Run IngestError Pass :=
  onTaken p (do
    let (pc, p) ← p.takeAppend l.txHash changeCommitment
    let p ← p.takeOpApplied l ⟨pc.leafIndex, nonzeroCount nullifiers, 1, 0, pc.root⟩
    return (pc, p)) fun pc p =>
    match (p.recordPairs [pc]).addEvent (projectFeedEntry l.position (.withdrawPriv args.ecdhPublicKey
      args.encryptionNonce pc.leafIndex args.cts args.viewTags args.kemCiphertexts none)) with
    | (none, p) => .returned p
    | (some place, p) => .returned ((p.queueWithdraw l.txHash place).onStore (·.addNullifiers nullifiers))

def handleDisbursedPriv (nullifier subtreeRoot disclosureHash : ℕ) (ecdhPublicKey : Point)
    (encryptionNonce : ℕ) (kemChunkHashes : List ℕ) (p : Pass) : Run IngestError Pass :=
  onTaken p (do
    let (st, p) ← p.takeSubtree l.txHash subtreeRoot
    let p ← p.takeOpApplied l ⟨st.startLeafIndex, 1, 0, st.subtreeRoot, st.root⟩
    return (st, p)) fun st p =>
    let B := cfg.arbiter.B
    let disclosure := privDisclosureOf logs l.txHash st.startLeafIndex
    let verdict := verifyConsumerDisclosure cfg.arbiter.primitives disclosure disclosureHash st.subtreeRoot B
      l.txHash st.startLeafIndex
    match p.addEvent (projectFeedEntry l.position (.disbursePriv ecdhPublicKey encryptionNonce
      st.startLeafIndex B disclosure verdict.result.status)) with
    | (none, p) => .returned p
    | (some _, p) =>
      let p := p.onStore (·.addNullifiers [nullifier])
      .returned (p.onIndexer fun s => { s with
        kem := s.kem.recordBatch l.logIndex
          ⟨st.startLeafIndex, l.address.getD 0, l.txHash, kemChunkHashes, l.blockTimestamp, B⟩
        tree := verdict.leaves.elim s.tree fun leaves => s.tree.fillBatch st.startLeafIndex leaves true })

def handleChunkAccepted (batchId chunkIndex : ℕ) (p : Pass) : Run IngestError Pass :=
  match p.indexer.kem.acceptChunk cfg.keccak256 ⟨batchId, chunkIndex, l.chunkData, l.txHash, l.logIndex⟩ with
  | .returned kem => .returned (p.onIndexer fun s => { s with kem := kem })
  | .threw e kem => .threw (.registry e) (p.onIndexer fun s => { s with kem := kem })

-- Pass 2, one log.
def handle (p : Pass) : Run IngestError Pass :=
  match l.event with
  | .deposited oc0 oc1 envelope => handleDeposited cfg l oc0 oc1 envelope p
  | .transferred family epoch nullifiers outputCommitments receiverCts envelope =>
    handleTransferred cfg l family epoch nullifiers outputCommitments receiverCts envelope p
  | .withdrawn nullifiers changeCommitment envelope =>
    handleWithdrawn cfg l nullifiers changeCommitment envelope p
  | .withdrawAnnouncement recipient ephemeralPub viewTag =>
    handleWithdrawAnnouncement l recipient ephemeralPub viewTag p
  | .swept salt sweeper amount => handleSwept l salt sweeper amount p
  | .announced salt ephemeralPub viewTag => handleAnnounced cfg l salt ephemeralPub viewTag p
  | .disbursed epoch nullifier subtreeRoot disclosureHash ecdhPublicKey encryptionNonce kem =>
    handleDisbursed cfg logs l epoch nullifier subtreeRoot disclosureHash ecdhPublicKey encryptionNonce kem p
  | .moduleRegistered module => handleModule l (fun key r => r.applyRegistered key module) p
  | .moduleRemoved module => handleModule l (fun key r => r.applyRemoved key module) p
  | .consumer family nullifiers oc0 oc1 args => handleConsumer l family nullifiers oc0 oc1 args p
  | .withdrawnPriv nullifiers changeCommitment args =>
    handleWithdrawnPriv l nullifiers changeCommitment args p
  | .disbursedPriv nullifier subtreeRoot disclosureHash ecdhPublicKey encryptionNonce kemChunkHashes =>
    handleDisbursedPriv cfg logs l nullifier subtreeRoot disclosureHash ecdhPublicKey encryptionNonce
      kemChunkHashes p
  | .disburseKemChunkAccepted batchId chunkIndex => handleChunkAccepted cfg l batchId chunkIndex p
  | _ => .returned p

end Handlers

-- A throw leaves the indexer as the handlers before it left it.
def applyLogs (cfg : IngestConfig) (rawLogs : List ParsedLog) (s : IndexerState) : Run IngestError IndexerState :=
  let logs := entitled cfg s rawLogs
  (Run.forEach (driveMirror cfg) logs s).bind fun s =>
    match Run.forEach (handle cfg logs) logs (Pass.start logs s) with
    | .returned p => .returned p.indexer
    | .threw e p => .threw e p.indexer

end Bongtu.Indexer
