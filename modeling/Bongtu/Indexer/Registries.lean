import Bongtu.Evm.State
import Bongtu.Indexer.PostgresLedger

namespace Bongtu.Indexer

open Bongtu.Core Outcome

open Evm (Address)

structure ModuleRow where
  address : Address
  registered : Bool
deriving DecidableEq, Repr

inductive RegistryError where
  | doubleRegistered (module : Address)
  | removedUnregistered (module : Address)
  | chunkHash (batchId chunkIndex : ℕ)
deriving DecidableEq, Repr

structure ModuleRegistry where
  byAddress : Address → Option Bool
  seen : List OpKey
  pendingUpserts : List ModuleRow

namespace ModuleRegistry

def empty : ModuleRegistry := ⟨fun _ => none, [], []⟩

def upsert (module : Address) (registered : Bool) (r : ModuleRegistry) : ModuleRegistry :=
  { r with
    byAddress := Function.update r.byAddress module (some registered)
    pendingUpserts := r.pendingUpserts ++ [⟨module, registered⟩] }

def see (key : OpKey) (r : ModuleRegistry) : ModuleRegistry := { r with seen := r.seen ++ [key] }

def applyRegistered (key : OpKey) (module : Address) (r : ModuleRegistry) :
    Run RegistryError ModuleRegistry :=
  if key ∈ r.seen then .returned r
  else if r.byAddress module = some true then .threw (.doubleRegistered module) (r.see key)
  else .returned ((r.see key).upsert module true)

def applyRemoved (key : OpKey) (module : Address) (r : ModuleRegistry) : Run RegistryError ModuleRegistry :=
  if key ∈ r.seen then .returned r
  else if r.byAddress module ≠ some true then .threw (.removedUnregistered module) (r.see key)
  else .returned ((r.see key).upsert module false)

def isKnown (r : ModuleRegistry) (module : Address) : Bool := (r.byAddress module).isSome

-- The addresses `watchAddresses` lists.
def watches (r : ModuleRegistry) (pendingKemModules : Address → Bool) (module : Address) : Bool :=
  (r.byAddress module).elim false fun registered => registered || pendingKemModules module

def upsertRow (rows : List ModuleRow) (row : ModuleRow) : List ModuleRow :=
  if row.address ∈ rows.map (·.address) then
    Table.update (·.address = row.address) (fun _ => row) rows
  else rows ++ [row]

def flushInto (r : ModuleRegistry) (rows : List ModuleRow) : List ModuleRow :=
  r.pendingUpserts.foldl upsertRow rows

def commitFlush (r : ModuleRegistry) : ModuleRegistry := { r with pendingUpserts := [] }

def bootRow (r : ModuleRegistry) (row : ModuleRow) : ModuleRegistry :=
  { r with byAddress := Function.update r.byAddress row.address (some row.registered) }

def boot (rows : List ModuleRow) : ModuleRegistry := rows.foldl bootRow empty

end ModuleRegistry

structure KemBatchRow where
  batchId : ℕ
  module : Address
  txHash : TxHash
  chunkHashes : List ℕ
  batchTimestamp : ℕ
  outputs : ℕ
deriving DecidableEq, Repr

structure KemBatch extends KemBatchRow where
  chunks : List (Option Bytes)
  acceptedOnChain : List Bool
  chunkTxHashes : List (Option TxHash)
deriving DecidableEq, Repr

structure KemChunkRow where
  batchId : ℕ
  chunkIndex : ℕ
  data : Option Bytes
  txHash : Option TxHash
deriving DecidableEq, Repr

structure KemChunkStore where
  batches : List KemBatch
  seen : List OpKey
  pendingBatchRows : List KemBatchRow
  pendingChunkRows : List KemChunkRow
deriving DecidableEq, Repr

structure KemTables where
  kemBatches : List KemBatchRow
  kemChunks : List KemChunkRow
deriving DecidableEq, Repr

def KemTables.empty : KemTables := ⟨[], []⟩

namespace KemBatch

def ofRow (row : KemBatchRow) : KemBatch :=
  { row with
    chunks := row.chunkHashes.map fun _ => none
    acceptedOnChain := row.chunkHashes.map fun _ => false
    chunkTxHashes := row.chunkHashes.map fun _ => none }

def accept (chunkIndex : ℕ) (data : Option Bytes) (txHash : Option TxHash) (b : KemBatch) : KemBatch :=
  { b with
    acceptedOnChain := b.acceptedOnChain.set chunkIndex true
    chunks := b.chunks.set chunkIndex data
    chunkTxHashes := b.chunkTxHashes.set chunkIndex txHash }

end KemBatch

structure ChunkAccept where
  batchId : ℕ
  chunkIndex : ℕ
  data : Option Bytes
  txHash : TxHash
  logIndex : ℕ
deriving DecidableEq, Repr

namespace KemChunkStore

def empty : KemChunkStore := ⟨[], [], [], []⟩

def batch (k : KemChunkStore) (batchId : ℕ) : Option KemBatch := k.batches.find? (·.batchId = batchId)

def recordBatch (logIndex : ℕ) (row : KemBatchRow) (k : KemChunkStore) : KemChunkStore :=
  if (row.txHash, logIndex) ∈ k.seen ∨ (k.batch row.batchId).isSome then k
  else { k with
    seen := k.seen ++ [(row.txHash, logIndex)]
    batches := k.batches ++ [.ofRow row]
    pendingBatchRows := k.pendingBatchRows ++ [row] }

def see (key : OpKey) (k : KemChunkStore) : KemChunkStore := { k with seen := k.seen ++ [key] }

def modifyBatch (batchId : ℕ) (f : KemBatch → KemBatch) (k : KemChunkStore) : KemChunkStore :=
  { k with batches := k.batches.map fun b => if b.batchId = batchId then f b else b }

def acceptRow (c : ChunkAccept) (k : KemChunkStore) : KemChunkStore :=
  let k := k.modifyBatch c.batchId (·.accept c.chunkIndex c.data (some c.txHash))
  { k with pendingChunkRows := k.pendingChunkRows ++ [⟨c.batchId, c.chunkIndex, c.data, some c.txHash⟩] }

-- An accept no recorded batch has room for is dropped; bytes that do not hash to the committed chunk
-- throw.
def acceptChunk (keccak256 : Bytes → ℕ) (c : ChunkAccept) (k : KemChunkStore) :
    Run RegistryError KemChunkStore :=
  if (c.txHash, c.logIndex) ∈ k.seen then .returned k
  else
    let k := k.see (c.txHash, c.logIndex)
    match k.batch c.batchId with
    | none => .returned k
    | some batch =>
      if batch.chunkHashes.length ≤ c.chunkIndex then .returned k
      else if batch.acceptedOnChain.getD c.chunkIndex false then .returned k
      else if c.data.elim false (fun data => keccak256 data ≠ batch.chunkHashes.getD c.chunkIndex 0) then
        .threw (.chunkHash c.batchId c.chunkIndex) k
      else .returned (k.acceptRow c)

def pendingModules (k : KemChunkStore) (module : Address) : Bool :=
  k.batches.any fun b => b.module = module && b.acceptedOnChain.any (! ·)

-- `ON CONFLICT ... DO UPDATE SET data = COALESCE(EXCLUDED.data, data), ...`.
def upsertChunk (rows : List KemChunkRow) (row : KemChunkRow) : List KemChunkRow :=
  if (row.batchId, row.chunkIndex) ∈ rows.map (fun r => (r.batchId, r.chunkIndex)) then
    Table.update (fun r => (r.batchId, r.chunkIndex) = (row.batchId, row.chunkIndex))
      (fun r => { r with data := row.data.or r.data, txHash := row.txHash.or r.txHash }) rows
  else rows ++ [row]

def flushInto (k : KemChunkStore) (t : KemTables) : KemTables where
  kemBatches := Table.insertAll (·.batchId) t.kemBatches k.pendingBatchRows
  kemChunks := k.pendingChunkRows.foldl upsertChunk t.kemChunks

def commitFlush (k : KemChunkStore) : KemChunkStore :=
  { k with pendingBatchRows := [], pendingChunkRows := [] }

def bootChunk (k : KemChunkStore) (row : KemChunkRow) : KemChunkStore :=
  k.modifyBatch row.batchId (·.accept row.chunkIndex row.data row.txHash)

def boot (t : KemTables) : KemChunkStore :=
  t.kemChunks.foldl bootChunk { empty with batches := t.kemBatches.map .ofRow }

end KemChunkStore

structure PortalRecord where
  seq : ℕ
  name : String
  owner : String
  ephemeralPub : ℕ
  viewTag : ℕ
  stealthAddr : ℕ
  destination : Address
  factory : Option Address
  rail : String
  createdAt : ℕ
  swept : Bool
  sweptTxHash : Option TxHash
  sweptAmount : Option ℕ
deriving DecidableEq, Repr

structure ChainAnnouncement where
  salt : ℕ
  ephemeralPub : ℕ
  viewTag : ℕ
  destination : Address
  factory : Option Address
  txHash : TxHash
  amount : ℕ
  blockTimestamp : ℕ
deriving DecidableEq, Repr

-- `portalSalt` pads an address, so salts and addresses are one number; the registry's records are held by
-- their place.
structure PortalRegistry where
  records : List PortalRecord
  bySalt : ℕ → Option ℕ
  pendingSwept : List ℕ
  pendingInserts : List ℕ
  seq : ℕ

namespace PortalRegistry

def empty : PortalRegistry := ⟨[], fun _ => none, [], [], 0⟩

def markSwept (salt : ℕ) (txHash : TxHash) (amount : ℕ) (r : PortalRegistry) : PortalRegistry :=
  match r.bySalt salt with
  | none => r
  | some place =>
    if r.records[place]?.elim true (·.swept) then r
    else { r with
      records := r.records.modify place fun record =>
        { record with swept := true, sweptTxHash := some txHash, sweptAmount := some amount }
      pendingSwept := r.pendingSwept ++ [place] }

def recordChainAnnouncement (a : ChainAnnouncement) (r : PortalRegistry) : PortalRegistry :=
  if (r.bySalt a.salt).isSome then r
  else { r with
    records := r.records ++ [{
      seq := r.seq, name := "", owner := "", ephemeralPub := a.ephemeralPub, viewTag := a.viewTag
      stealthAddr := a.salt % 2 ^ 160, destination := a.destination, factory := a.factory, rail := "evm"
      createdAt := a.blockTimestamp, swept := true, sweptTxHash := some a.txHash
      sweptAmount := some a.amount }]
    bySalt := Function.update r.bySalt a.salt (some r.records.length)
    seq := r.seq + 1
    pendingInserts := r.pendingInserts ++ [r.records.length] }

-- A targetless `ON CONFLICT DO NOTHING`: the row yields to one with its seq or its address.
def insertRecord (rows : List PortalRecord) (record : PortalRecord) : List PortalRecord :=
  if record.seq ∈ rows.map (·.seq) ∨ record.stealthAddr ∈ rows.map (·.stealthAddr) then rows
  else rows ++ [record]

def flushInto (r : PortalRegistry) (rows : List PortalRecord) : List PortalRecord :=
  let inserted := (r.pendingInserts.filterMap (r.records[·]?)).foldl insertRecord rows
  (r.pendingSwept.filterMap (r.records[·]?)).foldl (fun rows record =>
    Table.update (·.seq = record.seq) (fun row => { row with
      swept := true, sweptTxHash := record.sweptTxHash, sweptAmount := record.sweptAmount }) rows) inserted

def commitFlush (r : PortalRegistry) : PortalRegistry := { r with pendingSwept := [], pendingInserts := [] }

def index (r : PortalRegistry) (record : PortalRecord) : PortalRegistry :=
  { r with
    records := r.records ++ [record]
    bySalt := Function.update r.bySalt record.stealthAddr (some r.records.length) }

def boot (rows : List PortalRecord) : PortalRegistry :=
  let r := (Table.orderBy (·.seq) rows).foldl index empty
  { r with seq := r.records.getLast?.elim 0 (·.seq + 1) }

end PortalRegistry

end Bongtu.Indexer
