import Bongtu.Evm.Settings
import Bongtu.Indexer.Ingest
import Bongtu.Indexer.TreeLog

namespace Bongtu.Indexer

open Bongtu.Core Outcome

open Evm (Address Call Env Event Log Message World)

def pointOf (coords : List ℕ) : Point := (coords.getD 0 0, coords.getD 1 0)

namespace ParsedEvent

-- What the handlers read of a pool event or a module event.
def ofEvent : Event ℕ → ParsedEvent
  | .appended leafIndex leaf root => .appended leafIndex leaf root
  | .subtreeAppended start subtreeRoot root => .subtreeAppended start subtreeRoot root
  | .opApplied module start nullifierCount leafCount subtreeRoot root =>
    .opApplied module start nullifierCount leafCount subtreeRoot root
  | .deposited _ _ oc0 oc1 _ ecdh authority nonce _ binding kem =>
    .deposited oc0 oc1 ⟨pointOf ecdh, nonce, authority, some ⟨binding, kem⟩⟩
  | .transferred epoch nullifiers commitments ecdh receiver0 receiver1 authority nonce _ binding kem =>
    .transferred .transfer epoch nullifiers commitments (receiver0 ++ receiver1)
      ⟨pointOf ecdh, nonce, authority, some ⟨binding, kem⟩⟩
  | .transferred10 epoch nullifiers commitments ecdh receivers authority nonce _ binding kem =>
    .transferred .transfer10 epoch nullifiers commitments receivers
      ⟨pointOf ecdh, nonce, authority, some ⟨binding, kem⟩⟩
  | .transferred10x2 epoch nullifiers commitments ecdh receivers authority nonce _ binding kem =>
    .transferred .transfer10x2 epoch nullifiers commitments receivers
      ⟨pointOf ecdh, nonce, authority, some ⟨binding, kem⟩⟩
  | .disbursed epoch nullifier subtreeRoot disclosureHash ecdh nonce _ binding kem =>
    .disbursed epoch nullifier subtreeRoot disclosureHash (pointOf ecdh) nonce (some ⟨binding, kem⟩)
  | .disburseCiphertexts start receiverCiphertexts => .disburseCiphertexts start receiverCiphertexts
  | .withdrawn _ nullifiers _ change ecdh authority nonce _ binding kem =>
    .withdrawn nullifiers change ⟨pointOf ecdh, nonce, authority, some ⟨binding, kem⟩⟩
  | .withdrawAnnouncement recipient ephemeralPub viewTag =>
    .withdrawAnnouncement recipient ephemeralPub viewTag.toNat
  | .arbiterRotated .. | .arbiterKemPkHashSet .. => .other
  | .moduleRegistered module => .moduleRegistered module
  | .moduleRemoved module => .moduleRemoved module
  | .depositedPriv _ oc0 oc1 _ ecdh ct0 ct1 viewTags nonce _ kems =>
    .consumer .depositPriv [] oc0 oc1 ⟨pointOf ecdh, nonce, ct0 ++ ct1, viewTags, kems⟩
  | .transferredPriv nullifiers commitments ecdh ct0 ct1 viewTags nonce _ kems =>
    .consumer .transferPriv nullifiers (commitments.getD 0 0) (commitments.getD 1 0)
      ⟨pointOf ecdh, nonce, ct0 ++ ct1, viewTags, kems⟩
  | .transferred10x2Priv nullifiers commitments ecdh cts viewTags nonce _ kems =>
    .consumer .transfer10x2Priv nullifiers (commitments.getD 0 0) (commitments.getD 1 0)
      ⟨pointOf ecdh, nonce, cts, viewTags, kems⟩
  | .withdrawnPriv nullifiers _ change ecdh ct viewTag nonce _ kems =>
    .withdrawnPriv nullifiers change ⟨pointOf ecdh, nonce, ct, [viewTag], kems⟩
  | .disbursedPriv _ nullifier subtreeRoot disclosureHash ecdh nonce _ hashes =>
    .disbursedPriv nullifier subtreeRoot disclosureHash (pointOf ecdh) nonce hashes
  | .disbursePrivDisclosure start disclosure => .disbursePrivDisclosure start disclosure
  | .disburseKemChunkAccepted batchId chunkIndex => .disburseKemChunkAccepted batchId chunkIndex

theorem treeEvent_ofEvent (e : Event ℕ) : (ofEvent e).treeEvent = treeEventOfLog e := by
  cases e <;> rfl

end ParsedEvent

-- A log of a call as the provider returns it. The calldata of an accepted chunk is either not decodable
-- or what the call carried.
structure Decodes (call : Call ℕ) (log : Log ℕ) (l : ParsedLog) : Prop where
  address : l.address = some log.address
  event : l.event = .ofEvent log.event
  chunk : ∀ data, l.chunkData = some data → ∃ module batchId chunkIndex,
    call = .submitDisburseKemChunk module batchId chunkIndex data

-- A call that went through, with its logs.
structure Mined where
  message : Message ℕ
  txHash : TxHash
  logs : List ParsedLog

variable {T : Type}

structure Mined.Emits (op : Mined) (w w' : World ℕ T) : Prop where
  logs : ∃ emitted, w'.logs = w.logs ++ emitted ∧
    List.Forall₂ (Decodes op.message.call) emitted op.logs
  tx : ∀ l ∈ op.logs, l.txHash = op.txHash

inductive Mines (env : Env ℕ T) : World ℕ T → List Mined → World ℕ T → Prop
  | nil (w : World ℕ T) : Mines env w [] w
  | cons {w w₁ w' : World ℕ T} {op : Mined} {ops : List Mined} :
      World.step env w op.message = .ok w₁ → op.Emits w w₁ → Mines env w₁ ops w' →
      Mines env w (op :: ops) w'

def logsOf (ops : List Mined) : List ParsedLog := ops.flatMap (·.logs)

@[simp] theorem logsOf_nil : logsOf [] = [] := rfl

@[simp] theorem logsOf_cons (op : Mined) (ops : List Mined) : logsOf (op :: ops) = op.logs ++ logsOf ops :=
  rfl

theorem logsOf_append (ops ops' : List Mined) : logsOf (ops ++ ops') = logsOf ops ++ logsOf ops' :=
  List.flatMap_append

theorem Mines.append {env : Env ℕ T} {w w₁ w' : World ℕ T} {ops ops' : List Mined}
    (h : Mines env w ops w₁) (h' : Mines env w₁ ops' w') : Mines env w (ops ++ ops') w' := by
  induction h with
  | nil => exact h'
  | cons hstep hemits _ ih => exact .cons hstep hemits (ih h')

theorem Mines.split {env : Env ℕ T} {ops' : List Mined} (ops : List Mined) : ∀ {w w' : World ℕ T},
    Mines env w (ops ++ ops') w' → ∃ w₁, Mines env w ops w₁ ∧ Mines env w₁ ops' w' := by
  induction ops with
  | nil => exact fun h => ⟨_, .nil _, h⟩
  | cons op ops ih =>
    intro w w' h
    cases h with
    | cons hstep hemits h =>
      obtain ⟨w₁, h₁, h'⟩ := ih h
      exact ⟨w₁, .cons hstep hemits h₁, h'⟩

-- A log of the pool or of a module contract.
def ownLog (env : Env ℕ T) (l : ParsedLog) : Bool :=
  l.address.elim true fun a => decide (a = env.pool) || (env.code a).isSome

-- The indexer is set up for the pool: its address, its hash, its factories, no arbiter. No proof opens a
-- batch under the zero root.
structure IngestConfig.Serves (cfg : IngestConfig) (env : Env ℕ T) : Prop where
  pool : cfg.pool = env.pool
  poseidon : cfg.arbiter.primitives.poseidon2 = env.poseidon
  keccak : cfg.keccak256 = env.keccak256
  pool_code : env.code env.pool = none
  factory : ∀ f, cfg.portalFactory = some f → f ≠ env.pool ∧ env.code f = none
  privFactory : ∀ f, cfg.portalPrivFactory = some f → f ≠ env.pool ∧ env.code f = none
  batch_ne : ∀ proof pub, env.disbursePrivVerifier proof pub = true → pub 3 ≠ 0

-- A call of one of the repository's circuits, or an owner's call that registers only their modules.
def IsNative (env : Env ℕ T) : Call ℕ → Prop
  | .applyOp _ | .applyOpWithPull .. | .applyOpWithPush .. => False
  | call => ∀ a ∈ call.registers, (env.code a).isSome

end Bongtu.Indexer
