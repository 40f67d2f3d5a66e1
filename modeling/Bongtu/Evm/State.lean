import Bongtu.Evm.Imt
import Bongtu.PublicVector

namespace Bongtu.Evm

open Outcome

inductive Event (W : Type) where
  | appended (leafIndex : ℕ) (leaf root : W)
  | subtreeAppended (startLeafIndex : ℕ) (subtreeRoot root : W)
  | deposited (epoch firstLeafIndex : ℕ) (oc0 oc1 amount : W)
      (ecdhPublicKey encryptedValuesForAuthority : List W) (encryptionNonce root kemBinding : W)
      (kemCiphertext : Bytes)
  | transferred (epoch : ℕ) (nullifiers outputCommitments ecdhPublicKey : List W)
      (encryptedValuesForReceiver0 encryptedValuesForReceiver1 encryptedValuesForAuthority : List W)
      (encryptionNonce root kemBinding : W) (kemCiphertext : Bytes)
  | transferred10 (epoch : ℕ) (nullifiers outputCommitments ecdhPublicKey : List W)
      (encryptedValuesForReceivers encryptedValuesForAuthority : List W)
      (encryptionNonce root kemBinding : W) (kemCiphertext : Bytes)
  | transferred10x2 (epoch : ℕ) (nullifiers outputCommitments ecdhPublicKey : List W)
      (encryptedValuesForReceivers encryptedValuesForAuthority : List W)
      (encryptionNonce root kemBinding : W) (kemCiphertext : Bytes)
  | disbursed (epoch : ℕ) (nullifier subtreeRoot disclosureHash : W) (ecdhPublicKey : List W)
      (encryptionNonce root kemBinding : W) (kemCiphertext : Bytes)
  | disburseCiphertexts (startLeafIndex : ℕ) (receiverCiphertexts : List W)
  | withdrawn (epoch : ℕ) (nullifiers : List W) (amount changeCommitment : W)
      (ecdhPublicKey encryptedValuesForAuthority : List W) (encryptionNonce root kemBinding : W)
      (kemCiphertext : Bytes)
  | withdrawAnnouncement (recipient : W) (stealthEphemeralPub : ℕ) (stealthViewTag : UInt8)
  | arbiterRotated (epoch : ℕ) (keyX keyY : W) (activatedBlock : ℕ)
  | arbiterKemPkHashSet (epoch kemPkHash : ℕ)
  | moduleRegistered (module : Address)
  | moduleRemoved (module : Address)
  | opApplied (module : Address) (startLeafIndex nullifierCount leafCount : ℕ) (subtreeRoot root : W)
  | depositedPriv (firstLeafIndex : ℕ) (oc0 oc1 amount : W)
      (ecdhPublicKey ctReceiver0 ctReceiver1 viewTags : List W) (encryptionNonce root : W)
      (kemCiphertexts : List Bytes)
  | transferredPriv (nullifiers outputCommitments ecdhPublicKey : List W)
      (ctReceiver0 ctReceiver1 viewTags : List W) (encryptionNonce root : W)
      (kemCiphertexts : List Bytes)
  | transferred10x2Priv (nullifiers outputCommitments ecdhPublicKey : List W)
      (ctReceivers viewTags : List W) (encryptionNonce root : W) (kemCiphertexts : List Bytes)
  | withdrawnPriv (nullifiers : List W) (amount changeCommitment : W)
      (ecdhPublicKey ctChange : List W) (viewTag encryptionNonce root : W)
      (kemCiphertexts : List Bytes)
  | disbursedPriv (batchId : ℕ) (nullifier subtreeRoot disclosureHash : W) (ecdhPublicKey : List W)
      (encryptionNonce root : W) (kemChunkHashes : List ℕ)
  | disbursePrivDisclosure (startLeafIndex : ℕ) (disclosure : List W)
  | disburseKemChunkAccepted (batchId chunkIndex : ℕ)
deriving DecidableEq, Repr

structure Log (W : Type) where
  address : Address
  event : Event W
deriving DecidableEq, Repr

-- The repository's module contracts, with the constructor arguments they keep.
inductive Module where
  | depositPriv
  | transferPriv
  | transfer10x2Priv
  | withdrawPriv
  | consumerDisburse (batchSize chunkArity : ℕ)
deriving DecidableEq, Repr

-- What the contracts call or read outside themselves: the Poseidon contract, the verifier
-- contracts, the ERC20 token, and which module contract lives at an address.
structure Env (W T : Type) where
  poseidon : W → W → W
  toNat : W → ℕ
  pool : Address
  depositVerifier : Proof → (Fin 19 → W) → Bool
  disburseVerifier : Proof → (Fin 11 → W) → Bool
  transferVerifier : Proof → (Fin 37 → W) → Bool
  transfer10Verifier : Proof → (Fin 141 → W) → Bool
  transfer10x2Verifier : Proof → (Fin 68 → W) → Bool
  withdrawVerifier : Proof → (Fin 27 → W) → Bool
  depositPrivVerifier : Proof → (Fin 16 → W) → Bool
  transferPrivVerifier : Proof → (Fin 20 → W) → Bool
  transfer10x2PrivVerifier : Proof → (Fin 36 → W) → Bool
  withdrawPrivVerifier : Proof → (Fin 16 → W) → Bool
  disbursePrivVerifier : Proof → (Fin 8 → W) → Bool
  safeTransfer : T → Address → Address → ℕ → Option T
  keccak256 : Bytes → ℕ
  code : Address → Option Module

structure ArbiterEpoch (W : Type) where
  keyX : W
  keyY : W
  activatedBlock : ℕ
deriving DecidableEq, Repr

structure Pool (W : Type) where
  imt : Imt W
  knownRoots : W → Bool
  nullifierUsed : W → Bool
  initialized : Bool
  version : ℕ
  owner : Address
  arbiterEpochs : List (ArbiterEpoch W)
  arbiterKemPkHash : ℕ → ℕ
  disburseCiphertextLen : ℕ
  registeredModules : Address → Bool

structure DisburseStore where
  chunkHashes : ℕ → List ℕ
  kemChunkAccepted : ℕ → ℕ → Bool

structure World (W T : Type) where
  pool : Pool W
  token : T
  disburse : Address → DisburseStore
  logs : List (Log W)

inductive ModuleError (W : Type) where
  | core (e : PoolError W)
  | invalidProof
  | wrongKemCiphertextCount (got want : ℕ)
  | wrongKemCiphertextLength (index got want : ℕ)
  | invalidRecipient (recipient : W)
  | zeroNullifier
  | wrongCiphertextLength (got want : ℕ)
  | nonCanonicalDisclosureElement (index : ℕ) (value : W)
  | wrongKemChunkHashCount (got want : ℕ)
  | unknownBatch (batchId : ℕ)
  | badChunkIndex (chunkIndex : ℕ)
  | chunkAlreadyAccepted (batchId chunkIndex : ℕ)
  | chunkHashMismatch (batchId chunkIndex : ℕ)
  | noSuchFunction (module : Address)
deriving DecidableEq, Repr

def treeHeight : ℕ := 32

variable {W T : Type}

namespace World

variable [DecidableEq W] [Zero W] [One W] (env : Env W T)

def emit (address : Address) (event : Event W) (w : World W T) : World W T :=
  { w with logs := w.logs ++ [⟨address, event⟩] }

def appendLeaf (w : World W T) (leaf : W) : Except (PoolError W) (World W T) := do
  let imt ← w.pool.imt.appendLeaf env.poseidon treeHeight leaf
  return emit env.pool (.appended w.pool.imt.nextLeafIndex leaf imt.root) { w with
    pool := { w.pool with
      imt := imt
      knownRoots := Function.update w.pool.knownRoots imt.root true } }

def attachSubtree (w : World W T) (subtreeRoot : W) : Except (PoolError W) (ℕ × World W T) := do
  let attached ← w.pool.imt.attachSubtree env.poseidon treeHeight subtreeRoot
  return (attached.1, { w with
    pool := { w.pool with
      imt := attached.2
      knownRoots := Function.update w.pool.knownRoots attached.2.root true } })

def markUsed (w : World W T) (nf : W) : World W T :=
  { w with pool := { w.pool with nullifierUsed := Function.update w.pool.nullifierUsed nf true } }

def spendNullifier (w : World W T) (nf : W) : Except (PoolError W) (World W T) :=
  if nf = 0 then .ok w
  else if w.pool.nullifierUsed nf then .error (.nullifierAlreadyUsed nf)
  else .ok (w.markUsed nf)

def whenInitialized (w : World W T) : Except (PoolError W) Unit :=
  require (w.pool.initialized = true) .notInitialized

def onlyOwner (w : World W T) (sender : Address) : Except (PoolError W) Unit :=
  require (sender = w.pool.owner) (.unauthorizedAccount sender)

def currentArbiterKey (w : World W T) : Except (PoolError W) (List W) :=
  match w.pool.arbiterEpochs.getLast? with
  | none => .error .arithmeticPanic
  | some ep => .ok [ep.keyX, ep.keyY]

def currentEpoch (w : World W T) : ℕ := w.pool.arbiterEpochs.length - 1

def checkKemCiphertext (kemCiphertext : Bytes) : Except (PoolError W) Unit :=
  require (kemCiphertext.length = kemCiphertextLen)
    (.wrongKemCiphertextLength kemCiphertext.length kemCiphertextLen)

def checkKnownRoot (w : World W T) (root : W) : Except (PoolError W) Unit :=
  require (w.pool.knownRoots root = true) (.unknownRoot root)

def tokenTransfer (w : World W T) (sender recipient : Address) (amount : ℕ) :
    Except (PoolError W) (World W T) :=
  match env.safeTransfer w.token sender recipient amount with
  | none => .error .tokenTransferFailed
  | some token => .ok { w with token := token }

def initTreeAndParams (batchSize : ℕ) (p : Pool W) : Pool W :=
  let imt := Imt.init env.poseidon treeHeight batchSize
  let authPlain := 4 + 4 * batchSize
  let authPad := (3 - authPlain % 3) % 3
  { p with
    imt := imt
    disburseCiphertextLen := 4 * batchSize + (authPlain + authPad + 1)
    knownRoots := Function.update p.knownRoots imt.root true }

-- Storage before the initializer has run through the proxy.
def proxyStorage (token : T) : World W T where
  pool :=
    { imt := ⟨0, 0, fun _ => 0, fun _ => 0, 0, 0⟩
      knownRoots := fun _ => false
      nullifierUsed := fun _ => false
      initialized := false
      version := 0
      owner := 0
      arbiterEpochs := []
      arbiterKemPkHash := fun _ => 0
      disburseCiphertextLen := 0
      registeredModules := fun _ => false }
  token := token
  disburse := fun _ => ⟨fun _ => [], fun _ _ => false⟩
  logs := []

def checkBatchSize (batchSize : ℕ) : Except (PoolError W) Unit :=
  require (¬(batchSize ≤ 1 ∨ batchSize &&& (batchSize - 1) ≠ 0)) (.batchSizeNotPowerOfTwo batchSize)

def rotate (w : World W T) (key : W × W) (kemPkHash blockNumber : ℕ) : World W T :=
  let e := w.pool.arbiterEpochs.length
  emit env.pool (.arbiterKemPkHashSet e kemPkHash)
    (emit env.pool (.arbiterRotated e key.1 key.2 blockNumber) { w with
      pool := { w.pool with
        arbiterEpochs := w.pool.arbiterEpochs ++ [⟨key.1, key.2, blockNumber⟩]
        arbiterKemPkHash := Function.update w.pool.arbiterKemPkHash e kemPkHash } })

def initializePool (w : World W T) (sender : Address) (batchSize : ℕ) (arbiterKey : W × W)
    (arbiterKemPkHash blockNumber : ℕ) : Except (PoolError W) (World W T) := do
  require (w.pool.version = 0) .invalidInitialization
  checkBatchSize batchSize
  require (arbiterKey.1 ≠ 0 ∧ arbiterKey.2 ≠ 0) .zeroArbiterKey
  require (arbiterKemPkHash ≠ 0) .zeroKemPkHash
  return rotate env { w with
    pool := { initTreeAndParams env batchSize w.pool with
      owner := sender
      version := 1
      initialized := true } } arbiterKey arbiterKemPkHash blockNumber

def initializeConsumerOnly (w : World W T) (sender : Address) (batchSize : ℕ) :
    Except (PoolError W) (World W T) := do
  require (w.pool.version = 0) .invalidInitialization
  checkBatchSize batchSize
  return { w with
    pool := { initTreeAndParams env batchSize w.pool with
      owner := sender
      version := 1
      initialized := true } }

def rotateArbiter (w : World W T) (sender : Address) (newKey : W × W)
    (newKemPkHash blockNumber : ℕ) : Except (PoolError W) (World W T) := do
  w.onlyOwner sender
  w.whenInitialized
  require (newKey.1 ≠ 0 ∧ newKey.2 ≠ 0) .zeroArbiterKey
  require (newKemPkHash ≠ 0) .zeroKemPkHash
  return rotate env w newKey newKemPkHash blockNumber

def setModule (w : World W T) (module : Address) (registered : Bool) : World W T :=
  { w with pool := { w.pool with
      registeredModules := Function.update w.pool.registeredModules module registered } }

def addModule (w : World W T) (module : Address) : Except (PoolError W) (World W T) := do
  require (module ≠ 0) .zeroModule
  require (w.pool.registeredModules module = false) (.moduleAlreadyRegistered module)
  return emit env.pool (.moduleRegistered module) (w.setModule module true)

def registerModule (w : World W T) (sender module : Address) : Except (PoolError W) (World W T) := do
  w.onlyOwner sender
  w.whenInitialized
  addModule env w module

def removeModule (w : World W T) (sender module : Address) : Except (PoolError W) (World W T) := do
  w.onlyOwner sender
  w.whenInitialized
  require (w.pool.registeredModules module = true) (.moduleNotRegistered module)
  return emit env.pool (.moduleRemoved module) (w.setModule module false)

def reinitializeV3 (w : World W T) (sender : Address) (modules : List Address) :
    Except (PoolError W) (World W T) := do
  w.onlyOwner sender
  require (w.pool.version < 3) .invalidInitialization
  modules.foldlM (addModule env) { w with pool := { w.pool with version := 3 } }

end World

end Bongtu.Evm
