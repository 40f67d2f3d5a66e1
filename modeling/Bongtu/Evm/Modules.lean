import Bongtu.Evm.Ops

namespace Bongtu.Evm

open Outcome

variable {W T : Type} [DecidableEq W] [Zero W] [One W]

def checkKemCiphertexts (kemCiphertexts : List Bytes) (want : ℕ) : Except (ModuleError W) Unit := do
  require (kemCiphertexts.length = want) (.wrongKemCiphertextCount kemCiphertexts.length want)
  match kemCiphertexts.findIdx? (fun ct => ct.length != kemCiphertextLen) with
  | none => .ok ()
  | some i => .error (.wrongKemCiphertextLength i (kemCiphertexts.getD i []).length kemCiphertextLen)

namespace Event

def emitDepositedPriv (first : ℕ) (root : W) (pub : Fin 16 → W) (kems : List Bytes) : Event W :=
  .depositedPriv first (pub 13) (pub 14) (pub 0) (slice pub 1 2) (slice pub 3 4) (slice pub 7 4)
    (slice pub 11 2) (pub 15) root kems

def emitTransferredPriv (root : W) (pub : Fin 20 → W) (kems : List Bytes) : Event W :=
  .transferredPriv [pub 12, pub 13] [pub 17, pub 18] (slice pub 0 2) (slice pub 2 4) (slice pub 6 4)
    (slice pub 10 2) (pub 19) root kems

def emitTransferred10x2Priv (root : W) (pub : Fin 36 → W) (kems : List Bytes) : Event W :=
  .transferred10x2Priv (slice pub 12 10) [pub 33, pub 34] (slice pub 0 2) (slice pub 2 8)
    (slice pub 10 2) (pub 35) root kems

def emitWithdrawnPriv (root : W) (pub : Fin 16 → W) (kems : List Bytes) : Event W :=
  .withdrawnPriv [pub 8, pub 9] (pub 0) (pub 13) (slice pub 1 2) (slice pub 3 4) (pub 7) (pub 14)
    root kems

def emitDisbursedPriv (start : ℕ) (root : W) (pub : Fin 8 → W) (kemChunkHashes : List ℕ) : Event W :=
  .disbursedPriv start (pub 4) (pub 3) (pub 2) (slice pub 0 2) (pub 7) root kemChunkHashes

end Event

namespace World

variable (env : Env W T)

def depositPriv (w : World W T) (self sender : Address) (proof : Proof) (pub : Fin 16 → W)
    (kemCiphertexts : List Bytes) : Except (ModuleError W) (World W T) := do
  checkKemCiphertexts kemCiphertexts 2
  require (env.depositPrivVerifier proof pub = true) .invalidProof
  let out ← (applyOpWithPull env w self ⟨0, [], [pub 13, pub 14], 0⟩ sender
    (env.toNat (pub 0))).mapError .core
  return emit self (.emitDepositedPriv out.1 out.2.pool.imt.root pub kemCiphertexts) out.2

def transferPriv (w : World W T) (self : Address) (proof : Proof) (pub : Fin 20 → W)
    (kemCiphertexts : List Bytes) : Except (ModuleError W) (World W T) := do
  checkKemCiphertexts kemCiphertexts 2
  require (env.transferPrivVerifier proof (inject pub 15 (enabled [pub 12, pub 13])) = true)
    .invalidProof
  let out ← (applyOp env w self
    ⟨pub 14, stripZeros [pub 12, pub 13], [pub 17, pub 18], 0⟩).mapError .core
  return emit self (.emitTransferredPriv out.2.pool.imt.root pub kemCiphertexts) out.2

def transfer10x2Priv (w : World W T) (self : Address) (proof : Proof) (pub : Fin 36 → W)
    (kemCiphertexts : List Bytes) : Except (ModuleError W) (World W T) := do
  checkKemCiphertexts kemCiphertexts 2
  require (env.transfer10x2PrivVerifier proof (inject pub 23 (enabled (slice pub 12 10))) = true)
    .invalidProof
  let out ← (applyOp env w self
    ⟨pub 22, stripZeros (slice pub 12 10), [pub 33, pub 34], 0⟩).mapError .core
  return emit self (.emitTransferred10x2Priv out.2.pool.imt.root pub kemCiphertexts) out.2

def withdrawPriv (w : World W T) (self : Address) (proof : Proof) (pub : Fin 16 → W)
    (kemCiphertexts : List Bytes) (stealthEphemeralPub : ℕ) (stealthViewTag : UInt8) :
    Except (ModuleError W) (World W T) := do
  checkKemCiphertexts kemCiphertexts 1
  require (IsRecipient env (pub 15)) (.invalidRecipient (pub 15))
  require (env.withdrawPrivVerifier proof (inject pub 11 (enabled [pub 8, pub 9])) = true)
    .invalidProof
  let out ← (applyOpWithPush env w self ⟨pub 10, stripZeros [pub 8, pub 9], [pub 13], 0⟩
    (env.toNat (pub 15)) (env.toNat (pub 0))).mapError .core
  return emit self (.withdrawAnnouncement (pub 15) stealthEphemeralPub stealthViewTag)
    (emit self (.emitWithdrawnPriv out.2.pool.imt.root pub kemCiphertexts) out.2)

def setChunkHashes (w : World W T) (self : Address) (batchId : ℕ) (hashes : List ℕ) : World W T :=
  { w with disburse := Function.update w.disburse self { w.disburse self with
      chunkHashes := Function.update (w.disburse self).chunkHashes batchId hashes } }

def chunkCount (batchSize chunkArity : ℕ) : ℕ := (batchSize + chunkArity - 1) / chunkArity

def chunkArityOf (batchSize chunkArity chunkIndex : ℕ) : ℕ :=
  if chunkIndex = chunkCount batchSize chunkArity - 1 then
    batchSize - (chunkCount batchSize chunkArity - 1) * chunkArity
  else chunkArity

def checkDisclosure (disclosure : List W) : Except (ModuleError W) Unit :=
  match disclosure.findIdx? (fun x => decide (snarkScalarField ≤ env.toNat x)) with
  | none => .ok ()
  | some i => .error (.nonCanonicalDisclosureElement i (disclosure.getD i 0))

def disbursePriv256 (w : World W T) (self : Address) (batchSize chunkArity : ℕ) (proof : Proof)
    (pub : Fin 8 → W) (disclosure : List W) (kemChunkHashes : List ℕ) :
    Except (ModuleError W) (World W T) := do
  require (disclosure.length = 6 * batchSize)
    (.wrongCiphertextLength disclosure.length (6 * batchSize))
  checkDisclosure env disclosure
  require (kemChunkHashes.length = chunkCount batchSize chunkArity)
    (.wrongKemChunkHashCount kemChunkHashes.length (chunkCount batchSize chunkArity))
  require (pub 4 ≠ 0) .zeroNullifier
  require (env.disbursePrivVerifier proof (inject pub 6 [1]) = true) .invalidProof
  let out ← (applyOp env w self ⟨pub 5, [pub 4], [], pub 3⟩).mapError .core
  return emit self (.disbursePrivDisclosure out.1 disclosure)
    (emit self (.emitDisbursedPriv out.1 out.2.pool.imt.root pub kemChunkHashes)
      (out.2.setChunkHashes self out.1 kemChunkHashes))

def acceptChunk (w : World W T) (self : Address) (batchId chunkIndex : ℕ) : World W T :=
  { w with disburse := Function.update w.disburse self { w.disburse self with
      kemChunkAccepted := Function.update (w.disburse self).kemChunkAccepted batchId
        (Function.update ((w.disburse self).kemChunkAccepted batchId) chunkIndex true) } }

def submitDisburseKemChunk (w : World W T) (self : Address) (batchSize chunkArity : ℕ)
    (batchId chunkIndex : ℕ) (chunkData : Bytes) : Except (ModuleError W) (World W T) := do
  let hashes := (w.disburse self).chunkHashes batchId
  require (hashes.length ≠ 0) (.unknownBatch batchId)
  require (chunkIndex < hashes.length) (.badChunkIndex chunkIndex)
  require ((w.disburse self).kemChunkAccepted batchId chunkIndex = false)
    (.chunkAlreadyAccepted batchId chunkIndex)
  let want := chunkArityOf batchSize chunkArity chunkIndex * kemCiphertextLen
  require (chunkData.length = want) (.wrongKemCiphertextLength chunkIndex chunkData.length want)
  require (env.keccak256 chunkData = hashes.getD chunkIndex 0) (.chunkHashMismatch batchId chunkIndex)
  return emit self (.disburseKemChunkAccepted batchId chunkIndex)
    (w.acceptChunk self batchId chunkIndex)

end World

inductive Call (W : Type) where
  | deposit (proof : Proof) (pub : Fin 19 → W) (kemCiphertext : Bytes)
  | disburseWithCiphertexts (proof : Proof) (pub : Fin 11 → W) (receiverCiphertexts : List W)
      (kemCiphertext : Bytes)
  | transfer (proof : Proof) (pub : Fin 37 → W) (kemCiphertext : Bytes)
  | transfer10 (proof : Proof) (pub : Fin 141 → W) (kemCiphertext : Bytes)
  | transfer10x2 (proof : Proof) (pub : Fin 68 → W) (kemCiphertext : Bytes)
  | withdraw (proof : Proof) (pub : Fin 27 → W) (kemCiphertext : Bytes)
      (stealthEphemeralPub : ℕ) (stealthViewTag : UInt8)
  | applyOp (fx : OpEffects W)
  | applyOpWithPull (fx : OpEffects W) (payer : Address) (amount : ℕ)
  | applyOpWithPush (fx : OpEffects W) (recipient : Address) (amount : ℕ)
  | registerModule (module : Address)
  | removeModule (module : Address)
  | rotateArbiter (newKey : W × W) (newKemPkHash blockNumber : ℕ)
  | reinitializeV3 (modules : List Address)
  | depositPriv (module : Address) (proof : Proof) (pub : Fin 16 → W) (kemCiphertexts : List Bytes)
  | transferPriv (module : Address) (proof : Proof) (pub : Fin 20 → W) (kemCiphertexts : List Bytes)
  | transfer10x2Priv (module : Address) (proof : Proof) (pub : Fin 36 → W)
      (kemCiphertexts : List Bytes)
  | withdrawPriv (module : Address) (proof : Proof) (pub : Fin 16 → W) (kemCiphertexts : List Bytes)
      (stealthEphemeralPub : ℕ) (stealthViewTag : UInt8)
  | disbursePriv256 (module : Address) (proof : Proof) (pub : Fin 8 → W) (disclosure : List W)
      (kemChunkHashes : List ℕ)
  | submitDisburseKemChunk (module : Address) (batchId chunkIndex : ℕ) (chunkData : Bytes)

def OpEffects.ops (fx : OpEffects W) : List (TreeOp W) :=
  if fx.subtreeRoot ≠ 0 then [.attach fx.subtreeRoot none] else fx.leaves.map .append

-- The nonzero nullifiers a call asks the pool to spend.
def Call.nullifiers : Call W → List W
  | .disburseWithCiphertexts _ pub _ _ => [pub 5]
  | .transfer _ pub _ => stripZeros [pub 27, pub 28]
  | .transfer10 _ pub _ => stripZeros (slice pub 107 10)
  | .transfer10x2 _ pub _ => stripZeros (slice pub 42 10)
  | .withdraw _ pub _ _ _ => stripZeros [pub 17, pub 18]
  | .applyOp fx => fx.nullifiers
  | .applyOpWithPull fx _ _ => fx.nullifiers
  | .applyOpWithPush fx _ _ => fx.nullifiers
  | .transferPriv _ _ pub _ => stripZeros [pub 12, pub 13]
  | .transfer10x2Priv _ _ pub _ => stripZeros (slice pub 12 10)
  | .withdrawPriv _ _ pub _ _ _ => stripZeros [pub 8, pub 9]
  | .disbursePriv256 _ _ pub _ _ => [pub 4]
  | _ => []

-- The tree operations a call asks the pool to perform, in order.
def Call.ops : Call W → List (TreeOp W)
  | .deposit _ pub _ => [.append (pub 14), .append (pub 15)]
  | .disburseWithCiphertexts _ pub _ _ => [.attach (pub 3) none]
  | .transfer _ pub _ => [.append (pub 32), .append (pub 33)]
  | .transfer10 _ pub _ => (slice pub 128 10).map .append
  | .transfer10x2 _ pub _ => (slice pub 63 2).map .append
  | .withdraw _ pub _ _ _ => [.append (pub 22)]
  | .applyOp fx => fx.ops
  | .applyOpWithPull fx _ _ => fx.ops
  | .applyOpWithPush fx _ _ => fx.ops
  | .depositPriv _ _ pub _ => [.append (pub 13), .append (pub 14)]
  | .transferPriv _ _ pub _ => [.append (pub 17), .append (pub 18)]
  | .transfer10x2Priv _ _ pub _ => [.append (pub 33), .append (pub 34)]
  | .withdrawPriv _ _ pub _ _ _ => [.append (pub 13)]
  | .disbursePriv256 _ _ pub _ _ => if pub 3 ≠ 0 then [.attach (pub 3) none] else []
  | _ => []

structure Message (W : Type) where
  sender : Address
  call : Call W

namespace World

variable (env : Env W T)

def step (w : World W T) (m : Message W) : Except (ModuleError W) (World W T) :=
  match m.call with
  | .deposit proof pub kem => (deposit env w m.sender proof pub kem).mapError .core
  | .disburseWithCiphertexts proof pub cts kem =>
    (disburseWithCiphertexts env w proof pub cts kem).mapError .core
  | .transfer proof pub kem => (transfer env w proof pub kem).mapError .core
  | .transfer10 proof pub kem => (transfer10 env w proof pub kem).mapError .core
  | .transfer10x2 proof pub kem => (transfer10x2 env w proof pub kem).mapError .core
  | .withdraw proof pub kem eph tag => (withdraw env w proof pub kem eph tag).mapError .core
  | .applyOp fx => ((applyOp env w m.sender fx).map Prod.snd).mapError .core
  | .applyOpWithPull fx payer amount =>
    ((applyOpWithPull env w m.sender fx payer amount).map Prod.snd).mapError .core
  | .applyOpWithPush fx recipient amount =>
    ((applyOpWithPush env w m.sender fx recipient amount).map Prod.snd).mapError .core
  | .registerModule module => (registerModule env w m.sender module).mapError .core
  | .removeModule module => (removeModule env w m.sender module).mapError .core
  | .rotateArbiter key hash block => (rotateArbiter env w m.sender key hash block).mapError .core
  | .reinitializeV3 modules => (reinitializeV3 env w m.sender modules).mapError .core
  | .depositPriv module proof pub kems =>
    if env.code module = some .depositPriv then depositPriv env w module m.sender proof pub kems
    else .error (.noSuchFunction module)
  | .transferPriv module proof pub kems =>
    if env.code module = some .transferPriv then transferPriv env w module proof pub kems
    else .error (.noSuchFunction module)
  | .transfer10x2Priv module proof pub kems =>
    if env.code module = some .transfer10x2Priv then transfer10x2Priv env w module proof pub kems
    else .error (.noSuchFunction module)
  | .withdrawPriv module proof pub kems eph tag =>
    if env.code module = some .withdrawPriv then withdrawPriv env w module proof pub kems eph tag
    else .error (.noSuchFunction module)
  | .disbursePriv256 module proof pub disclosure hashes =>
    match env.code module with
    | some (.consumerDisburse batchSize chunkArity) =>
      disbursePriv256 env w module batchSize chunkArity proof pub disclosure hashes
    | _ => .error (.noSuchFunction module)
  | .submitDisburseKemChunk module batchId chunkIndex chunkData =>
    match env.code module with
    | some (.consumerDisburse batchSize chunkArity) =>
      submitDisburseKemChunk env w module batchSize chunkArity batchId chunkIndex chunkData
    | _ => .error (.noSuchFunction module)

-- A call that reverts changes nothing.
def after (w : World W T) (m : Message W) : World W T :=
  match step env w m with
  | .ok w' => w'
  | .error _ => w

def run (w : World W T) (ms : List (Message W)) : World W T := ms.foldl (after env) w

def accepted : World W T → List (Message W) → List (Message W)
  | _, [] => []
  | w, m :: ms =>
    match step env w m with
    | .ok w' => m :: accepted w' ms
    | .error _ => accepted w ms

end World

end Bongtu.Evm
