import Bongtu.Evm.State

namespace Bongtu.Evm

open Outcome

variable {W T : Type} [DecidableEq W] [Zero W] [One W]

structure OpEffects (W : Type) where
  root : W
  nullifiers : List W
  leaves : List W
  subtreeRoot : W
deriving DecidableEq, Repr

namespace Event

def emitDeposited (epoch first : ℕ) (root : W) (pub : Fin 19 → W) (kem : Bytes) : Event W :=
  .deposited epoch first (pub 14) (pub 15) (pub 0) (slice pub 1 2) (slice pub 3 10) (pub 16) root
    (pub 13) kem

def emitDisbursed (epoch : ℕ) (root : W) (pub : Fin 11 → W) (kem : Bytes) : Event W :=
  .disbursed epoch (pub 5) (pub 3) (pub 2) (slice pub 0 2) (pub 8) root (pub 4) kem

def emitTransferred (epoch : ℕ) (root : W) (pub : Fin 37 → W) (kem : Bytes) : Event W :=
  .transferred epoch [pub 27, pub 28] [pub 32, pub 33] (slice pub 0 2) (slice pub 2 4)
    (slice pub 6 4) (slice pub 10 16) (pub 34) root (pub 26) kem

def emitTransferred10 (epoch : ℕ) (root : W) (pub : Fin 141 → W) (kem : Bytes) : Event W :=
  .transferred10 epoch (slice pub 107 10) (slice pub 128 10) (slice pub 0 2) (slice pub 2 40)
    (slice pub 42 64) (pub 138) root (pub 106) kem

def emitTransferred10x2 (epoch : ℕ) (root : W) (pub : Fin 68 → W) (kem : Bytes) : Event W :=
  .transferred10x2 epoch (slice pub 42 10) (slice pub 63 2) (slice pub 0 2) (slice pub 2 8)
    (slice pub 10 31) (pub 65) root (pub 41) kem

def emitWithdrawn (epoch : ℕ) (root : W) (pub : Fin 27 → W) (kem : Bytes) : Event W :=
  .withdrawn epoch [pub 17, pub 18] (pub 0) (pub 22) (slice pub 1 2) (slice pub 3 13) (pub 23) root
    (pub 16) kem

end Event

namespace World

variable (env : Env W T)

def deposit (w : World W T) (sender : Address) (proof : Proof) (pub : Fin 19 → W)
    (kemCiphertext : Bytes) : Except (PoolError W) (World W T) := do
  w.whenInitialized
  checkKemCiphertext kemCiphertext
  let key ← w.currentArbiterKey
  require (env.depositVerifier proof (inject pub 17 key) = true) .invalidProof
  require (pub 14 ≠ 0 ∧ pub 15 ≠ 0) .zeroOutputCommitment
  let w2 ← [pub 14, pub 15].foldlM (appendLeaf env) w
  tokenTransfer env (emit env.pool (.emitDeposited w2.currentEpoch w.pool.imt.nextLeafIndex
    w2.pool.imt.root pub kemCiphertext) w2) sender env.pool (env.toNat (pub 0))

def disburseCore (w : World W T) (proof : Proof) (pub : Fin 11 → W) (kemCiphertext : Bytes) :
    Except (PoolError W) (ℕ × World W T) := do
  w.checkKnownRoot (pub 6)
  require (pub 5 ≠ 0) .zeroNullifier
  require (w.pool.nullifierUsed (pub 5) = false) (.nullifierAlreadyUsed (pub 5))
  let key ← w.currentArbiterKey
  require (env.disburseVerifier proof (inject (inject pub 7 [1]) 9 key) = true) .invalidProof
  let attached ← attachSubtree env (w.markUsed (pub 5)) (pub 3)
  return (attached.1, emit env.pool (.subtreeAppended attached.1 (pub 3) attached.2.pool.imt.root)
    (emit env.pool (.emitDisbursed attached.2.currentEpoch attached.2.pool.imt.root pub
      kemCiphertext) attached.2))

def disburseWithCiphertexts (w : World W T) (proof : Proof) (pub : Fin 11 → W)
    (receiverCiphertexts : List W) (kemCiphertext : Bytes) :
    Except (PoolError W) (World W T) := do
  w.whenInitialized
  require (receiverCiphertexts.length = w.pool.disburseCiphertextLen)
    (.wrongCiphertextLength receiverCiphertexts.length w.pool.disburseCiphertextLen)
  checkKemCiphertext kemCiphertext
  let attached ← disburseCore env w proof pub kemCiphertext
  return emit env.pool (.disburseCiphertexts attached.1 receiverCiphertexts) attached.2

def transfer (w : World W T) (proof : Proof) (pub : Fin 37 → W) (kemCiphertext : Bytes) :
    Except (PoolError W) (World W T) := do
  w.whenInitialized
  checkKemCiphertext kemCiphertext
  w.checkKnownRoot (pub 29)
  let key ← w.currentArbiterKey
  require (env.transferVerifier proof
    (inject (inject pub 30 (enabled [pub 27, pub 28])) 35 key) = true) .invalidProof
  let w1 ← [pub 27, pub 28].foldlM spendNullifier w
  require (pub 32 ≠ 0 ∧ pub 33 ≠ 0) .zeroOutputCommitment
  let w2 ← [pub 32, pub 33].foldlM (appendLeaf env) w1
  return emit env.pool (.emitTransferred w2.currentEpoch w2.pool.imt.root pub kemCiphertext) w2

def appendOutput (w : World W T) (oc : W) : Except (PoolError W) (World W T) := do
  require (oc ≠ 0) .zeroOutputCommitment
  appendLeaf env w oc

def transfer10 (w : World W T) (proof : Proof) (pub : Fin 141 → W) (kemCiphertext : Bytes) :
    Except (PoolError W) (World W T) := do
  w.whenInitialized
  checkKemCiphertext kemCiphertext
  w.checkKnownRoot (pub 117)
  let key ← w.currentArbiterKey
  require (env.transfer10Verifier proof
    (inject (inject pub 118 (enabled (slice pub 107 10))) 139 key) = true) .invalidProof
  let w1 ← (slice pub 107 10).foldlM spendNullifier w
  let w2 ← (slice pub 128 10).foldlM (appendOutput env) w1
  return emit env.pool (.emitTransferred10 w2.currentEpoch w2.pool.imt.root pub kemCiphertext) w2

def transfer10x2 (w : World W T) (proof : Proof) (pub : Fin 68 → W) (kemCiphertext : Bytes) :
    Except (PoolError W) (World W T) := do
  w.whenInitialized
  checkKemCiphertext kemCiphertext
  w.checkKnownRoot (pub 52)
  let key ← w.currentArbiterKey
  require (env.transfer10x2Verifier proof
    (inject (inject pub 53 (enabled (slice pub 42 10))) 66 key) = true) .invalidProof
  let w1 ← (slice pub 42 10).foldlM spendNullifier w
  let w2 ← (slice pub 63 2).foldlM (appendOutput env) w1
  return emit env.pool (.emitTransferred10x2 w2.currentEpoch w2.pool.imt.root pub kemCiphertext) w2

-- A payout address is a nonzero uint160.
def IsRecipient (word : W) : Prop := word ≠ 0 ∧ env.toNat word < 2 ^ 160

instance (word : W) : Decidable (IsRecipient env word) :=
  inferInstanceAs (Decidable (_ ∧ _))

def withdraw (w : World W T) (proof : Proof) (pub : Fin 27 → W) (kemCiphertext : Bytes)
    (stealthEphemeralPub : ℕ) (stealthViewTag : UInt8) : Except (PoolError W) (World W T) := do
  w.whenInitialized
  checkKemCiphertext kemCiphertext
  w.checkKnownRoot (pub 19)
  require (IsRecipient env (pub 26)) (.invalidRecipient (pub 26))
  let key ← w.currentArbiterKey
  require (env.withdrawVerifier proof
    (inject (inject pub 20 (enabled [pub 17, pub 18])) 24 key) = true) .invalidProof
  let w1 ← [pub 17, pub 18].foldlM spendNullifier w
  require (pub 22 ≠ 0) .zeroOutputCommitment
  let w2 ← appendLeaf env w1 (pub 22)
  tokenTransfer env (emit env.pool
    (.withdrawAnnouncement (pub 26) stealthEphemeralPub stealthViewTag)
    (emit env.pool (.emitWithdrawn w2.currentEpoch w2.pool.imt.root pub kemCiphertext) w2))
    env.pool (env.toNat (pub 26)) (env.toNat (pub 0))

def spendStrict (w : World W T) (nf : W) : Except (PoolError W) (World W T) := do
  require (nf ≠ 0) .zeroNullifier
  require (w.pool.nullifierUsed nf = false) (.nullifierAlreadyUsed nf)
  return w.markUsed nf

def checkOpRoot (w : World W T) (fx : OpEffects W) : Except (PoolError W) Unit :=
  if fx.nullifiers.length > 0 then w.checkKnownRoot fx.root
  else require (fx.root = 0) (.unknownRoot fx.root)

def appendOp (w : World W T) (fx : OpEffects W) : Except (PoolError W) (ℕ × World W T) :=
  if fx.subtreeRoot ≠ 0 then do
    require (fx.leaves.length = 0) .mixedAppendShape
    let attached ← attachSubtree env w fx.subtreeRoot
    return (attached.1, emit env.pool
      (.subtreeAppended attached.1 fx.subtreeRoot attached.2.pool.imt.root) attached.2)
  else do
    let w' ← fx.leaves.foldlM (appendOutput env) w
    return (w.pool.imt.nextLeafIndex, w')

def applyOpCore (w : World W T) (sender : Address) (fx : OpEffects W) :
    Except (PoolError W) (ℕ × World W T) := do
  require (¬(fx.nullifiers.length = 0 ∧ fx.leaves.length = 0 ∧ fx.subtreeRoot = 0)) .emptyOp
  w.checkOpRoot fx
  let w1 ← fx.nullifiers.foldlM spendStrict w
  let out ← appendOp env w1 fx
  return (out.1, emit env.pool
    (.opApplied sender out.1 fx.nullifiers.length fx.leaves.length fx.subtreeRoot
      out.2.pool.imt.root) out.2)

def onlyRegisteredModule (w : World W T) (sender : Address) : Except (PoolError W) Unit :=
  require (w.pool.registeredModules sender = true) (.moduleNotRegistered sender)

def applyOp (w : World W T) (sender : Address) (fx : OpEffects W) :
    Except (PoolError W) (ℕ × World W T) := do
  w.whenInitialized
  w.onlyRegisteredModule sender
  applyOpCore env w sender fx

def applyOpWithPull (w : World W T) (sender : Address) (fx : OpEffects W) (payer : Address)
    (amount : ℕ) : Except (PoolError W) (ℕ × World W T) := do
  w.whenInitialized
  w.onlyRegisteredModule sender
  let out ← applyOpCore env w sender fx
  let paid ← tokenTransfer env out.2 payer env.pool amount
  return (out.1, paid)

def applyOpWithPush (w : World W T) (sender : Address) (fx : OpEffects W) (recipient : Address)
    (amount : ℕ) : Except (PoolError W) (ℕ × World W T) := do
  w.whenInitialized
  w.onlyRegisteredModule sender
  require (recipient ≠ 0) (.invalidRecipient 0)
  let out ← applyOpCore env w sender fx
  let paid ← tokenTransfer env out.2 env.pool recipient amount
  return (out.1, paid)

end World

end Bongtu.Evm
