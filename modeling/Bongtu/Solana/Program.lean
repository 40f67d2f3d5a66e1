import Bongtu.Solana.Accounts

set_option linter.unusedSectionVars false

namespace Bongtu.Solana

open Outcome

variable {K W : Type} [DecidableEq K] [DecidableEq W] [Zero W] [One W]

-- What tells the instructions of one shape apart: `n` carried publics, `N` rebuilt ones.
structure Family (W : Type) (n N : ℕ) where
  flag : ℕ
  tag : ℕ
  enterprise : Bool
  tailLen : ℕ
  nullifiers : (Fin n → W) → List W
  spentRoot : (Fin n → W) → W
  leaf : (Fin n → W) → W
  leaves : (Fin n → W) → List W
  publics : (Fin n → W) → List W → Fin N → W
  verify : Proof → (Fin N → W) → Bool

namespace Family

variable {n N : ℕ} (fam : Family W n N) (env : Env K W)

def arbiter (c : PoolConfig K W) : Except PoolError (List W) :=
  if fam.enterprise = true then arbiterKey env c else .ok []

def outputs (carried : Fin n → W) : List W := fam.leaf carried :: fam.leaves carried

def checkOutputs (carried : Fin n → W) : Except PoolError Unit :=
  require (∀ oc ∈ fam.outputs carried, oc ≠ 0) .zeroOutputCommitment

def checkWire (p : Payload n W) : Except PoolError Unit := do
  require (p.tail.length = fam.tailLen) .wrongKemCiphertextLength
  checkCanonical env p.carried

def checkProof (p : Payload n W) (injected : List W) : Except PoolError Unit :=
  require (fam.verify p.proof (fam.publics p.carried injected) = true) .invalidProof

def record (tx : Tx K) (eventAuthority : K) (spending : List W) (p : Payload n W) (start : ℕ)
    (root : W) (l : Ledger K W) : Except PoolError (Ledger K W) :=
  l.emit env tx eventAuthority
    (.op fam.tag start (fam.outputs p.carried).length root spending)

-- The two, three and ten input transfers.
def transferOp (tx : Tx K) (p : Payload n W) (l : Ledger K W) : Except PoolError (Ledger K W) :=
  match tx.keys with
  | config :: tree :: spentRootAcc :: newRootAcc :: _payer :: system :: eventAuthority :: _program ::
      nfAccounts => do
    let c ← l.checkCommon env config tree system fam.flag
    let arbiter ← fam.arbiter env c
    fam.checkWire env p
    fam.checkOutputs p.carried
    let spending ← l.checkSpend env (fam.nullifiers p.carried) (fam.spentRoot p.carried) spentRootAcc
      nfAccounts
    fam.checkProof p arbiter
    let spent ← l.spendNullifiers env tx nfAccounts
    let appended ← spent.appendLeaves env tree (fam.leaf p.carried) (fam.leaves p.carried)
    let known ← appended.2.2.registerNewRoot env tx newRootAcc appended.2.1
    fam.record env tx eventAuthority spending p appended.1 appended.2.1 known
  | _ => .error .invalidAccount

def checkRecipient (l : Ledger K W) (recipientToken mint : K) : Except PoolError W := do
  let _ ← l.checkTokenAccount env recipientToken mint
  require (env.boundRecipient recipientToken ≠ 0) .invalidRecipient
  return env.boundRecipient recipientToken

def withdrawOp (amountOf : (Fin n → W) → W) (tx : Tx K) (p : Payload n W) (l : Ledger K W) :
    Except PoolError (Ledger K W) :=
  match tx.keys with
  | config :: tree :: spentRootAcc :: newRootAcc :: _payer :: system :: eventAuthority :: _program ::
      tokenProgram :: vault :: vaultAuthority :: recipientToken :: nfAccounts => do
    let c ← l.checkCommon env config tree system fam.flag
    require (tokenProgram = env.tokenProgram) .invalidAccount
    require (vault = c.vault) .invalidAccount
    require (vaultAuthority = env.pda (.vaultAuthority config)) .pdaMismatch
    let arbiter ← fam.arbiter env c
    fam.checkWire env p
    let bound ← checkRecipient env l recipientToken c.mint
    fam.checkOutputs p.carried
    let amount ← amountU64 env (amountOf p.carried)
    let spending ← l.checkSpend env (fam.nullifiers p.carried) (fam.spentRoot p.carried) spentRootAcc
      nfAccounts
    fam.checkProof p (arbiter ++ [bound])
    let spent ← l.spendNullifiers env tx nfAccounts
    let appended ← spent.appendLeaves env tree (fam.leaf p.carried) (fam.leaves p.carried)
    let known ← appended.2.2.registerNewRoot env tx newRootAcc appended.2.1
    let paid ← known.splTransfer env vault recipientToken vaultAuthority amount
    fam.record env tx eventAuthority spending p appended.1 appended.2.1 paid
  | _ => .error .invalidAccount

def depositOp (amountOf : (Fin n → W) → W) (tx : Tx K) (p : Payload n W) (l : Ledger K W) :
    Except PoolError (Ledger K W) :=
  match tx.keys with
  | config :: tree :: newRootAcc :: payer :: system :: eventAuthority :: _program :: tokenProgram ::
      payerToken :: vault :: _ => do
    let c ← l.checkCommon env config tree system fam.flag
    require (tokenProgram = env.tokenProgram) .invalidAccount
    require (vault = c.vault) .invalidAccount
    let arbiter ← fam.arbiter env c
    fam.checkWire env p
    fam.checkOutputs p.carried
    let amount ← amountU64 env (amountOf p.carried)
    fam.checkProof p arbiter
    let appended ← l.appendLeaves env tree (fam.leaf p.carried) (fam.leaves p.carried)
    let known ← appended.2.2.registerNewRoot env tx newRootAcc appended.2.1
    require (tx.isSigner payer = true) .tokenTransferFailed
    let paid ← known.splTransfer env payerToken vault payer amount
    fam.record env tx eventAuthority [] p appended.1 appended.2.1 paid
  | _ => .error .invalidAccount

end Family

variable (env : Env K W)

def transferPrivFamily : Family W 18 20 where
  flag := familyTransferPriv
  tag := 2
  enterprise := false
  tailLen := 2 * kemCiphertextLen
  nullifiers carried := [carried 12, carried 13]
  spentRoot carried := carried 14
  leaf carried := carried 15
  leaves carried := [carried 16]
  publics carried _ := insertRun carried 15 (enabled [carried 12, carried 13])
  verify := env.verifyTransferPriv

def transfer10x2PrivFamily : Family W 26 36 where
  flag := familyTransfer10x2Priv
  tag := 3
  enterprise := false
  tailLen := 2 * kemCiphertextLen
  nullifiers carried := slice carried 12 10
  spentRoot carried := carried 22
  leaf carried := carried 23
  leaves carried := [carried 24]
  publics carried _ := insertRun carried 23 (enabled (slice carried 12 10))
  verify := env.verifyTransfer10x2Priv

def transferFamily : Family W 33 37 where
  flag := familyTransfer
  tag := 8
  enterprise := true
  tailLen := kemCiphertextLen
  nullifiers carried := [carried 27, carried 28]
  spentRoot carried := carried 29
  leaf carried := carried 30
  leaves carried := [carried 31]
  publics carried arbiter :=
    insertRun (n := 35) (insertRun carried 30 (enabled [carried 27, carried 28])) 35 arbiter
  verify := env.verifyTransfer

def transfer10x2Family : Family W 56 68 where
  flag := familyTransfer10x2
  tag := 9
  enterprise := true
  tailLen := kemCiphertextLen
  nullifiers carried := slice carried 42 10
  spentRoot carried := carried 52
  leaf carried := carried 53
  leaves carried := [carried 54]
  publics carried arbiter :=
    insertRun (n := 66) (insertRun carried 53 (enabled (slice carried 42 10))) 66 arbiter
  verify := env.verifyTransfer10x2

-- A withdrawal's payload ends with the stealth announcement: 32 + 1 bytes.
def withdrawPrivFamily : Family W 13 16 where
  flag := familyWithdrawPriv
  tag := 4
  enterprise := false
  tailLen := kemCiphertextLen + 33
  nullifiers carried := [carried 8, carried 9]
  spentRoot carried := carried 10
  leaf carried := carried 11
  leaves _ := []
  publics carried injected :=
    insertRun (n := 15) (insertRun carried 11 (enabled [carried 8, carried 9])) 15 injected
  verify := env.verifyWithdrawPriv

def withdrawFamily : Family W 22 27 where
  flag := familyWithdraw
  tag := 6
  enterprise := true
  tailLen := kemCiphertextLen + 33
  nullifiers carried := [carried 17, carried 18]
  spentRoot carried := carried 19
  leaf carried := carried 20
  leaves _ := []
  publics carried injected :=
    insertRun (n := 24) (insertRun carried 20 (enabled [carried 17, carried 18])) 24 injected
  verify := env.verifyWithdraw

def depositPrivFamily : Family W 16 16 where
  flag := familyDepositPriv
  tag := 1
  enterprise := false
  tailLen := 2 * kemCiphertextLen
  nullifiers _ := []
  spentRoot _ := 0
  leaf carried := carried 13
  leaves carried := [carried 14]
  publics carried _ := carried
  verify := env.verifyDepositPriv

def depositFamily : Family W 17 19 where
  flag := familyDeposit
  tag := 5
  enterprise := true
  tailLen := kemCiphertextLen
  nullifiers _ := []
  spentRoot _ := 0
  leaf carried := carried 14
  leaves carried := [carried 15]
  publics carried arbiter := insertRun carried 17 arbiter
  verify := env.verifyDeposit

def transferPriv := (transferPrivFamily env).transferOp env

def transfer10x2Priv := (transfer10x2PrivFamily env).transferOp env

def transfer := (transferFamily env).transferOp env

def transfer10x2 := (transfer10x2Family env).transferOp env

def withdrawPriv := (withdrawPrivFamily env).withdrawOp env fun carried => carried 0

def withdraw := (withdrawFamily env).withdrawOp env fun carried => carried 0

def depositPriv := (depositPrivFamily env).depositOp env fun carried => carried 0

def deposit := (depositFamily env).depositOp env fun carried => carried 0

def circuitLogB : ℕ := 8

def isPowerOfTwo (b : ℕ) : Bool := b != 0 && b &&& (b - 1) == 0

def configBatchLogB (c : PoolConfig K W) : Except PoolError ℕ := do
  require (isPowerOfTwo c.batchB = true) .invalidAccount
  require (c.batchB.log2 < treeHeight) .invalidAccount
  return c.batchB.log2

def disbursePublics (carried : Fin 8 → W) (arbiter : List W) : Fin 11 → W :=
  insertRun (n := 9) (insertRun carried 7 [1]) 9 arbiter

-- The batch account is the durable audit anchor of an attached block.
def createBatch (tx : Tx K) (batchAcc : K) (batch : DisburseBatch W) (l : Ledger K W) :
    Except PoolError (Ledger K W) := do
  require (batchAcc = env.pda (.disburseBatch batch.startLeafIndex)) .pdaMismatch
  require (¬l.owns env batchAcc) .invalidAccount
  l.createPda env tx batchAcc (.disburseBatch batch)

def disburse256 (tx : Tx K) (p : Payload 8 W) (l : Ledger K W) : Except PoolError (Ledger K W) :=
  match tx.keys with
  | config :: tree :: spentRootAcc :: newRootAcc :: batchAcc :: _payer :: system :: eventAuthority ::
      _program :: nfAccounts => do
    let c ← l.checkCommon env config tree system familyDisburse256
    let arbiter ← arbiterKey env c
    let logB ← configBatchLogB c
    require (logB = circuitLogB) .wrongBatchSize
    require (p.tail.length = kemCiphertextLen) .wrongKemCiphertextLength
    checkCanonical env p.carried
    require (p.carried 5 ≠ 0) .zeroNullifier
    let _ ← l.checkSpend env [p.carried 5] (p.carried 6) spentRootAcc nfAccounts
    require (env.verifyDisburse256 p.proof (disbursePublics p.carried arbiter) = true) .invalidProof
    let spent ← l.spendNullifiers env tx nfAccounts
    let attached ← spent.attachSubtree env tree (p.carried 3) logB
    let known ← attached.2.2.registerNewRoot env tx newRootAcc attached.2.1
    let anchored ← createBatch env tx batchAcc
      ⟨attached.1, p.carried 2, p.carried 4, arbiterEpochGenesis⟩ known
    anchored.emit env tx eventAuthority (.disburse 7 attached.1 (p.carried 3) attached.2.1
      (p.carried 5) (p.carried 2) (p.carried 4) arbiterEpochGenesis)
  | _ => .error .invalidAccount

def enterpriseFamilies : ℕ :=
  familyDeposit ||| familyWithdraw ||| familyDisburse256 ||| familyTransfer ||| familyTransfer10x2

def knownFamilies : ℕ :=
  familyDepositPriv ||| familyTransferPriv ||| familyTransfer10x2Priv ||| familyWithdrawPriv |||
    enterpriseFamilies

-- The deploy profile an `initialize` payload carries.
structure Profile (W : Type) where
  flags : ℕ
  batchB : ℕ
  arbiterX : W
  arbiterY : W
  kemPkHash : ℕ
deriving DecidableEq, Repr

def checkProfile (profile : Profile W) : Except PoolError Unit := do
  require (profile.flags ||| knownFamilies = knownFamilies) .invalidAccount
  require (isPowerOfTwo profile.batchB = true) .invalidAccount
  require (profile.batchB.log2 < treeHeight) .invalidAccount
  require (¬(profile.flags &&& familyDisburse256 ≠ 0 ∧ profile.batchB ≠ 256)) .wrongBatchSize
  if profile.flags &&& enterpriseFamilies ≠ 0 then do
    require (¬(profile.arbiterX = 0 ∧ profile.arbiterY = 0)) .arbiterKeyUnset
    require (isCanonicalScalar env profile.arbiterX ∧ isCanonicalScalar env profile.arbiterY)
      .publicInputNotCanonical
  else
    require ((profile.arbiterX = 0 ∧ profile.arbiterY = 0) ∧ profile.kemPkHash = 0) .invalidAccount

-- `none` is a payload that is not exactly the fixed wire shape.
def initializePool (tx : Tx K) (payload : Option (Profile W)) (l : Ledger K W) :
    Except PoolError (Ledger K W) :=
  match tx.keys with
  | config :: tree :: mint :: vault :: payer :: system :: _ => do
    require (tx.isSigner payer = true) .invalidAccount
    require (system = env.systemProgram) .invalidAccount
    l.checkMintAccount env mint
    match payload with
    | none => .error .wrongKemCiphertextLength
    | some profile => do
      checkProfile env profile
      require (config = env.pda (.config mint)) .pdaMismatch
      require (¬(l.owns env config ∨ l.owns env tree)) .alreadyInitialized
      require (tree = env.pda (.tree config)) .pdaMismatch
      let owner ← l.checkTokenAccount env vault mint
      require (owner = env.pda (.vaultAuthority config)) .invalidAccount
      let configured ← l.createPda env tx config (.poolConfig
        ⟨profile.flags, payer, mint, vault, profile.batchB, profile.arbiterX, profile.arbiterY,
          profile.kemPkHash⟩)
      configured.createPda env tx tree (.treeState config (.init env.poseidon2 treeHeight))
  | _ => .error .invalidAccount

inductive Instruction (W : Type) where
  | initializePool (payload : Option (Profile W))
  | depositPriv (p : Payload 16 W)
  | transferPriv (p : Payload 18 W)
  | transfer10x2Priv (p : Payload 26 W)
  | withdrawPriv (p : Payload 13 W)
  | deposit (p : Payload 17 W)
  | withdraw (p : Payload 22 W)
  | disburse256 (p : Payload 8 W)
  | transfer (p : Payload 33 W)
  | transfer10x2 (p : Payload 56 W)

def processInstruction (tx : Tx K) (ix : Instruction W) (l : Ledger K W) :
    Except PoolError (Ledger K W) :=
  match ix with
  | .initializePool payload => initializePool env tx payload l
  | .depositPriv p => depositPriv env tx p l
  | .transferPriv p => transferPriv env tx p l
  | .transfer10x2Priv p => transfer10x2Priv env tx p l
  | .withdrawPriv p => withdrawPriv env tx p l
  | .deposit p => deposit env tx p l
  | .withdraw p => withdraw env tx p l
  | .disburse256 p => disburse256 env tx p l
  | .transfer p => transfer env tx p l
  | .transfer10x2 p => transfer10x2 env tx p l

end Bongtu.Solana
