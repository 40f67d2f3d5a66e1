import Bongtu.Solana.Program

set_option linter.unusedSectionVars false

namespace Bongtu.Solana

open Outcome

variable {K W : Type} [DecidableEq K] [DecidableEq W] [Zero W] [One W]

-- The ledger with the balances it is kept on.
structure Bank (K W : Type) where
  ledger : Ledger K W
  lamports : K → ℕ

structure Call (K : Type) where
  keys : List K
  isSigner : K → Bool

-- The instruction as the program sees it when its payer can always pay.
def Call.tx (call : Call K) : Tx K := ⟨call.keys, call.isSigner, fun _ => true⟩

-- The rent sysvar, and what a token transfer moves: the lamports of wrapped native tokens.
structure Runtime (K W : Type) extends Env K W where
  minimumBalance : ℕ → ℕ
  splLamports : (K → Account K W) → (K → ℕ) → K → K → K → ℕ → K → ℕ

def poolConfigLen : ℕ := 200

def disburseBatchLen : ℕ := 82

def treeAccountLen : ℕ := 1098

def zeroed (space : ℕ) : Data K W := if space = 0 then .empty else .other

variable (rt : Runtime K W)

namespace Bank

variable (b : Bank K W)

def write (key : K) (account : Account K W) : Bank K W := { b with ledger := b.ledger.write key account }

section SystemProgram

variable (signs : K → Bool)

def systemTransfer (source dest : K) (amount : ℕ) : Option (Bank K W) :=
  if signs source = true ∧ (b.ledger.accounts source).owner = rt.systemProgram ∧
      (b.ledger.accounts source).data.isEmpty = true ∧ amount ≤ b.lamports source then
    let debited := Function.update b.lamports source (b.lamports source - amount)
    some { b with lamports := Function.update debited dest (debited dest + amount) }
  else none

def allocate (key : K) (space : ℕ) : Option (Bank K W) :=
  if signs key = true ∧ (b.ledger.accounts key).data.isEmpty = true ∧
      (b.ledger.accounts key).owner = rt.systemProgram then
    some (b.write key ⟨rt.systemProgram, zeroed space⟩)
  else none

def assign (key owner : K) : Option (Bank K W) :=
  if (b.ledger.accounts key).owner = owner then some b
  else if signs key = true ∧ (b.ledger.accounts key).owner = rt.systemProgram then
    some (b.write key ⟨owner, (b.ledger.accounts key).data⟩)
  else none

def createAccount (payer key : K) (amount space : ℕ) (owner : K) : Option (Bank K W) :=
  if b.lamports key > 0 then none
  else do
    let allocated ← b.allocate rt signs key space
    let assigned ← allocated.assign rt signs key owner
    assigned.systemTransfer rt signs payer key amount

end SystemProgram

def cpi : Option (Bank K W) → Except PoolError (Bank K W)
  | some b => .ok b
  | none => .error .invalidAccount

-- `invoke_signed` adds the address its seeds derive to the signers of the instruction.
def signsWith (call : Call K) (seed : Seed K W) (key : K) : Bool := call.isSigner key || key == rt.pda seed

variable (call : Call K) (payer : K)

-- What a pre-funded address lacks of its rent.
def topUp (key : K) (rentLamports : ℕ) : Except PoolError (Bank K W) :=
  if b.lamports key < rentLamports then
    cpi (b.systemTransfer rt call.isSigner payer key (rentLamports - b.lamports key))
  else .ok b

def createPda (key : K) (seed : Seed K W) (space rentLamports : ℕ) : Except PoolError (Bank K W) :=
  if b.lamports key = 0 then
    cpi (b.createAccount rt (signsWith rt call seed) payer key rentLamports space rt.programId)
  else do
    let funded ← b.topUp rt call payer key rentLamports
    let allocated ← cpi (funded.allocate rt (signsWith rt call seed) key space)
    cpi (allocated.assign rt (signsWith rt call seed) key rt.programId)

-- `create_pda` for the rent of `space` bytes and the write into the new account.
def createFilled (key : K) (seed : Seed K W) (space : ℕ) (data : Data K W) : Except PoolError (Bank K W) := do
  let created ← b.createPda rt call payer key seed space (rt.minimumBalance space)
  return created.write key ⟨(created.ledger.accounts key).owner, data⟩

def createMarkerPda (key : K) (seed : Seed K W) (rentLamports : ℕ) : Except PoolError (Bank K W) :=
  b.createPda rt call payer key seed 0 rentLamports

def spendNullifiers (spending : List W) (nfAccounts : List K) (rentLamports : ℕ) :
    Except PoolError (Bank K W) :=
  (spending.zip nfAccounts).foldlM
    (fun b s => createMarkerPda rt b call payer s.2 (.nullifier s.1) rentLamports) b

def appendLeaves (tree : K) (leaf : W) (leaves : List W) : Except PoolError (ℕ × W × Bank K W) := do
  let appended ← b.ledger.appendLeaves rt.toEnv tree leaf leaves
  return (appended.1, appended.2.1, { b with ledger := appended.2.2 })

def attachSubtree (tree : K) (subtreeRoot : W) (logB : ℕ) : Except PoolError (ℕ × W × Bank K W) := do
  let attached ← b.ledger.attachSubtree rt.toEnv tree subtreeRoot logB
  return (attached.1, attached.2.1, { b with ledger := attached.2.2 })

def registerNewRoot (newRootAcc : K) (newRoot : W) (rentLamports : ℕ) : Except PoolError (Bank K W) := do
  require (newRootAcc = rt.pda (.knownRoot newRoot)) .pdaMismatch
  if b.ledger.owns rt.toEnv newRootAcc then return b
  else b.createMarkerPda rt call payer newRootAcc (.knownRoot newRoot) rentLamports

def emit (eventAuthority : K) (event : Event W) : Except PoolError (Bank K W) := do
  let emitted ← b.ledger.emit rt.toEnv call.tx eventAuthority event
  return { b with ledger := emitted }

def splTransfer (source dest authority : K) (amount : ℕ) : Except PoolError (Bank K W) := do
  let moved ← b.ledger.splTransfer rt.toEnv source dest authority amount
  return ⟨moved, rt.splLamports b.ledger.accounts b.lamports source dest authority amount⟩

end Bank

namespace Family

variable {n N : ℕ} (fam : Family W n N)

def recordOn (call : Call K) (eventAuthority : K) (spending : List W) (p : Payload n W) (start : ℕ)
    (root : W) (b : Bank K W) : Except PoolError (Bank K W) :=
  b.emit rt call eventAuthority (.op fam.tag start (fam.outputs p.carried).length root spending)

def transferOn (call : Call K) (p : Payload n W) (b : Bank K W) : Except PoolError (Bank K W) :=
  match call.keys with
  | config :: tree :: spentRootAcc :: newRootAcc :: payer :: system :: eventAuthority :: _program ::
      nfAccounts => do
    let c ← b.ledger.checkCommon rt.toEnv config tree system fam.flag
    let arbiter ← fam.arbiter rt.toEnv c
    fam.checkWire rt.toEnv p
    fam.checkOutputs p.carried
    let spending ← b.ledger.checkSpend rt.toEnv (fam.nullifiers p.carried) (fam.spentRoot p.carried)
      spentRootAcc nfAccounts
    fam.checkProof p arbiter
    let rentLamports := rt.minimumBalance 0
    let spent ← b.spendNullifiers rt call payer spending nfAccounts rentLamports
    let appended ← spent.appendLeaves rt tree (fam.leaf p.carried) (fam.leaves p.carried)
    let known ← appended.2.2.registerNewRoot rt call payer newRootAcc appended.2.1 rentLamports
    fam.recordOn rt call eventAuthority spending p appended.1 appended.2.1 known
  | _ => .error .invalidAccount

def withdrawOn (amountOf : (Fin n → W) → W) (call : Call K) (p : Payload n W) (b : Bank K W) :
    Except PoolError (Bank K W) :=
  match call.keys with
  | config :: tree :: spentRootAcc :: newRootAcc :: payer :: system :: eventAuthority :: _program ::
      tokenProgram :: vault :: vaultAuthority :: recipientToken :: nfAccounts => do
    let c ← b.ledger.checkCommon rt.toEnv config tree system fam.flag
    require (tokenProgram = rt.tokenProgram) .invalidAccount
    require (vault = c.vault) .invalidAccount
    require (vaultAuthority = rt.pda (.vaultAuthority config)) .pdaMismatch
    let arbiter ← fam.arbiter rt.toEnv c
    fam.checkWire rt.toEnv p
    let bound ← checkRecipient rt.toEnv b.ledger recipientToken c.mint
    fam.checkOutputs p.carried
    let amount ← amountU64 rt.toEnv (amountOf p.carried)
    let spending ← b.ledger.checkSpend rt.toEnv (fam.nullifiers p.carried) (fam.spentRoot p.carried)
      spentRootAcc nfAccounts
    fam.checkProof p (arbiter ++ [bound])
    let rentLamports := rt.minimumBalance 0
    let spent ← b.spendNullifiers rt call payer spending nfAccounts rentLamports
    let appended ← spent.appendLeaves rt tree (fam.leaf p.carried) (fam.leaves p.carried)
    let known ← appended.2.2.registerNewRoot rt call payer newRootAcc appended.2.1 rentLamports
    let paid ← known.splTransfer rt vault recipientToken vaultAuthority amount
    fam.recordOn rt call eventAuthority spending p appended.1 appended.2.1 paid
  | _ => .error .invalidAccount

def depositOn (amountOf : (Fin n → W) → W) (call : Call K) (p : Payload n W) (b : Bank K W) :
    Except PoolError (Bank K W) :=
  match call.keys with
  | config :: tree :: newRootAcc :: payer :: system :: eventAuthority :: _program :: tokenProgram ::
      payerToken :: vault :: _ => do
    let c ← b.ledger.checkCommon rt.toEnv config tree system fam.flag
    require (tokenProgram = rt.tokenProgram) .invalidAccount
    require (vault = c.vault) .invalidAccount
    let arbiter ← fam.arbiter rt.toEnv c
    fam.checkWire rt.toEnv p
    fam.checkOutputs p.carried
    let amount ← amountU64 rt.toEnv (amountOf p.carried)
    fam.checkProof p arbiter
    let appended ← b.appendLeaves rt tree (fam.leaf p.carried) (fam.leaves p.carried)
    let known ← appended.2.2.registerNewRoot rt call payer newRootAcc appended.2.1 (rt.minimumBalance 0)
    require (call.isSigner payer = true) .tokenTransferFailed
    let paid ← known.splTransfer rt payerToken vault payer amount
    fam.recordOn rt call eventAuthority [] p appended.1 appended.2.1 paid
  | _ => .error .invalidAccount

end Family

def createBatchOn (call : Call K) (payer batchAcc : K) (batch : DisburseBatch W) (b : Bank K W) :
    Except PoolError (Bank K W) := do
  require (batchAcc = rt.pda (.disburseBatch batch.startLeafIndex)) .pdaMismatch
  require (¬b.ledger.owns rt.toEnv batchAcc) .invalidAccount
  b.createFilled rt call payer batchAcc (.disburseBatch batch.startLeafIndex) disburseBatchLen
    (.disburseBatch batch)

def disburse256On (call : Call K) (p : Payload 8 W) (b : Bank K W) : Except PoolError (Bank K W) :=
  match call.keys with
  | config :: tree :: spentRootAcc :: newRootAcc :: batchAcc :: payer :: system :: eventAuthority ::
      _program :: nfAccounts => do
    let c ← b.ledger.checkCommon rt.toEnv config tree system familyDisburse256
    let arbiter ← arbiterKey rt.toEnv c
    let logB ← configBatchLogB c
    require (logB = circuitLogB) .wrongBatchSize
    require (p.tail.length = kemCiphertextLen) .wrongKemCiphertextLength
    checkCanonical rt.toEnv p.carried
    require (p.carried 5 ≠ 0) .zeroNullifier
    let spending ← b.ledger.checkSpend rt.toEnv [p.carried 5] (p.carried 6) spentRootAcc nfAccounts
    require (rt.verifyDisburse256 p.proof (disbursePublics p.carried arbiter) = true) .invalidProof
    let rentLamports := rt.minimumBalance 0
    let spent ← b.spendNullifiers rt call payer spending nfAccounts rentLamports
    let attached ← spent.attachSubtree rt tree (p.carried 3) logB
    let known ← attached.2.2.registerNewRoot rt call payer newRootAcc attached.2.1 rentLamports
    let anchored ← createBatchOn rt call payer batchAcc
      ⟨attached.1, p.carried 2, p.carried 4, arbiterEpochGenesis⟩ known
    anchored.emit rt call eventAuthority (.disburse 7 attached.1 (p.carried 3) attached.2.1
      (p.carried 5) (p.carried 2) (p.carried 4) arbiterEpochGenesis)
  | _ => .error .invalidAccount

def initializePoolOn (call : Call K) (payload : Option (Profile W)) (b : Bank K W) :
    Except PoolError (Bank K W) :=
  match call.keys with
  | config :: tree :: mint :: vault :: payer :: system :: _ => do
    require (call.isSigner payer = true) .invalidAccount
    require (system = rt.systemProgram) .invalidAccount
    b.ledger.checkMintAccount rt.toEnv mint
    match payload with
    | none => .error .wrongKemCiphertextLength
    | some profile => do
      checkProfile rt.toEnv profile
      require (config = rt.pda (.config mint)) .pdaMismatch
      require (¬(b.ledger.owns rt.toEnv config ∨ b.ledger.owns rt.toEnv tree)) .alreadyInitialized
      require (tree = rt.pda (.tree config)) .pdaMismatch
      let owner ← b.ledger.checkTokenAccount rt.toEnv vault mint
      require (owner = rt.pda (.vaultAuthority config)) .invalidAccount
      let configured ← b.createFilled rt call payer config (.config mint) poolConfigLen (.poolConfig
        ⟨profile.flags, payer, mint, vault, profile.batchB, profile.arbiterX, profile.arbiterY,
          profile.kemPkHash⟩)
      configured.createFilled rt call payer tree (.tree config) treeAccountLen
        (.treeState config (.init rt.poseidon2 treeHeight))
  | _ => .error .invalidAccount

def processOn (call : Call K) (ix : Instruction W) (b : Bank K W) : Except PoolError (Bank K W) :=
  match ix with
  | .initializePool payload => initializePoolOn rt call payload b
  | .depositPriv p => (depositPrivFamily rt.toEnv).depositOn rt (fun carried => carried ⟨0, by decide⟩) call p b
  | .transferPriv p => (transferPrivFamily rt.toEnv).transferOn rt call p b
  | .transfer10x2Priv p => (transfer10x2PrivFamily rt.toEnv).transferOn rt call p b
  | .withdrawPriv p => (withdrawPrivFamily rt.toEnv).withdrawOn rt (fun carried => carried ⟨0, by decide⟩) call p b
  | .deposit p => (depositFamily rt.toEnv).depositOn rt (fun carried => carried ⟨0, by decide⟩) call p b
  | .withdraw p => (withdrawFamily rt.toEnv).withdrawOn rt (fun carried => carried ⟨0, by decide⟩) call p b
  | .disburse256 p => disburse256On rt call p b
  | .transfer p => (transferFamily rt.toEnv).transferOn rt call p b
  | .transfer10x2 p => (transfer10x2Family rt.toEnv).transferOn rt call p b

-- One entry of a history. A failed one leaves the bank as it was.
inductive Step (K W : Type) where
  | instruction (call : Call K) (ix : Instruction W)
  | transfer (signs : K → Bool) (source dest : K) (amount : ℕ)

def Bank.step (b : Bank K W) : Step K W → Bank K W
  | .instruction call ix => (processOn rt call ix b).toOption.getD b
  | .transfer signs source dest amount => (b.systemTransfer rt signs source dest amount).getD b

def Bank.run (b : Bank K W) (history : List (Step K W)) : Bank K W := history.foldl (Bank.step rt) b

end Bongtu.Solana
