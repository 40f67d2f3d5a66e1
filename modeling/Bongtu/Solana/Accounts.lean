import Bongtu.PublicVector
import Bongtu.Solana.Tree

set_option linter.unusedSectionVars false

namespace Bongtu.Solana

open Outcome

def treeHeight : ℕ := 32

def familyDepositPriv : ℕ := 1 <<< 0
def familyTransferPriv : ℕ := 1 <<< 1
def familyTransfer10x2Priv : ℕ := 1 <<< 2
def familyWithdrawPriv : ℕ := 1 <<< 3
def familyDeposit : ℕ := 1 <<< 4
def familyWithdraw : ℕ := 1 <<< 5
def familyDisburse256 : ℕ := 1 <<< 6
def familyTransfer : ℕ := 1 <<< 7
def familyTransfer10x2 : ℕ := 1 <<< 8

def arbiterEpochGenesis : ℕ := 0

-- The widest spend arity on the rail.
def maxNullifiers : ℕ := 10

-- Seeds of the program-derived addresses. Nullifiers and roots carry no config key.
inductive Seed (K W : Type) where
  | nullifier (nf : W)
  | knownRoot (root : W)
  | config (mint : K)
  | tree (config : K)
  | vaultAuthority (config : K)
  | disburseBatch (startLeafIndex : ℕ)
  | eventAuthority
deriving DecidableEq, Repr

structure PoolConfig (K W : Type) where
  familyFlags : ℕ
  admin : K
  mint : K
  vault : K
  batchB : ℕ
  arbiterX : W
  arbiterY : W
  kemPkHash : ℕ
deriving DecidableEq, Repr

structure DisburseBatch (W : Type) where
  startLeafIndex : ℕ
  disclosureHash : W
  kemBinding : W
  epoch : ℕ
deriving DecidableEq, Repr

inductive Data (K W : Type) where
  | empty
  | poolConfig (config : PoolConfig K W)
  | treeState (config : K) (tree : TreeState W)
  | disburseBatch (batch : DisburseBatch W)
  | tokenAccount (mint owner : K) (amount : ℕ)
  | mint
  | other

def Data.isEmpty {K W : Type} : Data K W → Bool
  | .empty => true
  | _ => false

@[ext]
structure Account (K W : Type) where
  owner : K
  data : Data K W

inductive Event (W : Type) where
  | op (family startLeafIndex leafCount : ℕ) (resultingRoot : W) (nullifiers : List W)
  | disburse (family startLeafIndex : ℕ)
      (subtreeRoot resultingRoot nullifier disclosureHash kemBinding : W) (epoch : ℕ)
deriving DecidableEq, Repr

structure Ledger (K W : Type) where
  accounts : K → Account K W
  events : List (Event W)

-- One instruction: the account list, who signed, and for which new accounts the payer can fund the
-- system program's calls.
structure Tx (K : Type) where
  keys : List K
  isSigner : K → Bool
  funds : K → Bool

-- The instruction data behind the discriminator.
structure Payload (n : ℕ) (W : Type) where
  proof : Proof
  carried : Fin n → W
  tail : Bytes

-- What the program calls or reads outside itself.
structure Env (K W : Type) where
  programId : K
  systemProgram : K
  tokenProgram : K
  pda : Seed K W → K
  poseidon2 : W → W → W
  toNat : W → ℕ
  boundRecipient : K → W
  verifyDepositPriv : Proof → (Fin 16 → W) → Bool
  verifyTransferPriv : Proof → (Fin 20 → W) → Bool
  verifyTransfer10x2Priv : Proof → (Fin 36 → W) → Bool
  verifyWithdrawPriv : Proof → (Fin 16 → W) → Bool
  verifyDeposit : Proof → (Fin 19 → W) → Bool
  verifyWithdraw : Proof → (Fin 27 → W) → Bool
  verifyDisburse256 : Proof → (Fin 11 → W) → Bool
  verifyTransfer : Proof → (Fin 37 → W) → Bool
  verifyTransfer10x2 : Proof → (Fin 68 → W) → Bool
  splTransfer : (K → Account K W) → K → K → K → ℕ → Option (K → Account K W)

variable {K W : Type} [DecidableEq K] [DecidableEq W] [Zero W] [One W] (env : Env K W)

def isCanonicalScalar (v : W) : Prop := env.toNat v < snarkScalarField

instance (v : W) : Decidable (isCanonicalScalar env v) := inferInstanceAs (Decidable (_ < _))

def checkCanonical {n : ℕ} (carried : Fin n → W) : Except PoolError Unit :=
  require (∀ i, isCanonicalScalar env (carried i)) .publicInputNotCanonical

namespace Ledger

variable (l : Ledger K W)

def write (key : K) (account : Account K W) : Ledger K W :=
  { l with accounts := Function.update l.accounts key account }

def owns (key : K) : Prop := (l.accounts key).owner = env.programId

instance (key : K) : Decidable (l.owns env key) := inferInstanceAs (Decidable (_ = _))

def checkPoolConfig (config : K) : Except PoolError (PoolConfig K W) :=
  if l.owns env config then
    match (l.accounts config).data with
    | .poolConfig c => .ok c
    | _ => .error .invalidAccount
  else .error .invalidAccount

def checkTreeState (tree config : K) : Except PoolError Unit :=
  if l.owns env tree then
    match (l.accounts tree).data with
    | .treeState linked _ => require (linked = config) .invalidAccount
    | _ => .error .invalidAccount
  else .error .invalidAccount

def checkCommon (config tree system : K) (familyFlag : ℕ) : Except PoolError (PoolConfig K W) := do
  require (system = env.systemProgram) .invalidAccount
  let c ← l.checkPoolConfig env config
  require (c.familyFlags &&& familyFlag ≠ 0) .familyDisabled
  l.checkTreeState env tree config
  return c

def checkNullifier (nf : W) (account : K) : Except PoolError Unit := do
  require (account = env.pda (.nullifier nf)) .pdaMismatch
  require (¬l.owns env account) .nullifierAlreadyUsed
  require ((l.accounts account).owner = env.systemProgram ∧ (l.accounts account).data.isEmpty = true)
    .invalidAccount

def checkSpentRoot (spending : List W) (spentRoot : W) (spentRootAcc : K) : Except PoolError Unit :=
  if spending = [] then require (spentRoot = 0) .unknownRoot
  else do
    require (spentRootAcc = env.pda (.knownRoot spentRoot)) .pdaMismatch
    require (l.owns env spentRootAcc) .unknownRoot

def checkSpend (nullifiers : List W) (spentRoot : W) (spentRootAcc : K) (nfAccounts : List K) :
    Except PoolError (List W) := do
  let spending := stripZeros nullifiers
  require (spending.length ≤ maxNullifiers) .invalidAccount
  l.checkSpentRoot env spending spentRoot spentRootAcc
  require spending.Nodup .nullifierAlreadyUsed
  require (nfAccounts.length = spending.length) .missingNullifierAccount
  (spending.zip nfAccounts).forM fun s => l.checkNullifier env s.1 s.2
  return spending

-- The system program creates only over an empty account of its own.
def createPda (tx : Tx K) (key : K) (data : Data K W) : Except PoolError (Ledger K W) := do
  require (tx.funds key = true ∧ (l.accounts key).owner = env.systemProgram ∧
    (l.accounts key).data.isEmpty = true) .invalidAccount
  return l.write key ⟨env.programId, data⟩

def createMarkerPda (tx : Tx K) (key : K) : Except PoolError (Ledger K W) :=
  l.createPda env tx key .empty

def spendNullifiers (tx : Tx K) (nfAccounts : List K) : Except PoolError (Ledger K W) :=
  nfAccounts.foldlM (fun l account => createMarkerPda env l tx account) l

def loadTree (tree : K) : Except PoolError (K × TreeState W) :=
  match (l.accounts tree).data with
  | .treeState config t => .ok (config, t)
  | _ => .error .invalidAccount

def storeTree (tree config : K) (t : TreeState W) : Ledger K W :=
  l.write tree ⟨(l.accounts tree).owner, .treeState config t⟩

-- The start index, the resulting root and the ledger with the advanced frontier.
def appendLeaves (tree : K) (leaf : W) (leaves : List W) :
    Except PoolError (ℕ × W × Ledger K W) := do
  let loaded ← l.loadTree tree
  let first ← loaded.2.appendLeaf env.poseidon2 treeHeight leaf
  let t ← leaves.foldlM
    (fun t leaf => (t.appendLeaf env.poseidon2 treeHeight leaf).map Prod.snd) first.2
  return (first.1, t.currentRoot, l.storeTree tree loaded.1 t)

def attachSubtree (tree : K) (subtreeRoot : W) (logB : ℕ) :
    Except PoolError (ℕ × W × Ledger K W) := do
  let loaded ← l.loadTree tree
  let attached ← loaded.2.attachSubtree env.poseidon2 treeHeight subtreeRoot logB
  return (attached.1, attached.2.currentRoot, l.storeTree tree loaded.1 attached.2)

def registerNewRoot (tx : Tx K) (newRootAcc : K) (newRoot : W) : Except PoolError (Ledger K W) := do
  require (newRootAcc = env.pda (.knownRoot newRoot)) .pdaMismatch
  if l.owns env newRootAcc then return l else l.createMarkerPda env tx newRootAcc

-- The self-CPI needs the program among the instruction's accounts.
def emit (tx : Tx K) (eventAuthority : K) (event : Event W) : Except PoolError (Ledger K W) := do
  require (eventAuthority = env.pda .eventAuthority) .invalidEventAuthority
  require (env.programId ∈ tx.keys) .invalidEventAuthority
  return { l with events := l.events ++ [event] }

def checkTokenAccount (key mint : K) : Except PoolError K :=
  if (l.accounts key).owner = env.tokenProgram then
    match (l.accounts key).data with
    | .tokenAccount m owner _ => if m = mint then .ok owner else .error .invalidAccount
    | _ => .error .invalidAccount
  else .error .invalidAccount

def checkMintAccount (key : K) : Except PoolError Unit :=
  match (l.accounts key).data with
  | .mint => require ((l.accounts key).owner = env.tokenProgram) .invalidAccount
  | _ => .error .invalidAccount

def splTransfer (source dest authority : K) (amount : ℕ) : Except PoolError (Ledger K W) :=
  match env.splTransfer l.accounts source dest authority amount with
  | none => .error .tokenTransferFailed
  | some accounts => .ok { l with accounts := accounts }

end Ledger

-- A zeroed key is a consumer-only profile.
def arbiterKey (c : PoolConfig K W) : Except PoolError (List W) := do
  require (¬(c.arbiterX = 0 ∧ c.arbiterY = 0)) .arbiterKeyUnset
  require (isCanonicalScalar env c.arbiterX ∧ isCanonicalScalar env c.arbiterY) .invalidAccount
  return [c.arbiterX, c.arbiterY]

def amountU64 (amount : W) : Except PoolError ℕ :=
  if env.toNat amount < 2 ^ 64 then .ok (env.toNat amount) else .error .amountOverflow

end Bongtu.Solana
