import Bongtu.Indexer.MirrorTree

set_option linter.unusedSectionVars false

namespace Bongtu.Indexer

open Bongtu.Core Outcome

variable {W : Type} [Zero W] [DecidableEq W] (poseidon2 : W → W → W)

inductive TreeEvent (W : Type) where
  | appended (leafIndex : ℕ) (leaf root : W)
  | subtreeAppended (start : ℕ) (subtreeRoot root : W)
  | opAppended (start : ℕ) (leaves : List W) (resultingRoot : W)
deriving DecidableEq, Repr

namespace MirrorTree

def apply (e : TreeEvent W) (t : MirrorTree W) : Run MirrorError (MirrorTree W) :=
  match e with
  | .appended leafIndex leaf root => applyAppend poseidon2 leafIndex leaf root t
  | .subtreeAppended start subtreeRoot root => applyAttach poseidon2 start subtreeRoot root t
  | .opAppended start leaves resultingRoot => applyOpAppend poseidon2 start leaves resultingRoot t

end MirrorTree

inductive OpKind where
  | deposit
  | transfer
  | transfer10x2
  | withdraw
  | depositPriv
  | transferPriv
  | transfer10x2Priv
  | withdrawPriv
  | disburse
deriving DecidableEq, Repr

structure SolanaOpIx (W : Type) where
  kind : OpKind
  family : ℕ
  outputCommitments : List W
  changeCommitment : W
  nullifiers : List W
  subtreeRoot : W
  disclosureHash : W
  kemBinding : W
  nullifier : W
deriving DecidableEq, Repr

inductive SolanaEventAnchor (W : Type) where
  | op (family startLeafIndex leafCount : ℕ) (resultingRoot : W) (nullifiers : List W)
  | disburse (family startLeafIndex : ℕ) (subtreeRoot resultingRoot nullifier disclosureHash
      kemBinding : W) (epoch : ℕ)
deriving DecidableEq, Repr

namespace SolanaEventAnchor

def family : SolanaEventAnchor W → ℕ
  | op family _ _ _ _ => family
  | disburse family _ _ _ _ _ _ _ => family

def resultingRoot : SolanaEventAnchor W → W
  | op _ _ _ resultingRoot _ => resultingRoot
  | disburse _ _ _ resultingRoot _ _ _ _ => resultingRoot

end SolanaEventAnchor

-- One transaction as the dispatch splits it: the pool's op instructions and its self-CPI events.
structure SolanaLedgerTx (W : Type) where
  slot : ℕ
  signature : ℕ
  ops : List (SolanaOpIx W)
  events : List (SolanaEventAnchor W)
deriving DecidableEq, Repr

inductive SolanaError where
  | mirror (e : MirrorError)
  | eventCount (signature ops events : ℕ)
  | familyMismatch (family signature : ℕ)
  | shapeMismatch (signature : ℕ)
  | anchorMismatch (signature : ℕ)
  | epochNotGenesis (start epoch : ℕ)
  | leafCountMismatch (got want signature : ℕ)
  | nullifierMismatch (signature : ℕ)
  | persistFailed (slot : ℕ)
  | chainBehind (chainIndex mirrorIndex : ℕ)
  | headRootMismatch (leafCount : ℕ)
deriving DecidableEq, Repr

def arbiterEpochGenesis : ℕ := 0

def treeHeight : ℕ := 32

def SolanaOpIx.leaves (op : SolanaOpIx W) : List W :=
  match op.kind with
  | .withdrawPriv | .withdraw => [op.changeCommitment]
  | _ => op.outputCommitments

-- The checks of an op against its event; what is left to do is the tree update.
def treeEventOf (signature : ℕ) (op : SolanaOpIx W) (ev : SolanaEventAnchor W) :
    Except SolanaError (TreeEvent W) := do
  require (ev.family = op.family) (.familyMismatch ev.family signature)
  match op.kind, ev with
  | .disburse, .disburse _ start subtreeRoot resultingRoot nullifier disclosureHash kemBinding epoch =>
    require (subtreeRoot = op.subtreeRoot ∧ disclosureHash = op.disclosureHash ∧
      kemBinding = op.kemBinding ∧ nullifier = op.nullifier) (.anchorMismatch signature)
    require (epoch = arbiterEpochGenesis) (.epochNotGenesis start epoch)
    return .subtreeAppended start subtreeRoot resultingRoot
  | .disburse, .op _ _ _ _ _ => .error (.shapeMismatch signature)
  | _, .disburse _ _ _ _ _ _ _ _ => .error (.shapeMismatch signature)
  | _, .op _ start leafCount resultingRoot nullifiers =>
    require (leafCount = op.leaves.length)
      (.leafCountMismatch leafCount op.leaves.length signature)
    require (op.nullifiers.filter (fun x => x ≠ 0) = nullifiers) (.nullifierMismatch signature)
    return .opAppended start op.leaves resultingRoot

def applyOne (signature : ℕ) (pair : SolanaOpIx W × SolanaEventAnchor W) (t : MirrorTree W) :
    Run SolanaError (MirrorTree W) :=
  match treeEventOf signature pair.1 pair.2 with
  | .error e => .threw e t
  | .ok e => (t.apply poseidon2 e).mapError .mirror

def applyLedgerTx (tx : SolanaLedgerTx W) (t : MirrorTree W) : Run SolanaError (MirrorTree W) :=
  if tx.ops.length ≠ tx.events.length then
    .threw (.eventCount tx.signature tx.ops.length tx.events.length) t
  else Run.forEach (applyOne poseidon2 tx.signature) (tx.ops.zip tx.events) t

def applyLedgerTxs (txs : List (SolanaLedgerTx W)) (t : MirrorTree W) :
    Run SolanaError (MirrorTree W) :=
  Run.forEach (applyLedgerTx poseidon2) txs t

-- What one COMMIT makes durable: the rows and the cursor, and the mirror they were taken from.
structure Commit (W : Type) where
  rows : List (LeafRow W)
  cursor : ℕ
  root : W
  nextLeafIndex : ℕ

-- The signature cursor is the number of ledger transactions up to the stored signature.
structure SolanaIndexer (W : Type) where
  tree : MirrorTree W
  cursor : ℕ
  database : List (Commit W)

namespace SolanaIndexer

def persistSolana (slot cursor : ℕ) (commits : Bool) (s : SolanaIndexer W) :
    Run SolanaError (SolanaIndexer W) :=
  if commits then .returned
    { tree := s.tree.clearPendingLeaves
      cursor := cursor
      database := s.database ++
        [⟨s.tree.pendingLeaves, cursor, s.tree.tree.root, s.tree.tree.nextLeafIndex⟩] }
  else .threw (.persistFailed slot) s

def checkHead (head : W × ℕ) (s : SolanaIndexer W) : Run SolanaError (SolanaIndexer W) :=
  if head.2 < s.tree.tree.nextLeafIndex then
    .threw (.chainBehind head.2 s.tree.tree.nextLeafIndex) s
  else if head.2 = s.tree.tree.nextLeafIndex ∧ s.tree.tree.root ≠ head.1 then
    .threw (.headRootMismatch head.2) s
  else .returned s

def applyTxs (txs : List (SolanaLedgerTx W)) (s : SolanaIndexer W) :
    Run SolanaError (SolanaIndexer W) :=
  match applyLedgerTxs poseidon2 txs s.tree with
  | .returned tree => .returned { s with tree := tree }
  | .threw e tree => .threw e { s with tree := tree }

-- One poll: `commits` says whether the database accepts the transaction, `head` is TreeState.
def ingest (ledger : List (SolanaLedgerTx W)) (commits : Bool) (head : W × ℕ)
    (s : SolanaIndexer W) : Run SolanaError (SolanaIndexer W) :=
  let txs := ledger.drop s.cursor
  ((applyTxs poseidon2 txs s).bind fun s =>
    match txs.getLast? with
    | none => .returned s
    | some last => s.persistSolana last.slot (s.cursor + txs.length) commits).bind (checkHead head)

end SolanaIndexer

-- One poll of the run: the transactions that landed since the last poll, and how the poll goes.
structure Poll (W : Type) where
  landed : List (SolanaLedgerTx W)
  commits : Bool
  head : W × ℕ

structure Rail (W : Type) where
  ledger : List (SolanaLedgerTx W)
  indexer : SolanaIndexer W

namespace Rail

def poll (r : Rail W) (p : Poll W) : Rail W :=
  let ledger := r.ledger ++ p.landed
  ⟨ledger, (r.indexer.ingest poseidon2 ledger p.commits p.head).state⟩

def run (r : Rail W) (ps : List (Poll W)) : Rail W := ps.foldl (poll poseidon2) r

end Rail

end Bongtu.Indexer
