import Bongtu.Monitor
import Bongtu.Spend.Assemble

namespace Bongtu.Spend

open Bongtu.Core Monitor

inductive SpendStage where
  | unlock
  | assemble
  | prove
  | submit
  | waiting
deriving DecidableEq, Repr

inductive DriverError where
  | io (message : String)
  | build (e : BuildError)
  | mergeNotePending (fromLeg : ℕ)
  | stale
  | mergeNotIndexed
  | countUnderstates (count legs : ℕ)
  | chainFailure (cause : DriverError)
deriving DecidableEq

structure MergedNoteView where
  commitment : ℕ
  leafIndex : ℤ
  spent : Bool
deriving DecidableEq, Repr

inductive EntryPoint where
  | submitTransfer
  | submitTransfer10x2
  | submitWithdraw
  | submitWithdrawRelayed
  | submitTransferPriv
  | submitTransfer10x2Priv
  | submitWithdrawPriv
deriving DecidableEq, Repr

structure BuiltLeg where
  request : ProvingRequest
  membershipOk : Bool
  payeeSalt : String
  submit : EntryPoint

structure SpendOutcome where
  txHash : String
  explorerUrl : String
deriving DecidableEq, Repr

-- What a run does to the world outside, in the words of the leg it does it for.
inductive Deed (I : Type) where
  | stage (s : SpendStage)
  | ensureChain
  | guardPool
  | unlock (identity : Option I)
  | getHead
  | readPath (leafIndex : ℤ)
  | buildLeg (inputs : List WalletInputNote)
  | prove
  | submit (built : BuiltLeg)
  | reloadNotes (notes : Option (List MergedNoteView))

structure LegCall (I : Type) where
  leg : ℕ
  deed : Deed I

-- The operations of the world may fail, and may have changed it when they do.
abbrev Op (σ α : Type) : Type := σ → Except DriverError α × σ

structure PollForActionOptions where
  intervalMs : ℕ
  capMs : ℕ
  positive : 0 < intervalMs

structure LegChainFamily (σ I Calldata : Type) where
  isUnlocked : σ → Bool
  ensureChain : Op σ Unit
  guardPool : Option (Op σ Unit)
  unlock : Op σ I
  getHead : Op σ ℕ
  readPath : I → ℤ → Op σ (List ℕ)
  buildLeg : SpendLeg → List WalletInputNote → I → List MembershipWitness → Op σ BuiltLeg
  prove : ProvingRequest → Op σ Calldata
  submit : BuiltLeg → Calldata → Op σ SpendOutcome
  reloadNotes : Op σ (List MergedNoteView)
  poll : PollForActionOptions
  publicKey : I → Point

structure LegChainRun where
  outcomes : List SpendOutcome
  merged : List (Option WalletInputNote)

section Driver

variable {σ I Calldata : Type} (p : Primitives) (family : LegChainFamily σ I Calldata)

abbrev Leg (σ I α : Type) : Type := Program σ (LegCall I) DriverError α

def doing {α : Type} (leg : ℕ) (deed : Deed I) (op : Op σ α) : Leg σ I α := perform op fun _ => ⟨leg, deed⟩

-- The assembling is announced before the unlock where the wallet is open, and after it where it was locked.
def announce (leg : ℕ) (locked : Bool) : Leg σ I Unit :=
  if locked then emit ⟨leg, .stage .assemble⟩ else pure ()

def openSession (leg : ℕ) : Leg σ I I := do
  let locked ← look fun s => !family.isUnlocked s
  emit ⟨leg, .stage (if locked then .unlock else .assemble)⟩
  doing leg .ensureChain family.ensureChain
  family.guardPool.elim (pure ()) (doing leg .guardPool)
  let identity ← perform family.unlock fun answer => ⟨leg, .unlock answer.toOption⟩
  announce leg locked
  return identity

def resolveInput (merged : List (Option WalletInputNote)) (n : WalletInputNote) : Except DriverError WalletInputNote :=
  match pendingLegOf n.leafIndex with
  | none => .ok n
  | some fromLeg =>
    match merged[fromLeg]?.join with
    | none => .error (.mergeNotePending fromLeg)
    | some real => .ok real

def resolveInputs (planned : List WalletInputNote) (merged : List (Option WalletInputNote)) :
    Except DriverError (List WalletInputNote) :=
  planned.mapM (resolveInput merged)

def readMemberships (leg : ℕ) (identity : I) (head : ℕ) : List WalletInputNote → Leg σ I (List MembershipWitness)
  | [] => pure []
  | n :: rest => do
    let siblings ← doing leg (.readPath n.leafIndex) (family.readPath identity n.leafIndex)
    let memberships ← readMemberships leg identity head rest
    return ⟨head, siblings, n.leafIndex⟩ :: memberships

def fetchMemberships (leg : ℕ) (identity : I) (inputs : List WalletInputNote) : Leg σ I (List MembershipWitness) := do
  let head ← doing leg .getHead family.getHead
  readMemberships family leg identity head inputs

def seen (wanted : ℕ) (notes : List MergedNoteView) : Option MergedNoteView :=
  notes.find? fun n => decide (n.commitment = wanted) && !n.spent

-- A read that fails is passed over; the last one read is the answer where none is accepted.
def pollUntil (leg : ℕ) (accept : List MergedNoteView → Bool) (elapsed : ℕ) (last : Option (List MergedNoteView)) :
    Leg σ I (Option (List MergedNoteView)) :=
  if _h : family.poll.capMs ≤ elapsed then pure last
  else do
    let loaded ← attempting (perform family.reloadNotes fun answer => ⟨leg, .reloadNotes answer.toOption⟩)
    match loaded with
    | none => pollUntil leg accept (elapsed + family.poll.intervalMs) last
    | some notes =>
      if accept notes then pure (some notes)
      else pollUntil leg accept (elapsed + family.poll.intervalMs) (some notes)
termination_by family.poll.capMs - elapsed
decreasing_by all_goals have := family.poll.positive; omega

def awaitMergedNote (leg : ℕ) (identity : I) (mergedValue : ℕ) (payeeSalt : String) : Leg σ I WalletInputNote := do
  let salt ← lift ((fieldText payeeSalt).mapError .build)
  let wanted := p.commitment mergedValue salt (family.publicKey identity)
  let last ← pollUntil family leg (fun notes => (seen wanted notes).isSome) 0 none
  match last.bind (seen wanted) with
  | none => throwing .mergeNotIndexed
  | some note => return ⟨mergedValue, payeeSalt, note.leafIndex⟩

-- One leg: what it landed, and the note it created where it is a merge.
def runLeg (leg : ℕ) (step : SpendLeg) (merged : List (Option WalletInputNote)) :
    Leg σ I (SpendOutcome × Option WalletInputNote) := do
  let identity ← openSession family leg
  let inputs ← lift (resolveInputs step.inputs merged)
  let memberships ← fetchMemberships family leg identity inputs
  let built ← doing leg (.buildLeg inputs) (family.buildLeg step inputs identity memberships)
  lift (Outcome.require built.membershipOk .stale)
  emit ⟨leg, .stage .prove⟩
  let calldata ← doing leg .prove (family.prove built.request)
  emit ⟨leg, .stage .submit⟩
  let outcome ← doing leg (.submit built) (family.submit built calldata)
  match step with
  | .merge m => do
    emit ⟨leg, .stage .waiting⟩
    let note ← awaitMergedNote p family leg identity m.mergedValue built.payeeSalt
    return (outcome, some note)
  | .spend _ _ => return (outcome, none)

-- The rest of the chain from the leg after those that `run` holds.
def runLegs (count : ℕ) : List SpendLeg → LegChainRun → Leg σ I LegChainRun
  | [], run => pure run
  | step :: rest, run => do
    let (outcome, note) ← rewording (fun e => if count = 1 then e else .chainFailure e)
      (runLeg p family run.outcomes.length step run.merged)
    runLegs count rest ⟨run.outcomes ++ [outcome], run.merged ++ [note]⟩

def runLegChain (legs : List SpendLeg) (count : ℕ) : Leg σ I LegChainRun :=
  if count < legs.length then throwing (.countUnderstates count legs.length)
  else runLegs p family count legs ⟨[], []⟩

end Driver

end Bongtu.Spend
