import Bongtu.Core.Envelope
import Bongtu.Core.Feed
import Bongtu.Core.Imt

namespace Bongtu.Indexer

open Bongtu.Core Outcome

structure LedgerNote where
  owner : Point
  value : ℕ
  salt : ℕ
  leafIndex : ℕ
  commitment : ℕ
  txHash : TxHash
  spent : Bool
deriving DecidableEq, Repr

structure EnvelopeAlarm where
  kind : Core.OpKind
  txHash : TxHash
  detail : String
  recomputed : ℕ
  expected : ℕ
deriving DecidableEq, Repr

inductive HistoryKind where
  | received
  | sent
  | withdraw
  | deposit
deriving DecidableEq, Repr

structure LedgerHistoryItem where
  kind : HistoryKind
  counterparty : Option ℕ
  amount : ℕ
  txHash : TxHash
  blockTimestamp : ℕ
  seq : ℕ
deriving DecidableEq, Repr

structure OutputLeaf where
  leafIndex : ℕ
  commitment : ℕ
deriving DecidableEq, Repr

structure BatchRef where
  startLeafIndex : ℕ
  subtreeRoot : ℕ
deriving DecidableEq, Repr

structure KemMaterial where
  binding : ℕ
  ciphertext : Bytes
deriving DecidableEq, Repr

structure OpEnvelope where
  kind : Core.OpKind
  txHash : TxHash
  logIndex : ℕ
  blockTimestamp : ℕ
  ecdhPublicKey : Point
  nonce : ℕ
  authorityCt : List ℕ
  kem : Option KemMaterial
  outputLeaves : List OutputLeaf
  batch : Option BatchRef
deriving DecidableEq, Repr

structure DerivedNote where
  owner : Point
  value : ℕ
  salt : ℕ
  leafIndex : ℕ
  commitment : ℕ
deriving DecidableEq, Repr

structure DerivedHistory where
  owner : Point
  kind : HistoryKind
  counterparty : Option Point
  amount : ℕ
deriving DecidableEq, Repr

structure BatchFill where
  start : ℕ
  leaves : List ℕ
deriving DecidableEq, Repr

structure DerivedOp where
  outputs : List DerivedNote := []
  spent : List ℕ := []
  alarms : List EnvelopeAlarm := []
  batchFill : Option BatchFill := none
  history : List DerivedHistory := []
deriving DecidableEq, Repr

inductive DeriveError where
  | noKemKey
  | sharedSecret (e : NoteError)
  | undefinedField
  | noBatch
  | noOutput (i : ℕ)
  | subtree (e : ImtError)
deriving DecidableEq, Repr

-- What the ledger is built with. `decapsulationMessage` is the text of the library's throw.
structure Arbiter where
  primitives : Primitives
  decapsulationMessage : Bytes → Bytes → String
  priv : ℕ
  kemSecret : Option Bytes
  B : ℕ
  H : ℕ

-- The early result of the key-encapsulation gate: an alarm and the envelope withheld.
def withheldEnvelope (op : OpEnvelope) (detail : String) (recomputed expected : ℕ) : DerivedOp :=
  { alarms := [⟨op.kind, op.txHash, detail, recomputed, expected⟩] }

def kemBindingMismatch : String := "kem binding mismatch — envelope withheld"

def decapsulationFailed (message : String) : String :=
  "kem decapsulation failed (" ++ message ++ ") — envelope withheld"

inductive KemGate where
  | early (d : DerivedOp)
  | opened (kemSs : Option Point)
deriving DecidableEq

def kemGate (a : Arbiter) (op : OpEnvelope) : Except DeriveError KemGate :=
  match op.kem with
  | none => .ok (.opened none)
  | some kem =>
    match a.kemSecret with
    | none => .error .noKemKey
    | some kemSecret =>
      match a.primitives.decapsulate kem.ciphertext kemSecret with
      | none => .ok (.early (withheldEnvelope op
          (decapsulationFailed (a.decapsulationMessage kem.ciphertext kemSecret)) 0 kem.binding))
      | some decapsulated => do
        let limbs ← (kemSsToLimbs decapsulated).mapError .sharedSecret
        let recomputed := a.primitives.kemBindingOf limbs
        if recomputed ≠ kem.binding then
          return .early (withheldEnvelope op kemBindingMismatch recomputed kem.binding)
        else return .opened (some limbs)

structure CrossCheck where
  outputs : List DerivedNote := []
  alarms : List EnvelopeAlarm := []
  batchFill : Option BatchFill := none
  disburseCrossChecks : Bool := false

def derivedNote (leafIndex commitment : ℕ) (n : EnvNote) : DerivedNote :=
  ⟨n.owner, n.value, n.salt, leafIndex, commitment⟩

def foldMismatch (start : ℕ) : String :=
  "disburse batch @" ++ toString start ++ ": envelope leaves fold != on-chain subtreeRoot"

def outputMismatch (i leafIndex : ℕ) : String :=
  "output#" ++ toString i ++ " @" ++ toString leafIndex ++ ": envelope commitment != on-chain leaf"

def crossCheckBatch (a : Arbiter) (op : OpEnvelope) (env : ParsedEnvelope) : Except DeriveError CrossCheck := do
  let batch ← op.batch.elim (.error .noBatch) .ok
  let commits := env.outputs.map a.primitives.noteCommitment
  let tree ← (ImtTree.construct a.primitives.poseidon2 a.H a.B).mapError .subtree
  let sub ← (ImtTree.computeSubtreeRoot a.primitives.poseidon2 tree commits).mapError .subtree
  if sub ≠ batch.subtreeRoot then
    return { alarms := [⟨op.kind, op.txHash, foldMismatch batch.startLeafIndex, sub, batch.subtreeRoot⟩] }
  else return {
    outputs := env.outputs.zipIdx.map fun o =>
      derivedNote (batch.startLeafIndex + o.2) (a.primitives.noteCommitment o.1) o.1
    batchFill := some ⟨batch.startLeafIndex, commits⟩
    disburseCrossChecks := true }

def crossCheckOutput (a : Arbiter) (op : OpEnvelope) (env : ParsedEnvelope) (acc : CrossCheck)
    (known : OutputLeaf × ℕ) : Except DeriveError CrossCheck := do
  let o ← env.outputs[known.2]?.elim (.error (.noOutput known.2)) .ok
  let c := a.primitives.noteCommitment o
  if c ≠ known.1.commitment then
    return { acc with alarms := acc.alarms ++
      [⟨op.kind, op.txHash, outputMismatch known.2 known.1.leafIndex, c, known.1.commitment⟩] }
  else return { acc with outputs := acc.outputs ++ [derivedNote known.1.leafIndex c o] }

def crossCheck (a : Arbiter) (op : OpEnvelope) (env : ParsedEnvelope) : Except DeriveError CrossCheck :=
  match op.kind with
  | .disburse => crossCheckBatch a op env
  | _ => op.outputLeaves.zipIdx.foldlM (crossCheckOutput a op env) {}

def paidOthers (env : ParsedEnvelope) : List EnvNote :=
  env.outputs.filter fun o => o.value ≠ 0 ∧ o.owner ≠ env.sender

def disburseHistory (env : ParsedEnvelope) : List DerivedHistory :=
  let paid := ((paidOthers env).map (·.value)).sum
  (paidOthers env).map (fun o => ⟨o.owner, .received, some env.sender, o.value⟩) ++
    if paid > 0 then [⟨env.sender, .sent, none, paid⟩] else []

-- A transfer whose every funded output goes back to the sender is listed as one matched pair.
def transferHistory (env : ParsedEnvelope) : List DerivedHistory :=
  match env.outputs.filter (·.value ≠ 0) with
  | first :: rest =>
    if (first :: rest).all (·.owner = env.sender) then
      [⟨env.sender, .sent, some env.sender, first.value⟩,
        ⟨env.sender, .received, some env.sender, first.value⟩]
    else (paidOthers env).flatMap fun o =>
      [⟨o.owner, .received, some env.sender, o.value⟩, ⟨env.sender, .sent, some o.owner, o.value⟩]
  | [] => []

def withdrawHistory (env : ParsedEnvelope) : List DerivedHistory :=
  let inSum := (env.inputs.map (·.value)).sum
  let change := (env.outputs.map (·.value)).sum
  if inSum > change then [⟨env.sender, .withdraw, none, inSum - change⟩] else []

def deriveHistory (op : OpEnvelope) (env : ParsedEnvelope) (disburseCrossChecks : Bool) :
    List DerivedHistory :=
  match op.kind with
  | .deposit => (env.outputs.filter (·.value ≠ 0)).map fun o => ⟨o.owner, .deposit, none, o.value⟩
  | .disburse => if disburseCrossChecks then disburseHistory env else []
  | .transfer | .transfer10 | .transfer10x2 => transferHistory env
  | .withdraw => withdrawHistory env

def deriveOpened (a : Arbiter) (op : OpEnvelope) (kemSs : Option Point) : Except DeriveError DerivedOp := do
  let env ← (a.primitives.parseEnvelope a.priv op.ecdhPublicKey op.nonce op.authorityCt op.kind a.B kemSs).elim
    (.error .undefinedField) .ok
  let checked ← crossCheck a op env
  return {
    outputs := checked.outputs
    spent := env.inputs.map a.primitives.noteCommitment
    alarms := checked.alarms
    batchFill := checked.batchFill
    history := deriveHistory op env checked.disburseCrossChecks }

def deriveOp (a : Arbiter) (op : OpEnvelope) : Except DeriveError DerivedOp := do
  match ← kemGate a op with
  | .early d => return d
  | .opened kemSs => deriveOpened a op kemSs

def OpEnvelope.positions (B : ℕ) (op : OpEnvelope) : List ℕ :=
  match op.kind with
  | .disburse => op.batch.elim [] fun b => List.range' b.startLeafIndex B
  | _ => op.outputLeaves.map (·.leafIndex)

section Derive

variable {a : Arbiter} {op : OpEnvelope} {env : ParsedEnvelope} {d : DerivedOp}

theorem crossCheckOutput_leaf {acc acc' : CrossCheck} {known : OutputLeaf × ℕ}
    (h : crossCheckOutput a op env acc known = .ok acc') :
    acc'.outputs.map (·.leafIndex) = acc.outputs.map (·.leafIndex) ∨
      acc'.outputs.map (·.leafIndex) = acc.outputs.map (·.leafIndex) ++ [known.1.leafIndex] := by
  simp only [crossCheckOutput, bind_ok] at h
  obtain ⟨o, -, h⟩ := h
  split at h <;> cases h
  · exact .inl rfl
  · exact .inr (by simp [derivedNote])

theorem crossCheckOutputs_leaves {known : List (OutputLeaf × ℕ)} {acc acc' : CrossCheck}
    (h : known.foldlM (crossCheckOutput a op env) acc = .ok acc') :
    (acc'.outputs.map (·.leafIndex)).Sublist
      (acc.outputs.map (·.leafIndex) ++ known.map (·.1.leafIndex)) := by
  induction known generalizing acc with
  | nil =>
    cases h
    simp
  | cons leaf known ih =>
    rw [List.foldlM_cons, bind_ok] at h
    obtain ⟨mid, hmid, h⟩ := h
    refine (ih h).trans ?_
    rcases crossCheckOutput_leaf hmid with hsame | hnew
    · rw [hsame]
      exact List.Sublist.append_left (List.sublist_cons_self _ _) _
    · rw [hnew, List.append_assoc]
      rfl

theorem crossCheckBatch_leaves {checked : CrossCheck} (hkind : op.kind = .disburse)
    (hlen : env.outputs.length = a.B) (h : crossCheckBatch a op env = .ok checked) :
    (checked.outputs.map (·.leafIndex)).Sublist (op.positions a.B) := by
  simp only [crossCheckBatch, bind_ok] at h
  obtain ⟨batch, hbatch, tree, -, sub, -, h⟩ := h
  have hpositions : op.positions a.B = List.range' batch.startLeafIndex a.B := by
    cases hb : op.batch with
    | none => simp [hb] at hbatch
    | some b =>
      simp only [hb, Option.elim_some, Except.ok.injEq] at hbatch
      simp [OpEnvelope.positions, hkind, hb, hbatch]
  split at h <;> cases h
  · exact List.nil_sublist _
  · have hleaves : env.outputs.zipIdx.map (batch.startLeafIndex + ·.2) =
        List.range' batch.startLeafIndex a.B := by
      rw [← hlen]
      refine List.ext_getElem (by simp) fun i h₁ h₂ => ?_
      simp
    rw [hpositions, ← hleaves, List.map_map]
    exact .refl _

theorem crossCheck_leaves {checked : CrossCheck} (hlen : env.outputs.length = (opArity a.B op.kind).nOut)
    (h : crossCheck a op env = .ok checked) :
    (checked.outputs.map (·.leafIndex)).Sublist (op.positions a.B) := by
  cases hkind : op.kind with
  | disburse =>
    simp only [crossCheck, hkind] at h
    exact crossCheckBatch_leaves hkind (by simpa [hkind, opArity] using hlen) h
  | deposit | withdraw | transfer | transfer10 | transfer10x2 =>
    simp only [crossCheck, hkind] at h
    have hleaves := crossCheckOutputs_leaves h
    have hpositions : op.outputLeaves.zipIdx.map (·.1.leafIndex) = op.positions a.B := by
      simp only [OpEnvelope.positions, hkind]
      rw [← List.zipIdx_map_fst 0 op.outputLeaves, List.map_map, List.zipIdx_map_fst]
      rfl
    rw [← hpositions]
    exact hleaves

theorem kemGate_early {early : DerivedOp} (h : kemGate a op = .ok (.early early)) :
    ∃ detail recomputed expected, early = withheldEnvelope op detail recomputed expected := by
  unfold kemGate at h
  split at h
  · cases h
  · split at h
    · cases h
    · split at h
      · cases h
        exact ⟨_, _, _, rfl⟩
      · rw [bind_ok] at h
        obtain ⟨limbs, -, h⟩ := h
        dsimp only at h
        split at h <;> cases h
        exact ⟨_, _, _, rfl⟩

theorem deriveOpened_ok {kemSs : Option Point} (h : deriveOpened a op kemSs = .ok d) :
    ∃ env checked, a.primitives.parseEnvelope a.priv op.ecdhPublicKey op.nonce op.authorityCt op.kind a.B
        kemSs = some env ∧
      crossCheck a op env = .ok checked ∧
      d = ⟨checked.outputs, env.inputs.map a.primitives.noteCommitment, checked.alarms, checked.batchFill,
        deriveHistory op env checked.disburseCrossChecks⟩ := by
  simp only [deriveOpened, bind_ok] at h
  obtain ⟨env, henv, checked, hchecked, h⟩ := h
  cases h
  refine ⟨env, checked, ?_, hchecked, rfl⟩
  cases hparse : a.primitives.parseEnvelope a.priv op.ecdhPublicKey op.nonce op.authorityCt op.kind a.B
    kemSs with
  | none => simp [hparse] at henv
  | some env' => simpa [hparse] using henv

theorem deriveOp_ok (h : deriveOp a op = .ok d) :
    (∃ detail recomputed expected, d = withheldEnvelope op detail recomputed expected) ∨
      ∃ kemSs, kemGate a op = .ok (.opened kemSs) ∧ deriveOpened a op kemSs = .ok d := by
  rw [deriveOp, bind_ok] at h
  obtain ⟨gate, hgate, h⟩ := h
  cases gate with
  | early early =>
    cases h
    exact .inl (kemGate_early hgate)
  | opened kemSs => exact .inr ⟨kemSs, hgate, h⟩

theorem deriveOp_leaves (h : deriveOp a op = .ok d) :
    (d.outputs.map (·.leafIndex)).Sublist (op.positions a.B) := by
  rcases deriveOp_ok h with ⟨_, _, _, rfl⟩ | ⟨kemSs, -, h⟩
  · exact List.nil_sublist _
  · obtain ⟨env, checked, henv, hchecked, rfl⟩ := deriveOpened_ok h
    exact crossCheck_leaves (parseEnvelope_shape henv).2 hchecked

end Derive

end Bongtu.Indexer
