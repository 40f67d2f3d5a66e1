import Bongtu.Core.Note

namespace Bongtu.Core

open Outcome

inductive OpKind where
  | deposit
  | withdraw
  | transfer
  | transfer10
  | transfer10x2
  | disburse
deriving DecidableEq, Repr

def transfer10Arity : ℕ := 10

structure Arity where
  nIn : ℕ
  nOut : ℕ

def opArity (B : ℕ) : OpKind → Arity
  | .deposit => ⟨0, 2⟩
  | .withdraw => ⟨2, 1⟩
  | .transfer => ⟨2, 2⟩
  | .transfer10 => ⟨transfer10Arity, transfer10Arity⟩
  | .transfer10x2 => ⟨transfer10Arity, 2⟩
  | .disburse => ⟨1, B⟩

structure SpendLayout where
  inValBase : ℕ
  outOwnBase : ℕ
  outValBase : ℕ
  len : ℕ

def spendLayout (arity : Arity) : SpendLayout :=
  let inValBase := if arity.nIn > 0 then 2 else 0
  let outOwnBase := inValBase + 2 * arity.nIn
  let outValBase := outOwnBase + 2 * arity.nOut
  ⟨inValBase, outOwnBase, outValBase, outValBase + 2 * arity.nOut⟩

def envelopePlaintextLen (B : ℕ) (kind : OpKind) : ℕ := (spendLayout (opArity B kind)).len

structure EnvNote where
  owner : Point
  value : ℕ
  salt : ℕ
deriving DecidableEq, Repr

structure ParsedEnvelope where
  inputs : List EnvNote
  outputs : List EnvNote
deriving DecidableEq, Repr

-- The owner of `inputs[0]`, which every kind but a deposit has.
def ParsedEnvelope.sender (env : ParsedEnvelope) : Point := (env.inputs.head?.map (·.owner)).getD (0, 0)

def tagK0 : ℕ := 10398998902367040515226727887904115149378422647845688990538198988921570667720

def tagK1 : ℕ := 7025394518961265764175593663800963341053996587382265036146196548941915994055

def tagBind : ℕ := 5518019128667894418081277213291049553290157756968653594844689494754896839788

-- One shared owner for every input; a deposit carries no input head.
def sliceEnvelope (B : ℕ) (kind : OpKind) (m : List ℕ) : ParsedEnvelope :=
  let arity := opArity B kind
  let layout := spendLayout arity
  let at' (i : ℕ) := m.getD i 0
  let inOwn : Point := if arity.nIn > 0 then (at' 0, at' 1) else (0, 0)
  { inputs := (List.range arity.nIn).map fun i =>
      ⟨inOwn, at' (layout.inValBase + 2 * i), at' (layout.inValBase + 2 * i + 1)⟩
    outputs := (List.range arity.nOut).map fun i =>
      ⟨(at' (layout.outOwnBase + 2 * i), at' (layout.outOwnBase + 2 * i + 1)),
        at' (layout.outValBase + 2 * i), at' (layout.outValBase + 2 * i + 1)⟩ }

def authorityCiphertextLen (B : ℕ) (kind : OpKind) : ℕ :=
  let plain := envelopePlaintextLen B kind
  plain + (3 - plain % 3) % 3 + 1

def OpKind.name : OpKind → String
  | .deposit => "deposit"
  | .withdraw => "withdraw"
  | .transfer => "transfer"
  | .transfer10 => "transfer10"
  | .transfer10x2 => "transfer10x2"
  | .disburse => "disburse"

def need (kind : OpKind) (cond : Prop) [Decidable cond] (msg : String) : Except String Unit :=
  require cond ("buildAuthorityPlaintext(" ++ kind.name ++ "): " ++ msg)

def needOutputs (kind : OpKind) (nOut got : ℕ) : Except String Unit :=
  match kind with
  | .disburse => need kind (0 < got) "disburse needs B >= 1 outputs"
  | _ =>
    let noun := if kind = .withdraw then "change output" else if nOut = 1 then "output" else "outputs"
    need kind (got = nOut)
      (kind.name ++ " creates exactly " ++ toString nOut ++ " " ++ noun ++ " (got " ++ toString got ++ ")")

def needInputs (kind : OpKind) (nIn got : ℕ) : Except String Unit :=
  need kind (got = nIn)
    (if nIn = 0 then kind.name ++ " consumes no inputs (got " ++ toString got ++ ")"
     else kind.name ++ " consumes exactly " ++ toString nIn ++ (if nIn = 1 then " input" else " inputs") ++
       " (got " ++ toString got ++ ")")

-- The field order the circuits encrypt: the shared owner, the inputs, the output owners, the outputs.
def layOut (nIn : ℕ) (env : ParsedEnvelope) : List ℕ :=
  (if nIn > 0 then [env.sender.1, env.sender.2] else []) ++
    (env.inputs.map fun i => [i.value, i.salt]).flatten ++
    (env.outputs.map fun o => [o.owner.1, o.owner.2]).flatten ++
    (env.outputs.map fun o => [o.value, o.salt]).flatten

def buildAuthorityPlaintext (kind : OpKind) (env : ParsedEnvelope) : Except String (List ℕ) := do
  let arity := opArity env.outputs.length kind
  needOutputs kind arity.nOut env.outputs.length
  needInputs kind arity.nIn env.inputs.length
  env.inputs.forM fun i => need kind (i.owner = env.sender)
    "all inputs must share ONE owner (the circuit takes a single inputOwnerPrivateKey)"
  return layOut arity.nIn env

namespace Primitives

variable (p : Primitives)

def noteCommitment (n : EnvNote) : ℕ := p.commitment n.value n.salt n.owner

def poseidon2 (l r : ℕ) : ℕ := p.poseidonN [l, r]

def disclosureChain (elements : List ℕ) : ℕ := elements.foldl p.poseidon2 0

def hybridEnvelopeKey (ecdhShared kemSs : Point) : Point :=
  let tail := [ecdhShared.1, ecdhShared.2, kemSs.1, kemSs.2]
  (p.poseidonN (tagK0 :: tail), p.poseidonN (tagK1 :: tail))

def kemBindingOf (kemSs : Point) : ℕ := p.poseidonN [tagBind, kemSs.1, kemSs.2]

-- Nothing when the ciphertext is too short for the layout: the missing fields are undefined, and the
-- first commitment over one throws.
def parseEnvelope (arbiterPriv : ℕ) (ecdhPublicKey : Point) (nonce : ℕ) (ct : List ℕ) (kind : OpKind)
    (B : ℕ) (kemSs : Option Point) : Option ParsedEnvelope :=
  let shared := p.ecdhSharedSecret arbiterPriv ecdhPublicKey
  let key := kemSs.elim shared (p.hybridEnvelopeKey shared)
  let m := p.poseidonDecrypt ct key nonce (envelopePlaintextLen B kind)
  if m.length < envelopePlaintextLen B kind then none else some (sliceEnvelope B kind m)

end Primitives

theorem length_inputs {B : ℕ} {kind : OpKind} {m : List ℕ} :
    (sliceEnvelope B kind m).inputs.length = (opArity B kind).nIn := by
  simp [sliceEnvelope]

theorem length_outputs {B : ℕ} {kind : OpKind} {m : List ℕ} :
    (sliceEnvelope B kind m).outputs.length = (opArity B kind).nOut := by
  simp [sliceEnvelope]

theorem parseEnvelope_shape {p : Primitives} {arbiterPriv : ℕ} {eph : Point} {nonce B : ℕ} {ct : List ℕ}
    {kind : OpKind} {kemSs : Option Point} {env : ParsedEnvelope}
    (h : p.parseEnvelope arbiterPriv eph nonce ct kind B kemSs = some env) :
    env.inputs.length = (opArity B kind).nIn ∧ env.outputs.length = (opArity B kind).nOut := by
  simp only [Primitives.parseEnvelope] at h
  split at h
  · cases h
  · cases h
    exact ⟨length_inputs, length_outputs⟩

end Bongtu.Core
