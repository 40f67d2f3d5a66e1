import Bongtu.Spend.ChainRun

namespace Bongtu.Spend

open Bongtu.Core Monitor Outcome

structure SpendAction where
  circuit : SpendCircuit
  inputs : List WalletInputNote
  payee : String
  amount : ℤ

-- What the lock hands out reproduces the session's key.
abbrev SessionIdentity (sessionPubkey : String) : Type := {i : WalletIdentity // i.compressedPubkey = sessionPubkey}

abbrev ConsumerSessionIdentity (sessionPubkey : String) : Type :=
  {i : ConsumerWalletIdentity // i.compressedPubkey = sessionPubkey}

-- The addresses are numbers here; `stealth` is the derivation's.
structure SpendArgs where
  payee : Option String
  amount : ℤ
  stealth : Option ℤ
  withdrawTo : Option ℤ

structure SpendContext where
  connectionAddress : ℤ
  relayerUrl : Option String
  sessionPubkey : String

structure RunSpendDeps (σ Calldata : Type) where
  isUnlocked : σ → Bool
  unlock : (sessionPubkey : String) → Op σ (SessionIdentity sessionPubkey)
  ensureChain : Op σ Unit
  assertPoolKemEpoch : Op σ Unit
  getHead : Op σ ℕ
  getSignedPath : ℤ → WalletIdentity → Op σ (List ℕ)
  freshSpendCrypto : Op σ SpendCrypto
  prove : ProvingRequest → Op σ Calldata
  submit : BuiltLeg → Calldata → Op σ SpendOutcome
  reloadNotes : Op σ (List MergedNoteView)
  poll : PollForActionOptions

structure RunConsumerSpendDeps (σ Calldata : Type) where
  isUnlocked : σ → Bool
  unlock : (sessionPubkey : String) → Op σ (ConsumerSessionIdentity sessionPubkey)
  ensureChain : Op σ Unit
  getHead : Op σ ℕ
  getPath : ℤ → Op σ (List ℕ)
  freshConsumerSpendCrypto : Op σ ConsumerSpendCrypto
  prove : ProvingRequest → Op σ Calldata
  submit : BuiltLeg → Calldata → Op σ SpendOutcome
  reloadNotes : Op σ (List MergedNoteView)
  poll : PollForActionOptions

-- An operation, and what is made of its answer.
def Op.then {σ α β : Type} (op : Op σ α) (f : α → Except BuildError β) : Op σ β := fun s =>
  ((op s).1 >>= fun a => (f a).mapError .build, (op s).2)

theorem Op.then_ok {σ α β : Type} {op : Op σ α} {f : α → Except BuildError β} {s : σ} {b : β}
    (h : (op.then f s).1 = .ok b) : ∃ a, f a = .ok b := by
  obtain ⟨a, -, ha⟩ := bind_ok.1 h
  exact ⟨a, mapError_ok.1 ha⟩

section Enterprise

variable {σ Calldata : Type} (p : Primitives)

def legAction (step : SpendLeg) (inputs : List WalletInputNote) (ctx : SpendContext) (args : SpendArgs) : SpendAction :=
  match step with
  | .merge m => ⟨.transfer10x2, inputs, ctx.sessionPubkey, m.mergedValue⟩
  | .spend circuit _ => ⟨circuit, inputs, args.payee.getD "", args.amount⟩

def buildRequest (action : SpendAction) (identity : WalletIdentity) (memberships : List MembershipWitness)
    (crypto : SpendCrypto) (withdrawRecipient : ℤ) : Except BuildError SpendResult :=
  match action.circuit with
  | .withdraw => buildWithdrawRequest p identity action.inputs memberships action.amount crypto withdrawRecipient
  | .transfer10x2 =>
    buildTransfer10x2Request p identity action.inputs memberships action.payee action.amount crypto
  | .transfer => buildTransferRequest p identity action.inputs memberships action.payee action.amount crypto

def enterpriseSubmit (ctx : SpendContext) : SpendCircuit → EntryPoint
  | .withdraw => if ctx.relayerUrl.any (· ≠ "") then .submitWithdrawRelayed else .submitWithdraw
  | .transfer => .submitTransfer
  | .transfer10x2 => .submitTransfer10x2

-- A merge consumes neither the stealth destination nor the typed one.
def enterpriseRecipient (ctx : SpendContext) (args : SpendArgs) : SpendLeg → ℤ
  | .merge _ => ctx.connectionAddress
  | .spend _ _ => (args.stealth.or args.withdrawTo).getD ctx.connectionAddress

def enterpriseFamily (io : RunSpendDeps σ Calldata) (ctx : SpendContext) (args : SpendArgs) :
    LegChainFamily σ (SessionIdentity ctx.sessionPubkey) Calldata where
  isUnlocked := io.isUnlocked
  ensureChain := io.ensureChain
  guardPool := some io.assertPoolKemEpoch
  unlock := io.unlock ctx.sessionPubkey
  getHead := io.getHead
  readPath identity leafIndex := io.getSignedPath leafIndex identity.1
  buildLeg step inputs identity memberships :=
    let action := legAction step inputs ctx args
    Op.then io.freshSpendCrypto fun crypto => do
      let built ← buildRequest p action identity.1 memberships crypto (enterpriseRecipient ctx args step)
      return ⟨built.request, built.request.input.inputs.membershipOk, crypto.payeeSalt.getD "",
        enterpriseSubmit ctx action.circuit⟩
  prove := io.prove
  submit := io.submit
  reloadNotes := io.reloadNotes
  poll := io.poll
  publicKey identity := identity.1.publicKey

end Enterprise

inductive ConsumerSpendCircuit where
  | transferPriv
  | transfer10x2Priv
  | withdrawPriv
deriving DecidableEq, Repr

def consumerCircuitOf : SpendCircuit → ConsumerSpendCircuit
  | .transfer => .transferPriv
  | .transfer10x2 => .transfer10x2Priv
  | .withdraw => .withdrawPriv

structure ConsumerAction where
  circuit : ConsumerSpendCircuit
  inputs : List WalletInputNote
  payee : ConsumerRecipient
  amount : ℤ

structure ConsumerSpendArgs where
  payee : Option ConsumerRecipient
  amount : ℤ
  withdrawTo : Option ℤ

section Consumer

variable {σ Calldata : Type} (p : Primitives)

def consumerLegAction (step : SpendLeg) (inputs : List WalletInputNote) (identity : ConsumerWalletIdentity)
    (args : ConsumerSpendArgs) : ConsumerAction :=
  match step with
  | .merge m => ⟨.transfer10x2Priv, inputs, selfConsumerRecipient identity, m.mergedValue⟩
  | .spend circuit _ =>
    ⟨consumerCircuitOf circuit, inputs, args.payee.getD (selfConsumerRecipient identity), args.amount⟩

def buildConsumerLeg (action : ConsumerAction) (identity : ConsumerWalletIdentity)
    (memberships : List MembershipWitness) (crypto : ConsumerSpendCrypto) (withdrawRecipient : ℤ) :
    Except BuildError SpendResult :=
  match action.circuit with
  | .withdrawPriv =>
    buildConsumerWithdrawRequest p identity action.inputs memberships action.amount crypto withdrawRecipient
  | .transfer10x2Priv =>
    buildConsumerTransfer10x2Request p identity action.inputs memberships action.payee action.amount crypto
  | .transferPriv =>
    buildConsumerTransferRequest p identity action.inputs memberships action.payee action.amount crypto

def consumerSubmit : ConsumerSpendCircuit → EntryPoint
  | .withdrawPriv => .submitWithdrawPriv
  | .transfer10x2Priv => .submitTransfer10x2Priv
  | .transferPriv => .submitTransferPriv

def consumerFamily (io : RunConsumerSpendDeps σ Calldata) (ctx : SpendContext) (args : ConsumerSpendArgs) :
    LegChainFamily σ (ConsumerSessionIdentity ctx.sessionPubkey) Calldata where
  isUnlocked := io.isUnlocked
  ensureChain := io.ensureChain
  guardPool := none
  unlock := io.unlock ctx.sessionPubkey
  getHead := io.getHead
  readPath _ leafIndex := io.getPath leafIndex
  buildLeg step inputs identity memberships :=
    let action := consumerLegAction step inputs identity.1 args
    Op.then io.freshConsumerSpendCrypto fun crypto => do
      let built ← buildConsumerLeg p action identity.1 memberships crypto (args.withdrawTo.getD ctx.connectionAddress)
      return ⟨built.request, built.request.input.inputs.membershipOk, crypto.payeeSalt.getD "",
        consumerSubmit action.circuit⟩
  prove := io.prove
  submit := io.submit
  reloadNotes := io.reloadNotes
  poll := io.poll
  publicKey identity := identity.1.publicKey

end Consumer

section Payees

variable {p : Primitives}

theorem parsePoint_compressedPubkey (i : WalletIdentity) (field : String) :
    parsePoint i.compressedPubkey field = .ok i.publicKey := by
  have htrim : trim i.compressedPubkey = i.compressedPubkey := trim_bytesToHex _
  rw [parsePoint, htrim, WalletIdentity.compressedPubkey, WalletIdentity.publicKey, unpackPubkey_publicKey]
  rfl

theorem split_ok {amount : ℤ} {total : ℕ} {parts : ℕ × ℕ} (h : split amount total = .ok parts) :
    parts = (amount.toNat, total - amount.toNat) ∧ 0 < amount ∧ amount ≤ total := by
  obtain ⟨_, hpos, h⟩ := bind_ok.1 h
  obtain ⟨_, hle, h⟩ := bind_ok.1 h
  exact ⟨(Except.ok.inj h).symm, require_ok.1 hpos, require_ok.1 hle⟩

theorem elim_ok {α : Type} {o : Option α} {e : BuildError} {a : α} (h : o.elim (.error e) .ok = Except.ok a) :
    o = some a := by
  cases o with
  | none => exact absurd h (by simp)
  | some b => exact congrArg some (Except.ok.inj h)

-- A payment's outputs: the payment to the payee on the drawn salt, and the change to the wallet.
theorem transferParts_ok {circuit : String} {arity : ℕ} {identity : WalletIdentity} {inputs : List WalletInputNote}
    {memberships : List MembershipWitness} {recipient : String} {amount : ℤ} {crypto : SpendCrypto} {built : SpendResult}
    (h : transferParts p circuit arity identity inputs memberships recipient amount crypto = .ok built) :
    ∃ text payee salt changeVal changeSalt, crypto.payeeSalt = some text ∧ fieldText text = .ok salt ∧
      parsePoint recipient "recipient pubkey" = .ok payee ∧
      built.request.input.outputOwnerPublicKeys = [payee, identity.publicKey] ∧
      built.request.input.outputValues = [amount.toNat, changeVal] ∧
      built.request.input.outputCommitments = [p.commitment amount.toNat salt payee,
        p.commitment changeVal changeSalt identity.publicKey] := by
  obtain ⟨text, htext, h⟩ := bind_ok.1 h
  obtain ⟨ins, -, h⟩ := bind_ok.1 h
  obtain ⟨payee, hpayee, h⟩ := bind_ok.1 h
  obtain ⟨parts, hparts, h⟩ := bind_ok.1 h
  obtain ⟨rfl, -, -⟩ := split_ok hparts
  obtain ⟨salt, hsalt, h⟩ := bind_ok.1 h
  obtain ⟨changeSalt, -, h⟩ := bind_ok.1 h
  obtain rfl := Except.ok.inj h
  exact ⟨text, payee, salt, _, changeSalt, elim_ok htext, hsalt, hpayee, rfl, rfl, rfl⟩

theorem planConsumerOutput_ok {crypto : ConsumerSpendCrypto} {spec : ConsumerOutputSpec × ℕ}
    {out : PlannedConsumerOutput} (h : planConsumerOutput p crypto spec = .ok out) :
    parsePoint spec.1.recipient.owner "recipient owner pubkey" = .ok out.spendPub ∧ out.value = spec.1.value ∧
      out.commitment = p.commitment spec.1.value spec.1.salt out.spendPub := by
  obtain ⟨spendPub, hspend, h⟩ := bind_ok.1 h
  obtain ⟨viewPub, -, h⟩ := bind_ok.1 h
  obtain ⟨ek, -, h⟩ := bind_ok.1 h
  obtain ⟨out', -, h⟩ := bind_ok.1 h
  obtain rfl := Except.ok.inj h
  exact ⟨hspend, rfl, rfl⟩

theorem consumerTransferParts_ok {circuit : String} {arity : ℕ} {identity : ConsumerWalletIdentity}
    {inputs : List WalletInputNote} {memberships : List MembershipWitness} {recipient : ConsumerRecipient} {amount : ℤ}
    {crypto : ConsumerSpendCrypto} {built : SpendResult}
    (h : consumerTransferParts p circuit arity identity inputs memberships recipient amount crypto = .ok built) :
    ∃ text payee salt changeVal changeSalt, crypto.payeeSalt = some text ∧ fieldText text = .ok salt ∧
      parsePoint recipient.owner "recipient owner pubkey" = .ok payee ∧
      built.request.input.outputOwnerPublicKeys = [payee, identity.publicKey] ∧
      built.request.input.outputValues = [amount.toNat, changeVal] ∧
      built.request.input.outputCommitments = [p.commitment amount.toNat salt payee,
        p.commitment changeVal changeSalt identity.publicKey] := by
  obtain ⟨text, htext, h⟩ := bind_ok.1 h
  obtain ⟨ins, -, h⟩ := bind_ok.1 h
  obtain ⟨parts, hparts, h⟩ := bind_ok.1 h
  obtain ⟨rfl, -, -⟩ := split_ok hparts
  obtain ⟨salt, hsalt, h⟩ := bind_ok.1 h
  obtain ⟨changeSalt, -, h⟩ := bind_ok.1 h
  obtain ⟨outs, houts, h⟩ := bind_ok.1 h
  obtain rfl := Except.ok.inj h
  rcases mapM_ok houts with _ | ⟨hpayment, _ | ⟨hchange, ⟨⟩⟩⟩
  obtain ⟨hpayee, hvalue, hcommitment⟩ := planConsumerOutput_ok hpayment
  obtain ⟨hself, hvalue', hcommitment'⟩ := planConsumerOutput_ok hchange
  have hown := hself.symm.trans (parsePoint_compressedPubkey identity.toWalletIdentity _)
  obtain hown := Except.ok.inj hown
  refine ⟨text, _, salt, ins.inputTotal - amount.toNat, changeSalt, elim_ok htext, hsalt, hpayee, ?_, ?_, ?_⟩
  · rw [← hown]
    rfl
  · exact congrArg₂ (fun paid kept => [paid, kept]) hvalue hvalue'
  · rw [← hown]
    exact congrArg₂ (fun paid kept => [paid, kept]) hcommitment hcommitment'

-- A merge of either family.
theorem paysWallet_of_outputs {key payee : Point} {text : String} {m : MergeLeg} {salt changeVal changeSalt : ℕ}
    {built : BuiltLeg} (hpayee : payee = key) (htext : built.payeeSalt = text) (hsalt : fieldText text = .ok salt)
    (howners : built.request.input.outputOwnerPublicKeys = [payee, key])
    (hvalues : built.request.input.outputValues = [(m.mergedValue : ℤ).toNat, changeVal])
    (hcommitments : built.request.input.outputCommitments = [p.commitment (m.mergedValue : ℤ).toNat salt payee,
      p.commitment changeVal changeSalt key])
    (hsubmit : built.submit = .submitTransfer10x2 ∨ built.submit = .submitTransfer10x2Priv) :
    PaysWallet p key m built := by
  subst hpayee htext
  refine ⟨hsubmit, howners, ?_, salt, hsalt, ?_⟩
  · rw [hvalues, List.headD_cons, Int.toNat_natCast]
  · rw [hcommitments, List.headD_cons, Int.toNat_natCast]

theorem enterprise_paysMerges {σ Calldata : Type} (io : RunSpendDeps σ Calldata) (ctx : SpendContext) (args : SpendArgs) :
    (enterpriseFamily p io ctx args).PaysMerges p := by
  intro m inputs identity memberships s built hbuilt
  obtain ⟨crypto, hbuilt⟩ := Op.then_ok hbuilt
  obtain ⟨result, hresult, hbuilt⟩ := bind_ok.1 hbuilt
  obtain rfl := Except.ok.inj hbuilt
  obtain ⟨text, payee, salt, changeVal, changeSalt, htext, hsalt, hpayee, howners, hvalues, hcommitments⟩ :=
    transferParts_ok hresult
  have hkey : parsePoint ctx.sessionPubkey "recipient pubkey" = .ok identity.1.publicKey :=
    (congrArg (parsePoint · "recipient pubkey") identity.2).symm.trans (parsePoint_compressedPubkey _ _)
  exact paysWallet_of_outputs (Except.ok.inj (hpayee.symm.trans hkey)) (by rw [htext]; rfl) hsalt howners hvalues
    hcommitments (.inl rfl)

theorem consumer_paysMerges {σ Calldata : Type} (io : RunConsumerSpendDeps σ Calldata) (ctx : SpendContext)
    (args : ConsumerSpendArgs) : (consumerFamily p io ctx args).PaysMerges p := by
  intro m inputs identity memberships s built hbuilt
  obtain ⟨crypto, hbuilt⟩ := Op.then_ok hbuilt
  obtain ⟨result, hresult, hbuilt⟩ := bind_ok.1 hbuilt
  obtain rfl := Except.ok.inj hbuilt
  obtain ⟨text, payee, salt, changeVal, changeSalt, htext, hsalt, hpayee, howners, hvalues, hcommitments⟩ :=
    consumerTransferParts_ok hresult
  have hkey := parsePoint_compressedPubkey identity.1.toWalletIdentity "recipient owner pubkey"
  exact paysWallet_of_outputs (Except.ok.inj (hpayee.symm.trans hkey)) (by rw [htext]; rfl) hsalt howners hvalues
    hcommitments (.inr rfl)

end Payees

-- A chain of either family, whatever the network and the wallet do: nothing is read, proven or submitted for a leg
-- before that leg's own unlock, each submission uses up its unlock, a planned input is proven as the note that its
-- merge leg created, and a merge pays the wallet.
theorem chain_keeps_rules (p : Primitives) {σ Calldata : Type} (ctx : SpendContext) (legs : List SpendLeg) (count : ℕ)
    (s : σ) :
    (∀ (io : RunSpendDeps σ Calldata) (args : SpendArgs),
      (chainRules p (fun i : SessionIdentity ctx.sessionPubkey => i.1.publicKey) legs).Accepts Record.start
        (runLegChain p (enterpriseFamily p io ctx args) legs count s).calls) ∧
    ∀ (io : RunConsumerSpendDeps σ Calldata) (args : ConsumerSpendArgs),
      (chainRules p (fun i : ConsumerSessionIdentity ctx.sessionPubkey => i.1.publicKey) legs).Accepts Record.start
        (runLegChain p (consumerFamily p io ctx args) legs count s).calls :=
  ⟨fun io args => runLegChain_accepted (enterprise_paysMerges io ctx args) count s,
    fun io args => runLegChain_accepted (consumer_paysMerges io ctx args) count s⟩

end Bongtu.Spend
