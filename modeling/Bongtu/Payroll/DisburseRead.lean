import Bongtu.EnvelopeTrip
import Bongtu.Indexer.Ledger
import Bongtu.Payroll.Disburse

namespace Bongtu.Payroll

open Bongtu.Core Bongtu.Indexer Outcome

-- The output slots of the request.
def AssembleResult.outputs (r : AssembleResult) : List EnvNote :=
  (r.request.input.outputOwnerPublicKeys.zip (r.request.input.outputValues.zip r.request.input.outputSalts)).map
    fun x => ⟨x.1, x.2.1, x.2.2⟩

-- The operation as the pool's logs show it, at the leaves from `start` on.
def AssembleResult.op (r : AssembleResult) (p : Primitives) (txHash : TxHash)
    (logIndex blockTimestamp start : ℕ) : OpEnvelope where
  kind := .disburse
  txHash := txHash
  logIndex := logIndex
  blockTimestamp := blockTimestamp
  ecdhPublicKey := p.publicKey r.request.input.ecdhPrivateKey
  nonce := r.request.input.encryptionNonce
  authorityCt := r.ciphertext.drop (4 * B)
  kem := some ⟨p.kemBindingOf r.request.input.kemSs, r.kemCiphertext⟩
  outputLeaves := []
  batch := some ⟨start, r.assembleMeta.subtreeRoot⟩

-- The ledger of the arbiter the batch is sealed to: the key pair, the encapsulation and the Diffie-Hellman
-- agreement on this batch.
structure Opens (a : Arbiter) (p : Primitives) (crypto : CryptoParams) (ecdh : ℕ) : Prop where
  primitives : a.primitives = p
  sizes : a.B = B ∧ a.H = H
  key : crypto.authorityPubKey = p.publicKey a.priv
  agrees : p.ecdhSharedSecret a.priv (p.publicKey ecdh) = p.ecdhSharedSecret ecdh (p.publicKey a.priv)
  kem : ∃ kemSecret ss, a.kemSecret = some kemSecret ∧ p.decapsulate crypto.kemCiphertext kemSecret = some ss ∧
    kemSsToLimbs ss = .ok crypto.kemSs

-- The inputs, the draws and the curve's coordinates are field elements.
structure Canonical (p : Primitives) (curve : Curve) (inputNote : InputNote) (entropy : DisburseEntropy) :
    Prop where
  value : inputNote.value < snarkScalarField
  salt : inputNote.salt < snarkScalarField
  draws : ∀ k, entropy.randField k < snarkScalarField
  keys : ∀ sk, (p.publicKey sk).1 < snarkScalarField ∧ (p.publicKey sk).2 < snarkScalarField
  roots : ∀ y x, curve.xRoot y = some x → x < snarkScalarField

-- The recipients other than the employer, and what they are paid together.
def others (employer : Point) (recips : List Out) : List Out := recips.filter (·.owner ≠ employer)

def totalOf (outs : List Out) : ℕ := (outs.map (·.value)).sum

-- Sums, owners and slots: every recipient has one slot, with its amount.
structure Balanced (recips : List Out) (inputNote : InputNote) (r : AssembleResult) : Prop where
  total : r.request.input.outputValues.sum = inputNote.value
  distinct : r.request.input.outputOwnerPublicKeys.Nodup
  slots : ∀ out ∈ recips, ∃ s : ℕ, r.request.input.outputOwnerPublicKeys[s]? = some out.owner ∧
    r.request.input.outputValues[s]? = some out.value ∧
    ∀ s' : ℕ, r.request.input.outputOwnerPublicKeys[s']? = some out.owner → s' = s

-- The two folds the circuit publishes.
structure Folds (p : Primitives) (r : AssembleResult) : Prop where
  disclosure : p.disclosureChain r.ciphertext = r.assembleMeta.disclosureHash
  commitments : r.request.input.outputCommitments = r.outputs.map p.noteCommitment
  subtree : ∃ tree, ImtTree.construct p.poseidon2 H B = .ok tree ∧
    ImtTree.computeSubtreeRoot p.poseidon2 tree r.request.input.outputCommitments =
      .ok r.assembleMeta.subtreeRoot

-- What the ledger derives: these outputs at these leaves, the recipients' receipts in some order and the
-- employer's one payment.
structure Booked (p : Primitives) (employer : Point) (recips : List Out) (r : AssembleResult) (start : ℕ)
    (d : DerivedOp) : Prop where
  alarms : d.alarms = []
  outputs : d.outputs = r.outputs.zipIdx.map fun o => derivedNote (start + o.2) (p.noteCommitment o.1) o.1
  history : ∃ receipts, d.history = receipts ++
      (if totalOf (others employer recips) > 0 then
        [⟨employer, .sent, none, totalOf (others employer recips)⟩] else []) ∧
    receipts.Perm ((others employer recips).map fun o => ⟨o.owner, .received, some employer, o.value⟩)

namespace Assembled

variable {p : Primitives} {curve : Curve} {sha256 : Bytes → Bytes} {inputNote : InputNote}
  {recipients : List RecipientRow} {crypto : CryptoParams} {entropy : DisburseEntropy} {r : AssembleResult}
  {recips change pads outs : List Out} {salts : List ℕ}

theorem change_value {employer : Point} {n : ℕ} :
    (((changeRows employer n).map (·.1)).map (·.value)).sum = n := by
  unfold changeRows
  split
  · simp
  · simp
    omega

theorem outputs_eq (h : Assembled p curve sha256 inputNote recipients crypto entropy r recips change pads outs
    salts) : r.outputs = List.zipWith (fun o salt => ⟨o.owner, o.value, salt⟩) outs salts := by
  rw [AssembleResult.outputs, h.owners, h.values, h.outputSalts]
  refine List.ext_getElem (by simp) fun i h1 h2 => ?_
  simp

theorem sum_values (h : Assembled p curve sha256 inputNote recipients crypto entropy r recips change pads outs
    salts) : (outs.map (·.value)).sum = inputNote.value := by
  have hpads : (pads.map (·.value)).sum = 0 := List.sum_eq_zero fun v hv => by
    obtain ⟨o, ho, rfl⟩ := List.mem_map.mp hv
    exact (h.padded o ho).1
  have hchange : (change.map (·.value)).sum = inputNote.value - (recips.map (·.value)).sum := by
    rw [h.changed, change_value]
  have hsum := h.disbursed
  rw [(h.dealt.map (·.value)).sum_eq, List.map_append, List.map_append, List.sum_append, List.sum_append,
    hpads, hchange]
  omega

theorem balanced (h : Assembled p curve sha256 inputNote recipients crypto entropy r recips change pads outs
    salts) : Balanced recips inputNote r where
  total := by rw [h.values, h.sum_values]
  distinct := h.owners ▸ h.distinct
  slots out hout := by
    have hmem : out ∈ outs := h.dealt.symm.subset
      (List.mem_append_left _ (List.mem_append_left _ hout))
    obtain ⟨s, hs, rfl⟩ := List.getElem_of_mem hmem
    rw [h.owners, h.values]
    have howner : (outs.map (·.owner))[s]? = some outs[s].owner := by simp [hs]
    refine ⟨s, howner, by simp [hs], fun s' hs' => ?_⟩
    have hlt := (List.getElem?_eq_some_iff.mp howner).1
    exact ((List.getElem?_inj hlt h.distinct).mp (howner.trans hs'.symm)).symm

theorem folds (h : Assembled p curve sha256 inputNote recipients crypto entropy r recips change pads outs
    salts) : Folds p r where
  disclosure := h.disclosureHash.symm
  commitments := by
    rw [h.commitments, h.outputs_eq, List.map_zipWith]
    rfl
  subtree := h.subtree

theorem length_receiverFlat {ecdh nonce : ℕ} (hsalted : salts.length = outs.length) :
    (receiverFlat p ecdh nonce outs salts).length = 4 * outs.length := by
  rw [receiverFlat, Blocks.length_flatten (n := 4)]
  · simp [hsalted, Nat.mul_comm]
  · intro ct hct
    obtain ⟨i, hi, rfl⟩ := List.getElem_of_mem hct
    rw [List.getElem_zipWith]
    exact length_poseidonEncrypt _

-- The length check leaves room for one batch size only.
theorem laid (h : Assembled p curve sha256 inputNote recipients crypto entropy r recips change pads outs
    salts) : ∃ plain, outs.length = B ∧
      Laid B .disburse ⟨[⟨p.publicKey inputNote.ownerPrivateKey, inputNote.value, inputNote.salt⟩],
        r.outputs⟩ plain ∧
      r.ciphertext.drop (4 * B) = p.poseidonEncrypt plain (p.hybridEnvelopeKey
        (p.ecdhSharedSecret r.request.input.ecdhPrivateKey crypto.authorityPubKey) crypto.kemSs)
        r.request.input.encryptionNonce := by
  obtain ⟨plain, hplain, hct⟩ := h.ciphertext
  rw [← h.outputs_eq] at hplain
  have hslots : r.outputs.length = outs.length := by
    rw [h.outputs_eq, List.length_zipWith, h.salted, Nat.min_self]
  have hlaid := buildAuthorityPlaintext_ok (fun _ => hslots) hplain
  have hplainLen : plain.length = 2 + 2 * 1 + 2 * outs.length + 2 * outs.length := hlaid.length
  have hflat : (receiverFlat p r.request.input.ecdhPrivateKey r.request.input.encryptionNonce outs
      salts).length = 4 * outs.length := length_receiverFlat h.salted
  have hfull := h.full
  rw [hct, List.length_append, hflat, length_poseidonEncrypt, hplainLen] at hfull
  have hB : outs.length = B := by
    have : B = 256 := rfl
    omega
  refine ⟨plain, hB, hB ▸ hlaid, ?_⟩
  rw [hct, ← hB, ← hflat, List.drop_left]

theorem unpackPubkey_below (hroots : ∀ y x, curve.xRoot y = some x → x < snarkScalarField) {hex : String}
    {q : Point} (hq : curve.unpackPubkey hex = .ok q) : q.1 < snarkScalarField ∧ q.2 < snarkScalarField := by
  unfold Curve.unpackPubkey at hq
  dsimp only at hq
  split at hq
  · cases hq
  · split at hq
    · cases hq
    · split at hq
      · cases hq
      · next hy =>
        split at hq
        · cases hq
        · next root hroot =>
          generalize hx : (if root % 2 = _ then root else _) = x at hq
          have hbelow : x < snarkScalarField := by
            rw [← hx]
            split
            · exact hroots _ _ hroot
            · exact Nat.mod_lt _ snarkScalarField_pos
          split at hq
          · cases hq
            exact ⟨hbelow, Nat.lt_of_not_le hy⟩
          · cases hq

theorem owner_below (h : Assembled p curve sha256 inputNote recipients crypto entropy r recips change pads outs
    salts) (hfield : Canonical p curve inputNote entropy) : ∀ o ∈ outs,
      o.owner.1 < snarkScalarField ∧ o.owner.2 < snarkScalarField := by
  intro o ho
  rcases List.mem_append.mp (h.dealt.subset ho) with ho | ho
  · rcases List.mem_append.mp ho with ho | ho
    · obtain ⟨row, -, hrow⟩ := forall₂_right h.resolves ho
      obtain ⟨hex, -, hunpack⟩ := hrow.address
      exact unpackPubkey_below hfield.roots hunpack
    · rw [h.changed, changeRows] at ho
      split at ho
      · obtain rfl := List.mem_singleton.mp ho
        exact hfield.keys _
      · cases ho
  · obtain ⟨-, sk, hsk⟩ := h.padded o ho
    exact hsk ▸ hfield.keys sk

theorem below (h : Assembled p curve sha256 inputNote recipients crypto entropy r recips change pads outs
    salts) (hfield : Canonical p curve inputNote entropy) :
    ∀ n ∈ [(⟨p.publicKey inputNote.ownerPrivateKey, inputNote.value, inputNote.salt⟩ : EnvNote)] ++ r.outputs,
      Below snarkScalarField n := by
  intro n hn
  rcases List.mem_append.mp hn with hn | hn
  · rw [List.mem_singleton.mp hn]
    exact ⟨(hfield.keys _).1, (hfield.keys _).2, hfield.value, hfield.salt⟩
  · rw [h.outputs_eq] at hn
    obtain ⟨i, hi, rfl⟩ := List.getElem_of_mem hn
    rw [List.length_zipWith] at hi
    have hout : i < outs.length := by omega
    have hsalt : i < salts.length := by omega
    obtain ⟨hx, hy⟩ := h.owner_below hfield outs[i] (List.getElem_mem hout)
    obtain ⟨k, hk⟩ := h.drawn salts[i] (List.getElem_mem hsalt)
    have hvalue : outs[i].value ≤ (outs.map (·.value)).sum :=
      List.single_le_sum (by simp) _ (List.mem_map_of_mem (List.getElem_mem hout))
    rw [List.getElem_zipWith]
    refine ⟨hx, hy, ?_, hk ▸ hfield.draws k⟩
    exact hvalue.trans_lt (h.sum_values.trans_lt hfield.value)

theorem kemGate_opened {a : Arbiter} {ecdh : ℕ} (hopens : Opens a p crypto ecdh) {op : OpEnvelope}
    (hkem : op.kem = some ⟨p.kemBindingOf crypto.kemSs, crypto.kemCiphertext⟩) :
    kemGate a op = .ok (.opened (some crypto.kemSs)) := by
  obtain ⟨kemSecret, ss, hsecret, hdecapsulate, hlimbs⟩ := hopens.kem
  rw [kemGate, hkem]
  dsimp only
  rw [hsecret, hopens.primitives]
  dsimp only
  rw [hdecapsulate]
  dsimp only
  rw [hlimbs]
  simp [Except.mapError, bind, Except.bind, pure, Except.pure]

theorem crossCheck_outputs {a : Arbiter} {op : OpEnvelope} {env : ParsedEnvelope} {start : ℕ}
    (h : Folds p r) (hprimitives : a.primitives = p) (hsizes : a.B = B ∧ a.H = H) (hkind : op.kind = .disburse)
    (hbatch : op.batch = some ⟨start, r.assembleMeta.subtreeRoot⟩) (henv : env.outputs = r.outputs) :
    crossCheck a op env = .ok {
      outputs := r.outputs.zipIdx.map fun o => derivedNote (start + o.2) (p.noteCommitment o.1) o.1
      batchFill := some ⟨start, r.request.input.outputCommitments⟩
      disburseCrossChecks := true } := by
  obtain ⟨tree, htree, hroot⟩ := h.subtree
  rw [h.commitments] at hroot ⊢
  rw [crossCheck, hkind]
  dsimp only
  rw [crossCheckBatch, hbatch, hprimitives, hsizes.1, hsizes.2, henv, htree]
  simp only [Option.elim_some, Except.mapError, bind, Except.bind]
  rw [hroot]
  simp [pure, Except.pure]

-- Owners and values of the slots, which are all the history reads.
theorem slots_eq (h : Assembled p curve sha256 inputNote recipients crypto entropy r recips change pads outs
    salts) : r.outputs.map (fun n => (n.owner, n.value)) = outs.map fun o => (o.owner, o.value) := by
  rw [h.outputs_eq]
  refine List.ext_getElem (by simp [h.salted]) fun i h1 h2 => ?_
  simp

theorem paid_perm (h : Assembled p curve sha256 inputNote recipients crypto entropy r recips change pads outs
    salts) : (outs.filter fun o => o.value ≠ 0 ∧ o.owner ≠ p.publicKey inputNote.ownerPrivateKey).Perm
      (others (p.publicKey inputNote.ownerPrivateKey) recips) := by
  have hrecips : recips.filter (fun o => o.value ≠ 0 ∧ o.owner ≠ p.publicKey inputNote.ownerPrivateKey) =
      others (p.publicKey inputNote.ownerPrivateKey) recips := by
    refine List.filter_congr fun o ho => ?_
    obtain ⟨row, -, hrow⟩ := forall₂_right h.resolves ho
    simp [hrow.funded.ne']
  have hchange : change.filter (fun o => o.value ≠ 0 ∧ o.owner ≠ p.publicKey inputNote.ownerPrivateKey) =
      [] := by
    rw [h.changed, changeRows]
    split
    · simp
    · rfl
  have hpads : pads.filter (fun o => o.value ≠ 0 ∧ o.owner ≠ p.publicKey inputNote.ownerPrivateKey) = [] := by
    refine List.filter_eq_nil_iff.mpr fun o ho => ?_
    simp [(h.padded o ho).1]
  have hdealt := h.dealt.filter fun o => o.value ≠ 0 ∧ o.owner ≠ p.publicKey inputNote.ownerPrivateKey
  rwa [List.filter_append, List.filter_append, hrecips, hchange, hpads, List.append_nil, List.append_nil]
    at hdealt

theorem paid_map {A : Type} {env : ParsedEnvelope} (h : Assembled p curve sha256 inputNote recipients crypto
    entropy r recips change pads outs salts) (henv : env.outputs = r.outputs)
    (hsender : env.sender = p.publicKey inputNote.ownerPrivateKey) (f : Point × ℕ → A) :
    ((paidOthers env).map fun n => f (n.owner, n.value)).Perm
      ((others (p.publicKey inputNote.ownerPrivateKey) recips).map fun o => f (o.owner, o.value)) := by
  have hpairs : (paidOthers env).map (fun n => f (n.owner, n.value)) =
      (outs.filter fun o => o.value ≠ 0 ∧ o.owner ≠ p.publicKey inputNote.ownerPrivateKey).map
        fun o => f (o.owner, o.value) := by
    have hfilter := congrArg (fun pairs => (List.filter (fun pair : Point × ℕ => decide (pair.2 ≠ 0 ∧
      pair.1 ≠ p.publicKey inputNote.ownerPrivateKey)) pairs).map f) h.slots_eq
    simp only [List.filter_map, List.map_map] at hfilter
    rw [paidOthers, henv, hsender]
    exact hfilter
  rw [hpairs]
  exact h.paid_perm.map _

theorem history {env : ParsedEnvelope} (h : Assembled p curve sha256 inputNote recipients crypto entropy r
    recips change pads outs salts) (henv : env.outputs = r.outputs)
    (hsender : env.sender = p.publicKey inputNote.ownerPrivateKey) :
    ∃ receipts, disburseHistory env = receipts ++
        (if totalOf (others (p.publicKey inputNote.ownerPrivateKey) recips) > 0 then
          [⟨p.publicKey inputNote.ownerPrivateKey, .sent, none,
            totalOf (others (p.publicKey inputNote.ownerPrivateKey) recips)⟩] else []) ∧
      receipts.Perm ((others (p.publicKey inputNote.ownerPrivateKey) recips).map fun o =>
        ⟨o.owner, .received, some (p.publicKey inputNote.ownerPrivateKey), o.value⟩) := by
  have hpaid : ((paidOthers env).map (·.value)).sum =
      totalOf (others (p.publicKey inputNote.ownerPrivateKey) recips) :=
    (h.paid_map henv hsender Prod.snd).sum_eq
  refine ⟨(paidOthers env).map fun o => ⟨o.owner, .received, some env.sender, o.value⟩, ?_, ?_⟩
  · rw [disburseHistory, hpaid, hsender]
  · rw [hsender]
    let receipt (pair : Point × ℕ) : DerivedHistory :=
      ⟨pair.1, .received, some (p.publicKey inputNote.ownerPrivateKey), pair.2⟩
    exact h.paid_map henv hsender receipt

-- What the arbiter of this batch derives from the operation.
theorem booked {a : Arbiter} (h : Assembled p curve sha256 inputNote recipients crypto entropy r recips change
    pads outs salts) (hfield : Canonical p curve inputNote entropy)
    (hopens : Opens a p crypto r.request.input.ecdhPrivateKey) (txHash : TxHash)
    (logIndex blockTimestamp start : ℕ) :
    ∃ d, deriveOp a (r.op p txHash logIndex blockTimestamp start) = .ok d ∧
      Booked p (p.publicKey inputNote.ownerPrivateKey) recips r start d := by
  set op := r.op p txHash logIndex blockTimestamp start with hop
  obtain ⟨plain, hB, hlaid, hct⟩ := h.laid
  set env : ParsedEnvelope := ⟨[⟨p.publicKey inputNote.ownerPrivateKey, inputNote.value, inputNote.salt⟩],
    r.outputs⟩ with henv
  have hkem : op.kem = some ⟨p.kemBindingOf crypto.kemSs, crypto.kemCiphertext⟩ := by
    rw [hop, AssembleResult.op, h.kemSs, h.kemCiphertext]
  have hshared : p.ecdhSharedSecret a.priv (p.publicKey r.request.input.ecdhPrivateKey) =
      p.ecdhSharedSecret r.request.input.ecdhPrivateKey crypto.authorityPubKey :=
    hopens.key ▸ hopens.agrees
  have hparse : a.primitives.parseEnvelope a.priv op.ecdhPublicKey op.nonce op.authorityCt op.kind a.B
      (some crypto.kemSs) = some env := by
    rw [hopens.primitives, hopens.sizes.1]
    have htail : op.authorityCt = p.poseidonEncrypt plain (envelopeKey p
        (p.ecdhSharedSecret r.request.input.ecdhPrivateKey crypto.authorityPubKey) (some crypto.kemSs))
        op.nonce := hct
    rw [htail]
    exact parseEnvelope_laid hlaid (hlaid.below (h.below hfield)) hshared
  have hcheck : crossCheck a op env = .ok {
      outputs := r.outputs.zipIdx.map fun o => derivedNote (start + o.2) (p.noteCommitment o.1) o.1
      batchFill := some ⟨start, r.request.input.outputCommitments⟩
      disburseCrossChecks := true } :=
    crossCheck_outputs h.folds hopens.primitives hopens.sizes rfl rfl rfl
  obtain ⟨receipts, hhistory, hreceipts⟩ := h.history (show env.outputs = r.outputs from rfl) rfl
  refine ⟨{
    outputs := r.outputs.zipIdx.map fun o => derivedNote (start + o.2) (p.noteCommitment o.1) o.1
    spent := env.inputs.map a.primitives.noteCommitment
    alarms := []
    batchFill := some ⟨start, r.request.input.outputCommitments⟩
    history := disburseHistory env }, ?_, ⟨rfl, rfl, receipts, hhistory, hreceipts⟩⟩
  rw [deriveOp, bind_ok]
  refine ⟨.opened (some crypto.kemSs), kemGate_opened hopens hkem, ?_⟩
  simp only [deriveOpened, hparse, bind_ok]
  exact ⟨env, rfl, _, hcheck, rfl⟩

end Assembled

theorem plaintext_returns {ε C : Type} {input : EnvNote} {outputs : List EnvNote} {g : String → ε}
    {f : List ℕ → Except ε C} (hsome : 0 < outputs.length)
    (hf : ∀ plain, Laid outputs.length .disburse ⟨[input], outputs⟩ plain → ∃ c, f plain = .ok c) :
    ∃ c, (buildAuthorityPlaintext .disburse ⟨[input], outputs⟩).mapError g >>= f = .ok c := by
  have howner : [input].forM (fun i => need .disburse (i.owner = input.owner)
      "all inputs must share ONE owner (the circuit takes a single inputOwnerPrivateKey)") = .ok () := by
    refine (forM_ok _).mpr fun i hi => require_ok.mpr ?_
    rw [List.mem_singleton.mp hi]
  have hinputs : needInputs .disburse 1 1 = .ok () := rfl
  obtain ⟨plain, hplain⟩ : ∃ plain, buildAuthorityPlaintext .disburse ⟨[input], outputs⟩ = .ok plain :=
    require_returns hsome (bind_returns hinputs (bind_returns howner ⟨_, rfl⟩))
  exact mapError_returns hplain (hf plain (buildAuthorityPlaintext_ok (fun _ => rfl) hplain))

-- The refusals are the ones listed: a batch that passes them all is assembled.
theorem buildDisburseRequest_returns {p : Primitives} {curve : Curve} {sha256 : Bytes → Bytes}
    {inputNote : InputNote} {membership : Membership} {recipients : List RecipientRow} {crypto : CryptoParams}
    {entropy : DisburseEntropy} {rows change : List (Out × LedgerRow)} {pads : List Out}
    (hsome : recipients.length ≠ 0)
    (hkey : 0 < inputNote.ownerPrivateKey ∧ inputNote.ownerPrivateKey < snarkScalarField)
    (hrows : recipients.zipIdx.mapM (resolveRow curve sha256) = .ok rows)
    (hsum : (rows.map (·.1.value)).sum ≤ inputNote.value)
    (hchange : change = changeRows (p.publicKey inputNote.ownerPrivateKey)
      (inputNote.value - (rows.map (·.1.value)).sum))
    (hroom : (rows ++ change).length ≤ B)
    (hpads : (List.range (B - (rows ++ change).length)).mapM (pad p entropy) = .ok pads)
    (hdistinct : (((rows ++ change).map (·.1) ++ pads).map (·.owner)).Nodup)
    (hpath : membership.pathElements.length = H)
    (hkem : crypto.kemCiphertext.length = kemCiphertextLen) :
    ∃ r, buildDisburseRequest p curve sha256 inputNote membership recipients crypto entropy = .ok r := by
  have hrowsLen : rows.length = recipients.length := by
    rw [← (mapM_ok hrows).length_eq, List.length_zipIdx]
  have hpadsLen : B - (rows ++ change).length = pads.length := by
    rw [← (mapM_ok hpads).length_eq, List.length_range]
  have hfull : ((rows ++ change).map (·.1) ++ pads).length = B := by
    rw [List.length_append, List.length_map]
    omega
  have hfew : recipients.length ≤ B := by
    rw [List.length_append] at hroom
    omega
  have howners (draw : ℕ → ℕ) := ((deal_perm ((rows ++ change).map (·.1) ++ pads) ⟨0, 0, .pad⟩ draw).map
    (·.owner)).nodup_iff.mpr hdistinct
  have hslots {A : Type} (draw : ℕ → ℕ) (f : ℕ → A) :
      ((shuffle ((rows ++ change).map (·.1) ++ pads).length draw).map f).length = B := by
    rw [List.length_map, (shuffle_perm _ draw).length_eq, List.length_range, hfull]
  have hpair : deriveKeypair p inputNote.ownerPrivateKey =
      .ok ⟨inputNote.ownerPrivateKey, p.publicKey inputNote.ownerPrivateKey⟩ :=
    bind_ok.mpr ⟨(), require_ok.mpr hkey, rfl⟩
  subst hchange
  refine require_returns hsome (require_returns hfew (bind_returns hpair (bind_returns hrows
    (require_returns hsum (bind_returns hpads ?_)))))
  refine bind_returns (a := ()) (distinct_ok.mpr ⟨howners _, fun _ _ => List.not_mem_nil⟩) ?_
  refine mapError_returns (a := ImtTree.init p.poseidon2 H B) rfl (mapError_returns (if_neg ?few) ?_)
  case few =>
    rw [List.length_zipWith, hslots, hslots, Nat.min_self]
    exact lt_irrefl B
  refine require_returns hpath (require_returns hkem (plaintext_returns ?some fun plain hlaid => ?_))
  case some =>
    rw [List.length_zipWith, hslots, hslots]
    decide
  have hplain := hlaid.length
  rw [List.length_zipWith, hslots, hslots, Nat.min_self] at hplain
  refine require_returns ?_ ⟨_, rfl⟩
  rw [List.length_append, Assembled.length_receiverFlat, length_poseidonEncrypt, hplain, hslots]
  · rfl
  · rw [hslots, hslots]

theorem pads_returns {p : Primitives} {entropy : DisburseEntropy} {n : ℕ}
    (h : ∀ k < n, 0 < entropy.randScalar k ∧ entropy.randScalar k < snarkScalarField) :
    (List.range n).mapM (pad p entropy) =
      .ok ((List.range n).map fun k => ⟨p.publicKey (entropy.randScalar k), 0, .pad⟩) := by
  have hpad : ∀ k ∈ List.range n, pad p entropy k = .ok ⟨p.publicKey (entropy.randScalar k), 0, .pad⟩ := by
    intro k hk
    refine bind_ok.mpr ⟨⟨entropy.randScalar k, p.publicKey (entropy.randScalar k)⟩, ?_, rfl⟩
    exact bind_ok.mpr ⟨(), require_ok.mpr (h k (List.mem_range.mp hk)), rfl⟩
  exact mapM_returns hpad

-- A request that returns balances, folds and, opened by the arbiter it is sealed to, books every payment.
theorem disburse_assembly {p : Primitives} {curve : Curve} {sha256 : Bytes → Bytes} {inputNote : InputNote}
    {membership : Membership} {recipients : List RecipientRow} {crypto : CryptoParams}
    {entropy : DisburseEntropy} {r : AssembleResult}
    (h : buildDisburseRequest p curve sha256 inputNote membership recipients crypto entropy = .ok r) :
    ∃ recips, List.Forall₂ (Resolves curve sha256) recipients recips ∧
      Balanced recips inputNote r ∧ Folds p r ∧
      (Canonical p curve inputNote entropy →
        ∀ a txHash logIndex blockTimestamp start, Opens a p crypto r.request.input.ecdhPrivateKey →
          ∃ d, deriveOp a (r.op p txHash logIndex blockTimestamp start) = .ok d ∧
            Booked p (p.publicKey inputNote.ownerPrivateKey) recips r start d) := by
  obtain ⟨recips, change, pads, outs, salts, hparts⟩ := buildDisburseRequest_ok h
  refine ⟨recips, hparts.resolves, hparts.balanced, hparts.folds, ?_⟩
  intro hfield a txHash logIndex blockTimestamp start hopens
  exact hparts.booked hfield hopens txHash logIndex blockTimestamp start

-- Primitives with reduced coordinates, to run an assembly with.
def fieldPrimitives : Primitives where
  poseidonN xs := xs.foldl (fun n x => (31 * n + x) % snarkScalarField) 0
  poseidonPerm s := s
  base8 := (1, 2)
  mulPointEscalar q k := (q.1 * k % snarkScalarField, q.2 * k % snarkScalarField)
  encapsulate _ seed := (seed ++ plainPadding, (seed ++ plainPadding).take 32)
  decapsulate ciphertext _ := some (ciphertext.take 32)

def onePointCurve : Curve where
  base8 := (0, 1)
  addPoint q _ := q
  mulPointEscalar q _ := q
  xRoot y := if y = 1 then some 0 else none

def sampleNote : InputNote := ⟨10, 5, 7⟩

def sampleMembership : Membership := ⟨0, List.replicate 32 0, 0⟩

def sampleRecipients : List RecipientRow :=
  [⟨"0x0100000000000000000000000000000000000000000000000000000000000000", 4⟩]

def sampleCrypto : CryptoParams := ⟨fieldPrimitives.publicKey 11, (0, 0), List.replicate 1088 0⟩

def sampleEntropy : DisburseEntropy := ⟨fun k => k % 2 ^ 31, fun k => k + 100⟩

def sampleArbiter : Arbiter where
  primitives := fieldPrimitives
  decapsulationMessage _ _ := ""
  priv := 11
  kemSecret := some []
  B := B
  H := H

def sampleRow : Out × LedgerRow :=
  (⟨(0, 1), 4, .recipient⟩,
    ⟨"0x0100000000000000000000000000000000000000000000000000000000000000", 4, .recipient⟩)

theorem sample_returns : ∃ r, buildDisburseRequest fieldPrimitives onePointCurve id sampleNote sampleMembership
    sampleRecipients sampleCrypto sampleEntropy = .ok r := by
  have hresolve : (sampleRecipients.zipIdx.mapM (resolveRow onePointCurve id)).toOption.map id =
      some [sampleRow] := by
    decide +kernel
  obtain ⟨_, hrows, rfl⟩ := of_map_some hresolve
  have hchange : changeRows (fieldPrimitives.publicKey sampleNote.ownerPrivateKey)
      (sampleNote.value - ([sampleRow].map (·.1.value)).sum) =
      [(⟨(7, 14), 6, .change⟩, ⟨"(employer change)", 6, .change⟩)] := rfl
  have hscalar : ∀ k < 254, 0 < sampleEntropy.randScalar k ∧ sampleEntropy.randScalar k < snarkScalarField := by
    intro k hk
    simp only [sampleEntropy, snarkScalarField]
    omega
  refine buildDisburseRequest_returns (by decide) (by decide) hrows (by decide) hchange.symm (by decide)
    (pads_returns hscalar) ?_ rfl (List.length_replicate ..)
  have hpad : ∀ k ∈ List.range 254, (fieldPrimitives.publicKey (sampleEntropy.randScalar k)).1 = k + 100 := by
    intro k hk
    have hlt := List.mem_range.mp hk
    simp only [Primitives.publicKey, fieldPrimitives, sampleEntropy, snarkScalarField]
    omega
  have hfirst : ((List.range 254).map fun k => (fieldPrimitives.publicKey (sampleEntropy.randScalar k)).1) =
      (List.range 254).map (· + 100) := List.map_congr_left hpad
  refine List.Nodup.of_map Prod.fst ?_
  simp only [List.map_append, List.map_map, Function.comp_def]
  change ([0, 7] ++ (List.range 254).map fun k =>
    (fieldPrimitives.publicKey (sampleEntropy.randScalar k)).1).Nodup
  rw [hfirst, List.nodup_append]
  refine ⟨by decide, List.nodup_range.map (add_left_injective 100), ?_⟩
  intro x hx y hy
  obtain ⟨k, -, rfl⟩ := List.mem_map.mp hy
  rcases List.mem_cons.mp hx with rfl | hx
  · omega
  · rw [List.mem_singleton.mp hx]
    omega

theorem disburse_assembly_sample : ∃ r d, buildDisburseRequest fieldPrimitives onePointCurve id sampleNote
      sampleMembership sampleRecipients sampleCrypto sampleEntropy = .ok r ∧
    r.request.input.outputValues.sum = 10 ∧
    deriveOp sampleArbiter (r.op fieldPrimitives 1 2 3 0) = .ok d ∧ d.alarms = [] := by
  obtain ⟨r, hr⟩ := sample_returns
  obtain ⟨recips, -, hbalanced, -, hbooked⟩ := disburse_assembly hr
  have hfield : Canonical fieldPrimitives onePointCurve sampleNote sampleEntropy :=
    { value := by decide
      salt := by decide
      draws := fun k => (Nat.mod_lt k (by decide)).trans (by decide)
      keys := fun sk => ⟨Nat.mod_lt _ snarkScalarField_pos, Nat.mod_lt _ snarkScalarField_pos⟩
      roots := by
        intro y x hx
        simp only [onePointCurve] at hx
        split at hx <;> cases hx
        decide }
  have hopens : Opens sampleArbiter fieldPrimitives sampleCrypto r.request.input.ecdhPrivateKey :=
    { primitives := rfl
      sizes := ⟨rfl, rfl⟩
      key := rfl
      agrees := by
        simp [Primitives.ecdhSharedSecret, Primitives.publicKey, fieldPrimitives, sampleArbiter, Nat.mul_comm,
          Nat.mul_assoc]
      kem := ⟨[], List.replicate 32 0, rfl, rfl, by decide +kernel⟩ }
  obtain ⟨d, hd, hbook⟩ := hbooked hfield sampleArbiter 1 2 3 0 hopens
  exact ⟨r, d, hr, hbalanced.total, hd, hbook.alarms⟩

end Bongtu.Payroll
