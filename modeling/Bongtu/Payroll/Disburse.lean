import Bongtu.Core.Address
import Bongtu.Core.Envelope
import Bongtu.Core.MerklePath

namespace Bongtu.Payroll

open Bongtu.Core Outcome

def H : ℕ := 32

def B : ℕ := 256

structure RecipientRow where
  pubkey : String
  amount : ℤ

structure InputNote where
  value : ℕ
  salt : ℕ
  ownerPrivateKey : ℕ

structure Membership where
  root : ℕ
  pathElements : List ℕ
  leafIndex : ℕ

structure CryptoParams where
  authorityPubKey : Point
  kemSs : Point
  kemCiphertext : Bytes

-- The draws of the two sources, in the order they are asked for.
structure DisburseEntropy where
  randField : ℕ → ℕ
  randScalar : ℕ → ℕ

inductive OutKind where
  | recipient
  | change
  | pad
deriving DecidableEq, Repr

structure Out where
  owner : Point
  value : ℕ
  kind : OutKind
deriving DecidableEq, Repr

structure LedgerRow where
  pubkey : String
  amount : ℕ
  kind : OutKind
deriving DecidableEq, Repr

structure DisburseInput where
  nullifiers : List ℕ
  inputCommitments : List ℕ
  inputValues : List ℕ
  inputSalts : List ℕ
  inputOwnerPrivateKey : ℕ
  ecdhPrivateKey : ℕ
  root : ℕ
  pathElements : List (List ℕ)
  leafIndices : List ℕ
  enabled : List ℕ
  outputCommitments : List ℕ
  outputValues : List ℕ
  outputSalts : List ℕ
  outputOwnerPublicKeys : List Point
  kemSs : Point
  encryptionNonce : ℕ
  authorityPublicKey : Point

structure ProvingRequest where
  circuit : String
  input : DisburseInput
  backend : String

structure AssembleMeta where
  inputCommitment : ℕ
  nullifier : ℕ
  subtreeRoot : ℕ
  disclosureHash : ℕ
  inputValue : ℕ
  disbursed : ℕ
  changeValue : ℕ
  realCount : ℕ
  changeCount : ℕ
  padCount : ℕ
  membershipOk : Bool
  ciphertextLen : ℕ

structure AssembleResult where
  request : ProvingRequest
  ciphertext : List ℕ
  kemCiphertext : Bytes
  assembleMeta : AssembleMeta
  ledger : List LedgerRow

inductive AssembleError where
  | noRecipients
  | tooManyRecipients (got : ℕ)
  | scalarOutOfRange (sk : ℕ)
  | pubkeyInvalid (recipient : ℕ) (e : AddressError)
  | amountNotPositive (recipient : ℕ) (amount : ℤ)
  | exceedsInput (disbursed value : ℕ)
  | duplicateOwner (owner : Point)
  | subtree (e : ImtError)
  | pathLength (got : ℕ)
  | kemCiphertextLength (got : ℕ)
  | plaintext (message : String)
  | ciphertextLength (got : ℕ)

def toEncryptionNonce (fieldDraw : ℕ) : ℕ := fieldDraw % two128

-- `seen` holds the owners before.
def assertDistinctOwnerPubkeys : List Point → List Point → Except AssembleError Unit
  | _, [] => .ok ()
  | seen, pk :: publicKeys =>
    if seen.contains pk then .error (.duplicateOwner pk)
    else assertDistinctOwnerPubkeys (seen ++ [pk]) publicKeys

def swap (order : List ℕ) (i j : ℕ) : List ℕ :=
  let t := order.getD i 0
  (order.set i (order.getD j 0)).set j t

-- Fisher-Yates from the last slot down, one draw a slot.
def shuffle (n : ℕ) (draw : ℕ → ℕ) : List ℕ :=
  (List.range (n - 1)).foldl (fun (order : List ℕ) (k : ℕ) =>
    let i := n - 1 - k
    swap order i (draw k % (i + 1))) (List.range n)

structure Keypair where
  formattedPrivateKey : ℕ
  publicKey : Point

section Assemble

variable (p : Primitives) (curve : Curve) (sha256 : Bytes → Bytes)

def deriveKeypair (sk : ℕ) : Except AssembleError Keypair := do
  require (0 < sk ∧ sk < snarkScalarField) (.scalarOutOfRange sk)
  return ⟨sk, p.publicKey sk⟩

-- A recipient's output and its ledger row.
def resolveRow (row : RecipientRow × ℕ) : Except AssembleError (Out × LedgerRow) := do
  let hex ← (curve.decodeAddress sha256 row.1.pubkey).mapError (.pubkeyInvalid (row.2 + 1))
  let owner ← (curve.unpackPubkey hex).mapError fun e => .pubkeyInvalid (row.2 + 1) (.pubkey e)
  require (0 < row.1.amount) (.amountNotPositive (row.2 + 1) row.1.amount)
  return (⟨owner, row.1.amount.toNat, .recipient⟩, ⟨hex, row.1.amount.toNat, .recipient⟩)

def pad (entropy : DisburseEntropy) (k : ℕ) : Except AssembleError Out := do
  let dummy ← deriveKeypair p (entropy.randScalar k)
  return ⟨dummy.publicKey, 0, .pad⟩

def changeRows (employer : Point) (changeValue : ℕ) : List (Out × LedgerRow) :=
  if changeValue > 0 then
    [(⟨employer, changeValue, .change⟩, ⟨"(employer change)", changeValue, .change⟩)]
  else []

def receiverFlat (ecdh nonce : ℕ) (outs : List Out) (outputSalts : List ℕ) : List ℕ :=
  (List.zipWith (fun o salt => p.poseidonEncrypt [o.value, salt] (p.ecdhSharedSecret ecdh o.owner) nonce)
    outs outputSalts).flatten

def buildDisburseRequest (inputNote : InputNote) (membership : Membership) (recipients : List RecipientRow)
    (crypto : CryptoParams) (entropy : DisburseEntropy) : Except AssembleError AssembleResult := do
  require (recipients.length ≠ 0) .noRecipients
  require (recipients.length ≤ B) (.tooManyRecipients recipients.length)
  let V := inputNote.value
  let employer ← deriveKeypair p inputNote.ownerPrivateKey
  let inputCommitment := p.commitment V inputNote.salt employer.publicKey
  let nf := p.nullifier V inputNote.salt employer.formattedPrivateKey
  let rows ← recipients.zipIdx.mapM (resolveRow curve sha256)
  let disbursed := (rows.map (·.1.value)).sum
  require (disbursed ≤ V) (.exceedsInput disbursed V)
  let changeValue := V - disbursed
  let change := changeRows employer.publicKey changeValue
  let funded := rows ++ change
  let padCount := B - funded.length
  let pads ← (List.range padCount).mapM (pad p entropy)
  let outs := funded.map (·.1) ++ pads
  let n := outs.length
  let salts := (List.range n).map entropy.randField
  let order := shuffle n fun k => entropy.randField (n + k)
  let shuffledOuts := order.map fun k => outs.getD k ⟨0, 0, .pad⟩
  let outputSalts := order.map fun k => salts.getD k 0
  let outputOwnerPublicKeys := shuffledOuts.map (·.owner)
  assertDistinctOwnerPubkeys [] outputOwnerPublicKeys
  let outputCommitments :=
    List.zipWith (fun o salt => p.commitment o.value salt o.owner) shuffledOuts outputSalts
  let tree ← (ImtTree.construct p.poseidon2 H B).mapError .subtree
  let subtreeRoot ← (ImtTree.computeSubtreeRoot p.poseidon2 tree outputCommitments).mapError .subtree
  let ecdh := entropy.randField (2 * n - 1)
  let nonce := toEncryptionNonce (entropy.randField (2 * n))
  require (membership.pathElements.length = H) (.pathLength membership.pathElements.length)
  let membershipOk := decide (foldToRoot p.poseidon2 inputCommitment membership.pathElements
    membership.leafIndex = membership.root)
  require (crypto.kemCiphertext.length = kemCiphertextLen) (.kemCiphertextLength crypto.kemCiphertext.length)
  let authPlain ← (buildAuthorityPlaintext .disburse
    ⟨[⟨employer.publicKey, V, inputNote.salt⟩],
      List.zipWith (fun o salt => ⟨o.owner, o.value, salt⟩) shuffledOuts outputSalts⟩).mapError .plaintext
  let authorityCt := p.poseidonEncrypt authPlain
    (p.hybridEnvelopeKey (p.ecdhSharedSecret ecdh crypto.authorityPubKey) crypto.kemSs) nonce
  let ciphertext := receiverFlat p ecdh nonce shuffledOuts outputSalts ++ authorityCt
  require (ciphertext.length = 2054) (.ciphertextLength ciphertext.length)
  return {
    request := {
      circuit := "disburse"
      backend := "gpu"
      input := {
        nullifiers := [nf]
        inputCommitments := [inputCommitment]
        inputValues := [V]
        inputSalts := [inputNote.salt]
        inputOwnerPrivateKey := employer.formattedPrivateKey
        ecdhPrivateKey := ecdh
        root := membership.root
        pathElements := [membership.pathElements]
        leafIndices := [membership.leafIndex]
        enabled := [1]
        outputCommitments := outputCommitments
        outputValues := shuffledOuts.map (·.value)
        outputSalts := outputSalts
        outputOwnerPublicKeys := outputOwnerPublicKeys
        kemSs := crypto.kemSs
        encryptionNonce := nonce
        authorityPublicKey := crypto.authorityPubKey } }
    ciphertext := ciphertext
    kemCiphertext := crypto.kemCiphertext
    assembleMeta := {
      inputCommitment := inputCommitment
      nullifier := nf
      subtreeRoot := subtreeRoot
      disclosureHash := p.disclosureChain ciphertext
      inputValue := V
      disbursed := disbursed
      changeValue := changeValue
      realCount := recipients.length
      changeCount := change.length
      padCount := padCount
      membershipOk := membershipOk
      ciphertextLen := ciphertext.length }
    ledger := funded.map (·.2) }

end Assemble

theorem distinct_ok {publicKeys seen : List Point} {u : Unit} :
    assertDistinctOwnerPubkeys seen publicKeys = .ok u ↔
      publicKeys.Nodup ∧ ∀ pk ∈ publicKeys, pk ∉ seen := by
  induction publicKeys generalizing seen with
  | nil => simp [assertDistinctOwnerPubkeys]
  | cons pk publicKeys ih =>
    simp only [assertDistinctOwnerPubkeys, List.contains_iff_mem]
    by_cases hseen : pk ∈ seen
    · rw [if_pos hseen]
      refine iff_of_false (fun h => by cases h) fun h => ?_
      exact h.2 pk List.mem_cons_self hseen
    · rw [if_neg hseen, ih, List.nodup_cons, List.forall_mem_cons]
      simp only [List.mem_append, List.mem_singleton, not_or]
      constructor
      · rintro ⟨hnodup, hrest⟩
        exact ⟨⟨fun hmem => (hrest pk hmem).2 rfl, hnodup⟩, hseen, fun k hk => (hrest k hk).1⟩
      · rintro ⟨⟨hmem, hnodup⟩, -, hrest⟩
        exact ⟨hnodup, fun k hk => ⟨hrest k hk, fun heq => hmem (heq ▸ hk)⟩⟩

theorem swap_perm {order : List ℕ} {i j : ℕ} (hi : i < order.length) (hj : j < order.length) :
    (swap order i j).Perm order := by
  have hswap : swap order i j = (order.set i order[j]).set j order[i] := by
    simp [swap, List.getD_eq_getElem?_getD, hi, hj]
  rw [hswap]
  exact List.set_set_perm hi hj

theorem shuffle_perm (n : ℕ) (draw : ℕ → ℕ) : (shuffle n draw).Perm (List.range n) := by
  refine List.foldlRecOn (motive := fun order => List.Perm order (List.range n)) _ _ (.refl _) ?_
  intro order horder k hk
  have hlt : k < n - 1 := List.mem_range.mp hk
  have hlen : order.length = n := horder.length_eq.trans List.length_range
  have hdraw : draw k % (n - 1 - k + 1) < n - 1 - k + 1 := Nat.mod_lt _ (Nat.succ_pos _)
  exact (swap_perm (by omega) (by omega)).trans horder

-- Whatever order the shuffle draws, it deals out the same elements.
theorem deal_perm {A : Type} (xs : List A) (a : A) (draw : ℕ → ℕ) :
    ((shuffle xs.length draw).map fun k => xs.getD k a).Perm xs := by
  have hdealt : (List.range xs.length).map (fun k => xs.getD k a) = xs := by
    refine List.ext_getElem (by simp) fun i hi hi' => ?_
    simp [List.getD_eq_getElem?_getD, hi']
  have hperm := (shuffle_perm xs.length draw).map fun k => xs.getD k a
  rwa [hdealt] at hperm

variable {p : Primitives} {curve : Curve} {sha256 : Bytes → Bytes}

-- What a recipient row stands for.
structure Resolves (curve : Curve) (sha256 : Bytes → Bytes) (row : RecipientRow) (out : Out) : Prop where
  address : ∃ hex, curve.decodeAddress sha256 row.pubkey = .ok hex ∧ curve.unpackPubkey hex = .ok out.owner
  amount : row.amount = out.value
  funded : 0 < out.value

theorem resolveRow_ok {row : RecipientRow × ℕ} {out : Out × LedgerRow}
    (h : resolveRow curve sha256 row = .ok out) : Resolves curve sha256 row.1 out.1 := by
  simp only [resolveRow, bind_ok, require_ok, mapError_ok] at h
  obtain ⟨hex, hhex, owner, howner, _, hpos, h⟩ := h
  cases h
  exact ⟨⟨hex, hhex, howner⟩, (Int.toNat_of_nonneg hpos.le).symm, by simpa using hpos⟩

theorem rows_resolve {recipients : List RecipientRow} {rows : List (Out × LedgerRow)}
    (h : recipients.zipIdx.mapM (resolveRow curve sha256) = .ok rows) :
    List.Forall₂ (Resolves curve sha256) recipients (rows.map (·.1)) := by
  have hrows := (mapM_ok h).imp fun _ _ => resolveRow_ok
  have hfst := List.forall₂_map_left_iff (f := Prod.fst) (R := Resolves curve sha256)
    (l := recipients.zipIdx) (u := rows.map (·.1))
  rw [List.zipIdx_map_fst] at hfst
  rw [hfst, List.forall₂_map_right_iff]
  exact hrows

theorem deriveKeypair_ok {sk : ℕ} {pair : Keypair} (h : deriveKeypair p sk = .ok pair) :
    pair = ⟨sk, p.publicKey sk⟩ := by
  simp only [deriveKeypair, bind_ok] at h
  obtain ⟨_, -, h⟩ := h
  cases h
  rfl

theorem pads_ok {entropy : DisburseEntropy} {n : ℕ} {pads : List Out}
    (h : (List.range n).mapM (pad p entropy) = .ok pads) :
    ∀ o ∈ pads, o.value = 0 ∧ ∃ sk, o.owner = p.publicKey sk := by
  intro o ho
  obtain ⟨k, -, hk⟩ := forall₂_right (mapM_ok h) ho
  simp only [pad, bind_ok] at hk
  obtain ⟨pair, hpair, hk⟩ := hk
  cases hk
  exact ⟨rfl, entropy.randScalar k, by rw [deriveKeypair_ok hpair]⟩

-- The pieces a returned request is made of: `outs` and `salts` as the shuffle dealt them.
structure Assembled (p : Primitives) (curve : Curve) (sha256 : Bytes → Bytes) (inputNote : InputNote)
    (recipients : List RecipientRow) (crypto : CryptoParams) (entropy : DisburseEntropy) (r : AssembleResult)
    (recips change pads outs : List Out) (salts : List ℕ) : Prop where
  resolves : List.Forall₂ (Resolves curve sha256) recipients recips
  disbursed : (recips.map (·.value)).sum ≤ inputNote.value
  changed : change = (changeRows (p.publicKey inputNote.ownerPrivateKey)
    (inputNote.value - (recips.map (·.value)).sum)).map (·.1)
  padded : ∀ o ∈ pads, o.value = 0 ∧ ∃ sk, o.owner = p.publicKey sk
  dealt : outs.Perm (recips ++ change ++ pads)
  salted : salts.length = outs.length
  drawn : ∀ salt ∈ salts, ∃ k, salt = entropy.randField k
  distinct : (outs.map (·.owner)).Nodup
  values : r.request.input.outputValues = outs.map (·.value)
  owners : r.request.input.outputOwnerPublicKeys = outs.map (·.owner)
  outputSalts : r.request.input.outputSalts = salts
  commitments : r.request.input.outputCommitments =
    List.zipWith (fun o salt => p.commitment o.value salt o.owner) outs salts
  subtree : ∃ tree, ImtTree.construct p.poseidon2 H B = .ok tree ∧
    ImtTree.computeSubtreeRoot p.poseidon2 tree r.request.input.outputCommitments =
      .ok r.assembleMeta.subtreeRoot
  kemSs : r.request.input.kemSs = crypto.kemSs
  kemCiphertext : r.kemCiphertext = crypto.kemCiphertext
  ciphertext : ∃ authPlain, buildAuthorityPlaintext .disburse
      ⟨[⟨p.publicKey inputNote.ownerPrivateKey, inputNote.value, inputNote.salt⟩],
        List.zipWith (fun o salt => ⟨o.owner, o.value, salt⟩) outs salts⟩ = .ok authPlain ∧
    r.ciphertext = receiverFlat p r.request.input.ecdhPrivateKey r.request.input.encryptionNonce outs salts ++
      p.poseidonEncrypt authPlain (p.hybridEnvelopeKey
        (p.ecdhSharedSecret r.request.input.ecdhPrivateKey crypto.authorityPubKey) crypto.kemSs)
        r.request.input.encryptionNonce
  full : r.ciphertext.length = 2054
  disclosureHash : r.assembleMeta.disclosureHash = p.disclosureChain r.ciphertext

theorem buildDisburseRequest_ok {inputNote : InputNote} {membership : Membership}
    {recipients : List RecipientRow} {crypto : CryptoParams} {entropy : DisburseEntropy} {r : AssembleResult}
    (h : buildDisburseRequest p curve sha256 inputNote membership recipients crypto entropy = .ok r) :
    ∃ recips change pads outs salts,
      Assembled p curve sha256 inputNote recipients crypto entropy r recips change pads outs salts := by
  simp only [buildDisburseRequest, bind_ok, require_ok, mapError_ok] at h
  obtain ⟨_, -, _, -, employer, hemployer, rows, hrows, _, hsum, pads, hpads, _, hdistinct, tree, htree, root,
    hroot, _, -, _, -, plain, hplain, _, hfull, h⟩ := h
  cases h
  obtain rfl := deriveKeypair_ok hemployer
  have hvalue : (rows.map (·.1)).map (·.value) = rows.map (·.1.value) := List.map_map
  set V := inputNote.value
  set change := changeRows (p.publicKey inputNote.ownerPrivateKey) (V - (rows.map (·.1.value)).sum)
  set all := (rows ++ change).map (·.1) ++ pads with hall
  set order := shuffle all.length fun k => entropy.randField (all.length + k)
  refine ⟨rows.map (·.1), change.map (·.1), pads, order.map fun k => all.getD k ⟨0, 0, .pad⟩,
    order.map fun k => ((List.range all.length).map entropy.randField).getD k 0, ?_⟩
  exact {
    resolves := rows_resolve hrows
    disbursed := hvalue ▸ hsum
    changed := by rw [hvalue]
    padded := pads_ok hpads
    dealt := by
      have hdealt := deal_perm all ⟨0, 0, .pad⟩ fun k => entropy.randField (all.length + k)
      exact hdealt.trans (.of_eq (by rw [hall, List.map_append]))
    salted := by rw [List.length_map, List.length_map]
    drawn := by
      intro salt hsalt
      obtain ⟨k, hk, rfl⟩ := List.mem_map.mp hsalt
      have hlt : k < all.length := List.mem_range.mp ((shuffle_perm _ _).subset hk)
      exact ⟨k, by simp [List.getD_eq_getElem?_getD, hlt]⟩
    distinct := (distinct_ok.mp hdistinct).1
    values := rfl
    owners := rfl
    outputSalts := rfl
    commitments := rfl
    subtree := ⟨tree, htree, hroot⟩
    kemSs := rfl
    kemCiphertext := rfl
    ciphertext := ⟨plain, hplain, rfl⟩
    full := hfull
    disclosureHash := rfl }

end Bongtu.Payroll
