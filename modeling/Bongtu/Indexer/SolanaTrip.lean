import Bongtu.Indexer.SolanaWire

namespace Bongtu.Indexer

open ByteOrder Core Outcome
open Solana (Word)

theorem number_exact {n : ℕ} (hn : n < 2 ^ 53) : number n = n := if_pos hn

theorem be32_of_readAt {d : Bytes} {off : ℕ} {w : Word} (h : readAt off 32 d = w.bytes) :
    be32 d off = w.value := congrArg fromBE h

theorem le64_of_readAt {d : Bytes} {off : ℕ} {n : UInt64} (hn : n.toNat < 2 ^ 53)
    (h : readAt off 8 d = toLE 8 n.toNat) : le64 d off = n.toNat := by
  have hmod : fromLE (toLE 8 n.toNat) = n.toNat % 256 ^ 8 := fromLE_toLE 8 n.toNat
  rw [le64, h, hmod, Nat.mod_eq_of_lt (by omega), number_exact hn]

theorem getElem?_of_readAt {d : Bytes} {off : ℕ} {b : UInt8} (h : readAt off 1 d = [b]) : d[off]? = some b := by
  have hread := getElem?_readAt off d Nat.one_pos
  rw [h] at hread
  exact hread.symm

section OpEvent

variable (family : UInt8) (startLeafIndex : UInt64) (leafCount : UInt8) (resultingRoot : Word)
  (nullifiers : List Word)

def opEventHeader : List Bytes :=
  [[Solana.eventDiscriminator], [family], toLE 8 startLeafIndex.toNat, [leafCount], resultingRoot.bytes,
    [UInt8.ofNat nullifiers.length]]

theorem opEventPayload_eq :
    Solana.opEventPayload family startLeafIndex leafCount resultingRoot nullifiers =
      (opEventHeader family startLeafIndex leafCount resultingRoot nullifiers ++
        nullifiers.map Word.bytes).flatten := by
  simp [Solana.opEventPayload, opEventHeader, List.flatMap_def]

theorem length_opEventHeader :
    (opEventHeader family startLeafIndex leafCount resultingRoot nullifiers).flatten.length = 44 := by
  simp [opEventHeader, resultingRoot.size]

theorem length_words : ∀ x ∈ nullifiers.map Word.bytes, x.length = 32 := by
  intro x hx
  obtain ⟨w, -, rfl⟩ := List.mem_map.mp hx
  exact w.size

theorem length_opEventPayload :
    (Solana.opEventPayload family startLeafIndex leafCount resultingRoot nullifiers).length =
      44 + 32 * nullifiers.length := by
  rw [opEventPayload_eq, List.flatten_append, List.length_append, length_opEventHeader,
    Client.length_flatten_of (length_words nullifiers), List.length_map, mul_comm]

variable {family startLeafIndex leafCount resultingRoot nullifiers}

-- The emitted anchor comes back as it was built.
theorem decodeEvent_op (hfamily : family.toNat ≠ familyDisburse256) (hstart : startLeafIndex.toNat < 2 ^ 53)
    (hcount : nullifiers.length ≤ 255) :
    decodeEvent (Solana.opEventPayload family startLeafIndex leafCount resultingRoot nullifiers) =
      .ok (.op family.toNat startLeafIndex.toNat leafCount.toNat resultingRoot.value
        (nullifiers.map Word.value)) := by
  have hlen := length_opEventPayload family startLeafIndex leafCount resultingRoot nullifiers
  have hnf : (UInt8.ofNat nullifiers.length).toNat = nullifiers.length :=
    UInt8.toNat_ofNat_of_lt (Nat.lt_succ_of_le hcount)
  rw [opEventPayload_eq] at hlen ⊢
  set header := opEventHeader family startLeafIndex leafCount resultingRoot nullifiers with hheader
  set d := (header ++ nullifiers.map Word.bytes).flatten with hd
  have hread : ∀ (i offset : ℕ) (field : Bytes), (header ++ nullifiers.map Word.bytes)[i]? = some field →
      (((header ++ nullifiers.map Word.bytes).take i).map List.length).sum = offset →
        readAt offset field.length d = field := fun i offset field => readAt_flatten
  have hdisc : d[0]? = some Solana.eventDiscriminator := getElem?_of_readAt (hread 0 0 _ rfl rfl)
  have hfam : d[1]? = some family := getElem?_of_readAt (hread 1 1 _ rfl rfl)
  have hstartAt : readAt 2 8 d = toLE 8 startLeafIndex.toNat := by
    have hfield := hread 2 2 _ rfl rfl
    rwa [length_toLE] at hfield
  have hleaf : d[10]? = some leafCount := getElem?_of_readAt (hread 3 10 _ rfl (by simp [hheader, opEventHeader]))
  have hroot : readAt 11 32 d = resultingRoot.bytes := by
    have hfield := hread 4 11 _ rfl (by simp [hheader, opEventHeader])
    rwa [resultingRoot.size] at hfield
  have hcountAt : d[43]? = some (UInt8.ofNat nullifiers.length) :=
    getElem?_of_readAt (hread 5 43 _ rfl (by simp [hheader, opEventHeader, resultingRoot.size]))
  have hwords : (List.range nullifiers.length).map (fun i => be32 d (44 + 32 * i)) =
      nullifiers.map Word.value := by
    refine List.ext_getElem (by simp) fun i hi hi' => ?_
    rw [List.length_map] at hi'
    have hword : (nullifiers.map Word.bytes)[i]? = some nullifiers[i].bytes := by
      rw [List.getElem?_map, List.getElem?_eq_getElem hi']
      rfl
    have hrun := readAt_run header.flatten [] (length_words nullifiers) hword
    rw [length_opEventHeader, List.append_nil, ← List.flatten_append] at hrun
    rw [List.getElem_map, List.getElem_map, List.getElem_range]
    exact be32_of_readAt hrun
  simp only [decodeEvent, hdisc, hfam, decodeAnchor, hleaf, hcountAt, hnf, hlen, hwords, hfamily, ne_eq,
    not_true_eq_false, if_false, le64_of_readAt hstart hstartAt, be32_of_readAt hroot]

end OpEvent

section DisburseEvent

variable {family : UInt8} {startLeafIndex epoch : UInt64}
  {subtreeRoot resultingRoot nullifier disclosureHash kemBinding : Word}

theorem disburseEventPayload_eq :
    Solana.disburseEventPayload family startLeafIndex subtreeRoot resultingRoot nullifier disclosureHash
        kemBinding epoch =
      [[Solana.eventDiscriminator], [family], toLE 8 startLeafIndex.toNat, subtreeRoot.bytes,
        resultingRoot.bytes, nullifier.bytes, disclosureHash.bytes, kemBinding.bytes,
        toLE 8 epoch.toNat].flatten := by
  simp [Solana.disburseEventPayload]

theorem decodeEvent_disburse (hfamily : family.toNat = familyDisburse256)
    (hstart : startLeafIndex.toNat < 2 ^ 53) (hepoch : epoch.toNat < 2 ^ 53) :
    decodeEvent (Solana.disburseEventPayload family startLeafIndex subtreeRoot resultingRoot nullifier
        disclosureHash kemBinding epoch) =
      .ok (.disburse family.toNat startLeafIndex.toNat subtreeRoot.value resultingRoot.value nullifier.value
        disclosureHash.value kemBinding.value epoch.toNat) := by
  rw [disburseEventPayload_eq]
  set fields : List Bytes := [[Solana.eventDiscriminator], [family], toLE 8 startLeafIndex.toNat,
    subtreeRoot.bytes, resultingRoot.bytes, nullifier.bytes, disclosureHash.bytes, kemBinding.bytes,
    toLE 8 epoch.toNat] with hfields
  have hlen : fields.flatten.length = 178 := by
    simp [hfields, Word.size]
  have hread : ∀ (i offset : ℕ) (field : Bytes), fields[i]? = some field →
      ((fields.take i).map List.length).sum = offset → readAt offset field.length fields.flatten = field :=
    fun i offset field => readAt_flatten
  have hword : ∀ (i offset : ℕ) (w : Word), fields[i]? = some w.bytes →
      ((fields.take i).map List.length).sum = offset → be32 fields.flatten offset = w.value := by
    intro i offset w hfield hoffset
    have hfield := hread i offset w.bytes hfield hoffset
    rw [w.size] at hfield
    exact be32_of_readAt hfield
  have hdisc : fields.flatten[0]? = some Solana.eventDiscriminator := getElem?_of_readAt (hread 0 0 _ rfl rfl)
  have hfam : fields.flatten[1]? = some family := getElem?_of_readAt (hread 1 1 _ rfl rfl)
  have hstartAt : readAt 2 8 fields.flatten = toLE 8 startLeafIndex.toNat := by
    have hfield := hread 2 2 _ rfl rfl
    rwa [length_toLE] at hfield
  have hepochAt : readAt 170 8 fields.flatten = toLE 8 epoch.toNat := by
    have hfield := hread 8 170 _ rfl (by simp [hfields, Word.size])
    rwa [length_toLE] at hfield
  have hsubtree := hword 3 10 _ rfl (by simp [hfields])
  have hroot := hword 4 42 _ rfl (by simp [hfields, Word.size])
  have hnf := hword 5 74 _ rfl (by simp [hfields, Word.size])
  have hdisclosure := hword 6 106 _ rfl (by simp [hfields, Word.size])
  have hkem := hword 7 138 _ rfl (by simp [hfields, Word.size])
  simp only [decodeEvent, hdisc, hfam, hfamily, decodeDisburse, hlen, hsubtree, hroot, hnf, hdisclosure, hkem,
    le64_of_readAt hstart hstartAt, le64_of_readAt hepoch hepochAt, ne_eq, not_true_eq_false, if_false, if_true,
    Nat.reduceAdd, Nat.reduceMul]

end DisburseEvent

-- The first 44 bytes of an accepted payload fix its length.
theorem decodeEvent_length {d : Bytes} {a : SolanaEventAnchor ℕ} (h : decodeEvent d = .ok a) :
    ∃ family, d[1]? = some family ∧
      if family.toNat = familyDisburse256 then d.length = 178
      else ∃ nfCount, d[43]? = some nfCount ∧ d.length = 44 + 32 * nfCount.toNat := by
  unfold decodeEvent at h
  split at h
  · cases h
  · cases hfam : d[1]? with
    | none => simp [hfam] at h
    | some family =>
      simp only [hfam] at h
      refine ⟨family, rfl, ?_⟩
      split at h
      · case isTrue hdisburse =>
        rw [if_pos hdisburse]
        unfold decodeDisburse at h
        split at h
        · cases h
        · case isFalse hlen => exact not_ne_iff.mp hlen
      · case isFalse hop =>
        rw [if_neg hop]
        unfold decodeAnchor at h
        split at h
        · case h_1 leafCount nfCount hleaf hnf =>
          split at h
          · cases h
          · case isFalse hlen => exact ⟨nfCount, hnf, not_ne_iff.mp hlen⟩
        · cases h

theorem at_of_extended {d d' : Bytes} (hpre : d <+: d') {i : ℕ} {b : UInt8} (h : d[i]? = some b) :
    d'[i]? = some b := by
  obtain ⟨rest, rfl⟩ := hpre
  rwa [List.getElem?_append_left (List.getElem?_eq_some_iff.mp h).1]

-- No accepted payload is a proper prefix of another.
theorem decodeEvent_prefix_free {d d' : Bytes} {a a' : SolanaEventAnchor ℕ} (hpre : d <+: d')
    (h : decodeEvent d = .ok a) (h' : decodeEvent d' = .ok a') : d = d' := by
  obtain ⟨family, hfam, hlen⟩ := decodeEvent_length h
  obtain ⟨family', hfam', hlen'⟩ := decodeEvent_length h'
  obtain rfl := Option.some.inj ((at_of_extended hpre hfam).symm.trans hfam')
  refine hpre.eq_of_length ?_
  split at hlen
  · case isTrue hdisburse =>
    rw [if_pos hdisburse] at hlen'
    rw [hlen, hlen']
  · case isFalse hop =>
    rw [if_neg hop] at hlen'
    obtain ⟨nfCount, hnf, hlen⟩ := hlen
    obtain ⟨nfCount', hnf', hlen'⟩ := hlen'
    obtain rfl := Option.some.inj ((at_of_extended hpre hnf).symm.trans hnf')
    rw [hlen, hlen']

-- A cut or an extension of an accepted payload.
def CutOrExtended (d accepted : Bytes) : Prop := d ≠ accepted ∧ (d <+: accepted ∨ accepted <+: d)

theorem decodeEvent_rejects {d accepted : Bytes} {a : SolanaEventAnchor ℕ} (h : decodeEvent accepted = .ok a)
    (hd : CutOrExtended d accepted) : ∃ e, decodeEvent d = .error e := by
  cases hdec : decodeEvent d with
  | error e => exact ⟨e, rfl⟩
  | ok a' =>
    obtain ⟨hne, hcut | hext⟩ := hd
    · exact absurd (decodeEvent_prefix_free hcut hdec h) hne
    · exact absurd (decodeEvent_prefix_free hext h hdec).symm hne

section Op

variable {op : SolanaOpName} {payload : Bytes} {accounts : Option (List Bytes)}

-- The decoder's own name for the commitments of an op; a disbursement has its block's root.
def commitmentField : SolanaOpName → OpField
  | .withdrawPriv | .withdraw => .changeCommitment
  | .disburse256 => .subtreeRoot
  | _ => .outputCommitments

def decoderFields : List OpField :=
  [.ecdhPublicKey, .encryptionNonce, .cts, .viewTags, .nullifiers, .outputCommitments, .changeCommitment,
    .disclosureHash, .subtreeRoot, .kemBinding, .receiverCts, .authorityCt]

-- Nothing the decoder asks for is injected.
theorem decoderFields_carried (op : SolanaOpName) :
    ∀ f ∈ decoderFields, ∀ i ∈ (solanaOps op).field f, i ∈ (solanaOps op).carried := by
  cases op <;> decide

theorem spentBy_eq (op : SolanaOpName) (payload : Bytes) : Solana.spentBy op payload =
    ((solanaOps op).field .nullifiers).map
      fun i => Solana.carriedAt payload ((solanaOps op).carried.idxOf i) := by
  cases op <;> rfl

theorem leavesBy_eq (op : SolanaOpName) (payload : Bytes) : Solana.leavesBy op payload =
    ((solanaOps op).field (commitmentField op)).map
      fun i => Solana.carriedAt payload ((solanaOps op).carried.idxOf i) := by
  cases op <;> rfl

def wordAt (op : SolanaOpName) (payload : Bytes) (i : ℕ) : ℕ :=
  (Solana.carriedAt payload ((solanaOps op).carried.idxOf i)).value

variable {b : UInt8}

theorem fullReader_eq (hlen : payload.length + 1 = (solanaOps op).wireLenOf) {i : ℕ}
    (hi : i ∈ (solanaOps op).carried) : fullReader (b :: payload) (solanaOps op) i = .ok (wordAt op payload i) := by
  have hw := List.idxOf_lt_length_of_mem hi
  rw [SolanaOpLayout.wireLenOf] at hlen
  have hread : (readAt (proofLen + 32 * (solanaOps op).carried.idxOf i) 32 payload).length = 32 :=
    length_readAt (by omega)
  rw [fullReader, if_pos hi, be32, Nat.add_assoc, readAt_cons, wordAt, Solana.carriedAt, Word.value,
    Solana.asArr32_bytes hread]

theorem readAll_eq (hlen : payload.length + 1 = (solanaOps op).wireLenOf) {f : OpField}
    (hf : f ∈ decoderFields) :
    readAll (b :: payload) (solanaOps op) f = .ok (((solanaOps op).field f).map (wordAt op payload)) :=
  mapM_returns fun i hi => fullReader_eq hlen (decoderFields_carried op f hf i hi)

theorem readOne_eq (hlen : payload.length + 1 = (solanaOps op).wireLenOf) {f : OpField}
    (hf : ((solanaOps op).field f).headD 0 ∈ (solanaOps op).carried) :
    readOne (b :: payload) (solanaOps op) f =
      .ok (wordAt op payload (((solanaOps op).field f).headD 0)) :=
  fullReader_eq hlen hf

theorem readPair_eq (hlen : payload.length + 1 = (solanaOps op).wireLenOf) {f : OpField}
    (hf : ((solanaOps op).field f).getD 0 0 ∈ (solanaOps op).carried ∧
      ((solanaOps op).field f).getD 1 0 ∈ (solanaOps op).carried) :
    readPair (b :: payload) (solanaOps op) f =
      .ok (wordAt op payload (((solanaOps op).field f).getD 0 0),
        wordAt op payload (((solanaOps op).field f).getD 1 0)) := by
  rw [readPair, fullReader_eq hlen hf.1, fullReader_eq hlen hf.2]
  rfl

def baseOf (op : SolanaOpName) (payload : Bytes) : OpBase where
  family := (solanaOps op).familyTagOf
  ecdhPublicKey := (wordAt op payload (((solanaOps op).field .ecdhPublicKey).getD 0 0),
    wordAt op payload (((solanaOps op).field .ecdhPublicKey).getD 1 0))
  encryptionNonce := wordAt op payload (((solanaOps op).field .encryptionNonce).headD 0)

theorem readBase_eq (hlen : payload.length + 1 = (solanaOps op).wireLenOf) :
    readBase (b :: payload) (solanaOps op) = .ok (baseOf op payload) := by
  have hkey : ((solanaOps op).field .ecdhPublicKey).getD 0 0 ∈ (solanaOps op).carried ∧
      ((solanaOps op).field .ecdhPublicKey).getD 1 0 ∈ (solanaOps op).carried := by
    cases op <;> decide
  have hnonce : ((solanaOps op).field .encryptionNonce).headD 0 ∈ (solanaOps op).carried := by
    cases op <;> decide
  rw [readBase, readPair_eq hlen hkey, readOne_eq hlen hnonce]
  rfl

def allAt (op : SolanaOpName) (payload : Bytes) (f : OpField) : List ℕ :=
  ((solanaOps op).field f).map (wordAt op payload)

def oneAt (op : SolanaOpName) (payload : Bytes) (f : OpField) : ℕ :=
  wordAt op payload (((solanaOps op).field f).headD 0)

def pairAt (op : SolanaOpName) (payload : Bytes) (f : OpField) : ℕ × ℕ :=
  (wordAt op payload (((solanaOps op).field f).getD 0 0), wordAt op payload (((solanaOps op).field f).getD 1 0))

-- Every field of the decoded op, as the words of the payload.
def decodedBy (d payload : Bytes) (accounts : Option (List Bytes)) (op : SolanaOpName) : SolanaOp :=
  let all := allAt op payload
  let one := oneAt op payload
  let pair := pairAt op payload
  let kems := kemsOf d (solanaOps op)
  let stealth := stealthOf d (solanaOps op)
  let recipient := accounts.bind fun keys => keys[11]?
  match op with
  | .depositPriv =>
    .depositPriv (baseOf op payload) (all .cts) (all .viewTags) (pair .outputCommitments) kems
  | .transferPriv =>
    .transferPriv (baseOf op payload) (all .cts) (all .viewTags) (all .nullifiers) (pair .outputCommitments) kems
  | .transfer10x2Priv =>
    .transfer10x2Priv (baseOf op payload) (all .cts) (all .viewTags) (all .nullifiers)
      (pair .outputCommitments) kems
  | .withdrawPriv =>
    .withdrawPriv (baseOf op payload) (all .cts) (all .viewTags) (all .nullifiers) (one .changeCommitment) kems
      stealth recipient
  | .deposit => .deposit (baseOf op payload) (pair .outputCommitments)
  | .withdraw =>
    .withdraw (baseOf op payload) (all .nullifiers) (one .changeCommitment) stealth recipient
  | .disburse256 =>
    .disburse (baseOf op payload) (one .disclosureHash) (one .subtreeRoot) (one .kemBinding) (one .nullifiers)
  | .transfer =>
    .transfer (baseOf op payload) (all .receiverCts) (all .authorityCt) (all .nullifiers)
      (pair .outputCommitments)
  | .transfer10x2 =>
    .transfer10x2 (baseOf op payload) (all .receiverCts) (all .authorityCt) (all .nullifiers)
      (pair .outputCommitments)

theorem decodeBody_eq (hlen : payload.length + 1 = (solanaOps op).wireLenOf) :
    decodeBody (b :: payload) accounts op = .ok (decodedBy (b :: payload) payload accounts op) := by
  have hbase := readBase_eq (b := b) hlen
  have hall := fun f hf => readAll_eq (b := b) (f := f) hlen hf
  have hone := fun f hf => readOne_eq (b := b) (f := f) hlen hf
  have hpair := fun f hf => readPair_eq (b := b) (f := f) hlen hf
  cases op with
  | depositPriv =>
    simp only [decodeBody, hbase, hall .cts (by decide), hall .viewTags (by decide),
      hpair .outputCommitments (by decide)]
    rfl
  | transferPriv =>
    simp only [decodeBody, hbase, hall .cts (by decide), hall .viewTags (by decide),
      hall .nullifiers (by decide), hpair .outputCommitments (by decide)]
    rfl
  | transfer10x2Priv =>
    simp only [decodeBody, hbase, hall .cts (by decide), hall .viewTags (by decide),
      hall .nullifiers (by decide), hpair .outputCommitments (by decide)]
    rfl
  | withdrawPriv =>
    simp only [decodeBody, hbase, hall .cts (by decide), hall .viewTags (by decide),
      hall .nullifiers (by decide), hone .changeCommitment (by decide)]
    rfl
  | deposit =>
    simp only [decodeBody, hbase, hpair .outputCommitments (by decide)]
    rfl
  | withdraw =>
    simp only [decodeBody, hbase, hall .nullifiers (by decide), hone .changeCommitment (by decide)]
    rfl
  | disburse256 =>
    simp only [decodeBody, hbase, hone .disclosureHash (by decide), hone .subtreeRoot (by decide),
      hone .kemBinding (by decide), hone .nullifiers (by decide)]
    rfl
  | transfer =>
    simp only [decodeBody, hbase, hall .receiverCts (by decide), hall .authorityCt (by decide),
      hall .nullifiers (by decide), hpair .outputCommitments (by decide)]
    rfl
  | transfer10x2 =>
    simp only [decodeBody, hbase, hall .receiverCts (by decide), hall .authorityCt (by decide),
      hall .nullifiers (by decide), hpair .outputCommitments (by decide)]
    rfl

theorem allAt_one {f : OpField} (h : ((solanaOps op).field f).length = 1) :
    allAt op payload f = [oneAt op payload f] := by
  obtain ⟨i, hi⟩ := List.length_eq_one_iff.mp h
  rw [allAt, oneAt, hi]
  rfl

theorem allAt_pair {f : OpField} (h : ((solanaOps op).field f).length = 2) :
    allAt op payload f = [(pairAt op payload f).1, (pairAt op payload f).2] := by
  obtain ⟨i, j, hij⟩ := List.length_eq_two.mp h
  rw [allAt, pairAt, hij]
  rfl

theorem allAt_spent (op : SolanaOpName) (payload : Bytes) :
    allAt op payload .nullifiers = (Solana.spentBy op payload).map Word.value := by
  rw [spentBy_eq, List.map_map, allAt]
  exact List.map_congr_left fun i _ => by rw [wordAt, Function.comp_apply]

theorem allAt_leaves (op : SolanaOpName) (payload : Bytes) :
    allAt op payload (commitmentField op) = (Solana.leavesBy op payload).map Word.value := by
  rw [leavesBy_eq, List.map_map, allAt]
  exact List.map_congr_left fun i _ => by rw [wordAt, Function.comp_apply]

theorem nullifiers_decodedBy (d payload : Bytes) (accounts : Option (List Bytes)) (op : SolanaOpName) :
    (decodedBy d payload accounts op).nullifiers = (Solana.spentBy op payload).map Word.value := by
  rw [← allAt_spent]
  cases op with
  | disburse256 => exact (allAt_one (by decide)).symm
  | _ => rfl

theorem commitments_decodedBy (d payload : Bytes) (accounts : Option (List Bytes)) (op : SolanaOpName) :
    (decodedBy d payload accounts op).commitments = (Solana.leavesBy op payload).map Word.value := by
  rw [← allAt_leaves]
  cases op with
  | withdrawPriv | withdraw | disburse256 => exact (allAt_one (by decide)).symm
  | _ => exact (allAt_pair (by decide)).symm

theorem find_discriminator (op : SolanaOpName) (rest : Bytes) :
    (solanaOpNames.find? fun name =>
      ((UInt8.ofNat (solanaOps op).discriminator :: rest)[0]?).map UInt8.toNat =
        some (solanaOps name).discriminator) = some op := by
  cases op <;> rfl

-- An instruction of the right length decodes, field by field.
theorem decodeOp_eq (accounts : Option (List Bytes)) (hlen : payload.length + 1 = (solanaOps op).wireLenOf) :
    decodeOp (UInt8.ofNat (solanaOps op).discriminator :: payload) accounts =
      .ok (some (decodedBy (UInt8.ofNat (solanaOps op).discriminator :: payload) payload accounts op)) := by
  unfold decodeOp
  rw [find_discriminator]
  exact bind_ok.mpr ⟨(), require_ok.mpr hlen, bind_ok.mpr ⟨_, decodeBody_eq hlen, rfl⟩⟩

end Op

-- The first byte of a decoded instruction fixes its length.
theorem decodeOp_length {d : Bytes} {accounts : Option (List Bytes)} {decoded : SolanaOp}
    (h : decodeOp d accounts = .ok (some decoded)) :
    ∃ b op, d[0]? = some b ∧ b.toNat = (solanaOps op).discriminator ∧ d.length = (solanaOps op).wireLenOf := by
  unfold decodeOp at h
  split at h
  · cases h
  · case h_2 op hfind =>
    obtain ⟨u, hexpect, -⟩ := bind_ok.mp h
    have hlen : d.length = (solanaOps op).wireLenOf := require_ok.mp hexpect
    have hdisc := List.find?_some hfind
    rw [decide_eq_true_eq] at hdisc
    obtain ⟨b, hb, hnat⟩ := Option.map_eq_some_iff.mp hdisc
    exact ⟨b, op, hb, hnat, hlen⟩

theorem discriminator_injective {op op' : SolanaOpName}
    (h : (solanaOps op).discriminator = (solanaOps op').discriminator) : op = op' := by
  revert h
  cases op <;> cases op' <;> decide

theorem decodeOp_prefix_free {d d' : Bytes} {accounts accounts' : Option (List Bytes)}
    {decoded decoded' : SolanaOp} (hpre : d <+: d') (h : decodeOp d accounts = .ok (some decoded))
    (h' : decodeOp d' accounts' = .ok (some decoded')) : d = d' := by
  obtain ⟨b, op, hb, hop, hlen⟩ := decodeOp_length h
  obtain ⟨b', op', hb', hop', hlen'⟩ := decodeOp_length h'
  obtain rfl := Option.some.inj ((at_of_extended hpre hb).symm.trans hb')
  obtain rfl := discriminator_injective (hop.symm.trans hop')
  exact hpre.eq_of_length (hlen.trans hlen'.symm)

theorem decodeOp_rejects {d accepted : Bytes} {accounts accounts' : Option (List Bytes)} {decoded : SolanaOp}
    (h : decodeOp accepted accounts' = .ok (some decoded)) (hd : CutOrExtended d accepted) (other : SolanaOp) :
    decodeOp d accounts ≠ .ok (some other) := by
  intro hdec
  obtain ⟨hne, hcut | hext⟩ := hd
  · exact hne (decodeOp_prefix_free hcut hdec h)
  · exact hne (decodeOp_prefix_free hext h hdec).symm

-- The tuple of an event, its words read as numbers.
def anchorOf : Solana.Event Word → SolanaEventAnchor ℕ
  | .op family start leafCount resultingRoot nullifiers =>
    .op family start leafCount resultingRoot.value (nullifiers.map Word.value)
  | .disburse family start subtreeRoot resultingRoot nullifier disclosureHash kemBinding epoch =>
    .disburse family start subtreeRoot.value resultingRoot.value nullifier.value disclosureHash.value
      kemBinding.value epoch

theorem filter_value (nullifiers : List Word) :
    (nullifiers.map Word.value).filter (fun x => x ≠ 0) = (stripZeros nullifiers).map Word.value := by
  rw [stripZeros, List.filter_map]
  refine congrArg (List.map Word.value) (List.filter_congr fun w _ => ?_)
  simp [Word.value_eq_zero]

theorem familyTagOf_lt (op : SolanaOpName) : (solanaOps op).familyTagOf < 256 := by
  cases op <;> decide

theorem familyTagOf_ne {op : SolanaOpName} (hop : op ≠ .disburse256) :
    (solanaOps op).familyTagOf ≠ familyDisburse256 := by
  cases op with
  | disburse256 => exact absurd rfl hop
  | _ => decide

theorem length_leavesBy (op : SolanaOpName) (payload : Bytes) : (Solana.leavesBy op payload).length < 256 := by
  cases op <;> simp [Solana.leavesBy]

-- What the program emits, the decoder reads.
theorem decodeEvent_eventBy {op : SolanaOpName} {payload : Bytes} {start : ℕ} (root : Word)
    (hstart : start < 2 ^ Solana.treeHeight)
    (harity : (stripZeros (Solana.spentBy op payload)).length ≤ Solana.maxNullifiers) :
    decodeEvent (Solana.eventBy op payload start root).payload =
      .ok (anchorOf (Solana.eventBy op payload start root)) := by
  have hbig : start < 2 ^ 32 := hstart
  have hstart64 : (UInt64.ofNat start).toNat = start := UInt64.toNat_ofNat_of_lt (by
    rw [UInt64.size]
    omega)
  have hexact : (UInt64.ofNat start).toNat < 2 ^ 53 := by
    rw [hstart64]
    omega
  by_cases hop : op = .disburse256
  · subst hop
    have hdecode : decodeEvent (Solana.disburseEventPayload 7 (UInt64.ofNat start) (Solana.carriedAt payload 3)
        root (Solana.carriedAt payload 5) (Solana.carriedAt payload 2) (Solana.carriedAt payload 4) 0) = _ :=
      decodeEvent_disburse rfl hexact (by decide)
    rw [hstart64] at hdecode
    exact hdecode
  · have htag : (UInt8.ofNat (solanaOps op).familyTagOf).toNat = (solanaOps op).familyTagOf :=
      UInt8.toNat_ofNat_of_lt (familyTagOf_lt op)
    have hleaves : (UInt8.ofNat (Solana.leavesBy op payload).length).toNat =
        (Solana.leavesBy op payload).length := UInt8.toNat_ofNat_of_lt (length_leavesBy op payload)
    have hdecode : decodeEvent (Solana.opEventPayload (UInt8.ofNat (solanaOps op).familyTagOf)
        (UInt64.ofNat start) (UInt8.ofNat (Solana.leavesBy op payload).length) root
        (stripZeros (Solana.spentBy op payload))) = _ :=
      decodeEvent_op (by rw [htag]; exact familyTagOf_ne hop) hexact (harity.trans (by decide))
    rw [hstart64, htag, hleaves] at hdecode
    rw [Solana.eventBy_op hop]
    exact hdecode

theorem treeEventOf_op {signature start leafCount root family : ℕ} {nullifiers : List ℕ} {ix : SolanaOpIx ℕ}
    (hkind : ix.kind ≠ .disburse) (hfamily : family = ix.family) (hcount : leafCount = ix.leaves.length)
    (hnullifiers : ix.nullifiers.filter (fun x => x ≠ 0) = nullifiers) :
    treeEventOf signature ix (.op family start leafCount root nullifiers) =
      .ok (.opAppended start ix.leaves root) := by
  subst hfamily hcount hnullifiers
  refine bind_ok.mpr ⟨(), require_ok.mpr rfl, ?_⟩
  have hchecked : (do
      require (ix.leaves.length = ix.leaves.length)
        (.leafCountMismatch ix.leaves.length ix.leaves.length signature)
      require (ix.nullifiers.filter (fun x => x ≠ 0) = ix.nullifiers.filter fun x => x ≠ 0)
        (.nullifierMismatch signature)
      return .opAppended start ix.leaves root : Except SolanaError (TreeEvent ℕ)) =
        .ok (.opAppended start ix.leaves root) :=
    bind_ok.mpr ⟨(), require_ok.mpr rfl, bind_ok.mpr ⟨(), require_ok.mpr rfl, rfl⟩⟩
  cases hk : ix.kind with
  | disburse => exact absurd hk hkind
  | _ => exact hchecked

-- The checks of the dispatch pass on what the program ran and emitted.
theorem treeEventOf_eventBy (signature : ℕ) {op : SolanaOpName} (hop : op ≠ .disburse256) (d payload : Bytes)
    (accounts : Option (List Bytes)) (start : ℕ) (root : Word) :
    treeEventOf signature (decodedBy d payload accounts op).ix (anchorOf (Solana.eventBy op payload start root)) =
      .ok (.opAppended start ((Solana.leavesBy op payload).map Word.value) root.value) := by
  have hkind : (decodedBy d payload accounts op).ix.kind ≠ .disburse := by
    cases op with
    | disburse256 => exact absurd rfl hop
    | _ => exact fun h => OpKind.noConfusion h
  have hleaves : (decodedBy d payload accounts op).ix.leaves = (Solana.leavesBy op payload).map Word.value := by
    rw [← commitments_decodedBy d payload accounts op]
    cases op with
    | disburse256 => exact absurd rfl hop
    | _ => rfl
  have hnullifiers : (decodedBy d payload accounts op).ix.nullifiers =
      (Solana.spentBy op payload).map Word.value := by
    rw [← nullifiers_decodedBy d payload accounts op]
    cases op with
    | disburse256 => exact absurd rfl hop
    | _ => rfl
  rw [Solana.eventBy_op hop, anchorOf, ← hleaves]
  refine treeEventOf_op hkind ?_ ?_ ?_
  · cases op <;> rfl
  · rw [hleaves, List.length_map]
  · rw [hnullifiers, filter_value]

theorem treeEventOf_disburse (signature : ℕ) (d payload : Bytes) (accounts : Option (List Bytes)) (start : ℕ)
    (root : Word) :
    treeEventOf signature (decodedBy d payload accounts .disburse256).ix
        (anchorOf (Solana.eventBy .disburse256 payload start root)) =
      .ok (.subtreeAppended start (Solana.carriedAt payload 3).value root.value) :=
  bind_ok.mpr ⟨(), require_ok.mpr rfl, bind_ok.mpr ⟨(), require_ok.mpr ⟨rfl, rfl, rfl, rfl⟩,
    bind_ok.mpr ⟨(), require_ok.mpr rfl, rfl⟩⟩⟩

theorem anchorOf_injective : Function.Injective anchorOf := by
  have hmap : Function.Injective (List.map Word.value) := List.map_injective_iff.mpr Word.value_injective
  intro e e' h
  cases e <;> cases e' <;> simp_all [anchorOf, hmap.eq_iff, Word.value_injective.eq_iff]

-- The tuple is read back from what either builder emits; the instruction beside it decodes to what its
-- handler ran on; no cut or extension of either is taken for another.
theorem event_wire_round_trip :
    (∀ (family : UInt8) (startLeafIndex : UInt64) (leafCount : UInt8) (resultingRoot : Word)
        (nullifiers : List Word), family.toNat ≠ familyDisburse256 → startLeafIndex.toNat < 2 ^ 53 →
      nullifiers.length ≤ 255 →
      decodeEvent (Solana.opEventPayload family startLeafIndex leafCount resultingRoot nullifiers) =
          .ok (anchorOf (.op family.toNat startLeafIndex.toNat leafCount.toNat resultingRoot nullifiers)) ∧
        ∀ d, CutOrExtended d
            (Solana.opEventPayload family startLeafIndex leafCount resultingRoot nullifiers) →
          ∃ e, decodeEvent d = .error e) ∧
    (∀ (family : UInt8) (startLeafIndex epoch : UInt64)
        (subtreeRoot resultingRoot nullifier disclosureHash kemBinding : Word),
      family.toNat = familyDisburse256 → startLeafIndex.toNat < 2 ^ 53 → epoch.toNat < 2 ^ 53 →
      decodeEvent (Solana.disburseEventPayload family startLeafIndex subtreeRoot resultingRoot nullifier
            disclosureHash kemBinding epoch) =
          .ok (anchorOf (.disburse family.toNat startLeafIndex.toNat subtreeRoot resultingRoot nullifier
            disclosureHash kemBinding epoch.toNat)) ∧
        ∀ d, CutOrExtended d (Solana.disburseEventPayload family startLeafIndex subtreeRoot resultingRoot
            nullifier disclosureHash kemBinding epoch) →
          ∃ e, decodeEvent d = .error e) ∧
    Function.Injective anchorOf ∧
    ∀ (K : Type) [DecidableEq K] (env : Solana.Env K Word) (tx : Solana.Tx K) (l l' : Solana.Ledger K Word)
        (op : SolanaOpName) (discriminator : UInt8) (payload : Bytes) (accounts : Option (List Bytes)),
      Solana.opOf discriminator = some op →
      Solana.processData env tx (discriminator :: payload) l = .ok l' →
      ∃ event decoded, l'.events = l.events ++ [event] ∧
        decodeEvent event.payload = .ok (anchorOf event) ∧
        decodeOp (discriminator :: payload) accounts = .ok (some decoded) ∧
        decoded.nullifiers =
          (Solana.nullifiersOf env op fun w => Solana.carriedAt payload w.val).map Word.value ∧
        decoded.commitments =
          (Solana.outputsOf env op fun w => Solana.carriedAt payload w.val).map Word.value ∧
        (∀ signature, ∃ e, treeEventOf signature decoded.ix (anchorOf event) = .ok e) ∧
        ∀ d, CutOrExtended d (discriminator :: payload) →
          ∀ other, decodeOp d accounts ≠ .ok (some other) := by
  refine ⟨?_, ?_, anchorOf_injective, ?_⟩
  · intro family startLeafIndex leafCount resultingRoot nullifiers hfamily hstart hcount
    have hdecode : decodeEvent (Solana.opEventPayload family startLeafIndex leafCount resultingRoot nullifiers) =
      _ := decodeEvent_op hfamily hstart hcount
    exact ⟨hdecode, fun d hd => decodeEvent_rejects hdecode hd⟩
  · intro family startLeafIndex epoch subtreeRoot resultingRoot nullifier disclosureHash kemBinding hfamily
      hstart hepoch
    have hdecode : decodeEvent (Solana.disburseEventPayload family startLeafIndex subtreeRoot resultingRoot
      nullifier disclosureHash kemBinding epoch) = _ := decodeEvent_disburse hfamily hstart hepoch
    exact ⟨hdecode, fun d hd => decodeEvent_rejects hdecode hd⟩
  · intro K _ env tx l l' op discriminator payload accounts hop h
    have hacc := Solana.processData_accepted hop h
    obtain ⟨start, root, hstart, hevents⟩ := hacc.event
    obtain rfl := Solana.opOf_spec hop
    have hdecode := decodeOp_eq accounts hacc.length
    refine ⟨_, _, hevents, decodeEvent_eventBy root hstart hacc.arity, hdecode, ?_, ?_, ?_, ?_⟩
    · rw [Solana.nullifiersOf_eq, nullifiers_decodedBy]
    · rw [Solana.outputsOf_eq, commitments_decodedBy]
    · intro signature
      by_cases hdisburse : op = .disburse256
      · subst hdisburse
        exact ⟨_, treeEventOf_disburse signature _ payload accounts start root⟩
      · exact ⟨_, treeEventOf_eventBy signature hdisburse _ payload accounts start root⟩
    · exact fun d hd other => decodeOp_rejects hdecode hd other

end Bongtu.Indexer
