import Bongtu.Indexer.OwnLogs

namespace Bongtu.Indexer

open Bongtu.Core Outcome

open Evm (Address Env World)

variable {cfg : IngestConfig} {logs : List ParsedLog} {l : ParsedLog} {p p' : Pass} {α : Type}

-- A pass with the portal side of another.
def Pass.withPortal (portal : PortalRegistry) (sweptArgs : ℕ → Option SweptArgs) (p : Pass) : Pass :=
  { p with indexer := { p.indexer with portal := portal }, sweptArgs := sweptArgs }

variable (portal : PortalRegistry) (sweptArgs : ℕ → Option SweptArgs)

-- A step that neither reads nor writes the portal side.
def Unportaled (f : Pass → Run IngestError Pass) : Prop := ∀ p p', f p = .returned p' →
  f (p.withPortal portal sweptArgs) = .returned (p'.withPortal portal sweptArgs)

section Takes

theorem takeAppend_withPortal {txHash : TxHash} {expected : ℕ} {pair : AppendedPair}
    (h : p.takeAppend txHash expected = .ok (pair, p')) :
    (p.withPortal portal sweptArgs).takeAppend txHash expected = .ok (pair, p'.withPortal portal sweptArgs) := by
  unfold Pass.takeAppend at h ⊢
  have hqueue : (p.withPortal portal sweptArgs).appended = p.appended := rfl
  rw [hqueue]
  cases hline : p.appended txHash with
  | nil =>
    rw [hline] at h
    cases h
  | cons pair' rest =>
    rw [hline] at h
    dsimp only at h ⊢
    split_ifs at h ⊢
    cases h
    rfl

theorem takeAppends_withPortal {txHash : TxHash} (commitments : List ℕ) : ∀ {p : Pass} {pairs : List AppendedPair},
    p.takeAppends txHash commitments = .ok (pairs, p') →
    (p.withPortal portal sweptArgs).takeAppends txHash commitments =
      .ok (pairs, p'.withPortal portal sweptArgs) := by
  induction commitments with
  | nil =>
    intro p pairs h
    cases h
    rfl
  | cons expected commitments ih =>
    intro p pairs h
    obtain ⟨⟨pair, p₁⟩, hpair, h⟩ := bind_ok.mp h
    obtain ⟨⟨pairs', p₂⟩, hpairs, h⟩ := bind_ok.mp h
    cases h
    exact bind_ok.mpr ⟨_, takeAppend_withPortal portal sweptArgs hpair, bind_ok.mpr ⟨_, ih hpairs, rfl⟩⟩

theorem takeSubtree_withPortal {txHash : TxHash} {subtreeRoot : ℕ} {st : SubtreePair}
    (h : p.takeSubtree txHash subtreeRoot = .ok (st, p')) :
    (p.withPortal portal sweptArgs).takeSubtree txHash subtreeRoot = .ok (st, p'.withPortal portal sweptArgs) := by
  unfold Pass.takeSubtree at h ⊢
  have hqueue : (p.withPortal portal sweptArgs).subtrees = p.subtrees := rfl
  rw [hqueue]
  cases hline : p.subtrees txHash with
  | nil =>
    rw [hline] at h
    cases h
  | cons st' rest =>
    rw [hline] at h
    dsimp only at h ⊢
    split_ifs at h ⊢
    cases h
    rfl

theorem takeOpApplied_withPortal {expect : AppliedOp} (h : p.takeOpApplied l expect = .ok p') :
    (p.withPortal portal sweptArgs).takeOpApplied l expect = .ok (p'.withPortal portal sweptArgs) := by
  unfold Pass.takeOpApplied at h ⊢
  have hqueue : (p.withPortal portal sweptArgs).opApplied = p.opApplied := rfl
  rw [hqueue]
  cases hline : p.opApplied l.txHash with
  | nil =>
    rw [hline] at h
    cases h
  | cons op rest =>
    rw [hline] at h
    obtain ⟨_, hmodule, h⟩ := bind_ok.mp h
    obtain ⟨_, hknown, h⟩ := bind_ok.mp h
    obtain ⟨_, hagrees, h⟩ := bind_ok.mp h
    cases h
    exact bind_ok.mpr ⟨_, hmodule, bind_ok.mpr ⟨_, hknown, bind_ok.mpr ⟨_, hagrees, rfl⟩⟩⟩

end Takes

section Handlers

theorem onTaken_withPortal {taken : Pass → Except IngestError (α × Pass)} {f : α → Pass → Run IngestError Pass}
    (htaken : ∀ p a p', taken p = .ok (a, p') →
      taken (p.withPortal portal sweptArgs) = .ok (a, p'.withPortal portal sweptArgs))
    (hf : ∀ a, Unportaled portal sweptArgs (f a)) : Unportaled portal sweptArgs fun p => onTaken p (taken p) f := by
  intro p p' h
  dsimp only at h ⊢
  cases htake : taken p with
  | error e =>
    rw [htake] at h
    cases h
  | ok pair =>
    rw [htake] at h
    rw [htaken p pair.1 pair.2 htake]
    exact hf _ _ _ h

-- An entry already in the feed ends the step; a new one goes on from its place.
theorem addEvent_withPortal {e : FeedEntry} {g : Pass → Pass} {f : ℕ → Pass → Run IngestError Pass}
    (hg : ∀ p, g (p.withPortal portal sweptArgs) = (g p).withPortal portal sweptArgs)
    (hf : ∀ place, Unportaled portal sweptArgs (f place)) :
    Unportaled portal sweptArgs fun p => match (g p).addEvent e with
      | (none, p) => .returned p
      | (some place, p) => f place p := by
  intro p p' h
  dsimp only at h ⊢
  have hadd : (g (p.withPortal portal sweptArgs)).addEvent e =
      (((g p).addEvent e).1, ((g p).addEvent e).2.withPortal portal sweptArgs) := by
    rw [hg]
    rfl
  rw [hadd]
  rcases hadded : (g p).addEvent e with ⟨_ | place, p₁⟩
  · rw [hadded] at h
    cases h
    rfl
  · rw [hadded] at h
    exact hf place _ _ h

theorem applyLedger_withPortal (op : OpEnvelope) :
    Unportaled portal sweptArgs fun p => p.applyLedger cfg op := by
  intro p p' h
  dsimp only at h ⊢
  unfold Pass.applyLedger at h ⊢
  have hledger : (p.withPortal portal sweptArgs).indexer.ledger = p.indexer.ledger := rfl
  have htree : (p.withPortal portal sweptArgs).indexer.tree = p.indexer.tree := rfl
  rw [hledger, htree]
  cases hl : p.indexer.ledger with
  | none =>
    rw [hl] at h
    cases h
    rfl
  | some ledger =>
    rw [hl] at h
    dsimp only at h ⊢
    cases happly : PostgresLedger.apply cfg.arbiter op (ledger, p.indexer.tree) with
    | returned next =>
      rw [happly] at h
      cases h
      rfl
    | threw e next =>
      rw [happly] at h
      cases h

theorem handleModule_withPortal (f : OpKey → ModuleRegistry → Run RegistryError ModuleRegistry) :
    Unportaled portal sweptArgs (handleModule l f) := by
  intro p p' h
  unfold handleModule at h ⊢
  have hmodules : (p.withPortal portal sweptArgs).indexer.modules = p.indexer.modules := rfl
  rw [hmodules]
  cases hrun : f l.key p.indexer.modules with
  | returned modules =>
    rw [hrun] at h
    cases h
    rfl
  | threw e modules =>
    rw [hrun] at h
    cases h

theorem handleChunkAccepted_withPortal (batchId chunkIndex : ℕ) :
    Unportaled portal sweptArgs (handleChunkAccepted cfg l batchId chunkIndex) := by
  intro p p' h
  unfold handleChunkAccepted at h ⊢
  have hkem : (p.withPortal portal sweptArgs).indexer.kem = p.indexer.kem := rfl
  rw [hkem]
  cases hrun : p.indexer.kem.acceptChunk cfg.keccak256 ⟨batchId, chunkIndex, l.chunkData, l.txHash, l.logIndex⟩ with
  | returned kem =>
    rw [hrun] at h
    cases h
    rfl
  | threw e kem =>
    rw [hrun] at h
    cases h

theorem handleWithdrawAnnouncement_withPortal (recipient ephemeralPub viewTag : ℕ) :
    Unportaled portal sweptArgs (handleWithdrawAnnouncement l recipient ephemeralPub viewTag) := by
  intro p p' h
  unfold handleWithdrawAnnouncement at h ⊢
  have hentries : (p.withPortal portal sweptArgs).withdrawEntries = p.withdrawEntries := rfl
  rw [hentries]
  cases hline : p.withdrawEntries l.txHash with
  | nil =>
    rw [hline] at h
    cases h
    rfl
  | cons place rest =>
    rw [hline] at h
    dsimp only at h ⊢
    split_ifs at h ⊢ <;> cases h <;> rfl

theorem returned_withPortal {f : Pass → Pass}
    (hf : ∀ p, f (p.withPortal portal sweptArgs) = (f p).withPortal portal sweptArgs) :
    Unportaled portal sweptArgs fun p => .returned (f p) := by
  intro p p' h
  cases h
  exact congrArg Run.returned (hf p)

theorem handleDeposited_withPortal (oc0 oc1 : ℕ) (envelope : EnvelopeArgs) :
    Unportaled portal sweptArgs (handleDeposited cfg l oc0 oc1 envelope) :=
  onTaken_withPortal portal sweptArgs (fun _ _ _ => takeAppends_withPortal portal sweptArgs _) fun pairs =>
    addEvent_withPortal portal sweptArgs (g := fun p => p.recordPairs pairs) (fun _ => rfl) fun _ =>
      applyLedger_withPortal portal sweptArgs _

theorem handleTransferred_withPortal (family : EnterpriseTransfer) (epoch : ℕ)
    (nullifiers outputCommitments receiverCts : List ℕ) (envelope : EnvelopeArgs) :
    Unportaled portal sweptArgs (handleTransferred cfg l family epoch nullifiers outputCommitments receiverCts
      envelope) :=
  onTaken_withPortal portal sweptArgs (fun _ _ _ => takeAppends_withPortal portal sweptArgs _) fun pairs =>
    addEvent_withPortal portal sweptArgs (g := fun p => p.recordPairs pairs) (fun _ => rfl) fun _ p p' h =>
      applyLedger_withPortal portal sweptArgs _ (p.onStore (·.addNullifiers nullifiers)) p' h

theorem handleWithdrawn_withPortal (nullifiers : List ℕ) (changeCommitment : ℕ) (envelope : EnvelopeArgs) :
    Unportaled portal sweptArgs (handleWithdrawn cfg l nullifiers changeCommitment envelope) :=
  onTaken_withPortal portal sweptArgs (fun _ _ _ => takeAppends_withPortal portal sweptArgs _) fun pairs =>
    addEvent_withPortal portal sweptArgs (g := fun p => p.recordPairs pairs) (fun _ => rfl) fun place p p' h =>
      applyLedger_withPortal portal sweptArgs _
        ((p.queueWithdraw l.txHash place).onStore (·.addNullifiers nullifiers)) p' h

theorem handleDisbursed_withPortal (epoch nullifier subtreeRoot disclosureHash : ℕ) (ecdhPublicKey : Point)
    (encryptionNonce : ℕ) (kem : Option KemMaterial) : Unportaled portal sweptArgs
      (handleDisbursed cfg logs l epoch nullifier subtreeRoot disclosureHash ecdhPublicKey encryptionNonce kem) :=
  onTaken_withPortal portal sweptArgs (fun _ _ _ => takeSubtree_withPortal portal sweptArgs) fun _ =>
    addEvent_withPortal portal sweptArgs (g := id) (fun _ => rfl) fun _ p p' h => by
      dsimp only at h ⊢
      split_ifs at h ⊢ with hlong
      · exact applyLedger_withPortal portal sweptArgs _ (p.onStore (·.addNullifiers [nullifier])) p' h
      · cases h
        rfl

theorem handleConsumer_withPortal (family : ConsumerSmall) (nullifiers : List ℕ) (oc0 oc1 : ℕ)
    (args : ConsumerArgs) :
    Unportaled portal sweptArgs (handleConsumer l family nullifiers oc0 oc1 args) := by
  refine onTaken_withPortal portal sweptArgs (fun p pairs p' h => ?_) fun pairs =>
    addEvent_withPortal portal sweptArgs (g := fun p => p.recordPairs [pairs.1, pairs.2]) (fun _ => rfl) fun _ =>
      returned_withPortal portal sweptArgs (f := fun p => p.onStore (·.addNullifiers nullifiers)) fun _ => rfl
  obtain ⟨⟨p0, q0⟩, h0, h⟩ := bind_ok.mp h
  obtain ⟨⟨p1, q1⟩, h1, h⟩ := bind_ok.mp h
  obtain ⟨q2, h2, h⟩ := bind_ok.mp h
  cases h
  exact bind_ok.mpr ⟨_, takeAppend_withPortal portal sweptArgs h0, bind_ok.mpr ⟨_,
    takeAppend_withPortal portal sweptArgs h1, bind_ok.mpr ⟨_, takeOpApplied_withPortal portal sweptArgs h2, rfl⟩⟩⟩

theorem handleWithdrawnPriv_withPortal (nullifiers : List ℕ) (changeCommitment : ℕ) (args : ConsumerArgs) :
    Unportaled portal sweptArgs (handleWithdrawnPriv l nullifiers changeCommitment args) := by
  refine onTaken_withPortal portal sweptArgs (fun p pc p' h => ?_) fun pc =>
    addEvent_withPortal portal sweptArgs (g := fun p => p.recordPairs [pc]) (fun _ => rfl) fun place =>
      returned_withPortal portal sweptArgs
        (f := fun p => (p.queueWithdraw l.txHash place).onStore (·.addNullifiers nullifiers)) fun _ => rfl
  obtain ⟨⟨pc, q0⟩, h0, h⟩ := bind_ok.mp h
  obtain ⟨q1, h1, h⟩ := bind_ok.mp h
  cases h
  exact bind_ok.mpr ⟨_, takeAppend_withPortal portal sweptArgs h0,
    bind_ok.mpr ⟨_, takeOpApplied_withPortal portal sweptArgs h1, rfl⟩⟩

theorem handleDisbursedPriv_withPortal (nullifier subtreeRoot disclosureHash : ℕ) (ecdhPublicKey : Point)
    (encryptionNonce : ℕ) (kemChunkHashes : List ℕ) : Unportaled portal sweptArgs
      (handleDisbursedPriv cfg logs l nullifier subtreeRoot disclosureHash ecdhPublicKey encryptionNonce
        kemChunkHashes) := by
  refine onTaken_withPortal portal sweptArgs (fun p st p' h => ?_) fun st =>
    addEvent_withPortal portal sweptArgs (g := id) (fun _ => rfl) fun _ p p' h => ?_
  · obtain ⟨⟨st, q0⟩, h0, h⟩ := bind_ok.mp h
    obtain ⟨q1, h1, h⟩ := bind_ok.mp h
    cases h
    exact bind_ok.mpr ⟨_, takeSubtree_withPortal portal sweptArgs h0,
      bind_ok.mpr ⟨_, takeOpApplied_withPortal portal sweptArgs h1, rfl⟩⟩
  · cases h
    rfl

theorem handle_withPortal (hswept : l.event.isSwept = false) (hannounced : l.event.isAnnounced = false) :
    Unportaled portal sweptArgs (handle cfg logs l) := by
  intro p p' h
  unfold handle at h ⊢
  cases he : l.event with
  | swept =>
    rw [he] at hswept
    cases hswept
  | announced =>
    rw [he] at hannounced
    cases hannounced
  | deposited => rw [he] at h; exact handleDeposited_withPortal _ _ _ _ _ p p' h
  | transferred => rw [he] at h; exact handleTransferred_withPortal _ _ _ _ _ _ _ _ p p' h
  | withdrawn => rw [he] at h; exact handleWithdrawn_withPortal _ _ _ _ _ p p' h
  | withdrawAnnouncement => rw [he] at h; exact handleWithdrawAnnouncement_withPortal _ _ _ _ _ p p' h
  | disbursed => rw [he] at h; exact handleDisbursed_withPortal _ _ _ _ _ _ _ _ _ p p' h
  | moduleRegistered | moduleRemoved => rw [he] at h; exact handleModule_withPortal _ _ _ p p' h
  | consumer => rw [he] at h; exact handleConsumer_withPortal _ _ _ _ _ _ _ p p' h
  | withdrawnPriv => rw [he] at h; exact handleWithdrawnPriv_withPortal _ _ _ _ _ p p' h
  | disbursedPriv => rw [he] at h; exact handleDisbursedPriv_withPortal _ _ _ _ _ _ _ _ p p' h
  | disburseKemChunkAccepted => rw [he] at h; exact handleChunkAccepted_withPortal _ _ _ _ p p' h
  | appended | subtreeAppended | opApplied | disburseCiphertexts | disbursePrivDisclosure | other =>
    rw [he] at h
    cases h
    rfl

end Handlers

section Aside

-- The portals' events, and what no handler reads.
def ParsedEvent.isAside (e : ParsedEvent) : Bool := e.isSwept || e.isAnnounced || decide (e = .other)

-- The logs tell the handlers of the pool what its own logs do.
def Carries (logs own : List ParsedLog) : Prop :=
  (logs.filter fun l => !l.event.isAside) = own.filter fun l => !l.event.isAside

variable {own : List ParsedLog} (h : Carries logs own)

include h

theorem Carries.filterMap {β : Type} {sel : ParsedLog → Option β}
    (hsel : ∀ l : ParsedLog, l.event.isAside = true → sel l = none) : logs.filterMap sel = own.filterMap sel := by
  have hfilter : ∀ ls : List ParsedLog, (ls.filter fun l => !l.event.isAside).filterMap sel = ls.filterMap sel := by
    intro ls
    rw [List.filterMap_filter]
    refine List.filterMap_congr fun l _ => ?_
    cases ha : l.event.isAside with
    | true => simp [hsel l ha]
    | false => simp
  rw [← hfilter logs, h, hfilter own]

theorem Carries.texts (b : ℕ) : (logs.filter fun l => l.event.textStart = some b) =
    own.filter fun l => l.event.textStart = some b := by
  have hnone : ∀ l : ParsedLog, l.event.isAside = true → ¬l.event.textStart = some b := by
    intro l ha
    cases he : l.event <;> rw [he] at ha <;> first | cases ha; done | simp [ParsedEvent.textStart]
  have hfilter : ∀ ls : List ParsedLog, (ls.filter fun l => !l.event.isAside).filter
      (fun l => l.event.textStart = some b) = ls.filter fun l => l.event.textStart = some b := by
    intro ls
    rw [List.filter_filter]
    refine List.filter_congr fun l _ => ?_
    cases ha : l.event.isAside with
    | true => simp [hnone l ha]
    | false => simp
  rw [← hfilter logs, h, hfilter own]

theorem Carries.aligned (s : IndexerState) : (Pass.start logs s).Aligned own := by
  have hqueue : ∀ {β : Type} (sel : ParsedEvent → Option β), (∀ e, ParsedEvent.isAside e = true → sel e = none) →
      Fifo.queue (·.txHash) (fun l : ParsedLog => sel l.event) logs = Fifo.queue (·.txHash) (sel ·.event) own := by
    intro β sel hsel
    funext txHash
    refine h.filterMap fun l ha => ?_
    dsimp only
    rw [hsel _ ha, ite_self]
  refine ⟨?_, ?_, ?_, rfl⟩
  · rw [Pass.start, appendedOf_eq, appendedOf_eq]
    refine hqueue ParsedEvent.pair fun e he => ?_
    cases e <;> first | rfl | cases he
  · rw [Pass.start, subtreesOf_eq, subtreesOf_eq]
    refine hqueue ParsedEvent.subtree fun e he => ?_
    cases e <;> first | rfl | cases he
  · rw [Pass.start, opAppliedOf_eq, opAppliedOf_eq]
    refine hqueue ParsedEvent.applied fun e he => ?_
    cases e <;> first | rfl | cases he

-- Pass 2 gets from all the logs what it gets from the own ones, up to the portal side.
theorem Carries.handles (hown : ∀ l ∈ own, (l.event.isSwept || l.event.isAnnounced) = false)
    (hrun : Run.forEach (handle cfg logs) own p = .returned p') : ∃ portal sweptArgs,
    Run.forEach (handle cfg logs) logs p = .returned (p'.withPortal portal sweptArgs) := by
  have hother : ∀ l ∈ own, (!l.event.isAside) = false → ∀ p, handle cfg logs l p = .returned p := by
    intro l hl ha p
    refine handle_quiet ?_
    have he : l.event = .other := by simpa [ParsedEvent.isAside, hown l hl] using ha
    rw [he]
    rfl
  rw [← Run.forEach_skip _ own hother, ← h] at hrun
  have hall : ∃ q, Run.forEach (handle cfg logs) logs p = .returned q ∧
      ∃ portal sweptArgs, q = p'.withPortal portal sweptArgs := by
    refine Run.forEach_filter (R := fun p q => ∃ portal sweptArgs, q = p.withPortal portal sweptArgs)
      (fun l => !l.event.isAside) logs ?_ ?_ ⟨p.indexer.portal, p.sweptArgs, rfl⟩ hrun
    · rintro l - hl p - p' ⟨portal, sweptArgs, rfl⟩ hp
      have hquiet : l.event.isSwept = false ∧ l.event.isAnnounced = false := by
        simp only [ParsedEvent.isAside, Bool.not_eq_true', Bool.or_eq_false_iff] at hl
        exact hl.1
      exact ⟨_, handle_withPortal portal sweptArgs hquiet.1 hquiet.2 p p' hp, portal, sweptArgs, rfl⟩
    · rintro l - hl p q ⟨portal, sweptArgs, rfl⟩
      unfold handle
      cases he : l.event with
      | swept salt sweeper amount => exact ⟨_, rfl, _, _, rfl⟩
      | announced salt ephemeralPub viewTag =>
        dsimp only
        unfold handleAnnounced
        cases (p.withPortal portal sweptArgs).sweptArgs salt with
        | none => exact ⟨_, rfl, _, _, rfl⟩
        | some swept => exact ⟨_, rfl, _, _, rfl⟩
      | other => exact ⟨_, rfl, _, _, rfl⟩
      | _ =>
        rw [he] at hl
        cases hl
  obtain ⟨q, hq, portal, sweptArgs, rfl⟩ := hall
  exact ⟨portal, sweptArgs, hq⟩

end Aside

section Entitled

variable {T : Type} {env : Env ℕ T} {w w' : World ℕ T} {ops : List Mined} {keys : List OpKey} {s : IndexerState}
  {own raw : List ParsedLog}

-- Whatever may still emit is on the watch list.
theorem Books.watches (hb : Books env keys w s) {a : Address} (h : Speaks w a) :
    s.modules.watches s.kem.pendingModules a = true := by
  rcases h with hregistered | ⟨batchId, chunkIndex, hroom, hopen⟩
  · rw [ModuleRegistry.watches, (hb.modules a).mpr hregistered]
    rfl
  · obtain ⟨hknown, b, hbatch, hagrees⟩ := hb.batches a batchId fun hnil => by
      rw [hnil] at hroom
      exact Nat.not_lt_zero _ hroom
    have hroom' : chunkIndex < b.chunkHashes.length := hagrees.hashes ▸ hroom
    have hpending : s.kem.pendingModules a = true := by
      refine List.any_eq_true.mpr ⟨b, List.mem_of_find?_eq_some hbatch, ?_⟩
      have hsize : chunkIndex < b.acceptedOnChain.length := hagrees.size ▸ hroom'
      have hwaits : b.acceptedOnChain[chunkIndex] = false := by
        rw [← hopen, ← hagrees.accepted chunkIndex hroom', List.getD_eq_getElem?_getD, List.getElem?_eq_getElem hsize]
        rfl
      have hany : b.acceptedOnChain.any (! ·) = true :=
        List.any_eq_true.mpr ⟨_, List.getElem_mem hsize, by rw [hwaits]; rfl⟩
      simp [hagrees.module, hany]
    obtain ⟨registered, hby⟩ := Option.isSome_iff_exists.mp hknown
    rw [ModuleRegistry.watches, hby, Option.elim_some, hpending, Bool.or_true]

theorem mines_plain (h : Mines env w ops w') :
    ∀ l ∈ logsOf ops, (l.event.isSwept || l.event.isAnnounced) = false := by
  induction h with
  | nil => simp
  | cons hstep hemits _ ih =>
    intro l hl
    rcases List.mem_append.mp hl with hl | hl
    · obtain ⟨⟨emitted, -, hdecoded⟩, -⟩ := hemits
      obtain ⟨log, -, hdec⟩ := forall₂_right hdecoded hl
      rw [hdec.event]
      cases log.event <;> rfl
    · exact ih l hl

-- A range of the node's logs holds the logs of the calls, of what the handlers read of the pool and its
-- modules nothing else, and whatever else there is between them.
def Delivers (env : Env ℕ T) (raw : List ParsedLog) (ops : List Mined) : Prop :=
  (raw.filter fun l => ownLog env l && !isOther l) = (logsOf ops).filter fun l => !isOther l

theorem entitled_carries (hserves : cfg.Serves env) (hb : Books env keys w s) (h : Mines env w ops w')
    (hnative : ∀ op ∈ ops, IsNative env op.message.call) (hraw : Delivers env raw ops) :
    Carries (entitled cfg s raw) (logsOf ops) := by
  have hwatched : ∀ a, s.modules.watches s.kem.pendingModules a = true → (env.code a).isSome = true := by
    intro a ha
    refine hb.native a ?_
    rw [ModuleRegistry.watches] at ha
    rw [ModuleRegistry.isKnown]
    cases hby : s.modules.byAddress a with
    | none =>
      rw [hby] at ha
      cases ha
    | some _ => rfl
  obtain ⟨hkept, hforeign⟩ := gate_letThrough hserves raw
    (mines_letThrough hserves h hnative fun a => hb.watches).filter hraw hwatched
  have hown : ∀ logs : List ParsedLog, (∀ l ∈ logs, ownLog env l = false →
      (l.event.isSwept || l.event.isAnnounced) = true) →
      (logs.filter fun l => !l.event.isAside) = (logs.filter (ownLog env)).filter fun l => !l.event.isAside := by
    intro logs hlogs
    rw [List.filter_filter]
    refine List.filter_congr fun l hl => ?_
    cases ho : ownLog env l with
    | true => simp
    | false => simp [ParsedEvent.isAside, hlogs l hl ho]
  rw [Carries, entitled, hown _ hforeign, hkept, List.filter_filter]
  refine List.filter_congr fun l _ => ?_
  rw [isOther, ParsedEvent.isAside]
  cases l.event.isSwept <;> cases l.event.isAnnounced <;> simp

end Entitled

end Bongtu.Indexer
