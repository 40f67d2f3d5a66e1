import Bongtu.Blocks
import Bongtu.Client.Serving
import Bongtu.Client.Plan
import Bongtu.Indexer.Projection

namespace Bongtu.Client

open Bongtu.Core Outcome Indexer

-- The encapsulation inverts for the wallet's pair and never throws on a whole ciphertext, the key
-- exchange commutes, a view tag is a field element and a commitment binds its owner.
structure Ideal (p : Primitives) (me : Identity) (kemEk : Bytes) : Prop where
  kem : ∀ seed, p.decapsulate (p.encapsulate kemEk seed).1 me.kemDk = some (p.encapsulate kemEk seed).2
  total : ∀ ciphertext : Bytes, ciphertext.length = kemCiphertextLen →
    ∃ ss, p.decapsulate ciphertext me.kemDk = some ss ∧ ss.length = 32
  ecdh : ∀ a b, p.mulPointEscalar (p.mulPointEscalar p.base8 a) b =
    p.mulPointEscalar (p.mulPointEscalar p.base8 b) a
  tag : ∀ shared : Point, p.poseidonN [tagViewtag, shared.1, shared.2] < snarkScalarField
  binding : ∀ value salt owner value' salt' owner',
    p.commitment value salt owner = p.commitment value' salt' owner' → owner = owner'

def selfConsumerRecipient (p : Primitives) (me : Identity) (kemEk : Bytes) : ConsumerRecipient :=
  ⟨p.publicKey me.spendPriv, p.publicKey me.viewPriv, kemEk⟩

-- The op a plan goes out as, and the kem transport of a batch once its chunks are assembled.
inductive Publishes (p : Primitives) (crypto : ConsumerCrypto) :
    List PlannedConsumerOutput → (ℕ → ℕ) → OpProjection → Option KemTransport → Prop
  | small (family : ConsumerSmall) (o0 o1 : PlannedConsumerOutput) (leafAt : ℕ → ℕ)
      (kem : Option KemTransport) :
      Publishes p crypto [o0, o1] leafAt
        (.consumer family (p.publicKey crypto.ecdhPrivateKey) crypto.encryptionNonce (leafAt 0) (leafAt 1)
          (o0.sealed.cipherText ++ o1.sealed.cipherText) [o0.sealed.viewTag, o1.sealed.viewTag]
          [o0.sealed.kemCiphertext, o1.sealed.kemCiphertext]) kem
  | withdrawPriv (o : PlannedConsumerOutput) (leafAt : ℕ → ℕ) (announcement : Option Announcement)
      (kem : Option KemTransport) :
      Publishes p crypto [o] leafAt
        (.withdrawPriv (p.publicKey crypto.ecdhPrivateKey) crypto.encryptionNonce (leafAt 0)
          o.sealed.cipherText [o.sealed.viewTag] [o.sealed.kemCiphertext] announcement) kem
  | disbursePriv (outs : List PlannedConsumerOutput) (start : ℕ) (verdict : DisclosureStatus)
      (chunkCount acceptedCount : ℕ) : outs ≠ [] →
      Publishes p crypto outs (start + ·)
        (.disbursePriv (p.publicKey crypto.ecdhPrivateKey) crypto.encryptionNonce start outs.length
          (consumerDisclosureElements (outs.map (·.sealed.cipherText)) (outs.map (·.sealed.viewTag))
            (outs.map (·.commitment))) verdict)
        (some ⟨.complete, chunkCount, acceptedCount, some (outs.map (·.sealed.kemCiphertext))⟩)

-- An op an honest sender planned, with the wallet among its recipients or not.
structure HonestOp (p : Primitives) (me : Identity) (kemEk : Bytes) where
  crypto : ConsumerCrypto
  specs : List ConsumerOutputSpec
  outs : List PlannedConsumerOutput
  leafAt : ℕ → ℕ
  op : OpProjection
  kem : Option KemTransport
  seq : ℕ
  position : FeedPosition
  status : Option DisclosureStatus
  plan : planConsumerOutputs p crypto specs = .ok outs
  nonce : crypto.encryptionNonce + outs.length ≤ two128
  recipients : ∀ spec ∈ specs, spec.recipient = selfConsumerRecipient p me kemEk ∨
    spec.recipient.owner ≠ p.publicKey me.spendPriv
  field : ∀ spec ∈ specs, spec.value < snarkScalarField ∧ spec.salt < snarkScalarField
  publishes : Publishes p crypto outs leafAt op kem

variable {p : Primitives} {me : Identity} {kemEk : Bytes}

def HonestOp.event (op : HonestOp p me kemEk) : FeedEvent :=
  serveEvent op.seq (projectFeedEntry op.position op.op) op.status op.kem

def ownDrafts (p : Primitives) (me : Identity) (ev : FeedEvent) (leafAt : ℕ → ℕ)
    (outs : List PlannedConsumerOutput) : List ScanCandidate :=
  outs.zipIdx.flatMap fun out =>
    if out.1.spendPub = p.publicKey me.spendPriv then
      [draftOf p me ev .consumer (leafAt out.2) out.1.value out.1.salt]
    else []

-- The arrays of a consumer op have the lengths its ABI and module check.
def WellSized : OpProjection → Option KemTransport → Prop
  | .consumer _ _ _ _ _ cts viewTags kemCiphertexts, _ =>
    cts.length = 8 ∧ viewTags.length = 2 ∧ kemCiphertexts.length = 2 ∧
      ∀ kem ∈ kemCiphertexts, kem.length = kemCiphertextLen
  | .withdrawPriv _ _ _ cts viewTags kemCiphertexts _, _ =>
    cts.length = 4 ∧ viewTags.length = 1 ∧ kemCiphertexts.length = 1 ∧
      ∀ kem ∈ kemCiphertexts, kem.length = kemCiphertextLen
  | .disbursePriv _ _ _ B _ _, kem =>
    ∀ status chunkCount acceptedCount kemCiphertexts,
      kem = some ⟨status, chunkCount, acceptedCount, some kemCiphertexts⟩ →
      kemCiphertexts.length = B ∧ ∀ kem ∈ kemCiphertexts, kem.length = kemCiphertextLen
  | _, _ => True

-- Any event the chain and the indexer can produce.
inductive Admissible : FeedEvent → Prop
  | projected (seq : ℕ) (position : FeedPosition) (op : OpProjection) (status : Option DisclosureStatus)
      (kem : Option KemTransport) : WellSized op kem →
      Admissible (serveEvent seq (projectFeedEntry position op) status kem)
  | disburse (seq : ℕ) (position : FeedPosition) (epoch : ℕ) (ecdhPublicKey : Point)
      (encryptionNonce start B : ℕ) (ct : List ℕ) (verdict : DisclosureStatus)
      (status : Option DisclosureStatus) :
      Admissible (serveEvent seq
        (disburseEntry position epoch ecdhPublicKey encryptionNonce start B ct verdict) status none)

-- What a pass yields for an event: the accepted notes and the candidates that match their leaf.
def yieldOf (leaf : ℕ → ℕ) (pass : ScanPass) (seq : ℕ) : List ScanCandidate :=
  pass.accepted.filter (fun c => c.seq = seq) ++
    pass.candidates.filter fun c => c.seq = seq ∧ c.commitment = leaf c.leafIndex

def Discovers (p : Primitives) (me : Identity) (kemEk : Bytes) (window : List FeedEvent) : Prop :=
  ∃ pass, scanEventsPass p me window = .ok pass ∧
    pass.stats.decapsulations = pass.stats.tagMatches ∧
    ∀ (op : HonestOp p me kemEk) (leaf : ℕ → ℕ), op.event ∈ window →
      (∀ out ∈ op.outs.zipIdx, leaf (op.leafAt out.2) = out.1.commitment) →
      yieldOf leaf pass op.seq = ownDrafts p me op.event op.leafAt op.outs

-- Wherever an output carries the wallet's view tag, the nonce moved to its position stays in range.
def NonceFits (p : Primitives) (me : Identity) (ev : FeedEvent) : Prop :=
  ev.kind.isConsumer = true → ∀ eph nonce tags myTag kemCts, ev.ecdhPublicKey = some eph →
    ev.encryptionNonce = some nonce → ev.viewTags = some tags →
    p.consumerViewTag (p.ecdhSharedSecret me.viewPriv eph) = .ok myTag →
    kemCtsOf ev tags myTag = .inr kemCts → ∀ slice ∈ ev.slices, slice.leafIndex ≠ none →
      slice.elts = consumerCtLen → entryAt tags slice = some myTag →
      nonce + slice.offset / consumerCtLen < two128

section WellFormed

structure WellFormed (ev : FeedEvent) : Prop where
  aligned : ∀ slice ∈ ev.slices, slice.offset % 4 = 0
  whole : ev.kind.isConsumer = true → ∀ slice ∈ ev.slices,
    slice.elts = consumerCtLen ∧ (slicePart ev slice).length = consumerCtLen
  kem : ev.kind.isConsumer = true → ∀ tags myTag kemCts, kemCtsOf ev tags myTag = .inr kemCts →
    ∀ slice ∈ ev.slices, ∃ kem, entryAt kemCts slice = some kem ∧ kem.length = kemCiphertextLen

theorem mem_leafSlices {leaves : List ℕ} {slice : Slice} (h : slice ∈ leafSlices leaves) :
    ∃ i < leaves.length, slice.offset = i * 4 ∧ slice.elts = 4 := by
  obtain ⟨leaf, hleaf, rfl⟩ := List.mem_map.mp h
  exact ⟨leaf.2, (List.mem_zipIdx' hleaf).1, rfl, rfl⟩

theorem entryAt_block {α : Type} {xs : List α} {slice : Slice} {i : ℕ} (h : slice.offset = i * 4) :
    entryAt xs slice = xs[i]? := by
  unfold entryAt consumerCtLen
  rw [h, if_pos (Nat.mul_mod_left i 4), Nat.mul_div_cancel i (by decide)]

theorem wellFormed_small {ev : FeedEvent} {n : ℕ} (hslices : ∀ slice ∈ ev.slices,
      ∃ i < n, slice.offset = i * 4 ∧ slice.elts = 4)
    (hlen : ev.ciphertext.length = 4 * n)
    (hkem : ∀ tags myTag kemCts, kemCtsOf ev tags myTag = .inr kemCts → kemCts.length = n ∧
      ∀ kem ∈ kemCts, kem.length = kemCiphertextLen) : WellFormed ev where
  aligned slice hslice := by
    obtain ⟨i, -, hoffset, -⟩ := hslices slice hslice
    rw [hoffset]
    exact Nat.mul_mod_left i 4
  whole _ slice hslice := by
    obtain ⟨i, hi, hoffset, helts⟩ := hslices slice hslice
    refine ⟨helts, ?_⟩
    rw [slicePart, List.length_take, List.length_drop, hlen, hoffset, helts, consumerCtLen]
    omega
  kem _ tags myTag kemCts h slice hslice := by
    obtain ⟨i, hi, hoffset, -⟩ := hslices slice hslice
    obtain ⟨hcount, hall⟩ := hkem tags myTag kemCts h
    rw [← hcount] at hi
    exact ⟨kemCts[i], by rw [entryAt_block hoffset, List.getElem?_eq_getElem hi],
      hall _ (List.getElem_mem hi)⟩

theorem wellFormed_enterprise {ev : FeedEvent} (hkind : ev.kind.isConsumer = false)
    (haligned : ∀ slice ∈ ev.slices, slice.offset % 4 = 0) : WellFormed ev where
  aligned := haligned
  whole h := by
    rw [hkind] at h
    exact nomatch h
  kem h := by
    rw [hkind] at h
    exact nomatch h

theorem aligned_leafSlices {leaves : List ℕ} : ∀ slice ∈ leafSlices leaves, slice.offset % 4 = 0 := by
  intro slice hslice
  obtain ⟨i, -, hoffset, -⟩ := mem_leafSlices hslice
  rw [hoffset]
  exact Nat.mul_mod_left i 4

theorem Admissible.wellFormed {ev : FeedEvent} (h : Admissible ev) : WellFormed ev := by
  cases h with
  | disburse seq position epoch eph nonce start B ct verdict status =>
    refine wellFormed_enterprise rfl ?_
    simp only [serveEvent, disburseEntry]
    split_ifs
    · simp
    · intro slice hslice
      rcases List.mem_append.mp hslice with hslice | hslice
      · exact aligned_leafSlices slice hslice
      · obtain rfl := List.mem_singleton.mp hslice
        exact Nat.mul_mod_left B 4
    · intro slice hslice
      rw [List.append_nil] at hslice
      exact aligned_leafSlices slice hslice
  | projected seq position op status kem hsized =>
    cases op with
    | deposit => exact wellFormed_enterprise rfl (by simp [serveEvent, projectFeedEntry])
    | withdraw announcement => exact wellFormed_enterprise rfl (by simp [serveEvent, projectFeedEntry])
    | transfer family epoch eph nonce leaves receiverCts authorityCt =>
      refine wellFormed_enterprise (by cases family <;> rfl) fun slice hslice => ?_
      rcases List.mem_append.mp hslice with hslice | hslice
      · exact aligned_leafSlices slice hslice
      · obtain rfl := List.mem_singleton.mp hslice
        exact Nat.mul_mod_right 4 _
    | consumer family eph nonce leaf0 leaf1 cts viewTags kemCts =>
      obtain ⟨hcts, -, hcount, hall⟩ := hsized
      refine wellFormed_small (n := 2) ?_ hcts ?_
      · intro slice hslice
        rcases List.mem_pair.mp hslice with rfl | rfl
        · exact ⟨0, by decide, rfl, rfl⟩
        · exact ⟨1, by decide, rfl, rfl⟩
      · intro tags myTag kemCts' h
        rw [kemCtsOf_single (by cases family <;> simp [serveEvent, projectFeedEntry, ConsumerSmall.kind])]
          at h
        cases h
        exact ⟨hcount, hall⟩
    | withdrawPriv eph nonce leaf cts viewTags kemCts announcement =>
      obtain ⟨hcts, -, hcount, hall⟩ := hsized
      refine wellFormed_small (n := 1) ?_ hcts ?_
      · intro slice hslice
        obtain rfl := List.mem_singleton.mp hslice
        exact ⟨0, by decide, rfl, rfl⟩
      · intro tags myTag kemCts' h
        rw [kemCtsOf_single (by simp [serveEvent, projectFeedEntry])] at h
        cases h
        exact ⟨hcount, hall⟩
    | disbursePriv eph nonce start B disclosure verdict =>
      rcases em (disclosure.length = consumerDisclosureLen B) with hfull | hfull
      · have hslices : (serveEvent seq (projectFeedEntry position
            (.disbursePriv eph nonce start B disclosure verdict)) status kem).slices =
            leafSlices ((List.range B).map (start + ·)) := by
          simp [serveEvent, projectFeedEntry, hfull]
        refine wellFormed_small (n := B) ?_ ?_ ?_
        · intro slice hslice
          rw [hslices] at hslice
          simpa using mem_leafSlices hslice
        · simp only [serveEvent, projectFeedEntry, List.length_take, hfull, consumerDisclosureLen]
          omega
        · intro tags myTag kemCts h
          obtain ⟨-, chunkCount, acceptedCount, hkem⟩ := kemCtsOf_batch rfl h
          exact hsized _ _ _ _ (by simpa [serveEvent, projectFeedEntry] using hkem)
      · have hslices : (serveEvent seq (projectFeedEntry position
            (.disbursePriv eph nonce start B disclosure verdict)) status kem).slices = [] := by
          simp [serveEvent, projectFeedEntry, hfull]
        refine ⟨?_, ?_, ?_⟩ <;> simp [hslices]

end WellFormed

section Total

variable {ev : FeedEvent} {found : Found}

theorem collect_total_iff {α : Type} {f : α → Except ScanError Found} {xs : List α} :
    (∃ r, collect f xs = .ok r) ↔ ∀ x ∈ xs, ∃ y, f x = .ok y := by
  constructor
  · rintro ⟨r, h⟩ x hx
    exact ⟨_, (collect_eq_ok.mp h).1 x hx⟩
  · intro h
    refine ⟨_, collect_ok fun x hx => ?_⟩
    obtain ⟨y, hy⟩ := h x hx
    rw [gain_ok hy, hy]

theorem Ideal.viewTag (ideal : Ideal p me kemEk) (shared : Point) :
    ∃ tag, p.consumerViewTag shared = .ok tag := by
  simp only [Primitives.consumerViewTag, viewTagFromField, bind_ok, require_ok]
  exact ⟨_, (), ideal.tag shared, rfl⟩

theorem Ideal.opens_iff (ideal : Ideal p me kemEk) {cipherText : List ℕ} (eph : Point) {kem : Bytes}
    {nonce index : ℕ} (hkem : kem.length = kemCiphertextLen) (hlen : cipherText.length = consumerCtLen) :
    (∃ opened, p.openConsumerOutput cipherText eph me.viewPriv me.kemDk kem nonce index = .ok opened) ↔
      nonce + index < two128 := by
  obtain ⟨ss, hss, hlen32⟩ := ideal.total kem hkem
  exact openConsumerOutput_total hss hlen32 (ideal.tag _) hlen

theorem scanConsumerSlice_ok_iff (ideal : Ideal p me kemEk) {eph : Point} {nonce myTag : ℕ}
    {tags : List ℕ} {kemCts : List Bytes} {slice : Slice}
    (hwhole : (slicePart ev slice).length = consumerCtLen)
    (hkem : ∃ kem, entryAt kemCts slice = some kem ∧ kem.length = kemCiphertextLen) :
    (∃ found, scanConsumerSlice p me ev eph nonce tags myTag kemCts slice = .ok found) ↔
      (slice.leafIndex ≠ none → slice.elts = consumerCtLen → entryAt tags slice = some myTag →
        nonce + slice.offset / consumerCtLen < two128) := by
  obtain ⟨kem, hkem, hlen⟩ := hkem
  unfold scanConsumerSlice
  cases hleaf : slice.leafIndex with
  | none => simp
  | some leafIndex =>
    rcases eq_or_ne slice.elts consumerCtLen with helts | helts
    · rcases eq_or_ne (entryAt tags slice) (some myTag) with htag | htag
      · simp only [helts, htag, hkem, ne_eq, not_true_eq_false, if_false, reduceCtorEq,
          not_false_eq_true, forall_const]
        rw [← ideal.opens_iff eph hlen hwhole]
        cases hopen : p.openConsumerOutput (slicePart ev slice) eph me.viewPriv me.kemDk kem nonce
            (slice.offset / consumerCtLen) with
        | ok opened => simp [Except.mapError, bind, Except.bind, pure, Except.pure]
        | error e => simp [Except.mapError, bind, Except.bind]
      · simp [helts, htag]
    · simp [helts]

theorem scanEnterpriseSlice_total {eph : Point} {nonce : ℕ} {slice : Slice}
    (haligned : slice.offset % 4 = 0) :
    ∃ found, scanEnterpriseSlice p me ev eph nonce slice = .ok found := by
  unfold scanEnterpriseSlice
  cases slice.leafIndex with
  | none => exact ⟨{}, rfl⟩
  | some leafIndex =>
    simp only [haligned, ne_eq, not_true_eq_false, if_false]
    split_ifs <;> exact ⟨_, rfl⟩

theorem nonceFits_of_incomplete (h : incompleteDisclosure ev = true) : NonceFits p me ev := by
  intro _ eph nonce tags myTag kemCts _ _ htags _ hcts
  have hkind := incompleteDisclosure_kind h
  have hserved := (kemCtsOf_batch hkind hcts).1
  simp only [incompleteDisclosure, decide_eq_true_eq] at h
  rcases h.2.2 with hnone | hnone
  · rw [htags] at hnone
    cases hnone
  · exact absurd hnone hserved

theorem scanConsumer_ok_iff (ideal : Ideal p me kemEk) (hwf : WellFormed ev)
    (hkind : ev.kind.isConsumer = true) {eph : Point} {nonce : ℕ} {tags : List ℕ} :
    (∃ found, scanConsumer p me ev eph nonce tags = .ok found) ↔
      ∀ myTag kemCts, p.consumerViewTag (p.ecdhSharedSecret me.viewPriv eph) = .ok myTag →
        kemCtsOf ev tags myTag = .inr kemCts → ∀ slice ∈ ev.slices, slice.leafIndex ≠ none →
        slice.elts = consumerCtLen → entryAt tags slice = some myTag →
        nonce + slice.offset / consumerCtLen < two128 := by
  obtain ⟨myTag, htag⟩ := ideal.viewTag (p.ecdhSharedSecret me.viewPriv eph)
  have hscan : scanConsumer p me ev eph nonce tags = (kemCtsOf ev tags myTag).elim .ok
      fun kemCts => collect (scanConsumerSlice p me ev eph nonce tags myTag kemCts) ev.slices := by
    cases hcts : kemCtsOf ev tags myTag <;>
      simp [scanConsumer, htag, hcts, Except.mapError, bind, Except.bind, pure, Except.pure]
  rw [hscan]
  cases hcts : kemCtsOf ev tags myTag with
  | inl found =>
    refine ⟨fun _ myTag' kemCts htag' hcts' => ?_, fun _ => ⟨found, rfl⟩⟩
    rw [htag] at htag'
    cases htag'
    rw [hcts] at hcts'
    cases hcts'
  | inr kemCts =>
    rw [Sum.elim_inr, collect_total_iff]
    constructor
    · intro h myTag' kemCts' htag' hcts' slice hslice
      rw [htag] at htag'
      cases htag'
      rw [hcts] at hcts'
      cases hcts'
      exact (scanConsumerSlice_ok_iff ideal (hwf.whole hkind slice hslice).2
        (hwf.kem hkind tags myTag kemCts hcts slice hslice)).mp (h slice hslice)
    · intro h slice hslice
      exact (scanConsumerSlice_ok_iff ideal (hwf.whole hkind slice hslice).2
        (hwf.kem hkind tags myTag kemCts hcts slice hslice)).mpr (h myTag kemCts htag hcts slice hslice)

theorem scanEvent_ok_iff (ideal : Ideal p me kemEk) (hwf : WellFormed ev) :
    (∃ found, scanEvent p me ev = .ok found) ↔ NonceFits p me ev := by
  unfold scanEvent
  cases hinc : incompleteDisclosure ev with
  | true => exact ⟨fun _ => nonceFits_of_incomplete hinc, fun _ => ⟨_, rfl⟩⟩
  | false =>
    simp only [Bool.false_eq_true, if_false]
    cases heph : ev.ecdhPublicKey with
    | none => exact ⟨fun _ _ eph _ _ _ _ h => by simp [heph] at h, fun _ => ⟨{}, rfl⟩⟩
    | some eph =>
      cases hnonce : ev.encryptionNonce with
      | none => exact ⟨fun _ _ _ nonce _ _ _ _ h => by simp [hnonce] at h, fun _ => ⟨{}, rfl⟩⟩
      | some nonce =>
        cases hkind : ev.kind.isConsumer with
        | false =>
          refine ⟨fun _ h => by simp [hkind] at h, fun _ => collect_total_iff.mpr fun slice hslice => ?_⟩
          exact scanEnterpriseSlice_total (hwf.aligned slice hslice)
        | true =>
          cases htags : ev.viewTags with
          | none => exact ⟨fun _ _ _ _ tags _ _ _ _ h => by simp [htags] at h, fun _ => ⟨{}, rfl⟩⟩
          | some tags =>
            simp only [if_true]
            rw [scanConsumer_ok_iff ideal hwf hkind]
            constructor
            · intro h _ eph' nonce' tags' myTag kemCts heph' hnonce' htags' htag hcts
              rw [heph] at heph'
              rw [hnonce] at hnonce'
              rw [htags] at htags'
              cases heph'
              cases hnonce'
              cases htags'
              exact h myTag kemCts htag hcts
            · intro h myTag kemCts htag hcts
              exact h hkind eph nonce tags myTag kemCts heph hnonce htags htag hcts

def Balanced (found : Found) : Prop := found.stats.decapsulations = found.stats.tagMatches

theorem collect_balanced {α : Type} {f : α → Except ScanError Found} {xs : List α}
    (h : collect f xs = .ok found) (hf : ∀ x ∈ xs, ∀ y, f x = .ok y → Balanced y) : Balanced found := by
  obtain ⟨hall, rfl⟩ := collect_eq_ok.mp h
  have key : ∀ (gains : List Found) (start : Found), (∀ g ∈ gains, Balanced g) → Balanced start →
      Balanced (total gains start) := by
    intro gains
    induction gains with
    | nil => exact fun _ _ hstart => hstart
    | cons g gains ih =>
      intro start hgains hstart
      refine ih _ (fun g' hg' => hgains g' (by simp [hg'])) ?_
      have hg := hgains g (by simp)
      simp only [Balanced, Found.append, ScanStats.add] at hstart hg ⊢
      omega
  refine key _ _ ?_ rfl
  intro g hg
  obtain ⟨x, hx, rfl⟩ := List.mem_map.mp hg
  exact hf x hx _ (hall x hx)

theorem scanConsumerSlice_balanced {eph : Point} {nonce myTag : ℕ} {tags : List ℕ}
    {kemCts : List Bytes} {slice : Slice} (hkem : ∃ kem, entryAt kemCts slice = some kem)
    (h : scanConsumerSlice p me ev eph nonce tags myTag kemCts slice = .ok found) : Balanced found := by
  obtain ⟨kem, hkem⟩ := hkem
  unfold scanConsumerSlice at h
  cases hleaf : slice.leafIndex with
  | none =>
    simp only [hleaf, Except.ok.injEq] at h
    rw [← h]
    rfl
  | some leafIndex =>
    simp only [hleaf, hkem] at h
    split_ifs at h
    · cases h
      rfl
    · cases h
      rfl
    · rw [bind_ok] at h
      obtain ⟨opened, -, h⟩ := h
      cases h
      simp only [Balanced, Found.append, ScanStats.add, placeOpened]
      split_ifs <;> rfl

theorem scanEvent_balanced (hwf : WellFormed ev) (h : scanEvent p me ev = .ok found) : Balanced found := by
  obtain ⟨-, rfl⟩ | ⟨-, rfl | ⟨eph, nonce, tags, hkind, -, -, -, h⟩ | ⟨eph, nonce, hkind, -, -, h⟩⟩ :=
    scanEvent_cases h
  · rfl
  · rfl
  · simp only [scanConsumer, bind_ok] at h
    obtain ⟨myTag, -, h⟩ := h
    cases hcts : kemCtsOf ev tags myTag with
    | inl found' =>
      simp only [hcts] at h
      cases h
      obtain rfl | ⟨-, batchId, status, -, rfl⟩ := kemCtsOf_inl hcts <;> rfl
    | inr kemCts =>
      simp only [hcts] at h
      refine collect_balanced h fun slice hslice y hy => ?_
      obtain ⟨kem, hkem, -⟩ := hwf.kem hkind tags myTag kemCts hcts slice hslice
      exact scanConsumerSlice_balanced ⟨kem, hkem⟩ hy
  · refine collect_balanced h fun slice hslice y hy => ?_
    unfold scanEnterpriseSlice at hy
    split at hy
    · cases hy
      rfl
    · split_ifs at hy <;> cases hy <;> rfl

end Total

section Carries

variable {crypto : ConsumerCrypto} {specs : List ConsumerOutputSpec}
  {outs : List PlannedConsumerOutput} {leafAt : ℕ → ℕ} {ev : FeedEvent}

def outputSlice (leafAt : ℕ → ℕ) (i : ℕ) : Slice := ⟨i * 4, 4, some (leafAt i)⟩

-- An event that shows every planned output at its own slice, tag and ciphertext.
structure Carries (p : Primitives) (crypto : ConsumerCrypto) (outs : List PlannedConsumerOutput)
    (leafAt : ℕ → ℕ) (ev : FeedEvent) : Prop where
  kind : ev.kind.isConsumer = true
  complete : incompleteDisclosure ev = false
  eph : ev.ecdhPublicKey = some (p.publicKey crypto.ecdhPrivateKey)
  nonce : ev.encryptionNonce = some crypto.encryptionNonce
  tags : ev.viewTags = some (outs.map (·.sealed.viewTag))
  slices : ev.slices = outs.zipIdx.map fun out => outputSlice leafAt out.2
  part : ∀ out ∈ outs.zipIdx, slicePart ev (outputSlice leafAt out.2) = out.1.sealed.cipherText
  kem : ∀ myTag, kemCtsOf ev (outs.map (·.sealed.viewTag)) myTag =
    .inr (outs.map (·.sealed.kemCiphertext))
  run : ev.kind = .disbursePriv → ev.outputCommitments = some (outs.map (·.commitment))

theorem entryAt_output {α : Type} (leafAt : ℕ → ℕ) (f : PlannedConsumerOutput → α)
    {out : PlannedConsumerOutput × ℕ} (hout : out ∈ outs.zipIdx) :
    entryAt (outs.map f) (outputSlice leafAt out.2) = some (f out.1) := by
  rw [entryAt_block rfl, List.getElem?_map, List.mem_zipIdx_iff_getElem?.mp hout]
  rfl

theorem Carries.run_entry (hcarries : Carries p crypto outs leafAt ev) (hkind : ev.kind = .disbursePriv)
    {out : PlannedConsumerOutput} {i : ℕ} (hout : (out, i) ∈ outs.zipIdx) :
    (ev.outputCommitments.bind fun run => entryAt run (outputSlice leafAt i)) = some out.commitment := by
  rw [hcarries.run hkind]
  exact entryAt_output leafAt (·.commitment) hout

-- The notes of a slice that match its leaf.
def matching (leaf : ℕ) (found : Found) : List ScanCandidate :=
  found.accepted ++ found.candidates.filter fun c => c.commitment = leaf

theorem matching_placed (hcarries : Carries p crypto outs leafAt ev) {out : PlannedConsumerOutput} {i : ℕ}
    (hout : (out, i) ∈ outs.zipIdx) (opened : Primitives.OpenedConsumerOutput) (stats : ScanStats) :
    matching out.commitment ((placeOpened p me ev (outputSlice leafAt i) (leafAt i) opened).append
      { stats := stats }) =
      if p.commitment opened.value opened.salt (p.publicKey me.spendPriv) = out.commitment then
        [draftOf p me ev .consumer (leafAt i) opened.value opened.salt]
      else [] := by
  rcases eq_or_ne ev.kind .disbursePriv with hkind | hkind
  · have hrun := hcarries.run_entry hkind hout
    simp only [matching, placeOpened, hkind, if_true, hrun, Found.append, Option.some.injEq,
      List.append_nil, draftOf]
    split_ifs with h1 h2 h2
    · simp
    · exact absurd h1.symm h2
    · exact absurd h2.symm h1
    · simp
  · simp only [matching, placeOpened, hkind, if_false, Found.append, List.append_nil, List.nil_append,
      List.filter_cons, List.filter_nil, decide_eq_true_eq, draftOf]

-- What one output of an honest op gives: the planned note when it is the wallet's, else nothing that
-- matches its leaf.
theorem Carries.output (ideal : Ideal p me kemEk) (hcarries : Carries p crypto outs leafAt ev)
    {out : PlannedConsumerOutput} {i : ℕ} {spec : ConsumerOutputSpec} (hout : (out, i) ∈ outs.zipIdx)
    (hplan : planConsumerOutput p crypto spec i = .ok out)
    (hrecipient : spec.recipient = selfConsumerRecipient p me kemEk ∨
      spec.recipient.owner ≠ p.publicKey me.spendPriv)
    (hfield : spec.value < snarkScalarField ∧ spec.salt < snarkScalarField)
    {myTag : ℕ}
    (htag : p.consumerViewTag (p.ecdhSharedSecret me.viewPriv (p.publicKey crypto.ecdhPrivateKey)) =
      .ok myTag) {found : Found}
    (h : scanConsumerSlice p me ev (p.publicKey crypto.ecdhPrivateKey) crypto.encryptionNonce
      (outs.map (·.sealed.viewTag)) myTag (outs.map (·.sealed.kemCiphertext)) (outputSlice leafAt i) =
      .ok found) :
    matching out.commitment found =
      if out.spendPub = p.publicKey me.spendPriv then
        [draftOf p me ev .consumer (leafAt i) out.value out.salt]
      else [] := by
  obtain ⟨hseal, hvalue, hsalt, hspend, hcommit⟩ := planConsumerOutput_ok hplan
  have htagAt := entryAt_output leafAt (·.sealed.viewTag) hout
  have hkemAt := entryAt_output leafAt (·.sealed.kemCiphertext) hout
  have hindex : (outputSlice leafAt i).offset / consumerCtLen = i := Nat.mul_div_cancel i (by decide)
  rcases hrecipient with hself | hother
  · rw [hself] at hseal
    have hshared : p.ecdhSharedSecret me.viewPriv (p.publicKey crypto.ecdhPrivateKey) =
        p.ecdhSharedSecret crypto.ecdhPrivateKey (p.publicKey me.viewPriv) := ideal.ecdh _ _
    have hmine : out.sealed.viewTag = myTag := by
      have := (sealConsumerOutput_ok hseal).2.2.1
      rw [hshared] at htag
      exact Except.ok.inj (this.symm.trans htag)
    have hopen := open_sealConsumerOutput hfield.1 hfield.2 (ideal.ecdh _ _)
      (ideal.kem (crypto.encapSeed i)) hseal
    have hopened : p.openConsumerOutput (slicePart ev (outputSlice leafAt i))
        (p.publicKey crypto.ecdhPrivateKey) me.viewPriv me.kemDk out.sealed.kemCiphertext
        crypto.encryptionNonce ((outputSlice leafAt i).offset / consumerCtLen) =
        .ok ⟨spec.value, spec.salt, out.sealed.viewTag⟩ := by
      rw [hcarries.part (out, i) hout, hindex]
      exact hopen
    rw [scanConsumerSlice_opened rfl rfl (htagAt.trans (congrArg some hmine)) hkemAt hopened] at h
    rw [← Except.ok.inj h, matching_placed hcarries hout]
    have howner : spec.recipient.owner = p.publicKey me.spendPriv := by
      rw [hself]
      rfl
    rw [if_pos (by rw [hcommit, howner]), if_pos (hspend.trans howner), hvalue, hsalt]
  · rw [if_neg (by rw [hspend]; exact hother)]
    rcases eq_or_ne out.sealed.viewTag myTag with hmine | hmine
    · obtain ⟨opened, -, rfl⟩ := scanConsumerSlice_placed rfl rfl
        (htagAt.trans (congrArg some hmine)) hkemAt h
      rw [matching_placed hcarries hout, if_neg]
      intro hsame
      rw [hcommit] at hsame
      exact hother (ideal.binding _ _ _ _ _ _ hsame).symm
    · rw [scanConsumerSlice_other rfl rfl (by rw [htagAt]; simpa using hmine)] at h
      rw [← Except.ok.inj h]
      rfl

def matched (leaf : ℕ → ℕ) (found : Found) : List ScanCandidate :=
  found.accepted ++ found.candidates.filter fun c => c.commitment = leaf c.leafIndex

theorem matched_matching {leaf : ℕ → ℕ} {found : Found} {slice : Slice} {leafIndex : ℕ}
    (horigin : SliceOrigin p me ev slice found) (hleaf : slice.leafIndex = some leafIndex) :
    matched leaf found = matching (leaf leafIndex) found := by
  unfold matched matching
  congr 1
  refine List.filter_congr fun c hc => ?_
  have hindex := (horigin.candidates c hc).2.fields.1
  rw [hleaf] at hindex
  rw [← Option.some.inj hindex]

-- In one event either nothing waits for a path or nothing is accepted outright.
theorem matched_collect {f : Slice → Except ScanError Found} {found : Found} {leaf : ℕ → ℕ}
    (horigin : ∀ slice y, f slice = .ok y → SliceOrigin p me ev slice y)
    (h : collect f ev.slices = .ok found) :
    matched leaf found = ev.slices.flatMap fun slice => matched leaf (gain f slice) := by
  have hgain : ∀ slice ∈ ev.slices, SliceOrigin p me ev slice (gain f slice) :=
    fun slice hslice => horigin slice _ ((collect_eq_ok.mp h).1 slice hslice)
  unfold matched
  rw [isPart_accepted.collect h, isPart_candidates.collect h]
  rcases eq_or_ne ev.kind .disbursePriv with hkind | hkind
  · have hnone : ∀ slice ∈ ev.slices, (gain f slice).candidates = [] := fun slice hslice =>
      List.eq_nil_iff_forall_not_mem.mpr fun c hc => ((hgain slice hslice).candidates c hc).1 hkind
    rw [List.flatMap_eq_nil_iff.mpr hnone, List.filter_nil, List.append_nil]
    refine List.flatMap_congr fun slice hslice => ?_
    rw [hnone slice hslice, List.filter_nil, List.append_nil]
  · have hnone : ∀ slice ∈ ev.slices, (gain f slice).accepted = [] := fun slice hslice =>
      List.eq_nil_iff_forall_not_mem.mpr fun c hc => hkind ((hgain slice hslice).accepted c hc).1
    rw [List.flatMap_eq_nil_iff.mpr hnone, List.nil_append, List.filter_flatMap]
    refine List.flatMap_congr fun slice hslice => ?_
    rw [hnone slice hslice, List.nil_append]

theorem Carries.event (ideal : Ideal p me kemEk) (hcarries : Carries p crypto outs leafAt ev)
    (hplan : planConsumerOutputs p crypto specs = .ok outs)
    (hrecipients : ∀ spec ∈ specs, spec.recipient = selfConsumerRecipient p me kemEk ∨
      spec.recipient.owner ≠ p.publicKey me.spendPriv)
    (hfield : ∀ spec ∈ specs, spec.value < snarkScalarField ∧ spec.salt < snarkScalarField)
    {leaf : ℕ → ℕ} (hleaf : ∀ out ∈ outs.zipIdx, leaf (leafAt out.2) = out.1.commitment)
    {found : Found} (h : scanEvent p me ev = .ok found) :
    matched leaf found = ownDrafts p me ev leafAt outs := by
  obtain ⟨myTag, htag⟩ :=
    ideal.viewTag (p.ecdhSharedSecret me.viewPriv (p.publicKey crypto.ecdhPrivateKey))
  simp only [scanEvent, hcarries.complete, hcarries.eph, hcarries.nonce, hcarries.kind, hcarries.tags,
    Bool.false_eq_true, if_false, if_true, scanConsumer, htag, hcarries.kem, bind_ok] at h
  obtain ⟨_, ⟨⟩, h⟩ := h
  rw [matched_collect (fun _ _ => sliceOrigin_consumer hcarries.kind) h, hcarries.slices,
    List.flatMap_map]
  refine List.flatMap_congr fun out hout => ?_
  obtain ⟨spec, hspec, hplanned⟩ := planConsumerOutputs_ok hplan hout
  have hslice : outputSlice leafAt out.2 ∈ ev.slices := by
    rw [hcarries.slices]
    exact List.mem_map.mpr ⟨out, hout, rfl⟩
  have hok := (collect_eq_ok.mp h).1 _ hslice
  rw [matched_matching (sliceOrigin_consumer hcarries.kind hok) rfl, hleaf out hout]
  exact hcarries.output ideal hout hplanned (hrecipients spec hspec) (hfield spec hspec) htag hok

theorem planned_length (hplan : planConsumerOutputs p crypto specs = .ok outs)
    {out : PlannedConsumerOutput} (hout : out ∈ outs) : out.sealed.cipherText.length = 4 := by
  obtain ⟨i, hi, rfl⟩ := List.getElem_of_mem hout
  obtain ⟨spec, -, hplanned⟩ := planConsumerOutputs_ok hplan
    (List.mem_zipIdx_iff_getElem?.mpr (List.getElem?_eq_getElem hi))
  obtain ⟨-, hct⟩ := encryptConsumerNote_ok (sealConsumerOutput_ok (planConsumerOutput_ok hplanned).1).2.2.2
  rw [hct]
  rfl

theorem planned_cts (hplan : planConsumerOutputs p crypto specs = .ok outs) :
    ∀ ct ∈ outs.map (·.sealed.cipherText), ct.length = 4 := by
  intro ct hct
  obtain ⟨o, ho, rfl⟩ := List.mem_map.mp hct
  exact planned_length hplan ho

theorem leafSlices_range (start B : ℕ) :
    leafSlices ((List.range B).map (start + ·)) = (List.range B).map (outputSlice (start + ·)) := by
  apply List.ext_getElem
  · simp [leafSlices]
  · intro i h1 h2
    simp [leafSlices, outputSlice]

theorem outputSlices_zipIdx : outs.zipIdx.map (fun out => outputSlice leafAt out.2) =
    (List.range outs.length).map (outputSlice leafAt) := by
  apply List.ext_getElem
  · simp
  · intro i h1 h2
    simp

theorem planned_part (hplan : planConsumerOutputs p crypto specs = .ok outs)
    (hcts : ev.ciphertext = (outs.map (·.sealed.cipherText)).flatten)
    {out : PlannedConsumerOutput × ℕ} (hout : out ∈ outs.zipIdx) :
    slicePart ev (outputSlice leafAt out.2) = out.1.sealed.cipherText := by
  have hget : (outs.map (·.sealed.cipherText))[out.2]? = some out.1.sealed.cipherText := by
    rw [List.getElem?_map, List.mem_zipIdx_iff_getElem?.mp hout]
    rfl
  have hblock := Blocks.flatten_block (planned_cts hplan) hget []
  rw [List.append_nil] at hblock
  rw [slicePart, hcts]
  exact hblock

theorem carries_small (hplan : planConsumerOutputs p crypto specs = .ok outs)
    (hkind : ev.kind.isConsumer = true) (hsingle : ev.kind ≠ .disbursePriv)
    (heph : ev.ecdhPublicKey = some (p.publicKey crypto.ecdhPrivateKey))
    (hnonce : ev.encryptionNonce = some crypto.encryptionNonce)
    (htags : ev.viewTags = some (outs.map (·.sealed.viewTag)))
    (hslices : ev.slices = outs.zipIdx.map fun out => outputSlice leafAt out.2)
    (hcts : ev.ciphertext = (outs.map (·.sealed.cipherText)).flatten)
    (hkem : ev.kemCiphertexts = some (outs.map (·.sealed.kemCiphertext))) :
    Carries p crypto outs leafAt ev where
  kind := hkind
  complete := by simp [incompleteDisclosure, hsingle]
  eph := heph
  nonce := hnonce
  tags := htags
  slices := hslices
  part _ hout := planned_part hplan hcts hout
  kem myTag := by
    rw [kemCtsOf_single hsingle, hkem]
    rfl
  run h := absurd h hsingle

theorem publishes_carries {op : OpProjection} {kem : Option KemTransport}
    (hplan : planConsumerOutputs p crypto specs = .ok outs) (h : Publishes p crypto outs leafAt op kem)
    (seq : ℕ) (position : FeedPosition) (status : Option DisclosureStatus) :
    Carries p crypto outs leafAt (serveEvent seq (projectFeedEntry position op) status kem) := by
  cases h with
  | small family o0 o1 =>
    refine carries_small hplan ?_ ?_ rfl rfl rfl rfl ?_ rfl
    · cases family <;> rfl
    · cases family <;> simp [serveEvent, projectFeedEntry, ConsumerSmall.kind]
    · simp [serveEvent, projectFeedEntry]
  | withdrawPriv o =>
    refine carries_small hplan rfl (by simp [serveEvent, projectFeedEntry]) rfl rfl rfl rfl ?_ rfl
    simp [serveEvent, projectFeedEntry]
  | disbursePriv outs start verdict chunkCount acceptedCount hne =>
    have hcts : (outs.map (·.sealed.cipherText)).flatten.length = 4 * outs.length := by
      rw [Blocks.length_flatten (planned_cts hplan), List.length_map, Nat.mul_comm]
    have htags : (outs.map (·.sealed.viewTag)).length = outs.length := List.length_map _
    have hrun : (outs.map (·.commitment)).length = outs.length := List.length_map _
    have hfull := length_consumerDisclosureElements hcts htags hrun
    have hslices : leafSlices ((List.range outs.length).map (start + ·)) =
        outs.zipIdx.map fun out => outputSlice (start + ·) out.2 := by
      rw [leafSlices_range, outputSlices_zipIdx]
    have hsome : outs.zipIdx.map (fun out => outputSlice (start + ·) out.2) ≠ [] := by
      simpa using hne
    simp only [serveEvent, projectFeedEntry, hfull, decide_true, if_true, hslices, receiverCts_run hcts,
      viewTags_run hcts htags, outputCommitments_run hcts htags hrun]
    exact
      { kind := rfl
        complete := by simp [incompleteDisclosure, hne]
        eph := rfl
        nonce := rfl
        tags := rfl
        slices := rfl
        part := fun _ hout => planned_part hplan rfl hout
        kem := fun myTag => by
          rw [kemCtsOf, if_neg (by simp), if_neg (by simp [hne])]
          rfl
        run := fun _ => rfl }

end Carries

section Window

variable {window : List FeedEvent} {ev : FeedEvent}

theorem filter_flatMap_seq {g : FeedEvent → List ScanCandidate}
    (hseqs : window.Pairwise fun a b => a.seq ≠ b.seq)
    (hg : ∀ ev ∈ window, ∀ c ∈ g ev, c.seq = ev.seq) (hev : ev ∈ window) :
    (window.flatMap g).filter (fun c => c.seq = ev.seq) = g ev := by
  induction window with
  | nil => exact absurd hev List.not_mem_nil
  | cons first window ih =>
    obtain ⟨hfirst, hrest⟩ := List.pairwise_cons.mp hseqs
    have hhead : ∀ c ∈ g first, c.seq = first.seq := hg first (by simp)
    have htail : ∀ e ∈ window, ∀ c ∈ g e, c.seq = e.seq := fun e he => hg e (by simp [he])
    rw [List.flatMap_cons, List.filter_append]
    rcases List.mem_cons.mp hev with rfl | hev
    · rw [List.filter_eq_self.mpr fun c hc => decide_eq_true (hhead c hc),
        List.filter_eq_nil_iff.mpr, List.append_nil]
      intro c hc
      obtain ⟨e, he, hc⟩ := List.mem_flatMap.mp hc
      rw [decide_eq_true_eq, htail e he c hc]
      exact (hfirst e he).symm
    · rw [List.filter_eq_nil_iff.mpr, List.nil_append]
      · exact ih hrest htail hev
      · intro c hc
        rw [decide_eq_true_eq, hhead c hc]
        exact hfirst ev hev

theorem scanEventsPass_ok {pass : ScanPass} (h : scanEventsPass p me window = .ok pass) :
    collect (scanEvent p me) window = .ok pass.toFound := by
  simp only [scanEventsPass, bind_ok] at h
  obtain ⟨found, hfound, hpass⟩ := h
  cases hpass
  exact hfound

theorem yieldOf_eq {pass : ScanPass} (h : scanEventsPass p me window = .ok pass)
    (hseqs : window.Pairwise fun a b => a.seq ≠ b.seq) (hev : ev ∈ window) (leaf : ℕ → ℕ) :
    yieldOf leaf pass ev.seq = matched leaf (gain (scanEvent p me) ev) := by
  have hcollect := scanEventsPass_ok h
  unfold yieldOf matched
  have hfilter : pass.candidates.filter (fun c => c.seq = ev.seq ∧ c.commitment = leaf c.leafIndex) =
      (pass.candidates.filter fun c => c.seq = ev.seq).filter fun c =>
        c.commitment = leaf c.leafIndex := by
    rw [List.filter_filter]
    refine List.filter_congr fun c _ => ?_
    rw [Bool.decide_and, Bool.and_comm]
  rw [hfilter, isPart_accepted.collect hcollect, isPart_candidates.collect hcollect]
  rw [filter_flatMap_seq hseqs (fun e _ c hc => ((origin_gain p me e).fields (.inl hc)).1) hev,
    filter_flatMap_seq hseqs (fun e _ c hc => ((origin_gain p me e).fields (.inr hc)).1) hev]

theorem discovers_iff (ideal : Ideal p me kemEk) (hadmissible : ∀ ev ∈ window, Admissible ev)
    (hseqs : window.Pairwise fun a b => a.seq ≠ b.seq) :
    Discovers p me kemEk window ↔ ∀ ev ∈ window, NonceFits p me ev := by
  constructor
  · rintro ⟨pass, hpass, -⟩ ev hev
    have hscan := (collect_eq_ok.mp (scanEventsPass_ok hpass)).1 ev hev
    exact (scanEvent_ok_iff ideal (hadmissible ev hev).wellFormed).mp ⟨_, hscan⟩
  · intro hfits
    obtain ⟨found, hfound⟩ := collect_total_iff.mpr fun ev hev =>
      (scanEvent_ok_iff ideal (hadmissible ev hev).wellFormed).mpr (hfits ev hev)
    have hpass : scanEventsPass p me window = .ok ⟨found, cursorOf window⟩ := by
      simp [scanEventsPass, hfound, bind, Except.bind, pure, Except.pure]
    refine ⟨_, hpass, ?_, ?_⟩
    · exact collect_balanced hfound fun ev hev y hy =>
        scanEvent_balanced (hadmissible ev hev).wellFormed hy
    · intro op leaf hev hleaf
      have hscan := (collect_eq_ok.mp hfound).1 op.event hev
      have hcarries := publishes_carries op.plan op.publishes op.seq op.position op.status
      rw [show op.seq = op.event.seq from rfl, yieldOf_eq hpass hseqs hev leaf]
      exact hcarries.event ideal op.plan op.recipients op.field hleaf hscan

end Window

section Sample

theorem ideal_plain (me : Identity) (kemEk : Bytes) : Ideal plainPrimitives me kemEk where
  kem seed := rfl
  total ciphertext hlen := by
    refine ⟨ciphertext.take 32, rfl, ?_⟩
    rw [List.length_take, hlen]
    decide
  ecdh a b := by simp only [plainPrimitives, one_mul, Nat.mul_comm a b]
  tag shared := by
    have hlt : ([tagViewtag, shared.1, shared.2].sum % 256 : ℕ) < 256 := Nat.mod_lt _ (by decide)
    simp only [plainPrimitives, List.length_cons, List.length_nil, List.head?_cons, and_self, if_true]
    exact hlt.trans (by decide)
  binding value salt owner value' salt' owner' h := by
    simp only [Primitives.commitment, plainPrimitives] at h
    simp [Nat.pair_eq_pair] at h
    exact Prod.ext h.2.2.1 h.2.2.2

def sampleCrypto : ConsumerCrypto := ⟨17, 1, fun i => List.replicate 32 (UInt8.ofNat i)⟩

-- A note to the wallet and one to a stranger.
def sampleSpecs : List ConsumerOutputSpec :=
  [⟨selfConsumerRecipient plainPrimitives sampleIdentity [], 5, 7⟩, ⟨⟨(2, 2), (3, 3), []⟩, 6, 8⟩]

def samplePlanned (spec : ConsumerOutputSpec) (i : ℕ) : PlannedConsumerOutput :=
  let p := plainPrimitives
  let shared := p.ecdhSharedSecret sampleCrypto.ecdhPrivateKey spec.recipient.noteViewPub
  let (kemCiphertext, ss) := p.encapsulate spec.recipient.kemEk (sampleCrypto.encapSeed i)
  let kemSs := ((kemSsToLimbs ss).toOption.getD (0, 0))
  let receiverKey := p.hybridReceiverKey shared kemSs
  { value := spec.value
    salt := spec.salt
    spendPub := spec.recipient.owner
    viewPub := spec.recipient.noteViewPub
    sealed :=
      { cipherText := p.poseidonEncrypt [spec.value, spec.salt] receiverKey
          (sampleCrypto.encryptionNonce + i)
        viewTag := ((p.consumerViewTag shared).toOption.getD 0)
        kemCiphertext := kemCiphertext
        kemSs := kemSs
        receiverKey := receiverKey
        ecdhShared := shared }
    commitment := p.commitment spec.value spec.salt spec.recipient.owner }

def sampleOp : HonestOp plainPrimitives sampleIdentity [] where
  crypto := sampleCrypto
  specs := sampleSpecs
  outs := [samplePlanned sampleSpecs[0] 0, samplePlanned sampleSpecs[1] 1]
  leafAt i := i
  op := _
  kem := none
  seq := 0
  position := ⟨0, 1, 0⟩
  status := none
  plan := by decide +kernel
  nonce := by decide
  recipients := by decide
  field := by decide
  publishes := .small .transferPriv _ _ _ none

theorem sampleOp_admissible : Admissible sampleOp.event := by
  refine .projected 0 _ _ none none ⟨?_, rfl, rfl, ?_⟩ <;> decide +kernel

-- An op under the wallet's view tag whose nonce, a field element, wraps around the circuit's range check.
def overflowingEvent : FeedEvent :=
  let tag := ((plainPrimitives.consumerViewTag (13, 13)).toOption.getD 0)
  let kemCiphertext : Bytes := List.replicate 32 0 ++ plainPadding
  serveEvent 1 (projectFeedEntry ⟨1, 1, 1⟩
    (.consumer .transferPriv (1, 1) (snarkScalarField - 2) 2 3 [0, 0, 0, 0, 0, 0, 0, 0] [tag, tag]
      [kemCiphertext, kemCiphertext])) none none

theorem overflowingEvent_admissible : Admissible overflowingEvent := by
  refine .projected 1 _ _ none none ⟨?_, rfl, rfl, ?_⟩ <;> decide +kernel

theorem overflowing_not_discovers :
    (∀ ev ∈ [sampleOp.event, overflowingEvent], Admissible ev) ∧
    Ideal plainPrimitives sampleIdentity [] ∧
    ¬Discovers plainPrimitives sampleIdentity [] [sampleOp.event, overflowingEvent] := by
  refine ⟨?_, ideal_plain _ _, ?_⟩
  · intro ev hev
    rcases List.mem_pair.mp hev with rfl | rfl
    · exact sampleOp_admissible
    · exact overflowingEvent_admissible
  · rintro ⟨pass, hpass, -⟩
    have hscan := (collect_eq_ok.mp (scanEventsPass_ok hpass)).1 overflowingEvent (by simp)
    have hthrows : (scanEvent plainPrimitives sampleIdentity overflowingEvent).toOption.isNone = true := by
      decide +kernel
    rw [hscan] at hthrows
    exact nomatch hthrows

theorem discovers_sample : Discovers plainPrimitives sampleIdentity [] [sampleOp.event] := by
  refine (discovers_iff (ideal_plain _ _) ?_ (List.pairwise_singleton _ _)).mpr ?_
  · intro ev hev
    rw [List.mem_singleton.mp hev]
    exact sampleOp_admissible
  · intro ev hev
    rw [List.mem_singleton.mp hev]
    refine (scanEvent_ok_iff (ideal_plain _ []) sampleOp_admissible.wellFormed).mp ?_
    have hok : (scanEvent plainPrimitives sampleIdentity sampleOp.event).toOption.isSome = true := by
      decide +kernel
    cases h : scanEvent plainPrimitives sampleIdentity sampleOp.event with
    | ok found => exact ⟨found, rfl⟩
    | error e => simp [h, Except.toOption] at hok

end Sample

end Bongtu.Client
