import Bongtu.Client.Run

namespace Bongtu.Client

open Bongtu.Core Outcome

section Collect

variable {α β : Type} {f : α → Except ScanError Found} {xs : List α} {r : Found}

def gain (f : α → Except ScanError Found) (x : α) : Found := (f x).toOption.getD {}

theorem gain_ok {x : α} {y : Found} (h : f x = .ok y) : gain f x = y := by
  simp [gain, h, Except.toOption]

def total (gains : List Found) (start : Found) : Found := gains.foldl Found.append start

theorem foldlM_ok (h : ∀ x ∈ xs, f x = .ok (gain f x)) (start : Found) :
    xs.foldlM (fun acc x => return acc.append (← f x)) start = .ok (total (xs.map (gain f)) start) := by
  induction xs generalizing start with
  | nil => rfl
  | cons x xs ih =>
    have hx := h x (by simp)
    have hxs := ih (fun y hy => h y (by simp [hy])) (start.append (gain f x))
    rw [List.foldlM_cons, hx]
    exact hxs

theorem foldlM_inv {start : Found}
    (h : xs.foldlM (fun acc x => return acc.append (← f x)) start = .ok r) :
    ∀ x ∈ xs, f x = .ok (gain f x) := by
  induction xs generalizing start with
  | nil => simp
  | cons x xs ih =>
    rw [List.foldlM_cons, bind_ok] at h
    obtain ⟨acc, hacc, hrest⟩ := h
    rw [bind_ok] at hacc
    obtain ⟨y, hy, -⟩ := hacc
    intro z hz
    rcases List.mem_cons.mp hz with rfl | hz
    · rw [gain_ok hy, hy]
    · exact ih hrest z hz

theorem collect_eq_ok :
    collect f xs = .ok r ↔ (∀ x ∈ xs, f x = .ok (gain f x)) ∧ r = total (xs.map (gain f)) {} := by
  constructor
  · intro h
    have hall := foldlM_inv h
    refine ⟨hall, ?_⟩
    have := foldlM_ok hall {}
    rw [collect, this] at h
    exact (Except.ok.inj h).symm
  · rintro ⟨hall, rfl⟩
    exact foldlM_ok hall {}

theorem collect_ok (h : ∀ x ∈ xs, f x = .ok (gain f x)) :
    collect f xs = .ok (total (xs.map (gain f)) {}) := collect_eq_ok.mpr ⟨h, rfl⟩

-- `accepted`, `candidates` and `pending` are parts: each is the concatenation over the pass.
def IsPart (part : Found → List β) : Prop :=
  part {} = [] ∧ ∀ a b, part (a.append b) = part a ++ part b

theorem isPart_accepted : IsPart Found.accepted := ⟨rfl, fun _ _ => rfl⟩

theorem isPart_candidates : IsPart Found.candidates := ⟨rfl, fun _ _ => rfl⟩

theorem isPart_pending : IsPart Found.pending := ⟨rfl, fun _ _ => rfl⟩

theorem IsPart.total {part : Found → List β} (hp : IsPart part) (gains : List Found) (start : Found) :
    part (total gains start) = part start ++ gains.flatMap part := by
  induction gains generalizing start with
  | nil => simp [Client.total]
  | cons g gains ih =>
    have := ih (start.append g)
    simp only [Client.total, List.foldl_cons, List.flatMap_cons] at this ⊢
    rw [this, hp.2, List.append_assoc]

theorem IsPart.collect {part : Found → List β} (hp : IsPart part) (h : collect f xs = .ok r) :
    part r = xs.flatMap fun x => part (gain f x) := by
  obtain ⟨-, rfl⟩ := collect_eq_ok.mp h
  rw [hp.total, hp.1, List.nil_append, List.flatMap_map]

theorem IsPart.mem_collect {part : Found → List β} (hp : IsPart part) (h : Client.collect f xs = .ok r)
    {c : β} : c ∈ part r ↔ ∃ x ∈ xs, ∃ y, f x = .ok y ∧ c ∈ part y := by
  have hall := (collect_eq_ok.mp h).1
  rw [hp.collect h, List.mem_flatMap]
  constructor
  · rintro ⟨x, hx, hc⟩
    exact ⟨x, hx, gain f x, hall x hx, hc⟩
  · rintro ⟨x, hx, y, hy, hc⟩
    exact ⟨x, hx, gain_ok hy ▸ hc⟩

end Collect

variable {p : Primitives} {me : Identity} {ev : FeedEvent} {found : Found}

-- Everything a pass can do with one event.
theorem scanEvent_cases (h : scanEvent p me ev = .ok found) :
    (incompleteDisclosure ev = true ∧ found = pendingOf ev ev.batchId .disclosureIncomplete) ∨
    (incompleteDisclosure ev = false ∧
      (found = {} ∨
        (∃ eph nonce tags, ev.kind.isConsumer = true ∧ ev.ecdhPublicKey = some eph ∧
          ev.encryptionNonce = some nonce ∧ ev.viewTags = some tags ∧
          scanConsumer p me ev eph nonce tags = .ok found) ∨
        (∃ eph nonce, ev.kind.isConsumer = false ∧ ev.ecdhPublicKey = some eph ∧
          ev.encryptionNonce = some nonce ∧
          collect (scanEnterpriseSlice p me ev eph nonce) ev.slices = .ok found))) := by
  unfold scanEvent at h
  cases hinc : incompleteDisclosure ev with
  | true =>
    simp only [hinc, if_true, Except.ok.injEq] at h
    exact .inl ⟨rfl, h.symm⟩
  | false =>
    refine .inr ⟨rfl, ?_⟩
    simp only [hinc, Bool.false_eq_true, if_false] at h
    cases heph : ev.ecdhPublicKey with
    | none =>
      simp only [heph, Except.ok.injEq] at h
      exact .inl h.symm
    | some eph =>
      cases hnonce : ev.encryptionNonce with
      | none =>
        simp only [heph, hnonce, Except.ok.injEq] at h
        exact .inl h.symm
      | some nonce =>
        simp only [heph, hnonce] at h
        cases hkind : ev.kind.isConsumer with
        | false =>
          simp only [hkind, Bool.false_eq_true, if_false] at h
          exact .inr (.inr ⟨eph, nonce, rfl, rfl, rfl, h⟩)
        | true =>
          simp only [hkind, if_true] at h
          cases htags : ev.viewTags with
          | none =>
            simp only [htags, Except.ok.injEq] at h
            exact .inl h.symm
          | some tags =>
            simp only [htags] at h
            exact .inr (.inl ⟨eph, nonce, tags, rfl, rfl, rfl, rfl, h⟩)

def familyOf (kind : EventKind) : Family := if kind.isConsumer then .consumer else .enterprise

-- The candidates a slice of an event can give: its leaf, under some opened value and salt.
def Draws (p : Primitives) (me : Identity) (ev : FeedEvent) (slice : Slice) (c : ScanCandidate) : Prop :=
  ∃ leafIndex value salt, slice.leafIndex = some leafIndex ∧
    c = draftOf p me ev (familyOf ev.kind) leafIndex value salt

structure SliceOrigin (p : Primitives) (me : Identity) (ev : FeedEvent) (slice : Slice)
    (found : Found) : Prop where
  accepted : ∀ c ∈ found.accepted, ev.kind = .disbursePriv ∧ Draws p me ev slice c ∧
    (ev.outputCommitments.bind fun run => entryAt run slice) = some c.commitment
  candidates : ∀ c ∈ found.candidates, ev.kind ≠ .disbursePriv ∧ Draws p me ev slice c
  pending : found.pending = []

theorem sliceOrigin_stats (slice : Slice) (stats : ScanStats) :
    SliceOrigin p me ev slice { stats := stats } :=
  ⟨fun _ hc => absurd hc List.not_mem_nil, fun _ hc => absurd hc List.not_mem_nil, rfl⟩

theorem sliceOrigin_consumer {eph : Point} {nonce : ℕ} {tags : List ℕ} {myTag : ℕ}
    {kemCts : List Bytes} {slice : Slice} (hkind : ev.kind.isConsumer = true)
    (h : scanConsumerSlice p me ev eph nonce tags myTag kemCts slice = .ok found) :
    SliceOrigin p me ev slice found := by
  unfold scanConsumerSlice at h
  cases hleaf : slice.leafIndex with
  | none =>
    simp only [hleaf, Except.ok.injEq] at h
    exact h ▸ sliceOrigin_stats slice {}
  | some leafIndex =>
    simp only [hleaf] at h
    split_ifs at h
    · cases h
      exact sliceOrigin_stats slice _
    · cases h
      exact sliceOrigin_stats slice _
    · cases hkem : entryAt kemCts slice with
      | none =>
        simp only [hkem, Except.ok.injEq] at h
        exact h ▸ sliceOrigin_stats slice _
      | some kem =>
        simp only [hkem, bind_ok] at h
        obtain ⟨opened, -, h⟩ := h
        cases h
        have hdraws : Draws p me ev slice
            (draftOf p me ev .consumer leafIndex opened.value opened.salt) :=
          ⟨leafIndex, opened.value, opened.salt, hleaf, by rw [familyOf, if_pos hkind]⟩
        rcases eq_or_ne ev.kind .disbursePriv with hpriv | hpriv
        · rcases em ((ev.outputCommitments.bind fun run => entryAt run slice) =
            some (draftOf p me ev .consumer leafIndex opened.value opened.salt).commitment) with hrun | hrun
          · refine ⟨?_, ?_, ?_⟩ <;> simp [placeOpened, hpriv, hrun, Found.append, hdraws]
          · refine ⟨?_, ?_, ?_⟩ <;> simp [placeOpened, hpriv, hrun, Found.append]
        · refine ⟨?_, ?_, ?_⟩ <;> simp [placeOpened, hpriv, Found.append, hdraws]

theorem sliceOrigin_enterprise {eph : Point} {nonce : ℕ} {slice : Slice}
    (hkind : ev.kind.isConsumer = false)
    (h : scanEnterpriseSlice p me ev eph nonce slice = .ok found) :
    SliceOrigin p me ev slice found := by
  have hpriv : ev.kind ≠ .disbursePriv := by
    rintro hpriv
    rw [hpriv] at hkind
    exact nomatch hkind
  unfold scanEnterpriseSlice at h
  cases hleaf : slice.leafIndex with
  | none =>
    simp only [hleaf, Except.ok.injEq] at h
    exact h ▸ sliceOrigin_stats slice {}
  | some leafIndex =>
    simp only [hleaf] at h
    split_ifs at h
    · cases h
      exact sliceOrigin_stats slice {}
    · cases h
      exact sliceOrigin_stats slice {}
    · cases h
      refine ⟨fun _ hc => absurd hc List.not_mem_nil, fun c hc => ⟨hpriv, ?_⟩, rfl⟩
      obtain ⟨tryNonce, -, rfl⟩ := List.mem_map.mp hc
      exact ⟨leafIndex, _, _, hleaf, by rw [familyOf, if_neg (by simp [hkind])]⟩

structure Origin (p : Primitives) (me : Identity) (ev : FeedEvent) (found : Found) : Prop where
  accepted : ∀ c ∈ found.accepted, ev.kind = .disbursePriv ∧ ∃ slice ∈ ev.slices,
    Draws p me ev slice c ∧ (ev.outputCommitments.bind fun run => entryAt run slice) = some c.commitment
  candidates : ∀ c ∈ found.candidates, ev.kind ≠ .disbursePriv ∧ ∃ slice ∈ ev.slices,
    Draws p me ev slice c
  pending : ∀ d ∈ found.pending, ev.kind = .disbursePriv ∧ d.seq = ev.seq ∧
    d.status ≠ .enterpriseBatchGated

theorem origin_collect {f : Slice → Except ScanError Found}
    (hf : ∀ slice y, f slice = .ok y → SliceOrigin p me ev slice y)
    (h : collect f ev.slices = .ok found) : Origin p me ev found where
  accepted c hc := by
    obtain ⟨slice, hslice, y, hy, hc⟩ := (isPart_accepted.mem_collect h).mp hc
    obtain ⟨hkind, hdraws⟩ := (hf slice y hy).accepted c hc
    exact ⟨hkind, slice, hslice, hdraws⟩
  candidates c hc := by
    obtain ⟨slice, hslice, y, hy, hc⟩ := (isPart_candidates.mem_collect h).mp hc
    obtain ⟨hkind, hdraws⟩ := (hf slice y hy).candidates c hc
    exact ⟨hkind, slice, hslice, hdraws⟩
  pending d hd := by
    obtain ⟨slice, -, y, hy, hd⟩ := (isPart_pending.mem_collect h).mp hd
    rw [(hf slice y hy).pending] at hd
    exact absurd hd List.not_mem_nil

theorem origin_empty : Origin p me ev {} :=
  ⟨fun _ hc => absurd hc List.not_mem_nil, fun _ hc => absurd hc List.not_mem_nil,
    fun _ hd => absurd hd List.not_mem_nil⟩

theorem origin_pendingOf {batchId : Option ℕ} {status : PendingStatus} (hkind : ev.kind = .disbursePriv)
    (hstatus : status ≠ .enterpriseBatchGated) : Origin p me ev (pendingOf ev batchId status) := by
  refine ⟨fun _ hc => absurd hc List.not_mem_nil, fun _ hc => absurd hc List.not_mem_nil, ?_⟩
  intro d hd
  obtain rfl := List.mem_singleton.mp hd
  exact ⟨hkind, rfl, hstatus⟩

-- A batch whose ciphertexts are not served yet gives nothing or one pending entry.
theorem kemCtsOf_inl {tags : List ℕ} {myTag : ℕ} (h : kemCtsOf ev tags myTag = .inl found) :
    found = {} ∨ ev.kind = .disbursePriv ∧ ∃ batchId status, status ≠ .enterpriseBatchGated ∧
      found = pendingOf ev batchId status := by
  unfold kemCtsOf at h
  split_ifs at h with hkind hnone htags
  · cases hkem : ev.kemCiphertexts with
    | none =>
      rw [hkem] at h
      exact .inl (Sum.inl.inj h).symm
    | some kemCts =>
      rw [hkem] at h
      exact nomatch h
  · exact .inr ⟨not_not.mp hkind, _, _, by simp, (Sum.inl.inj h).symm⟩
  · split at h
    · exact nomatch h
    · exact .inr ⟨not_not.mp hkind, _, _, by simp, (Sum.inl.inj h).symm⟩
  · split at h
    · exact nomatch h
    · exact .inl (Sum.inl.inj h).symm

theorem kemCtsOf_single {tags : List ℕ} {myTag : ℕ} (hkind : ev.kind ≠ .disbursePriv) :
    kemCtsOf ev tags myTag = ev.kemCiphertexts.elim (.inl {}) .inr := by
  rw [kemCtsOf, if_pos hkind]

theorem kemCtsOf_batch {tags : List ℕ} {myTag : ℕ} {kemCts : List Bytes} (hkind : ev.kind = .disbursePriv)
    (h : kemCtsOf ev tags myTag = .inr kemCts) :
    ¬(ev.outputCommitments = none ∨ ev.slices = []) ∧ ∃ chunkCount acceptedCount,
      ev.kem = some ⟨.complete, chunkCount, acceptedCount, some kemCts⟩ := by
  unfold kemCtsOf at h
  rw [if_neg (by simp [hkind])] at h
  split_ifs at h with hserved
  all_goals split at h
  · case h_1 chunkCount acceptedCount kemCts' heq =>
    cases h
    exact ⟨hserved, chunkCount, acceptedCount, heq⟩
  · exact nomatch h
  · case h_1 chunkCount acceptedCount kemCts' heq =>
    cases h
    exact ⟨hserved, chunkCount, acceptedCount, heq⟩
  · exact nomatch h

theorem incompleteDisclosure_kind (h : incompleteDisclosure ev = true) : ev.kind = .disbursePriv := by
  simp only [incompleteDisclosure, decide_eq_true_eq] at h
  exact h.1

theorem scanEvent_origin (h : scanEvent p me ev = .ok found) : Origin p me ev found := by
  obtain ⟨hinc, rfl⟩ | ⟨-, rfl | ⟨eph, nonce, tags, hkind, -, -, -, h⟩ | ⟨eph, nonce, hkind, -, -, h⟩⟩ :=
    scanEvent_cases h
  · exact origin_pendingOf (incompleteDisclosure_kind hinc) (by simp)
  · exact origin_empty
  · simp only [scanConsumer, bind_ok] at h
    obtain ⟨myTag, -, h⟩ := h
    cases hcts : kemCtsOf ev tags myTag with
    | inl found' =>
      simp only [hcts] at h
      cases h
      obtain rfl | ⟨hpriv, batchId, status, hstatus, rfl⟩ := kemCtsOf_inl hcts
      · exact origin_empty
      · exact origin_pendingOf hpriv hstatus
    | inr kemCts =>
      simp only [hcts] at h
      exact origin_collect (fun _ _ => sliceOrigin_consumer hkind) h
  · exact origin_collect (fun _ _ => sliceOrigin_enterprise hkind) h

theorem scanEvent_pending (h : scanEvent p me ev = .ok found) (hpending : found.pending ≠ []) :
    found.accepted = [] ∧ found.candidates = [] := by
  obtain ⟨-, rfl⟩ | ⟨-, rfl | ⟨eph, nonce, tags, hkind, -, -, -, h⟩ | ⟨eph, nonce, hkind, -, -, h⟩⟩ :=
    scanEvent_cases h
  · exact ⟨rfl, rfl⟩
  · exact ⟨rfl, rfl⟩
  · simp only [scanConsumer, bind_ok] at h
    obtain ⟨myTag, -, h⟩ := h
    cases hcts : kemCtsOf ev tags myTag with
    | inl found' =>
      simp only [hcts] at h
      cases h
      obtain rfl | ⟨-, batchId, status, -, rfl⟩ := kemCtsOf_inl hcts
      · exact ⟨rfl, rfl⟩
      · exact ⟨rfl, rfl⟩
    | inr kemCts =>
      simp only [hcts] at h
      refine absurd ?_ hpending
      rw [isPart_pending.collect h, List.flatMap_eq_nil_iff]
      intro slice hslice
      exact (sliceOrigin_consumer hkind ((collect_eq_ok.mp h).1 slice hslice)).pending
  · refine absurd ?_ hpending
    rw [isPart_pending.collect h, List.flatMap_eq_nil_iff]
    intro slice hslice
    exact (sliceOrigin_enterprise hkind ((collect_eq_ok.mp h).1 slice hslice)).pending

theorem origin_gain (p : Primitives) (me : Identity) (ev : FeedEvent) : Origin p me ev (gain (scanEvent p me) ev) := by
  cases h : scanEvent p me ev with
  | error e =>
    simp only [gain, h, Except.toOption, Option.getD_none]
    exact origin_empty
  | ok found =>
    rw [gain_ok h]
    exact scanEvent_origin h

theorem Draws.fields {slice : Slice} {c : ScanCandidate}
    (h : Draws p me ev slice c) : slice.leafIndex = some c.leafIndex ∧ c.seq = ev.seq ∧
      c.kind = ev.kind ∧ c.family = familyOf ev.kind ∧
      c.commitment = p.commitment c.value c.salt (p.publicKey me.spendPriv) := by
  obtain ⟨leafIndex, value, salt, hleaf, rfl⟩ := h
  exact ⟨hleaf, rfl, rfl, rfl, rfl⟩

theorem Origin.fields (h : Origin p me ev found) {c : ScanCandidate}
    (hc : c ∈ found.accepted ∨ c ∈ found.candidates) : c.seq = ev.seq ∧ c.kind = ev.kind ∧
      c.family = familyOf ev.kind ∧ ∃ slice ∈ ev.slices, Draws p me ev slice c := by
  obtain ⟨slice, hslice, hdraws⟩ : ∃ slice ∈ ev.slices, Draws p me ev slice c := by
    rcases hc with hc | hc
    · obtain ⟨-, slice, hslice, hdraws, -⟩ := h.accepted c hc
      exact ⟨slice, hslice, hdraws⟩
    · exact (h.candidates c hc).2
  obtain ⟨-, hseq, hkind, hfamily, -⟩ := hdraws.fields
  exact ⟨hseq, hkind, hfamily, slice, hslice, hdraws⟩

theorem entryAt_mem {α : Type} {xs : List α} {slice : Slice} {x : α} (h : entryAt xs slice = some x) :
    x ∈ xs := by
  unfold entryAt at h
  split_ifs at h
  exact List.mem_of_getElem? h

theorem scanEnterpriseSlice_whole {eph : Point} {nonce leafIndex : ℕ} {slice : Slice}
    (h : scanEnterpriseSlice p me ev eph nonce slice = .ok found)
    (hleaf : slice.leafIndex = some leafIndex) (helts : slice.elts = 4)
    (hlen : (slicePart ev slice).length = 4) :
    found.candidates = (tryNonces nonce (slice.offset / 4)).map fun tryNonce =>
      draftOf p me ev .enterprise leafIndex (decryptEnterprise p me ev eph slice tryNonce).1
        (decryptEnterprise p me ev eph slice tryNonce).2 := by
  unfold scanEnterpriseSlice at h
  simp only [hleaf, helts, hlen, ne_eq, not_true_eq_false, if_false] at h
  split_ifs at h
  rw [← Except.ok.inj h]

theorem scanConsumerSlice_opened {eph : Point} {nonce leafIndex myTag : ℕ} {tags : List ℕ}
    {kemCts : List Bytes} {slice : Slice} {kem : Bytes} {opened : Primitives.OpenedConsumerOutput}
    (hleaf : slice.leafIndex = some leafIndex) (helts : slice.elts = consumerCtLen)
    (htag : entryAt tags slice = some myTag) (hkem : entryAt kemCts slice = some kem)
    (hopened : p.openConsumerOutput (slicePart ev slice) eph me.viewPriv me.kemDk kem nonce
      (slice.offset / consumerCtLen) = .ok opened) :
    scanConsumerSlice p me ev eph nonce tags myTag kemCts slice =
      .ok ((placeOpened p me ev slice leafIndex opened).append
        { stats := { consumerSlices := 1, tagMatches := 1, decapsulations := 1 } }) := by
  unfold scanConsumerSlice
  simp only [hleaf, helts, htag, hkem, hopened, ne_eq, not_true_eq_false, if_false]
  rfl

theorem scanConsumerSlice_placed {eph : Point} {nonce leafIndex myTag : ℕ} {tags : List ℕ}
    {kemCts : List Bytes} {slice : Slice} {kem : Bytes}
    (hleaf : slice.leafIndex = some leafIndex) (helts : slice.elts = consumerCtLen)
    (htag : entryAt tags slice = some myTag) (hkem : entryAt kemCts slice = some kem)
    (h : scanConsumerSlice p me ev eph nonce tags myTag kemCts slice = .ok found) :
    ∃ opened, p.openConsumerOutput (slicePart ev slice) eph me.viewPriv me.kemDk kem nonce
        (slice.offset / consumerCtLen) = .ok opened ∧
      found = (placeOpened p me ev slice leafIndex opened).append
        { stats := { consumerSlices := 1, tagMatches := 1, decapsulations := 1 } } := by
  cases hopen : p.openConsumerOutput (slicePart ev slice) eph me.viewPriv me.kemDk kem nonce
      (slice.offset / consumerCtLen) with
  | ok opened =>
    rw [scanConsumerSlice_opened hleaf helts htag hkem hopen] at h
    exact ⟨opened, rfl, (Except.ok.inj h).symm⟩
  | error e =>
    unfold scanConsumerSlice at h
    simp [hleaf, helts, htag, hkem, hopen, Except.mapError, bind, Except.bind] at h

theorem scanConsumerSlice_other {eph : Point} {nonce leafIndex myTag : ℕ} {tags : List ℕ}
    {kemCts : List Bytes} {slice : Slice} (hleaf : slice.leafIndex = some leafIndex)
    (helts : slice.elts = consumerCtLen) (htag : entryAt tags slice ≠ some myTag) :
    scanConsumerSlice p me ev eph nonce tags myTag kemCts slice =
      .ok { stats := { consumerSlices := 1 } } := by
  unfold scanConsumerSlice
  simp only [hleaf, helts, htag, ne_eq, not_true_eq_false, not_false_eq_true, if_false, if_true]

end Bongtu.Client
