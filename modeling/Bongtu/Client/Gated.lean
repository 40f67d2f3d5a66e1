import Bongtu.Client.Serving

namespace Bongtu.Client

open Bongtu.Core Outcome

def window (io : SelfScanIo) (prev : SelfScanState) (maxPages : ℕ) : List FeedEvent :=
  prev.pending.filterMap (rereadOf io) ++
    ((drain io maxPages 0 prev.cursor []).toOption.map Prod.fst).getD []

def ScannedIn (p : Primitives) (me : Identity) (scans : List Scan) (scan : Scan) (ev : FeedEvent) :
    Prop :=
  ∃ pre post, scans = pre ++ scan :: post ∧
    (∃ next, runSelfScan p me scan.io (scanAll p me pre) scan.maxPages = .ok next) ∧
    ev ∈ window scan.io (scanAll p me pre) scan.maxPages

def Addressed (p : Primitives) (me : Identity) (leaf : ℕ → ℕ) (leafIndex : ℕ) : Prop :=
  ∃ value salt, leaf leafIndex = p.commitment value salt (p.publicKey me.spendPriv)

-- `outputs` lists the leaves of the batch each feed entry stands for, shown in its slices or not.
structure GatedSound (p : Primitives) (me : Identity) (leaf : ℕ → ℕ) (outputs : ℕ → List ℕ)
    (scans : List Scan) : Prop where
  quiet : (∀ scan ev, ScannedIn p me scans scan ev → ev.kind = .disburse →
      ∀ leafIndex ∈ outputs ev.seq, ¬Addressed p me leaf leafIndex) →
    ∀ d ∈ (scanAll p me scans).pending, d.status ≠ .enterpriseBatchGated
  kept : ∀ scan ev, ScannedIn p me scans scan ev → ∀ leafIndex ∈ outputs ev.seq,
    Addressed p me leaf leafIndex →
    (∃ n ∈ (scanAll p me scans).notes, n.commitment = leaf leafIndex) ∨
      ∃ d ∈ (scanAll p me scans).pending, d.seq = ev.seq

def WholeSlice (ev : FeedEvent) (slice : Slice) (leafIndex : ℕ) : Prop :=
  slice ∈ ev.slices ∧ slice.leafIndex = some leafIndex ∧ slice.elts = 4 ∧
    (slicePart ev slice).length = 4

def Readable (io : SelfScanIo) (ev : FeedEvent) : Prop :=
  ev.kind = .disburse → ∀ slice leafIndex, WholeSlice ev slice leafIndex → io.path leafIndex ≠ none

-- The slice of an enterprise batch opens, under one of the two nonces, to the note of its leaf, and
-- a path served for the leaf is that leaf's.
def ShownEnterprise (p : Primitives) (me : Identity) (io : SelfScanIo) (ev : FeedEvent)
    (leafIndex leaf : ℕ) : Prop :=
  ev.kind = .disburse ∧ ∃ eph nonce slice, ev.ecdhPublicKey = some eph ∧
    ev.encryptionNonce = some nonce ∧ WholeSlice ev slice leafIndex ∧
    (∃ tryNonce ∈ tryNonces nonce (slice.offset / 4),
      p.commitment (decryptEnterprise p me ev eph slice tryNonce).1
        (decryptEnterprise p me ev eph slice tryNonce).2 (p.publicKey me.spendPriv) = leaf) ∧
    ∀ read, io.path leafIndex = some read → pathConfirmsLeaf p leaf read leafIndex = true

-- The slice of a consumer batch carries the wallet's tag and opens, once the ciphertexts are there, to
-- the note of its leaf.
def ShownConsumer (p : Primitives) (me : Identity) (ev : FeedEvent) (leafIndex leaf : ℕ) : Prop :=
  ev.kind = .disbursePriv ∧ ∃ eph nonce tags myTag slice, ev.ecdhPublicKey = some eph ∧
    ev.encryptionNonce = some nonce ∧ ev.viewTags = some tags ∧
    p.consumerViewTag (p.ecdhSharedSecret me.viewPriv eph) = .ok myTag ∧
    slice ∈ ev.slices ∧ slice.leafIndex = some leafIndex ∧ slice.elts = consumerCtLen ∧
    entryAt tags slice = some myTag ∧
    ∀ chunkCount acceptedCount kemCts,
      ev.kem = some ⟨.complete, chunkCount, acceptedCount, some kemCts⟩ →
      ∃ kem opened, entryAt kemCts slice = some kem ∧
        p.openConsumerOutput (slicePart ev slice) eph me.viewPriv me.kemDk kem nonce
          (slice.offset / consumerCtLen) = .ok opened ∧
        p.commitment opened.value opened.salt (p.publicKey me.spendPriv) = leaf ∧
        (ev.outputCommitments.bind fun run => entryAt run slice) = some leaf

def Shown (p : Primitives) (me : Identity) (io : SelfScanIo) (ev : FeedEvent) (leafIndex leaf : ℕ) :
    Prop :=
  incompleteDisclosure ev = true ∨ ShownEnterprise p me io ev leafIndex leaf ∨
    ShownConsumer p me ev leafIndex leaf

-- No enterprise batch of strangers has an unreadable path, and every batch shows the wallet's notes.
structure Disclosed (p : Primitives) (me : Identity) (leaf : ℕ → ℕ) (outputs : ℕ → List ℕ)
    (scans : List Scan) : Prop where
  readable : (∀ scan ev, ScannedIn p me scans scan ev → ev.kind = .disburse →
      ∀ leafIndex ∈ outputs ev.seq, ¬Addressed p me leaf leafIndex) →
    ∀ scan ev, ScannedIn p me scans scan ev → Readable scan.io ev
  shown : ∀ scan ev, ScannedIn p me scans scan ev → ∀ leafIndex ∈ outputs ev.seq,
    Addressed p me leaf leafIndex → Shown p me scan.io ev leafIndex (leaf leafIndex)

variable {p : Primitives} {me : Identity} {io : SelfScanIo} {prev next : SelfScanState}
  {maxPages : ℕ} {ev : FeedEvent} {found : Found}

theorem Pass.window_eq (pass : Pass p me io prev maxPages) : window io prev maxPages = pass.scanned := by
  simp [window, Pass.scanned, pass.drained, Except.toOption]

theorem enterprise_whole {eph : Point} {nonce : ℕ}
    (h : collect (scanEnterpriseSlice p me ev eph nonce) ev.slices = .ok found) {c : ScanCandidate}
    (hc : c ∈ found.candidates) : ∃ slice, WholeSlice ev slice c.leafIndex := by
  obtain ⟨slice, hslice, y, hy, hc⟩ := (isPart_candidates.mem_collect h).mp hc
  unfold scanEnterpriseSlice at hy
  cases hleaf : slice.leafIndex with
  | none =>
    simp only [hleaf, Except.ok.injEq] at hy
    rw [← hy] at hc
    exact absurd hc List.not_mem_nil
  | some leafIndex =>
    simp only [hleaf] at hy
    split_ifs at hy with helts hlen hoffset
    · cases hy
      exact absurd hc List.not_mem_nil
    · cases hy
      exact absurd hc List.not_mem_nil
    · cases hy
      obtain ⟨tryNonce, -, rfl⟩ := List.mem_map.mp hc
      exact ⟨slice, hslice, hleaf, not_not.mp helts, not_not.mp hlen⟩

theorem Readable.ungated (hread : Readable io ev) (h : scanEvent p me ev = .ok found)
    {c : ScanCandidate} (hc : c ∈ found.candidates) : gatedOf io.path c = none := by
  refine gatedOf_none.mpr fun hnone hfamily hkind => ?_
  have hev : ev.kind = .disburse := ((scanEvent_origin h).fields (.inr hc)).2.1.symm.trans hkind
  have hcollect : ∃ eph nonce, collect (scanEnterpriseSlice p me ev eph nonce) ev.slices = .ok found := by
    obtain ⟨-, rfl⟩ | ⟨-, rfl | ⟨eph, nonce, tags, hconsumer, -⟩ | ⟨eph, nonce, -, -, -, h⟩⟩ :=
      scanEvent_cases h
    · exact absurd hc List.not_mem_nil
    · exact absurd hc List.not_mem_nil
    · rw [hev] at hconsumer
      exact nomatch hconsumer
    · exact ⟨eph, nonce, h⟩
  obtain ⟨eph, nonce, hcollect⟩ := hcollect
  obtain ⟨slice, hwhole⟩ := enterprise_whole hcollect hc
  exact hread hev slice c.leafIndex hwhole hnone

theorem confirms_of_read {c : ScanCandidate} {read : PathResult}
    (hread : io.path c.leafIndex = some read)
    (hpath : pathConfirmsLeaf p c.commitment read c.leafIndex = true) : confirms p io.path c = true := by
  simp [confirms, hread, hpath]

-- A shown output is found, or its event stays pending.
theorem Pass.shown_enterprise (pass : Pass p me io prev maxPages) (hev : ev ∈ pass.scanned)
    {leafIndex leaf : ℕ} (hshown : ShownEnterprise p me io ev leafIndex leaf) :
    (∃ c ∈ pass.fresh, c.commitment = leaf) ∨ ∃ d ∈ pass.unsettled, d.seq = ev.seq := by
  obtain ⟨hkind, eph, nonce, slice, heph, hnonce, ⟨hslice, hleaf, helts, hlen⟩, ⟨tryNonce, htry, hopen⟩,
    hpath⟩ := hshown
  have hscan := pass.gain_ok hev
  have hinc : incompleteDisclosure ev = false := by simp [incompleteDisclosure, hkind]
  have hconsumer : ev.kind.isConsumer = false := by rw [hkind]; rfl
  simp only [scanEvent, hinc, heph, hnonce, hconsumer, Bool.false_eq_true, if_false] at hscan
  have hslices := (collect_eq_ok.mp hscan).1 slice hslice
  let c := draftOf p me ev .enterprise leafIndex (decryptEnterprise p me ev eph slice tryNonce).1
    (decryptEnterprise p me ev eph slice tryNonce).2
  have hc : c ∈ (gain (scanEnterpriseSlice p me ev eph nonce) slice).candidates := by
    rw [scanEnterpriseSlice_whole hslices hleaf helts hlen]
    exact List.mem_map.mpr ⟨tryNonce, htry, rfl⟩
  have hfound : c ∈ pass.found.candidates := by
    refine (pass.part isPart_candidates).mpr ⟨ev, hev, ?_⟩
    rw [isPart_candidates.collect hscan, List.mem_flatMap]
    exact ⟨slice, hslice, hc⟩
  cases hread : io.path leafIndex with
  | none =>
    refine .inr ⟨⟨ev.seq, ev.txHash, none, .enterpriseBatchGated⟩, ?_, rfl⟩
    refine List.mem_append.mpr (.inr (List.mem_filterMap.mpr ⟨c, hfound, ?_⟩))
    exact if_pos ⟨hread, rfl, hkind⟩
  | some read =>
    refine .inl ⟨c, List.mem_append.mpr (.inr (List.mem_filter.mpr ⟨hfound, ?_⟩)), hopen⟩
    refine confirms_of_read hread ?_
    rw [show c.commitment = leaf from hopen]
    exact hpath read hread

theorem Pass.shown_consumer (pass : Pass p me io prev maxPages) (hev : ev ∈ pass.scanned)
    {leafIndex leaf : ℕ} (hinc : incompleteDisclosure ev = false)
    (hshown : ShownConsumer p me ev leafIndex leaf) :
    (∃ c ∈ pass.fresh, c.commitment = leaf) ∨ ∃ d ∈ pass.unsettled, d.seq = ev.seq := by
  obtain ⟨hkind, eph, nonce, tags, myTag, slice, heph, hnonce, htags, hmine, hslice, hleaf, helts, htag,
    hopen⟩ := hshown
  have hscan := pass.gain_ok hev
  have hconsumer : ev.kind.isConsumer = true := by rw [hkind]; rfl
  simp only [scanEvent, hinc, heph, hnonce, htags, hconsumer, Bool.false_eq_true, if_false, if_true,
    scanConsumer, hmine, bind_ok] at hscan
  obtain ⟨_, ⟨⟩, hscan⟩ := hscan
  cases hcts : kemCtsOf ev tags myTag with
  | inl found =>
    simp only [hcts] at hscan
    have hgain : gain (scanEvent p me) ev = found := (Except.ok.inj hscan).symm
    have hpending : found.pending ≠ [] := by
      unfold kemCtsOf at hcts
      rw [if_neg (by simp [hkind])] at hcts
      split_ifs at hcts with hnone hany
      · rw [← Sum.inl.inj hcts]
        exact List.cons_ne_nil _ _
      · split at hcts
        · cases hcts
        · rw [← Sum.inl.inj hcts]
          exact List.cons_ne_nil _ _
      · exact absurd (List.any_eq_true.mpr ⟨myTag, entryAt_mem htag, decide_eq_true rfl⟩) hany
    obtain ⟨d, hd⟩ := List.exists_mem_of_ne_nil _ hpending
    rw [← hgain] at hd
    exact .inr ⟨d, List.mem_append.mpr (.inl (List.mem_append.mpr (.inr
      ((pass.part isPart_pending).mpr ⟨ev, hev, hd⟩)))), ((origin_gain p me ev).pending d hd).2.1⟩
  | inr kemCts =>
    simp only [hcts] at hscan
    obtain ⟨-, chunkCount, acceptedCount, hkem⟩ := kemCtsOf_batch hkind hcts
    obtain ⟨kem, opened, hkemAt, hopened, hcommit, hrun⟩ := hopen chunkCount acceptedCount kemCts hkem
    let c := draftOf p me ev .consumer leafIndex opened.value opened.salt
    have hc : c ∈ (gain (scanConsumerSlice p me ev eph nonce tags myTag kemCts) slice).accepted := by
      have hplace : placeOpened p me ev slice leafIndex opened = { accepted := [c] } := by
        have hcommit' : c.commitment = leaf := hcommit
        simp only [placeOpened, hkind, if_true, hrun, ← hcommit', c]
      rw [Client.gain_ok (scanConsumerSlice_opened hleaf helts htag hkemAt hopened), hplace]
      exact List.mem_cons_self
    refine .inl ⟨c, List.mem_append.mpr (.inl ((pass.part isPart_accepted).mpr ⟨ev, hev, ?_⟩)), hcommit⟩
    rw [isPart_accepted.collect hscan, List.mem_flatMap]
    exact ⟨slice, hslice, hc⟩

theorem Pass.shown (pass : Pass p me io prev maxPages) (hev : ev ∈ pass.scanned) {leafIndex leaf : ℕ}
    (hshown : Shown p me io ev leafIndex leaf) :
    (∃ c ∈ pass.fresh, c.commitment = leaf) ∨ ∃ d ∈ pass.unsettled, d.seq = ev.seq := by
  cases hinc : incompleteDisclosure ev with
  | true =>
    have hscan := pass.gain_ok hev
    simp only [scanEvent, hinc, if_true, Except.ok.injEq] at hscan
    refine .inr ⟨⟨ev.seq, ev.txHash, ev.batchId, .disclosureIncomplete⟩, ?_, rfl⟩
    refine List.mem_append.mpr (.inl (List.mem_append.mpr (.inr
      ((pass.part isPart_pending).mpr ⟨ev, hev, ?_⟩))))
    rw [← hscan]
    exact List.mem_cons_self
  | false =>
    rcases hshown with h | h | h
    · rw [hinc] at h
      cases h
    · exact pass.shown_enterprise hev h
    · exact pass.shown_consumer hev hinc h

theorem Pass.Gives.note {pass : Pass p me io prev maxPages} (hnext : pass.Gives next) {n : ScanNote}
    (hn : n ∈ mergeNotes prev.notes pass.fresh) : ∃ n' ∈ next.notes, n'.commitment = n.commitment := by
  refine ⟨{ n with spent := decide (n.nullifier ∈ pass.spent) }, ?_, rfl⟩
  rw [hnext.notes, mem_applySpent]
  exact ⟨rfl, n, hn, rfl⟩

theorem Pass.Gives.unsettled {pass : Pass p me io prev maxPages} (hnext : pass.Gives next)
    {d : PendingDiscovery} (hd : d ∈ pass.unsettled) : ∃ d' ∈ next.pending, d'.seq = d.seq := by
  rw [hnext.pending]
  exact dedupePending_covers hd

theorem Pass.quiet {pass : Pass p me io prev maxPages} (hnext : pass.Gives next)
    (hprev : ∀ d ∈ prev.pending, d.status ≠ .enterpriseBatchGated)
    (hread : ∀ ev ∈ pass.scanned, Readable io ev) :
    ∀ d ∈ next.pending, d.status ≠ .enterpriseBatchGated := by
  intro d hd
  rw [hnext.pending] at hd
  rcases List.mem_append.mp (mem_dedupePending hd) with hd | hd
  · rcases List.mem_append.mp hd with hd | hd
    · exact hprev d (List.mem_filter.mp hd).1
    · obtain ⟨ev, -, hd⟩ := (pass.part isPart_pending).mp hd
      exact ((origin_gain p me ev).pending d hd).2.2
  · obtain ⟨c, hc, hgate⟩ := List.mem_filterMap.mp hd
    obtain ⟨ev, hev, hc⟩ := (pass.part isPart_candidates).mp hc
    rw [(hread ev hev).ungated (pass.gain_ok hev) hc] at hgate
    exact nomatch hgate

section Run

variable {leaf : ℕ → ℕ} {outputs : ℕ → List ℕ} {scans : List Scan} {scan : Scan}

theorem ScannedIn.snoc {scan' : Scan} (h : ScannedIn p me scans scan ev) :
    ScannedIn p me (scans ++ [scan']) scan ev := by
  obtain ⟨pre, post, rfl, hrest⟩ := h
  exact ⟨pre, post ++ [scan'], by simp, hrest⟩

theorem scannedIn_last (hrun : runSelfScan p me scan.io (scanAll p me scans) scan.maxPages = .ok next)
    {pass : Pass p me scan.io (scanAll p me scans) scan.maxPages} (hev : ev ∈ pass.scanned) :
    ScannedIn p me (scans ++ [scan]) scan ev :=
  ⟨scans, [], rfl, ⟨next, hrun⟩, by rwa [pass.window_eq]⟩

-- An event of a longer run was scanned before its last scan, or by it.
theorem ScannedIn.cases {scan' : Scan} (h : ScannedIn p me (scans ++ [scan']) scan ev) :
    ScannedIn p me scans scan ev ∨ scan = scan' ∧
      (∃ next, runSelfScan p me scan.io (scanAll p me scans) scan.maxPages = .ok next) ∧
      ev ∈ window scan.io (scanAll p me scans) scan.maxPages := by
  obtain ⟨pre, post, hsplit, hrun, hev⟩ := h
  rcases List.eq_nil_or_concat post with rfl | ⟨post, last, rfl⟩
  · obtain ⟨rfl, hscan⟩ := List.append_inj' hsplit rfl
    obtain rfl : scan' = scan := by simpa using hscan
    exact .inr ⟨rfl, hrun, hev⟩
  · refine .inl ⟨pre, post, ?_, hrun, hev⟩
    have hsplit' : scans ++ [scan'] = (pre ++ scan :: post) ++ [last] := by simpa using hsplit
    exact (List.append_inj' hsplit' rfl).1

theorem scanAll_ok (hrun : runSelfScan p me scan.io (scanAll p me scans) scan.maxPages = .ok next) :
    scanAll p me (scans ++ [scan]) = next := by
  simp [scanAll_snoc, scanOnce, hrun, Except.toOption]

theorem scanAll_error {e : RunError}
    (hrun : runSelfScan p me scan.io (scanAll p me scans) scan.maxPages = .error e) :
    scanAll p me (scans ++ [scan]) = scanAll p me scans := by
  simp [scanAll_snoc, scanOnce, hrun, Except.toOption]

theorem quiet_scanAll (hread : ∀ scan ev, ScannedIn p me scans scan ev → Readable scan.io ev) :
    ∀ d ∈ (scanAll p me scans).pending, d.status ≠ .enterpriseBatchGated := by
  induction scans using List.reverseRecOn with
  | nil => exact fun d hd => absurd hd List.not_mem_nil
  | append_singleton scans scan ih =>
    have hprev := ih fun s ev h => hread s ev h.snoc
    cases hrun : runSelfScan p me scan.io (scanAll p me scans) scan.maxPages with
    | ok next =>
      obtain ⟨pass, hnext⟩ := runSelfScan_ok hrun
      rw [scanAll_ok hrun]
      exact Pass.quiet hnext hprev fun ev hev => hread scan ev (scannedIn_last hrun hev)
    | error e =>
      rw [scanAll_error hrun]
      exact hprev

theorem kept_step (hrun : runSelfScan p me scan.io (scanAll p me scans) scan.maxPages = .ok next)
    (hshown : ∀ ev, ScannedIn p me (scans ++ [scan]) scan ev → ∀ leafIndex ∈ outputs ev.seq,
      Addressed p me leaf leafIndex → Shown p me scan.io ev leafIndex (leaf leafIndex))
    {leafIndex : ℕ} (haddressed : Addressed p me leaf leafIndex) (hout : leafIndex ∈ outputs ev.seq)
    (h : (∃ n ∈ (scanAll p me scans).notes, n.commitment = leaf leafIndex) ∨
      (∃ d ∈ (scanAll p me scans).pending, d.seq = ev.seq) ∨
      ev ∈ window scan.io (scanAll p me scans) scan.maxPages) :
    (∃ n ∈ next.notes, n.commitment = leaf leafIndex) ∨ ∃ d ∈ next.pending, d.seq = ev.seq := by
  obtain ⟨pass, hnext⟩ := runSelfScan_ok hrun
  have hscanned : ∀ ev' ∈ pass.scanned, ev'.seq = ev.seq →
      (∃ n ∈ next.notes, n.commitment = leaf leafIndex) ∨ ∃ d ∈ next.pending, d.seq = ev.seq := by
    intro ev' hev' hseq
    have hshown' := hshown ev' (scannedIn_last hrun hev') leafIndex (hseq ▸ hout) haddressed
    rcases pass.shown hev' hshown' with ⟨c, hc, hcommit⟩ | ⟨d, hd, hdseq⟩
    · obtain ⟨n, hn, hnc⟩ := mergeNotes_covers (scanAll p me scans).notes hc
      obtain ⟨n', hn', hnc'⟩ := hnext.note hn
      exact .inl ⟨n', hn', by rw [hnc', hnc, hcommit]⟩
    · obtain ⟨d', hd', hdseq'⟩ := hnext.unsettled hd
      exact .inr ⟨d', hd', by rw [hdseq', hdseq, hseq]⟩
  rcases h with ⟨n, hn, hnc⟩ | ⟨d, hd, hseq⟩ | hev
  · obtain ⟨n', hn', hnc'⟩ := hnext.note (List.mem_append.mpr (.inl hn))
    exact .inl ⟨n', hn', hnc'.trans hnc⟩
  · cases hread : rereadOf scan.io d with
    | none =>
      obtain ⟨d', hd', hdseq'⟩ := hnext.unsettled (List.mem_append.mpr (.inl (List.mem_append.mpr
        (.inl (List.mem_filter.mpr ⟨hd, by simpa using hread⟩)))))
      exact .inr ⟨d', hd', hdseq'.trans hseq⟩
    | some ev' =>
      exact hscanned ev' (mem_scanned.mpr (.inl ⟨d, hd, hread⟩)) ((rereadOf_some hread).1.trans hseq)
  · rw [pass.window_eq] at hev
    exact hscanned ev hev rfl

theorem kept_scanAll_pending (hshown : ∀ scan ev, ScannedIn p me scans scan ev →
      ∀ leafIndex ∈ outputs ev.seq, Addressed p me leaf leafIndex →
      Shown p me scan.io ev leafIndex (leaf leafIndex))
    (hscanned : ScannedIn p me scans scan ev) {leafIndex : ℕ} (hout : leafIndex ∈ outputs ev.seq)
    (haddressed : Addressed p me leaf leafIndex) :
    (∃ n ∈ (scanAll p me scans).notes, n.commitment = leaf leafIndex) ∨
      ∃ d ∈ (scanAll p me scans).pending, d.seq = ev.seq := by
  induction scans using List.reverseRecOn with
  | nil =>
    obtain ⟨pre, post, hsplit, -⟩ := hscanned
    simp at hsplit
  | append_singleton scans last ih =>
    have hprev := ih fun s ev' h => hshown s ev' h.snoc
    cases hrun : runSelfScan p me last.io (scanAll p me scans) last.maxPages with
    | ok next =>
      rw [scanAll_ok hrun]
      refine kept_step hrun (fun ev' h => hshown last ev' h) haddressed hout ?_
      rcases hscanned.cases with h | ⟨rfl, -, hev⟩
      · rcases hprev h with hnote | hpending
        · exact .inl hnote
        · exact .inr (.inl hpending)
      · exact .inr (.inr hev)
    | error e =>
      rw [scanAll_error hrun]
      rcases hscanned.cases with h | ⟨rfl, ⟨next, hnext⟩, -⟩
      · exact hprev h
      · rw [hrun] at hnext
        exact nomatch hnext

end Run

theorem gated_pending_sound {leaf : ℕ → ℕ} {outputs : ℕ → List ℕ} {scans : List Scan}
    (h : Disclosed p me leaf outputs scans) : GatedSound p me leaf outputs scans where
  quiet hstrangers := quiet_scanAll (h.readable hstrangers)
  kept _ _ hscanned _ hout haddressed := kept_scanAll_pending h.shown hscanned hout haddressed

section Sample

-- One enterprise batch with one note, and a server that answers no path of its leaves.
def sampleDisburse (owner : ℕ) : FeedEvent where
  seq := 0
  txHash := 100
  blockNumber := 1
  kind := .disburse
  epoch := some 0
  ecdhPublicKey := some (1, 1)
  encryptionNonce := some 3
  slices := [⟨0, 4, some 0⟩]
  ciphertext := plainPrimitives.poseidonEncrypt [5, 7] (owner, owner) 3
  disclosure := none
  announcement := none
  viewTags := none
  kemCiphertexts := none
  batchId := none
  outputCommitments := none
  kem := none

def sampleGated (owner : ℕ) : Scan := ⟨serverIo ⟨0, 1⟩ [sampleDisburse owner] (fun _ => none) [], 40⟩

def sampleLeaf (owner : ℕ) (_ : ℕ) : ℕ :=
  plainPrimitives.commitment 5 7 (plainPrimitives.publicKey owner)

theorem strangers_not_addressed (leafIndex : ℕ) :
    ¬Addressed plainPrimitives sampleIdentity (sampleLeaf 2) leafIndex := by
  rintro ⟨value, salt, h⟩
  simp [sampleLeaf, Primitives.commitment, Primitives.publicKey, plainPrimitives, sampleIdentity,
    Nat.pair_eq_pair] at h

theorem gated_pending_not_sound :
    ¬GatedSound plainPrimitives sampleIdentity (sampleLeaf 2) (fun _ => [0]) [sampleGated 2] := by
  intro h
  have hquiet := h.quiet fun _ _ _ _ leafIndex _ => strangers_not_addressed leafIndex
  have hgated : ∃ d ∈ (scanAll plainPrimitives sampleIdentity [sampleGated 2]).pending,
      d.status = .enterpriseBatchGated := by
    decide +kernel
  obtain ⟨d, hd, hstatus⟩ := hgated
  exact hquiet d hd hstatus

theorem scannedIn_sample {owner : ℕ} {scan : Scan} {ev : FeedEvent}
    (h : ScannedIn plainPrimitives sampleIdentity [sampleGated owner] scan ev) :
    scan = sampleGated owner ∧ ev = sampleDisburse owner := by
  obtain ⟨pre, post, hsplit, -, hev⟩ := h
  cases pre with
  | cons first pre => simp at hsplit
  | nil =>
    obtain ⟨rfl, rfl⟩ := List.cons.inj hsplit
    exact ⟨rfl, List.mem_singleton.mp hev⟩

-- The wallet's own batch with no path readable stays pending.
theorem gated_pending_sound_own :
    GatedSound plainPrimitives sampleIdentity (sampleLeaf 11) (fun _ => [0]) [sampleGated 11] := by
  have hmine : ∀ leafIndex, Addressed plainPrimitives sampleIdentity (sampleLeaf 11) leafIndex :=
    fun _ => ⟨5, 7, rfl⟩
  have hscanned : ScannedIn plainPrimitives sampleIdentity [sampleGated 11] (sampleGated 11)
      (sampleDisburse 11) := by
    refine ⟨[], [], rfl, ?_, List.mem_singleton.mpr rfl⟩
    have hok : (runSelfScan plainPrimitives sampleIdentity (sampleGated 11).io
        (scanAll plainPrimitives sampleIdentity []) 40).toOption.isSome = true := by
      decide +kernel
    cases hrun : runSelfScan plainPrimitives sampleIdentity (sampleGated 11).io
        (scanAll plainPrimitives sampleIdentity []) 40 with
    | ok next => exact ⟨next, hrun⟩
    | error e => simp [hrun, Except.toOption] at hok
  refine gated_pending_sound ⟨fun hstrangers => ?_, ?_⟩
  · exact absurd (hmine 0) (hstrangers _ _ hscanned rfl 0 (by simp))
  · intro scan ev h leafIndex hout _
    obtain ⟨rfl, rfl⟩ := scannedIn_sample h
    obtain rfl := List.mem_singleton.mp hout
    refine .inr (.inl ⟨rfl, (1, 1), 3, ⟨0, 4, some 0⟩, rfl, rfl, ⟨by simp [sampleDisburse], rfl, rfl, ?_⟩,
      ⟨3, by simp [tryNonces], ?_⟩, fun _ hread => by cases hread⟩)
    · decide +kernel
    · decide +kernel

end Sample

end Bongtu.Client