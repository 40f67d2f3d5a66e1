import Bongtu.Client.Pass

namespace Bongtu.Client

open Bongtu.Core Outcome

-- What the server may have served for an event before it served the final one: a batch without its
-- disclosure, or without all of its kem ciphertexts.
def Earlier (ev' ev : FeedEvent) : Prop :=
  ev' = ev ∨ ev'.seq = ev.seq ∧ ev.kind = .disbursePriv ∧
    (incompleteDisclosure ev' = true ∨
      ∃ kem, ev' = { ev with kem := kem } ∧
        ∀ chunkCount acceptedCount kemCts, kem ≠ some ⟨.complete, chunkCount, acceptedCount, some kemCts⟩)

-- `leaf` is the commitment the feed and the paths serve for a leaf index.
structure Feed (p : Primitives) (me : Identity) where
  events : List FeedEvent
  leaf : ℕ → ℕ
  seqs : ∀ ev ∈ events, ∀ ev' ∈ events, ev.seq = ev'.seq → ev = ev'
  slots : ∀ ev ∈ events, ∀ ev' ∈ events, ∀ slice ∈ ev.slices, ∀ slice' ∈ ev'.slices,
    ∀ leafIndex, slice.leafIndex = some leafIndex → slice'.leafIndex = some leafIndex → ev = ev'
  run : ∀ ev ∈ events, ev.kind = .disbursePriv → ∀ slice ∈ ev.slices, ∀ leafIndex,
    slice.leafIndex = some leafIndex → ∀ commitment,
      (ev.outputCommitments.bind fun run => entryAt run slice) = some commitment →
      commitment = leaf leafIndex
  distinct : ∀ i j value salt, leaf i = p.commitment value salt (p.publicKey me.spendPriv) →
    leaf i = leaf j → i = j

variable {p : Primitives} {me : Identity}

def Feed.pathLeaf (feed : Feed p me) (leafIndex : ℕ) : Prop :=
  ∃ ev ∈ feed.events, ev.kind ≠ .disbursePriv ∧ ∃ slice ∈ ev.slices, slice.leafIndex = some leafIndex

-- The reads of a scan while the feed grows: any of them may fail, a page skips no event before its
-- last, and a path that is returned leads from its leaf to its root.
structure Serves (feed : Feed p me) (io : SelfScanIo) : Prop where
  known : ∀ n cursor page, io.events n cursor = some page → ∀ ev' ∈ page,
    ∃ ev ∈ feed.events, Earlier ev' ev
  gapless : ∀ n cursor page, io.events n cursor = some page → ∀ ev ∈ feed.events, cursor < ev.seq →
    ∀ last ∈ page, ev.seq ≤ last.seq → ∃ ev' ∈ page, Earlier ev' ev
  reread : ∀ seq served, io.reread seq = some served → ∀ ev' ∈ served,
    ∃ ev ∈ feed.events, Earlier ev' ev
  path : ∀ leafIndex read, feed.pathLeaf leafIndex → io.path leafIndex = some read →
    foldToRoot (poseidon2 p) (feed.leaf leafIndex) read.siblings leafIndex = read.root

-- The reads of a scan that fails nowhere and is served the final feed.
structure ServesFinal (feed : Feed p me) (path : ℕ → Option PathResult) (spent : List ℕ)
    (io : SelfScanIo) : Prop where
  serves : Serves feed io
  head : io.head ≠ none
  known : ∀ n cursor page, io.events n cursor = some page → ∀ ev ∈ page, ev ∈ feed.events
  gapless : ∀ n cursor page, io.events n cursor = some page → ∀ ev ∈ feed.events, cursor < ev.seq →
    ∀ last ∈ page, ev.seq ≤ last.seq → ev ∈ page
  nonempty : ∀ n cursor page, io.events n cursor = some page → ∀ ev ∈ feed.events, cursor < ev.seq →
    ∃ ev' ∈ page, cursor < ev'.seq
  reread : ∀ ev ∈ feed.events, ∃ served, io.reread ev.seq = some served ∧
    (served.find? fun e => e.seq = ev.seq) = some ev
  path : io.path = path
  nullifiers : io.nullifiers = some spent

structure CollisionFree (p : Primitives) : Prop where
  node : Function.Injective2 (poseidon2 p)
  commitment : ∀ value salt value' salt' key,
    p.commitment value salt key = p.commitment value' salt' key → value = value' ∧ salt = salt'

-- After a failed read or many, a last scan to the end of the feed agrees with one scan from nothing.
theorem Drained.exhausted_final {feed : Feed p me} {path : ℕ → Option PathResult} {spent : List ℕ}
    (hio : ServesFinal feed path spent io) (h : Drained io cursor got true) {ev : FeedEvent}
    (hev : ev ∈ feed.events) (hlt : cursor < ev.seq) : ev ∈ got := by
  generalize hex : true = ex at h
  induction h with
  | capped cursor => exact nomatch hex
  | exhausted n cursor served hserved hpast =>
    obtain ⟨e, he, hes⟩ := hio.nonempty n cursor served hserved ev hev hlt
    exact absurd (hpast e he) (not_le.mpr hes)
  | page n cursor served got ex hserved hgot ih =>
    rcases lt_or_ge (topOf (served.filter fun e => cursor < e.seq) cursor) ev.seq with hnext | hnext
    · exact List.mem_append.mpr (.inr (ih hnext hex))
    · rcases topOf_cases (served.filter fun e => cursor < e.seq) cursor with htop | ⟨top, hmem, htop⟩
      · omega
      · have hpage := hio.gapless n cursor served hserved ev hev hlt top (List.mem_filter.mp hmem).1
          (by omega)
        exact List.mem_append.mpr (.inl (List.mem_filter.mpr ⟨hpage, decide_eq_true hlt⟩))

theorem Earlier.seq {ev' ev : FeedEvent} (h : Earlier ev' ev) : ev'.seq = ev.seq := by
  rcases h with rfl | ⟨hseq, -, -⟩
  · rfl
  · exact hseq

def Silent (found : Found) : Prop :=
  found.accepted = [] ∧ found.candidates = [] ∧ found.pending = []

theorem silent_collect {α : Type} {f : α → Except ScanError Found} {xs : List α}
    (h : ∀ x ∈ xs, ∃ found, f x = .ok found ∧ Silent found) :
    ∃ found, collect f xs = .ok found ∧ Silent found := by
  have hgain : ∀ x ∈ xs, f x = .ok (gain f x) ∧ Silent (gain f x) := by
    intro x hx
    obtain ⟨found, hfound, hsilent⟩ := h x hx
    rw [gain_ok hfound]
    exact ⟨hfound, hsilent⟩
  have hok := collect_ok fun x hx => (hgain x hx).1
  refine ⟨_, hok, ?_, ?_, ?_⟩
  · rw [isPart_accepted.collect hok, List.flatMap_eq_nil_iff]
    exact fun x hx => (hgain x hx).2.1
  · rw [isPart_candidates.collect hok, List.flatMap_eq_nil_iff]
    exact fun x hx => (hgain x hx).2.2.1
  · rw [isPart_pending.collect hok, List.flatMap_eq_nil_iff]
    exact fun x hx => (hgain x hx).2.2.2

theorem scanConsumerSlice_silent {ev : FeedEvent} {eph : Point} {nonce : ℕ} {tags : List ℕ}
    {myTag : ℕ} (htag : myTag ∉ tags) (kemCts : List Bytes) (slice : Slice) :
    ∃ found, scanConsumerSlice p me ev eph nonce tags myTag kemCts slice = .ok found ∧
      Silent found := by
  unfold scanConsumerSlice
  cases slice.leafIndex with
  | none => exact ⟨{}, rfl, rfl, rfl, rfl⟩
  | some leafIndex =>
    have hentry : entryAt tags slice ≠ some myTag := fun h => htag (entryAt_mem h)
    rcases em (slice.elts ≠ consumerCtLen) with helts | helts
    · exact ⟨{}, by simp only [if_pos helts], rfl, rfl, rfl⟩
    · exact ⟨{ stats := { consumerSlices := 1 } }, by simp only [if_neg helts, if_pos hentry],
        rfl, rfl, rfl⟩

theorem kemCtsOf_notMem {ev : FeedEvent} {tags : List ℕ} {myTag : ℕ} (hkind : ev.kind = .disbursePriv)
    (hserved : ¬(ev.outputCommitments = none ∨ ev.slices = [])) (htags : myTag ∉ tags) :
    kemCtsOf ev tags myTag = .inl {} ∨ ∃ kemCts, kemCtsOf ev tags myTag = .inr kemCts := by
  unfold kemCtsOf
  rw [if_neg (by simp [hkind]), if_neg hserved]
  split
  · exact .inr ⟨_, rfl⟩
  · exact .inl (if_neg (by simpa using htags))

-- Without its ciphertexts a batch event is pending, or shows no tag of the wallet.
theorem kemCtsOf_kem {ev : FeedEvent} {kem : Option KemTransport} (tags : List ℕ) (myTag : ℕ)
    (hkind : ev.kind = .disbursePriv)
    (hkem : ∀ chunkCount acceptedCount kemCts,
      kem ≠ some ⟨.complete, chunkCount, acceptedCount, some kemCts⟩) :
    (∃ found, kemCtsOf { ev with kem := kem } tags myTag = .inl found ∧ found.pending ≠ []) ∨
    kemCtsOf { ev with kem := kem } tags myTag = .inl {} ∧ myTag ∉ tags ∧
      ¬(ev.outputCommitments = none ∨ ev.slices = []) := by
  unfold kemCtsOf
  rw [if_neg (by simp [hkind])]
  rcases em (ev.outputCommitments = none ∨ ev.slices = []) with hserved | hserved
  · rw [if_pos hserved]
    exact .inl ⟨_, rfl, by simp [pendingOf]⟩
  · rw [if_neg hserved]
    split
    · case h_1 heq => exact absurd heq (hkem _ _ _)
    · rcases em (myTag ∈ tags) with htags | htags
      · rw [if_pos (by simpa using htags)]
        exact .inl ⟨_, rfl, by simp [pendingOf]⟩
      · rw [if_neg (by simpa using htags)]
        exact .inr ⟨rfl, htags, hserved⟩

theorem scanConsumer_kem {ev : FeedEvent} {kem : Option KemTransport} {eph : Point} {nonce : ℕ}
    {tags : List ℕ} {found : Found} (hkind : ev.kind = .disbursePriv)
    (hkem : ∀ chunkCount acceptedCount kemCts,
      kem ≠ some ⟨.complete, chunkCount, acceptedCount, some kemCts⟩)
    (h : scanConsumer p me { ev with kem := kem } eph nonce tags = .ok found) :
    found.pending ≠ [] ∨ found = {} ∧ ∃ silent, scanConsumer p me ev eph nonce tags = .ok silent ∧
      Silent silent := by
  simp only [scanConsumer, bind_ok] at h
  obtain ⟨myTag, htag, h⟩ := h
  obtain ⟨found', hcts, hpending⟩ | ⟨hcts, htags, hserved⟩ :=
    kemCtsOf_kem tags myTag hkind hkem
  · rw [hcts] at h
    cases h
    exact .inl hpending
  · rw [hcts] at h
    cases h
    refine .inr ⟨rfl, ?_⟩
    simp only [scanConsumer, htag]
    rcases kemCtsOf_notMem hkind hserved htags with hev | ⟨kemCts, hev⟩
    · exact ⟨{}, by rw [bind_ok]; exact ⟨myTag, rfl, by rw [hev]; rfl⟩, rfl, rfl, rfl⟩
    · have hslices : ∀ slice ∈ ev.slices, ∃ found,
          scanConsumerSlice p me ev eph nonce tags myTag kemCts slice = .ok found ∧ Silent found :=
        fun slice _ => scanConsumerSlice_silent htags kemCts slice
      obtain ⟨silent, hok, hsilent⟩ := silent_collect hslices
      exact ⟨silent, by rw [bind_ok]; exact ⟨myTag, rfl, by rw [hev]; exact hok⟩, hsilent⟩

theorem scanEvent_earlier {ev' ev : FeedEvent} {found : Found} (hearlier : Earlier ev' ev)
    (h : scanEvent p me ev' = .ok found) :
    ev' = ev ∨ found.pending ≠ [] ∨ found = {} ∧ ∃ silent, scanEvent p me ev = .ok silent ∧
      Silent silent := by
  rcases hearlier with rfl | ⟨-, hkind, hinc | ⟨kem, rfl, hkem⟩⟩
  · exact .inl rfl
  · refine .inr (.inl ?_)
    simp only [scanEvent, hinc, if_true, Except.ok.injEq] at h
    rw [← h]
    exact List.cons_ne_nil _ _
  · refine .inr ?_
    have hinc : incompleteDisclosure { ev with kem := kem } = incompleteDisclosure ev := rfl
    have hconsumer : ev.kind.isConsumer = true := by rw [hkind]; rfl
    unfold scanEvent at h ⊢
    rw [hinc] at h
    split_ifs at h ⊢
    · cases h
      exact .inl (List.cons_ne_nil _ _)
    · cases heph : ev.ecdhPublicKey with
      | none =>
        simp only [heph, Except.ok.injEq] at h
        exact .inr ⟨h.symm, {}, rfl, rfl, rfl, rfl⟩
      | some eph =>
        cases hnonce : ev.encryptionNonce with
        | none =>
          simp only [heph, hnonce, Except.ok.injEq] at h
          exact .inr ⟨h.symm, {}, rfl, rfl, rfl, rfl⟩
        | some nonce =>
          simp only [heph, hnonce] at h ⊢
          cases htags : ev.viewTags with
          | none =>
            simp only [htags, Except.ok.injEq] at h
            exact .inr ⟨h.symm, {}, rfl, rfl, rfl, rfl⟩
          | some tags =>
            simp only [htags] at h ⊢
            exact scanConsumer_kem hkind hkem h

-- What the events of the final feed give against the final paths.
def foundIn (p : Primitives) (me : Identity) (path : ℕ → Option PathResult) (ev : FeedEvent) :
    List ScanCandidate :=
  (gain (scanEvent p me) ev).accepted ++ (gain (scanEvent p me) ev).candidates.filter (confirms p path)

section Valid

variable {feed : Feed p me} {path : ℕ → Option PathResult}

def Honest (feed : Feed p me) (path : ℕ → Option PathResult) : Prop :=
  ∀ leafIndex read, feed.pathLeaf leafIndex → path leafIndex = some read →
    foldToRoot (poseidon2 p) (feed.leaf leafIndex) read.siblings leafIndex = read.root

theorem Honest.confirms_iff (hpath : Honest feed path) (hfree : CollisionFree p) {c : ScanCandidate}
    (hleaf : feed.pathLeaf c.leafIndex) :
    confirms p path c = true ↔ path c.leafIndex ≠ none ∧ c.commitment = feed.leaf c.leafIndex := by
  cases hread : path c.leafIndex with
  | none => simp [confirms, hread]
  | some read =>
    have hfold := hpath c.leafIndex read hleaf hread
    simp only [confirms, hread, Option.any_some, pathConfirmsLeaf, decide_eq_true_eq, ne_eq,
      reduceCtorEq, not_false_eq_true, true_and]
    rw [← hfold]
    exact ⟨fun h => foldToRoot_injective hfree.node h, fun h => by rw [h]⟩

theorem mem_foundIn {ev : FeedEvent} {c : ScanCandidate} : c ∈ foundIn p me path ev ↔
    c ∈ (gain (scanEvent p me) ev).accepted ∨
      c ∈ (gain (scanEvent p me) ev).candidates ∧ confirms p path c = true := by
  simp [foundIn]

theorem Origin.pathLeaf {ev : FeedEvent} {found : Found} (h : Origin p me ev found)
    (hev : ev ∈ feed.events) {c : ScanCandidate} (hc : c ∈ found.candidates) :
    feed.pathLeaf c.leafIndex := by
  obtain ⟨hkind, slice, hslice, hdraws⟩ := h.candidates c hc
  exact ⟨ev, hev, hkind, slice, hslice, hdraws.fields.1⟩

theorem Feed.found_leaf (hfree : CollisionFree p) (hpath : Honest feed path) {ev : FeedEvent}
    (hev : ev ∈ feed.events) {c : ScanCandidate} (hc : c ∈ foundIn p me path ev) :
    c.commitment = feed.leaf c.leafIndex := by
  rcases mem_foundIn.mp hc with hc | ⟨hc, hconf⟩
  · obtain ⟨hkind, slice, hslice, hdraws, hrun⟩ := (origin_gain p me ev).accepted c hc
    exact feed.run ev hev hkind slice hslice c.leafIndex hdraws.fields.1 c.commitment hrun
  · exact ((hpath.confirms_iff hfree ((origin_gain p me ev).pathLeaf hev hc)).mp hconf).2

theorem Feed.found_unique (hfree : CollisionFree p) (hpath : Honest feed path) {ev ev' : FeedEvent}
    (hev : ev ∈ feed.events) (hev' : ev' ∈ feed.events) {c c' : ScanCandidate}
    (hc : c ∈ foundIn p me path ev) (hc' : c' ∈ foundIn p me path ev')
    (heq : c.commitment = c'.commitment) : c = c' := by
  have hin : ∀ {ev c}, c ∈ foundIn p me path ev → ∃ slice ∈ ev.slices, Draws p me ev slice c :=
    fun h => ((origin_gain p me _).fields ((mem_foundIn.mp h).imp id And.left)).2.2.2
  obtain ⟨slice, hslice, hdraws⟩ := hin hc
  obtain ⟨slice', hslice', hdraws'⟩ := hin hc'
  have hleaf := feed.found_leaf hfree hpath hev hc
  have hleaf' := feed.found_leaf hfree hpath hev' hc'
  have hindex : c.leafIndex = c'.leafIndex :=
    feed.distinct _ _ c.value c.salt (hleaf ▸ hdraws.fields.2.2.2.2) (by rw [← hleaf, ← hleaf', heq])
  have hevent : ev = ev' := feed.slots ev hev ev' hev' slice hslice slice' hslice' c.leafIndex
    hdraws.fields.1 (hindex ▸ hdraws'.fields.1)
  subst hevent
  obtain ⟨leafIndex, value, salt, -, rfl⟩ := hdraws
  obtain ⟨leafIndex', value', salt', -, rfl⟩ := hdraws'
  obtain ⟨rfl, rfl⟩ := hfree.commitment _ _ _ _ _ heq
  obtain rfl : leafIndex = leafIndex' := hindex
  rfl

end Valid

-- A server that holds a version of each event of the feed.
def serverIo (head : Head) (held : List FeedEvent) (path : ℕ → Option PathResult) (spent : List ℕ) :
    SelfScanIo where
  head := some head
  events _ cursor := some (held.filter fun e => cursor < e.seq)
  reread seq := some (held.filter fun e => e.seq = seq)
  path := path
  nullifiers := some spent

section Server

variable {feed : Feed p me} {head : Head} {held : List FeedEvent} {path : ℕ → Option PathResult}
  {spent : List ℕ}

theorem serves_serverIo (hknown : ∀ ev' ∈ held, ∃ ev ∈ feed.events, Earlier ev' ev)
    (hall : ∀ ev ∈ feed.events, ∃ ev' ∈ held, Earlier ev' ev) (hpath : Honest feed path) :
    Serves feed (serverIo head held path spent) where
  known n cursor page hpage ev' hev' := by
    cases hpage
    exact hknown ev' (List.mem_filter.mp hev').1
  gapless n cursor page hpage ev hev hlt last hlast hle := by
    cases hpage
    obtain ⟨ev', hheld, hearlier⟩ := hall ev hev
    exact ⟨ev', List.mem_filter.mpr ⟨hheld, by simpa [hearlier.seq] using hlt⟩, hearlier⟩
  reread seq served hserved ev' hev' := by
    cases hserved
    exact hknown ev' (List.mem_filter.mp hev').1
  path := hpath

theorem servesFinal_serverIo (hpath : Honest feed path) :
    ServesFinal feed path spent (serverIo head feed.events path spent) where
  serves := serves_serverIo (fun ev hev => ⟨ev, hev, .inl rfl⟩) (fun ev hev => ⟨ev, hev, .inl rfl⟩) hpath
  head := by simp [serverIo]
  known n cursor page hpage ev hev := by
    cases hpage
    exact (List.mem_filter.mp hev).1
  gapless n cursor page hpage ev hev hlt last hlast hle := by
    cases hpage
    exact List.mem_filter.mpr ⟨hev, decide_eq_true hlt⟩
  nonempty n cursor page hpage ev hev hlt := by
    cases hpage
    exact ⟨ev, List.mem_filter.mpr ⟨hev, decide_eq_true hlt⟩, hlt⟩
  reread ev hev := by
    refine ⟨_, rfl, ?_⟩
    cases hfind : (feed.events.filter fun e => e.seq = ev.seq).find? fun e => e.seq = ev.seq with
    | none =>
      have := List.find?_eq_none.mp hfind ev (List.mem_filter.mpr ⟨hev, by simp⟩)
      simp at this
    | some ev' =>
      have hmem := (List.mem_filter.mp (List.mem_of_find?_eq_some hfind)).1
      have hseq : ev'.seq = ev.seq := by simpa using List.find?_some hfind
      rw [feed.seqs ev' hmem ev hev hseq]
  path := rfl
  nullifiers := rfl

end Server

theorem collisionFree_plain : CollisionFree plainPrimitives where
  node a b c d h := by
    simp only [poseidon2, plainPrimitives] at h
    simpa [Nat.pair_eq_pair] using h
  commitment value salt value' salt' key h := by
    simp only [Primitives.commitment, plainPrimitives] at h
    simp [Nat.pair_eq_pair] at h
    exact h

def sampleIdentity : Identity := ⟨11, 13, []⟩

def sampleCommitment (value salt : ℕ) : ℕ :=
  plainPrimitives.commitment value salt (plainPrimitives.publicKey sampleIdentity.spendPriv)

end Bongtu.Client
