import Bongtu.Client.Serving

namespace Bongtu.Client

open Bongtu.Core Outcome

def Exhausts (io : SelfScanIo) (prev : SelfScanState) (maxPages : ℕ) : Prop :=
  ∃ drained, drain io maxPages 0 prev.cursor [] = .ok (drained, true)

def singleAppend (kind : EventKind) : Prop := kind ≠ .disburse ∧ kind ≠ .disbursePriv

-- A single-append note whose path read failed in the scan that first served its event.
def Missed (p : Primitives) (me : Identity) (scans : List Scan) (c : ScanCandidate) : Prop :=
  ∃ pre scan post, scans = pre ++ scan :: post ∧ singleAppend c.kind ∧
    (scanAll p me pre).cursor < c.seq ∧ (c.seq : ℤ) ≤ (scanAll p me (pre ++ [scan])).cursor ∧
    scan.io.path c.leafIndex = none

-- After a failed read or many, a last scan to the end of the feed agrees with one scan from nothing.
structure Resumed (p : Primitives) (me : Identity) (scans : List Scan)
    (final single : SelfScanState) : Prop where
  notes : ∀ n, n ∈ final.notes ↔ n ∈ single.notes ∧ ¬Missed p me scans n.toScanCandidate
  cursor : final.cursor = single.cursor
  pending : ∀ seq, (∃ d ∈ final.pending, d.seq = seq) ↔ ∃ d ∈ single.pending, d.seq = seq

structure Settled (p : Primitives) (me : Identity) (path : ℕ → Option PathResult)
    (lost : ScanCandidate → Prop) (notes : List ScanNote) (ev : FeedEvent) : Prop where
  scans : scanEvent p me ev = .ok (gain (scanEvent p me) ev)
  quiet : (gain (scanEvent p me) ev).pending = []
  ungated : ∀ c ∈ (gain (scanEvent p me) ev).candidates, gatedOf path c = none
  noted : ∀ c ∈ foundIn p me path ev, ¬lost c → ∃ n ∈ notes, n.toScanCandidate = c

-- The invariant of a resumed scan: every event up to the cursor is pending or settled.
structure Kept (feed : Feed p me) (path : ℕ → Option PathResult) (lost : ScanCandidate → Prop)
    (s : SelfScanState) : Prop where
  floor : -1 ≤ s.cursor
  top : s.cursor = -1 ∨ ∃ ev ∈ feed.events, s.cursor = ev.seq
  once : ∀ c, lost c → singleAppend c.kind ∧ (c.seq : ℤ) ≤ s.cursor
  pending : ∀ d ∈ s.pending, ∃ ev ∈ feed.events, ev.seq = d.seq ∧ (ev.seq : ℤ) ≤ s.cursor ∧
    ¬singleAppend ev.kind
  held : ∀ n ∈ s.notes, ∃ ev ∈ feed.events, (ev.seq : ℤ) ≤ s.cursor ∧
    n.toScanCandidate ∈ foundIn p me path ev ∧ ¬lost n.toScanCandidate
  settled : ∀ ev ∈ feed.events, (ev.seq : ℤ) ≤ s.cursor →
    (∃ d ∈ s.pending, d.seq = ev.seq) ∨ Settled p me path lost s.notes ev

section Step

variable {feed : Feed p me} {path : ℕ → Option PathResult} {lost : ScanCandidate → Prop}
  {io : SelfScanIo} {prev next : SelfScanState} {maxPages : ℕ}

-- An event of the final feed that a scan reaches is new to it or pending from an earlier one.
def Due (prev : SelfScanState) (ev : FeedEvent) : Prop :=
  prev.cursor < ev.seq ∨ (ev.seq : ℤ) ≤ prev.cursor ∧ ¬singleAppend ev.kind ∧
    ∃ d ∈ prev.pending, d.seq = ev.seq

theorem Kept.due_of_pending (hkept : Kept feed path lost prev) {ev : FeedEvent}
    (hev : ev ∈ feed.events) {d : PendingDiscovery} (hd : d ∈ prev.pending) (hseq : d.seq = ev.seq) :
    Due prev ev := by
  obtain ⟨ev₀, hev₀, hseq₀, hle, hkind⟩ := hkept.pending d hd
  obtain rfl := feed.seqs ev₀ hev₀ ev hev (hseq₀.trans hseq)
  exact .inr ⟨hle, hkind, d, hd, hseq⟩

theorem Pass.known (pass : Pass p me io prev maxPages) (hio : Serves feed io)
    (hkept : Kept feed path lost prev) {ev' : FeedEvent} (h : ev' ∈ pass.scanned) :
    ∃ ev ∈ feed.events, Earlier ev' ev ∧ Due prev ev := by
  rcases mem_scanned.mp h with ⟨d, hd, hread⟩ | hgot
  · obtain ⟨hseq, served, hserved, hmem⟩ := rereadOf_some hread
    obtain ⟨ev, hev, hearlier⟩ := hio.reread d.seq served hserved ev' hmem
    exact ⟨ev, hev, hearlier, hkept.due_of_pending hev hd (by rw [← hseq, hearlier.seq])⟩
  · obtain ⟨hlt, n, from', page, hpage, hmem⟩ := pass.drained_from.known ev' hgot
    obtain ⟨ev, hev, hearlier⟩ := hio.known n from' page hpage ev' hmem
    exact ⟨ev, hev, hearlier, .inl (hearlier.seq ▸ hlt)⟩

theorem Pass.top (pass : Pass p me io prev maxPages) (hnext : pass.Gives next) (hfloor : -1 ≤ prev.cursor) :
    next.cursor = prev.cursor ∨ ∃ ev ∈ pass.scanned, next.cursor = ev.seq := by
  rw [hnext.cursor]
  rcases topOf_cases pass.scanned (-1) with h | ⟨ev, hev, h⟩
  · exact .inl (max_eq_left (by rw [cursorOf]; exact h.trans_le hfloor))
  · rcases max_choice prev.cursor (cursorOf pass.scanned) with hmax | hmax
    · exact .inl hmax
    · exact .inr ⟨ev, hev, hmax.trans h⟩

theorem Pass.covers (pass : Pass p me io prev maxPages) (hnext : pass.Gives next) (hio : Serves feed io)
    (hkept : Kept feed path lost prev) {ev : FeedEvent} (hev : ev ∈ feed.events)
    (hle : (ev.seq : ℤ) ≤ next.cursor) :
    (∃ ev' ∈ pass.scanned, Earlier ev' ev) ∨
    (∃ d ∈ prev.pending, rereadOf io d = none ∧ d.seq = ev.seq) ∨
    Settled p me path lost prev.notes ev := by
  rcases le_or_gt (ev.seq : ℤ) prev.cursor with hold | hnew
  · rcases hkept.settled ev hev hold with ⟨d, hd, hseq⟩ | hsettled
    · cases hread : rereadOf io d with
      | none => exact .inr (.inl ⟨d, hd, hread, hseq⟩)
      | some ev' =>
        obtain ⟨hseq', served, hserved, hmem⟩ := rereadOf_some hread
        obtain ⟨ev₀, hev₀, hearlier⟩ := hio.reread d.seq served hserved ev' hmem
        obtain rfl := feed.seqs ev₀ hev₀ ev hev (by rw [← hearlier.seq, hseq', hseq])
        exact .inl ⟨ev', mem_scanned.mpr (.inl ⟨d, hd, hread⟩), hearlier⟩
    · exact .inr (.inr hsettled)
  · obtain ⟨last, hlast, hlastseq⟩ : ∃ last ∈ pass.got, ev.seq ≤ last.seq := by
      rcases pass.top hnext hkept.floor with htop | ⟨last, hlast, htop⟩
      · omega
      · rcases mem_scanned.mp hlast with ⟨d, hd, hread⟩ | hgot
        · obtain ⟨ev₀, hev₀, hseq₀, hle₀, -⟩ := hkept.pending d hd
          have := (rereadOf_some hread).1
          omega
        · exact ⟨last, hgot, by omega⟩
    obtain ⟨ev', hev', -, hearlier⟩ := pass.drained_from.gapless (P := fun e => Earlier e ev)
      (fun n from' page hpage hlt last hlast hle => by
        obtain ⟨ev', hmem, hearlier⟩ := hio.gapless n from' page hpage ev hev hlt last hlast hle
        exact ⟨ev', hmem, hearlier.seq, hearlier⟩) hnew hlast hlastseq
    exact .inl ⟨ev', mem_scanned.mpr (.inr hev'), hearlier⟩

-- A scanned version of an event leaves it pending or gives what the final version gives.
theorem Pass.event (pass : Pass p me io prev maxPages) {ev' ev : FeedEvent} (h : ev' ∈ pass.scanned)
    (hearlier : Earlier ev' ev) :
    (∃ d ∈ pass.found.pending, d.seq = ev.seq) ∨
    (scanEvent p me ev = .ok (gain (scanEvent p me) ev) ∧ (gain (scanEvent p me) ev).pending = [] ∧
      (∀ c ∈ (gain (scanEvent p me) ev).accepted, c ∈ pass.found.accepted) ∧
      ∀ c ∈ (gain (scanEvent p me) ev).candidates, c ∈ pass.found.candidates) := by
  have hok := pass.gain_ok h
  have hpending : (gain (scanEvent p me) ev').pending ≠ [] → ∃ d ∈ pass.found.pending, d.seq = ev.seq := by
    intro hne
    obtain ⟨d, hd⟩ := List.exists_mem_of_ne_nil _ hne
    exact ⟨d, (pass.part isPart_pending).mpr ⟨ev', h, hd⟩,
      ((scanEvent_origin hok).pending d hd).2.1.trans hearlier.seq⟩
  rcases scanEvent_earlier hearlier hok with rfl | hne | ⟨-, silent, hsilent, haccepted, hcandidates, hnone⟩
  · rcases eq_or_ne (gain (scanEvent p me) ev').pending [] with hnil | hne
    · exact .inr ⟨hok, hnil, fun c hc => (pass.part isPart_accepted).mpr ⟨ev', h, hc⟩,
        fun c hc => (pass.part isPart_candidates).mpr ⟨ev', h, hc⟩⟩
    · exact .inl (hpending hne)
  · exact .inl (hpending hne)
  · rw [Client.gain_ok hsilent, haccepted, hcandidates]
    exact .inr ⟨hsilent, hnone, fun _ hc => absurd hc List.not_mem_nil,
      fun _ hc => absurd hc List.not_mem_nil⟩

theorem Earlier.found {ev' ev : FeedEvent} {found : Found} (hearlier : Earlier ev' ev)
    (h : scanEvent p me ev' = .ok found) {c : ScanCandidate}
    (hc : c ∈ found.accepted ∨ c ∈ found.candidates) : ev' = ev := by
  rcases scanEvent_earlier hearlier h with rfl | hne | ⟨rfl, -⟩
  · rfl
  · obtain ⟨haccepted, hcandidates⟩ := scanEvent_pending h hne
    rw [haccepted, hcandidates] at hc
    exact (hc.elim List.not_mem_nil List.not_mem_nil).elim
  · exact (hc.elim List.not_mem_nil List.not_mem_nil).elim

theorem Pass.source {part : Found → List ScanCandidate} (hpart : IsPart part)
    (hsub : ∀ found, ∀ c ∈ part found, c ∈ found.accepted ∨ c ∈ found.candidates)
    (pass : Pass p me io prev maxPages) (hio : Serves feed io) (hkept : Kept feed path lost prev)
    {c : ScanCandidate} (hc : c ∈ part pass.found) :
    ∃ ev ∈ feed.events, ev ∈ pass.scanned ∧ Due prev ev ∧ c ∈ part (gain (scanEvent p me) ev) := by
  obtain ⟨ev', hscanned, hc⟩ := (pass.part hpart).mp hc
  obtain ⟨ev, hev, hearlier, hdue⟩ := pass.known hio hkept hscanned
  obtain rfl := hearlier.found (pass.gain_ok hscanned) (hsub _ c hc)
  exact ⟨ev', hev, hscanned, hdue, hc⟩

theorem Pass.source_accepted (pass : Pass p me io prev maxPages) (hio : Serves feed io)
    (hkept : Kept feed path lost prev) {c : ScanCandidate} (hc : c ∈ pass.found.accepted) :
    ∃ ev ∈ feed.events, ev ∈ pass.scanned ∧ Due prev ev ∧ c ∈ (gain (scanEvent p me) ev).accepted :=
  pass.source isPart_accepted (fun _ _ => .inl) hio hkept hc

theorem Pass.source_candidate (pass : Pass p me io prev maxPages) (hio : Serves feed io)
    (hkept : Kept feed path lost prev) {c : ScanCandidate} (hc : c ∈ pass.found.candidates) :
    ∃ ev ∈ feed.events, ev ∈ pass.scanned ∧ Due prev ev ∧ c ∈ (gain (scanEvent p me) ev).candidates :=
  pass.source isPart_candidates (fun _ _ => .inr) hio hkept hc

-- What a scan adds to the lost notes.
def LostIn (io : SelfScanIo) (prev next : SelfScanState) (c : ScanCandidate) : Prop :=
  singleAppend c.kind ∧ prev.cursor < c.seq ∧ (c.seq : ℤ) ≤ next.cursor ∧ io.path c.leafIndex = none

theorem singleAppend_priv {kind : EventKind} (h : kind = .disbursePriv) : ¬singleAppend kind :=
  fun hs => hs.2 h

theorem Pass.fresh_found (next : SelfScanState) (hfree : CollisionFree p) (hpath : Honest feed path)
    (hread : ∀ leafIndex, io.path leafIndex ≠ none → path leafIndex ≠ none)
    (pass : Pass p me io prev maxPages) (hio : Serves feed io) (hkept : Kept feed path lost prev)
    {c : ScanCandidate} (hc : c ∈ pass.fresh) :
    ∃ ev ∈ feed.events, ev ∈ pass.scanned ∧ c ∈ foundIn p me path ev ∧ ¬lost c ∧
      ¬LostIn io prev next c := by
  rcases List.mem_append.mp hc with hc | hc
  · obtain ⟨ev, hev, hscanned, -, hc⟩ := pass.source_accepted hio hkept hc
    have hkind : c.kind = .disbursePriv :=
      ((origin_gain p me ev).fields (.inl hc)).2.1.trans ((origin_gain p me ev).accepted c hc).1
    exact ⟨ev, hev, hscanned, mem_foundIn.mpr (.inl hc),
      fun hlost => singleAppend_priv hkind (hkept.once c hlost).1,
      fun hlost => singleAppend_priv hkind hlost.1⟩
  · obtain ⟨hc, hconf⟩ := List.mem_filter.mp hc
    obtain ⟨ev, hev, hscanned, hdue, hc⟩ := pass.source_candidate hio hkept hc
    have hleaf := (origin_gain p me ev).pathLeaf hev hc
    obtain ⟨hsome, hcommit⟩ := (Honest.confirms_iff hio.path hfree hleaf).mp hconf
    obtain ⟨hseq, hkind, -, -⟩ := (origin_gain p me ev).fields (.inr hc)
    refine ⟨ev, hev, hscanned, mem_foundIn.mpr (.inr ⟨hc, ?_⟩), fun hlost => ?_,
      fun hlost => hsome hlost.2.2.2⟩
    · exact (hpath.confirms_iff hfree hleaf).mpr ⟨hread _ hsome, hcommit⟩
    · obtain ⟨hsingle, hle⟩ := hkept.once c hlost
      rcases hdue with hnew | ⟨-, hbatch, -⟩
      · omega
      · exact hbatch (hkind ▸ hsingle)

theorem Kept.held_step (hfree : CollisionFree p) (hpath : Honest feed path)
    (hread : ∀ leafIndex, io.path leafIndex ≠ none → path leafIndex ≠ none)
    {pass : Pass p me io prev maxPages} (hnext : pass.Gives next) (hio : Serves feed io)
    (hkept : Kept feed path lost prev) {n : ScanNote} (hn : n ∈ next.notes) :
    ∃ ev ∈ feed.events, (ev.seq : ℤ) ≤ next.cursor ∧ n.toScanCandidate ∈ foundIn p me path ev ∧
      ¬(lost n.toScanCandidate ∨ LostIn io prev next n.toScanCandidate) := by
  rw [hnext.notes, mem_applySpent] at hn
  obtain ⟨-, m, hm, hmn⟩ := hn
  rw [← hmn]
  have hcursor : prev.cursor ≤ next.cursor := hnext.cursor ▸ le_max_left _ _
  rcases mem_mergeNotes hm with hold | hfresh
  · obtain ⟨ev, hev, hle, hfound, hlost⟩ := hkept.held m hold
    have hseq := ((origin_gain p me ev).fields ((mem_foundIn.mp hfound).imp id And.left)).1
    refine ⟨ev, hev, hle.trans hcursor, hfound, ?_⟩
    rintro (h | ⟨-, hlt, -⟩)
    · exact hlost h
    · omega
  · obtain ⟨ev, hev, hscanned, hfound, hold, hnew⟩ :=
      pass.fresh_found next hfree hpath hread hio hkept hfresh
    exact ⟨ev, hev, pass.scanned_le hnext hscanned, hfound, not_or.mpr ⟨hold, hnew⟩⟩

theorem Kept.pending_step {pass : Pass p me io prev maxPages} (hnext : pass.Gives next)
    (hio : Serves feed io) (hkept : Kept feed path lost prev) {d : PendingDiscovery}
    (hd : d ∈ next.pending) :
    ∃ ev ∈ feed.events, ev.seq = d.seq ∧ (ev.seq : ℤ) ≤ next.cursor ∧ ¬singleAppend ev.kind := by
  rw [hnext.pending] at hd
  have hcursor : prev.cursor ≤ next.cursor := hnext.cursor ▸ le_max_left _ _
  rcases List.mem_append.mp (mem_dedupePending hd) with hd | hd
  · rcases List.mem_append.mp hd with hd | hd
    · obtain ⟨ev, hev, hseq, hle, hkind⟩ := hkept.pending d (List.mem_of_mem_filter hd)
      exact ⟨ev, hev, hseq, hle.trans hcursor, hkind⟩
    · obtain ⟨ev', hscanned, hd⟩ := (pass.part isPart_pending).mp hd
      obtain ⟨ev, hev, hearlier, -⟩ := pass.known hio hkept hscanned
      obtain ⟨hkind, hseq, -⟩ := (origin_gain p me ev').pending d hd
      refine ⟨ev, hev, by rw [hseq, hearlier.seq], hearlier.seq ▸ pass.scanned_le hnext hscanned, ?_⟩
      rcases hearlier with rfl | ⟨-, hpriv, -⟩
      · exact singleAppend_priv hkind
      · exact singleAppend_priv hpriv
  · obtain ⟨c, hc, hgate⟩ := List.mem_filterMap.mp hd
    obtain ⟨ev, hev, hscanned, -, hc⟩ := pass.source_candidate hio hkept hc
    obtain ⟨hseq, hkind, -, -⟩ := gatedOf_some hgate
    obtain ⟨hcseq, hckind, -, -⟩ := (origin_gain p me ev).fields (.inr hc)
    refine ⟨ev, hev, by rw [hseq, hcseq], pass.scanned_le hnext hscanned, fun hs => hs.1 ?_⟩
    rw [← hckind, hkind]

theorem Kept.settled_mono {lost' : ScanCandidate → Prop} {notes notes' : List ScanNote} {ev : FeedEvent}
    (h : Settled p me path lost notes ev) (hlost : ∀ c, lost c → lost' c)
    (hnotes : ∀ n ∈ notes, ∃ n' ∈ notes', n'.toScanCandidate = n.toScanCandidate) :
    Settled p me path lost' notes' ev where
  scans := h.scans
  quiet := h.quiet
  ungated := h.ungated
  noted c hc hkeep := by
    obtain ⟨n, hn, rfl⟩ := h.noted c hc fun hl => hkeep (hlost c hl)
    exact hnotes n hn

theorem Pass.unsettled_pending {pass : Pass p me io prev maxPages} (hnext : pass.Gives next)
    {d : PendingDiscovery} (hd : d ∈ pass.unsettled) : ∃ d' ∈ next.pending, d'.seq = d.seq := by
  rw [hnext.pending]
  exact dedupePending_covers hd

theorem Pass.due (pass : Pass p me io prev maxPages) (hio : Serves feed io)
    (hkept : Kept feed path lost prev) {ev' ev : FeedEvent} (hev : ev ∈ feed.events)
    (hscanned : ev' ∈ pass.scanned) (hearlier : Earlier ev' ev) : Due prev ev := by
  obtain ⟨ev₀, hev₀, hearlier₀, hdue⟩ := pass.known hio hkept hscanned
  obtain rfl := feed.seqs ev₀ hev₀ ev hev (by rw [← hearlier₀.seq, hearlier.seq])
  exact hdue

-- A note the final paths confirm is confirmed by the scan too, gated, or lost.
theorem Pass.fresh_of_found (hfree : CollisionFree p) (hpath : Honest feed path)
    {pass : Pass p me io prev maxPages} (hio : Serves feed io) {ev : FeedEvent}
    (hev : ev ∈ feed.events) (hle : (ev.seq : ℤ) ≤ next.cursor) (hdue : Due prev ev)
    (haccepted : ∀ c ∈ (gain (scanEvent p me) ev).accepted, c ∈ pass.found.accepted)
    (hcandidates : ∀ c ∈ (gain (scanEvent p me) ev).candidates, c ∈ pass.found.candidates)
    (hgate : ∀ c ∈ (gain (scanEvent p me) ev).candidates, gatedOf io.path c = none)
    {c : ScanCandidate} (hc : c ∈ foundIn p me path ev) (hlost : ¬LostIn io prev next c) :
    c ∈ pass.fresh := by
  rcases mem_foundIn.mp hc with hc | ⟨hc, hconf⟩
  · exact List.mem_append.mpr (.inl (haccepted c hc))
  · have hleaf := (origin_gain p me ev).pathLeaf hev hc
    obtain ⟨hseq, hkind, hfamily, -⟩ := (origin_gain p me ev).fields (.inr hc)
    have hsome : io.path c.leafIndex ≠ none := by
      intro hnone
      have hbatch : ¬singleAppend ev.kind := by
        rcases hdue with hnew | ⟨-, hbatch, -⟩
        · intro hsingle
          exact hlost ⟨hkind ▸ hsingle, hseq ▸ hnew, hseq ▸ hle, hnone⟩
        · exact hbatch
      have hdisburse : ev.kind = .disburse := by
        by_contra hne
        exact hbatch ⟨hne, ((origin_gain p me ev).candidates c hc).1⟩
      refine gatedOf_none.mp (hgate c hc) hnone ?_ (hkind.trans hdisburse)
      rw [hfamily, hdisburse]
      rfl
    have hcommit := ((hpath.confirms_iff hfree hleaf).mp hconf).2
    exact List.mem_append.mpr (.inr (List.mem_filter.mpr ⟨hcandidates c hc,
      (Honest.confirms_iff hio.path hfree hleaf).mpr ⟨hsome, hcommit⟩⟩))

theorem Kept.settled_step (hfree : CollisionFree p) (hpath : Honest feed path)
    (hread : ∀ leafIndex, io.path leafIndex ≠ none → path leafIndex ≠ none)
    {pass : Pass p me io prev maxPages} (hnext : pass.Gives next) (hio : Serves feed io)
    (hkept : Kept feed path lost prev) {ev : FeedEvent} (hev : ev ∈ feed.events)
    (hle : (ev.seq : ℤ) ≤ next.cursor) :
    (∃ d ∈ next.pending, d.seq = ev.seq) ∨
      Settled p me path (fun c => lost c ∨ LostIn io prev next c) next.notes ev := by
  rcases pass.covers hnext hio hkept hev hle with ⟨ev', hscanned, hearlier⟩ | ⟨d, hd, hfail, hseq⟩ | hold
  · rcases pass.event hscanned hearlier with ⟨d, hd, hseq⟩ | ⟨hscan, hquiet, haccepted, hcandidates⟩
    · obtain ⟨d', hd', hseq'⟩ := Pass.unsettled_pending hnext
        (List.mem_append.mpr (.inl (List.mem_append.mpr (.inr hd))))
      exact .inl ⟨d', hd', hseq'.trans hseq⟩
    · rcases em (∃ c ∈ (gain (scanEvent p me) ev).candidates, gatedOf io.path c ≠ none) with hgate | hgate
      · obtain ⟨c, hc, hgate⟩ := hgate
        obtain ⟨d, hd⟩ := Option.ne_none_iff_exists'.mp hgate
        obtain ⟨d', hd', hseq'⟩ := Pass.unsettled_pending hnext
          (List.mem_append.mpr (.inr (List.mem_filterMap.mpr ⟨c, hcandidates c hc, hd⟩)))
        exact .inl ⟨d', hd', hseq'.trans ((gatedOf_some hd).1.trans
          ((origin_gain p me ev).fields (.inr hc)).1)⟩
      · push Not at hgate
        have hdue := pass.due hio hkept hev hscanned hearlier
        refine .inr ⟨hscan, hquiet, fun c hc => ?_, fun c hc hlost => ?_⟩
        · have hopen := gatedOf_none.mp (hgate c hc)
          refine gatedOf_none.mpr fun hnone => hopen ?_
          by_contra hsome
          exact hread _ hsome hnone
        · have hfresh := pass.fresh_of_found hfree hpath hio hev hle hdue haccepted hcandidates
            hgate hc fun h => hlost (.inr h)
          obtain ⟨n, hn, hnc⟩ := mergeNotes_covers prev.notes hfresh
          have hnote : { n with spent := decide (n.nullifier ∈ pass.spent) } ∈ next.notes := by
            rw [hnext.notes, mem_applySpent]
            exact ⟨rfl, n, hn, rfl⟩
          obtain ⟨ev₂, hev₂, -, hfound₂, -⟩ := hkept.held_step hfree hpath hread hnext hio hnote
          exact ⟨_, hnote, feed.found_unique hfree hpath hev₂ hev hfound₂ hc hnc⟩
  · obtain ⟨d', hd', hseq'⟩ := Pass.unsettled_pending hnext
      (List.mem_append.mpr (.inl (List.mem_append.mpr (.inl
        (List.mem_filter.mpr ⟨hd, by simpa using hfail⟩)))))
    exact .inl ⟨d', hd', hseq'.trans hseq⟩
  · refine .inr (Kept.settled_mono hold (fun _ => .inl) fun n hn => ?_)
    refine ⟨{ n with spent := decide (n.nullifier ∈ pass.spent) }, ?_, rfl⟩
    rw [hnext.notes, mem_applySpent]
    exact ⟨rfl, n, List.mem_append.mpr (.inl hn), rfl⟩

theorem Kept.top_step {pass : Pass p me io prev maxPages} (hnext : pass.Gives next) (hio : Serves feed io)
    (hkept : Kept feed path lost prev) :
    next.cursor = -1 ∨ ∃ ev ∈ feed.events, next.cursor = ev.seq := by
  rcases pass.top hnext hkept.floor with hsame | ⟨ev', hscanned, htop⟩
  · rw [hsame]
    exact hkept.top
  · obtain ⟨ev, hev, hearlier, -⟩ := pass.known hio hkept hscanned
    exact .inr ⟨ev, hev, by rw [htop, hearlier.seq]⟩

theorem Kept.step (hfree : CollisionFree p) (hpath : Honest feed path)
    (hread : ∀ leafIndex, io.path leafIndex ≠ none → path leafIndex ≠ none) (hio : Serves feed io)
    (hkept : Kept feed path lost prev) (hrun : runSelfScan p me io prev maxPages = .ok next) :
    Kept feed path (fun c => lost c ∨ LostIn io prev next c) next := by
  obtain ⟨pass, hnext⟩ := runSelfScan_ok hrun
  have hcursor : prev.cursor ≤ next.cursor := hnext.cursor ▸ le_max_left _ _
  exact
    { floor := hkept.floor.trans hcursor
      top := hkept.top_step hnext hio
      once := by
        rintro c (h | ⟨hsingle, -, hle, -⟩)
        · exact ⟨(hkept.once c h).1, (hkept.once c h).2.trans hcursor⟩
        · exact ⟨hsingle, hle⟩
      pending := fun d hd => hkept.pending_step hnext hio hd
      held := fun n hn => hkept.held_step hfree hpath hread hnext hio hn
      settled := fun ev hev hle => hkept.settled_step hfree hpath hread hnext hio hev hle }

end Step

section Finish

variable {feed : Feed p me} {path : ℕ → Option PathResult} {spent : List ℕ}
  {lost : ScanCandidate → Prop} {io : SelfScanIo} {prev next : SelfScanState} {maxPages : ℕ}

theorem ServesFinal.honest (hio : ServesFinal feed path spent io) : Honest feed path := by
  have := hio.serves.path
  rwa [hio.path] at this

theorem ServesFinal.readable (hio : ServesFinal feed path spent io) (leafIndex : ℕ) :
    io.path leafIndex ≠ none → path leafIndex ≠ none := by
  rw [hio.path]
  exact id

theorem ServesFinal.rereadOf (hio : ServesFinal feed path spent io) (hkept : Kept feed path lost prev)
    {d : PendingDiscovery} (hd : d ∈ prev.pending) :
    ∃ ev ∈ feed.events, ev.seq = d.seq ∧ Client.rereadOf io d = some ev := by
  obtain ⟨ev, hev, hseq, -, -⟩ := hkept.pending d hd
  obtain ⟨served, hserved, hfind⟩ := hio.reread ev hev
  refine ⟨ev, hev, hseq, ?_⟩
  rw [Client.rereadOf, ← hseq, hserved]
  exact hfind

theorem ServesFinal.scanned (hio : ServesFinal feed path spent io) (hkept : Kept feed path lost prev)
    {pass : Pass p me io prev maxPages} {ev : FeedEvent} (h : ev ∈ pass.scanned) :
    ev ∈ feed.events := by
  rcases mem_scanned.mp h with ⟨d, hd, hread⟩ | hgot
  · obtain ⟨ev', hev', -, hread'⟩ := hio.rereadOf hkept hd
    rw [hread] at hread'
    exact Option.some.inj hread' ▸ hev'
  · obtain ⟨-, n, from', page, hpage, hmem⟩ := pass.drained_from.known ev hgot
    exact hio.known n from' page hpage ev hmem

theorem ServesFinal.covers (hio : ServesFinal feed path spent io) (hkept : Kept feed path lost prev)
    {pass : Pass p me io prev maxPages} (hex : pass.exhausted = true) {ev : FeedEvent}
    (hev : ev ∈ feed.events) : ev ∈ pass.scanned ∨ Settled p me path lost prev.notes ev := by
  rcases le_or_gt (ev.seq : ℤ) prev.cursor with hold | hnew
  · rcases hkept.settled ev hev hold with ⟨d, hd, hseq⟩ | hsettled
    · obtain ⟨ev', hev', hseq', hread⟩ := hio.rereadOf hkept hd
      obtain rfl := feed.seqs ev' hev' ev hev (hseq'.trans hseq)
      exact .inl (mem_scanned.mpr (.inl ⟨d, hd, hread⟩))
    · exact .inr hsettled
  · have hdrained := pass.drained_from
    rw [hex] at hdrained
    exact .inl (mem_scanned.mpr (.inr (hdrained.exhausted_final hio hev hnew)))

def Unsettled (p : Primitives) (me : Identity) (path : ℕ → Option PathResult) (ev : FeedEvent) : Prop :=
  (gain (scanEvent p me) ev).pending ≠ [] ∨
    ∃ c ∈ (gain (scanEvent p me) ev).candidates, gatedOf path c ≠ none

theorem Settled.not_unsettled {notes : List ScanNote} {ev : FeedEvent}
    (h : Settled p me path lost notes ev) : ¬Unsettled p me path ev := by
  rintro (hpending | ⟨c, hc, hgate⟩)
  · exact hpending h.quiet
  · exact hgate (h.ungated c hc)

-- Everything a last scan over the whole feed leaves behind.
structure Finished (feed : Feed p me) (path : ℕ → Option PathResult) (spent : List ℕ)
    (lost : ScanCandidate → Prop) (s : SelfScanState) : Prop where
  scans : ∀ ev ∈ feed.events, scanEvent p me ev = .ok (gain (scanEvent p me) ev)
  notes : ∀ n, n ∈ s.notes ↔ n.spent = decide (n.nullifier ∈ spent) ∧
    (∃ ev ∈ feed.events, n.toScanCandidate ∈ foundIn p me path ev) ∧ ¬lost n.toScanCandidate
  pending : ∀ seq, (∃ d ∈ s.pending, d.seq = seq) ↔
    ∃ ev ∈ feed.events, ev.seq = seq ∧ Unsettled p me path ev
  cursor : s.cursor = cursorOf feed.events

theorem ServesFinal.notes (hfree : CollisionFree p) (hio : ServesFinal feed path spent io)
    (hkept : Kept feed path lost prev) {pass : Pass p me io prev maxPages} (hnext : pass.Gives next)
    (hex : pass.exhausted = true) (n : ScanNote) :
    n ∈ next.notes ↔ n.spent = decide (n.nullifier ∈ spent) ∧
      (∃ ev ∈ feed.events, n.toScanCandidate ∈ foundIn p me path ev) ∧ ¬lost n.toScanCandidate := by
  have hspent : pass.spent = spent := Option.some.inj (pass.nullifiers.symm.trans hio.nullifiers)
  have hheld : ∀ {n : ScanNote}, n ∈ next.notes → ∃ ev ∈ feed.events,
      n.toScanCandidate ∈ foundIn p me path ev ∧ ¬lost n.toScanCandidate := by
    intro n hn
    obtain ⟨ev, hev, -, hfound, hlost⟩ :=
      hkept.held_step hfree hio.honest hio.readable hnext hio.serves hn
    exact ⟨ev, hev, hfound, fun h => hlost (.inl h)⟩
  have hin : ∀ m ∈ mergeNotes prev.notes pass.fresh,
      { m with spent := decide (m.nullifier ∈ spent) } ∈ next.notes := by
    intro m hm
    rw [hnext.notes, mem_applySpent, hspent]
    exact ⟨rfl, m, hm, rfl⟩
  constructor
  · intro hn
    obtain ⟨ev, hev, hfound, hlost⟩ := hheld hn
    rw [hnext.notes, mem_applySpent, hspent] at hn
    exact ⟨hn.1, ⟨ev, hev, hfound⟩, hlost⟩
  · rintro ⟨hn, ⟨ev, hev, hfound⟩, hlost⟩
    obtain ⟨m, hm, hmn⟩ : ∃ m ∈ mergeNotes prev.notes pass.fresh,
        m.toScanCandidate = n.toScanCandidate := by
      rcases hio.covers hkept hex hev with hscanned | hsettled
      · have hfresh : n.toScanCandidate ∈ pass.fresh := by
          rcases mem_foundIn.mp hfound with hc | ⟨hc, hconf⟩
          · exact List.mem_append.mpr (.inl ((pass.part isPart_accepted).mpr ⟨ev, hscanned, hc⟩))
          · refine List.mem_append.mpr (.inr (List.mem_filter.mpr ⟨?_, ?_⟩))
            · exact (pass.part isPart_candidates).mpr ⟨ev, hscanned, hc⟩
            · rw [hio.path]
              exact hconf
        obtain ⟨m, hm, hmc⟩ := mergeNotes_covers prev.notes hfresh
        obtain ⟨ev', hev', hfound', -⟩ := hheld (hin m hm)
        exact ⟨m, hm, feed.found_unique hfree hio.honest hev' hev hfound' hfound hmc⟩
      · obtain ⟨m, hm, hmn⟩ := hsettled.noted _ hfound hlost
        exact ⟨m, List.mem_append.mpr (.inl hm), hmn⟩
    rw [hnext.notes, mem_applySpent, hspent]
    exact ⟨hn, m, hm, hmn⟩

theorem ServesFinal.pending (hio : ServesFinal feed path spent io) (hkept : Kept feed path lost prev)
    {pass : Pass p me io prev maxPages} (hnext : pass.Gives next) (hex : pass.exhausted = true) (seq : ℕ) :
    (∃ d ∈ next.pending, d.seq = seq) ↔
      ∃ ev ∈ feed.events, ev.seq = seq ∧ Unsettled p me path ev := by
  rw [hnext.pending, seq_mem_dedupePending]
  constructor
  · rintro ⟨d, hd, hseq⟩
    rcases List.mem_append.mp hd with hd | hd
    · rcases List.mem_append.mp hd with hd | hd
      · obtain ⟨hd, hfail⟩ := List.mem_filter.mp hd
        obtain ⟨ev, -, -, hread⟩ := hio.rereadOf hkept hd
        simp [hread] at hfail
      · obtain ⟨ev, hscanned, hd⟩ := (pass.part isPart_pending).mp hd
        exact ⟨ev, hio.scanned hkept hscanned, ((origin_gain p me ev).pending d hd).2.1.symm.trans hseq,
          .inl (List.ne_nil_of_mem hd)⟩
    · obtain ⟨c, hc, hgate⟩ := List.mem_filterMap.mp hd
      obtain ⟨ev, hscanned, hc⟩ := (pass.part isPart_candidates).mp hc
      refine ⟨ev, hio.scanned hkept hscanned, ?_, .inr ⟨c, hc, ?_⟩⟩
      · rw [← ((origin_gain p me ev).fields (.inr hc)).1, ← (gatedOf_some hgate).1, hseq]
      · rw [hio.path] at hgate
        exact Option.ne_none_iff_exists'.mpr ⟨d, hgate⟩
  · rintro ⟨ev, hev, rfl, hunsettled⟩
    rcases hio.covers hkept hex hev with hscanned | hsettled
    · rcases hunsettled with hpending | ⟨c, hc, hgate⟩
      · obtain ⟨d, hd⟩ := List.exists_mem_of_ne_nil _ hpending
        exact ⟨d, List.mem_append.mpr (.inl (List.mem_append.mpr (.inr
          ((pass.part isPart_pending).mpr ⟨ev, hscanned, hd⟩)))), ((origin_gain p me ev).pending d hd).2.1⟩
      · obtain ⟨d, hd⟩ := Option.ne_none_iff_exists'.mp hgate
        refine ⟨d, List.mem_append.mpr (.inr (List.mem_filterMap.mpr ⟨c, ?_, ?_⟩)), ?_⟩
        · exact (pass.part isPart_candidates).mpr ⟨ev, hscanned, hc⟩
        · rw [hio.path]
          exact hd
        · exact (gatedOf_some hd).1.trans ((origin_gain p me ev).fields (.inr hc)).1
    · exact absurd hunsettled hsettled.not_unsettled

theorem cursorOf_unique {events : List FeedEvent} {cursor : ℤ} (hfloor : -1 ≤ cursor)
    (htop : cursor = -1 ∨ ∃ ev ∈ events, cursor = ev.seq)
    (hall : ∀ ev ∈ events, (ev.seq : ℤ) ≤ cursor) : cursor = cursorOf events := by
  apply le_antisymm
  · rcases htop with rfl | ⟨ev, hev, rfl⟩
    · exact le_topOf events (-1)
    · exact seq_le_topOf hev (-1)
  · rcases topOf_cases events (-1) with h | ⟨ev, hev, h⟩
    · exact h.trans_le hfloor
    · exact h.trans_le (hall ev hev)

theorem ServesFinal.finished (hfree : CollisionFree p) (hio : ServesFinal feed path spent io)
    (hkept : Kept feed path lost prev) {pass : Pass p me io prev maxPages} (hnext : pass.Gives next)
    (hex : pass.exhausted = true) : Finished feed path spent lost next where
  scans ev hev := by
    rcases hio.covers hkept hex hev with hscanned | hsettled
    · exact pass.gain_ok hscanned
    · exact hsettled.scans
  notes := hio.notes hfree hkept hnext hex
  pending := hio.pending hkept hnext hex
  cursor := by
    have hcursor : prev.cursor ≤ next.cursor := hnext.cursor ▸ le_max_left _ _
    refine cursorOf_unique (hkept.floor.trans hcursor) (hkept.top_step hnext hio.serves) ?_
    intro ev hev
    rcases le_or_gt (ev.seq : ℤ) prev.cursor with hold | hnew
    · exact hold.trans hcursor
    · have hdrained := pass.drained_from
      rw [hex] at hdrained
      exact pass.scanned_le hnext (mem_scanned.mpr (.inr (hdrained.exhausted_final hio hev hnew)))

end Finish

theorem missed_snoc {scans : List Scan} {scan : Scan} {c : ScanCandidate} :
    Missed p me (scans ++ [scan]) c ↔ Missed p me scans c ∨
      LostIn scan.io (scanAll p me scans) (scanAll p me (scans ++ [scan])) c := by
  constructor
  · rintro ⟨pre, scan', post, hsplit, hsingle, hlt, hle, hpath⟩
    rcases List.eq_nil_or_concat post with rfl | ⟨post, last, rfl⟩
    · obtain ⟨rfl, hscan⟩ := List.append_inj' hsplit rfl
      obtain rfl : scan = scan' := by simpa using hscan
      exact .inr ⟨hsingle, hlt, hle, hpath⟩
    · refine .inl ⟨pre, scan', post, ?_, hsingle, hlt, hle, hpath⟩
      have hsplit' : scans ++ [scan] = (pre ++ scan' :: post) ++ [last] := by simpa using hsplit
      exact (List.append_inj' hsplit' rfl).1
  · rintro (⟨pre, scan', post, rfl, hmissed⟩ | ⟨hsingle, hlt, hle, hpath⟩)
    · exact ⟨pre, scan', post ++ [scan], by simp, hmissed⟩
    · exact ⟨scans, scan, [], rfl, hsingle, hlt, hle, hpath⟩

section Run

variable {feed : Feed p me} {path : ℕ → Option PathResult}

theorem Kept.congr {lost lost' : ScanCandidate → Prop} {s : SelfScanState}
    (h : Kept feed path lost s) (hlost : ∀ c, lost c ↔ lost' c) : Kept feed path lost' s := by
  obtain rfl : lost = lost' := funext fun c => propext (hlost c)
  exact h

theorem kept_empty : Kept feed path (fun _ => False) emptyScanState where
  floor := le_rfl
  top := .inl rfl
  once _ h := h.elim
  pending d hd := absurd hd List.not_mem_nil
  held n hn := absurd hn List.not_mem_nil
  settled ev _ hle := by
    have : (ev.seq : ℤ) ≤ -1 := hle
    omega

theorem not_missed_nil {c : ScanCandidate} : ¬Missed p me [] c := by
  rintro ⟨pre, scan, post, hsplit, -⟩
  simp at hsplit

theorem kept_scanAll (hfree : CollisionFree p) (hpath : Honest feed path) {scans : List Scan}
    (hserves : ∀ scan ∈ scans, Serves feed scan.io)
    (hread : ∀ scan ∈ scans, ∀ leafIndex, scan.io.path leafIndex ≠ none → path leafIndex ≠ none) :
    Kept feed path (Missed p me scans) (scanAll p me scans) := by
  induction scans using List.reverseRecOn with
  | nil => exact kept_empty.congr fun c => ⟨False.elim, not_missed_nil⟩
  | append_singleton scans scan ih =>
    have hkept := ih (fun s hs => hserves s (by simp [hs])) fun s hs => hread s (by simp [hs])
    cases hrun : runSelfScan p me scan.io (scanAll p me scans) scan.maxPages with
    | ok next =>
      have hnext : scanAll p me (scans ++ [scan]) = next := by
        simp [scanAll_snoc, scanOnce, hrun, Except.toOption]
      have hstep := hkept.step hfree hpath (hread scan (by simp)) (hserves scan (by simp)) hrun
      rw [← hnext] at hstep
      exact hstep.congr fun c => missed_snoc.symm
    | error e =>
      have hsame : scanAll p me (scans ++ [scan]) = scanAll p me scans := by
        simp [scanAll_snoc, scanOnce, hrun, Except.toOption]
      rw [hsame]
      refine hkept.congr fun c => ?_
      rw [missed_snoc, hsame]
      exact ⟨.inl, fun h => h.elim id fun hlost => absurd hlost.2.1 (not_lt.mpr hlost.2.2.1)⟩

end Run

theorem Exhausts.pass {io : SelfScanIo} {prev : SelfScanState} {maxPages : ℕ}
    (h : Exhausts io prev maxPages) (pass : Pass p me io prev maxPages) : pass.exhausted = true := by
  obtain ⟨drained, hdrain⟩ := h
  rw [pass.drained] at hdrain
  exact congrArg Prod.snd (Except.ok.inj hdrain)

theorem self_scan_resumes (hfree : CollisionFree p) (feed : Feed p me)
    {path : ℕ → Option PathResult} {spent : List ℕ} {scans : List Scan} {last whole : Scan}
    {final : SelfScanState} (hserves : ∀ scan ∈ scans, Serves feed scan.io)
    (hread : ∀ scan ∈ scans, ∀ leafIndex, scan.io.path leafIndex ≠ none → path leafIndex ≠ none)
    (hlast : ServesFinal feed path spent last.io)
    (hend : Exhausts last.io (scanAll p me scans) last.maxPages)
    (hrun : runSelfScan p me last.io (scanAll p me scans) last.maxPages = .ok final)
    (hwhole : ServesFinal feed path spent whole.io)
    (hall : Exhausts whole.io emptyScanState whole.maxPages) :
    ∃ single, runSelfScan p me whole.io emptyScanState whole.maxPages = .ok single ∧
      Resumed p me scans final single := by
  have hkept := kept_scanAll hfree hlast.honest hserves hread
  obtain ⟨pass, hfinal⟩ := runSelfScan_ok hrun
  have hfinished := hlast.finished hfree hkept hfinal (hend.pass pass)
  have hempty : Kept feed path (fun _ => False) emptyScanState := kept_empty
  obtain ⟨drained, hdrain⟩ := hall
  have hscans : ∀ ev ∈ emptyScanState.pending.filterMap (rereadOf whole.io) ++ drained,
      scanEvent p me ev = .ok (gain (scanEvent p me) ev) := by
    intro ev hev
    obtain ⟨got, hgot, hdrained⟩ := drained_of_drain hdrain
    obtain rfl : drained = got := hgot
    obtain ⟨-, n, from', page, hpage, hmem⟩ := hdrained.known ev hev
    exact hfinished.scans ev (hwhole.known n from' page hpage ev hmem)
  let fromEmpty : Pass p me whole.io emptyScanState whole.maxPages :=
    ⟨drained, true, _, spent, hdrain, collect_ok hscans, hwhole.nullifiers⟩
  obtain ⟨head, hhead⟩ := Option.ne_none_iff_exists'.mp hwhole.head
  obtain ⟨single, hsingle, hgives⟩ := runSelfScan_total hhead fromEmpty
  have hone := hwhole.finished hfree hempty hgives rfl
  refine ⟨single, hsingle, ?_, ?_, ?_⟩
  · intro n
    rw [hfinished.notes, hone.notes]
    simp only [not_false_eq_true, and_true, and_assoc]
  · rw [hfinished.cursor, hone.cursor]
  · intro seq
    rw [hfinished.pending, hone.pending]

section Sample

-- A deposit to the wallet at leaf 0, then a batch whose only note, at leaf 1, is the wallet's too.
def sampleDeposit : FeedEvent where
  seq := 0
  txHash := 100
  blockNumber := 1
  kind := .deposit
  epoch := none
  ecdhPublicKey := some (1, 1)
  encryptionNonce := some 3
  slices := [⟨0, 4, some 0⟩]
  ciphertext := plainPrimitives.poseidonEncrypt [5, 7] (11, 11) 3
  disclosure := none
  announcement := none
  viewTags := none
  kemCiphertexts := none
  batchId := none
  outputCommitments := none
  kem := none

def sampleBatch : FeedEvent where
  seq := 1
  txHash := 101
  blockNumber := 2
  kind := .disbursePriv
  epoch := none
  ecdhPublicKey := some (1, 1)
  encryptionNonce := some 4
  slices := [⟨0, 4, some 1⟩]
  ciphertext := plainPrimitives.poseidonEncrypt [6, 8]
    (plainPrimitives.hybridReceiverKey (13, 13) (0, 0)) 4
  disclosure := some .verified
  announcement := none
  viewTags := some [(tagViewtag + 26) % 256]
  kemCiphertexts := none
  batchId := some 0
  outputCommitments := some [sampleCommitment 6 8]
  kem := some ⟨.complete, 1, 1, some [List.replicate 32 0]⟩

def sampleFeed : Feed plainPrimitives sampleIdentity where
  events := [sampleDeposit, sampleBatch]
  leaf i := match i with
    | 0 => sampleCommitment 5 7
    | 1 => sampleCommitment 6 8
    | _ => 0
  seqs := by decide
  slots := by simp [sampleDeposit, sampleBatch]
  run ev hev hkind slice hslice leafIndex hleaf commitment hrun := by
    rcases List.mem_pair.mp hev with rfl | rfl
    · exact nomatch hkind
    · obtain rfl := List.mem_singleton.mp hslice
      cases hleaf
      exact (Option.some.inj hrun).symm
  distinct i j value salt hmine heq := by
    have hne : sampleCommitment 5 7 ≠ sampleCommitment 6 8 := by
      intro h
      exact absurd (collisionFree_plain.commitment _ _ _ _ _ h).1 (by decide)
    have hpos : ∀ value salt, sampleCommitment value salt ≠ 0 := fun value salt => Nat.succ_ne_zero _
    match i, j with
    | 0, 0 => rfl
    | 1, 1 => rfl
    | 0, 1 => exact absurd heq hne
    | 1, 0 => exact absurd heq.symm hne
    | 0, j + 2 => exact absurd heq (hpos _ _)
    | 1, j + 2 => exact absurd heq (hpos _ _)
    | i + 2, _ => exact absurd hmine.symm (hpos _ _)

def samplePath (leafIndex : ℕ) : Option PathResult :=
  if leafIndex = 0 then some ⟨[9], [0], poseidon2 plainPrimitives (sampleCommitment 5 7) 9⟩ else none

theorem samplePath_honest : Honest sampleFeed samplePath := by
  intro leafIndex read hleaf hread
  rcases eq_or_ne leafIndex 0 with rfl | hne
  · cases hread
    rfl
  · rw [samplePath, if_neg hne] at hread
    exact nomatch hread

-- The first scan finds the batch without its ciphertexts and no path readable.
def sampleFirst : Scan :=
  ⟨serverIo ⟨0, 2⟩ [sampleDeposit, { sampleBatch with kem := none }] (fun _ => none) [], 40⟩

def sampleLast : Scan := ⟨serverIo ⟨0, 2⟩ sampleFeed.events samplePath [], 40⟩

theorem self_scan_resumes_sample : ∃ final single,
    runSelfScan plainPrimitives sampleIdentity sampleLast.io
      (scanAll plainPrimitives sampleIdentity [sampleFirst]) 40 = .ok final ∧
    runSelfScan plainPrimitives sampleIdentity sampleLast.io emptyScanState 40 = .ok single ∧
    Resumed plainPrimitives sampleIdentity [sampleFirst] final single := by
  have hrun : ∃ final, runSelfScan plainPrimitives sampleIdentity sampleLast.io
      (scanAll plainPrimitives sampleIdentity [sampleFirst]) 40 = .ok final := by
    have hok : (runSelfScan plainPrimitives sampleIdentity sampleLast.io
      (scanAll plainPrimitives sampleIdentity [sampleFirst]) 40).toOption.isSome = true := by
      decide +kernel
    cases h : runSelfScan plainPrimitives sampleIdentity sampleLast.io
        (scanAll plainPrimitives sampleIdentity [sampleFirst]) 40 with
    | ok final => exact ⟨final, rfl⟩
    | error e => simp [h, Except.toOption] at hok
  obtain ⟨final, hfinal⟩ := hrun
  have hserves : ∀ scan ∈ [sampleFirst], Serves sampleFeed scan.io := by
    intro scan hscan
    obtain rfl := List.mem_singleton.mp hscan
    have hpending : Earlier { sampleBatch with kem := none } sampleBatch :=
      .inr ⟨rfl, rfl, .inr ⟨none, rfl, by simp⟩⟩
    refine serves_serverIo ?_ ?_ fun _ _ _ hread => by cases hread
    · intro ev' hev'
      rcases List.mem_pair.mp hev' with rfl | rfl
      · exact ⟨sampleDeposit, by simp [sampleFeed], .inl rfl⟩
      · exact ⟨sampleBatch, by simp [sampleFeed], hpending⟩
    · intro ev hev
      rcases List.mem_pair.mp hev with rfl | rfl
      · exact ⟨sampleDeposit, by simp, .inl rfl⟩
      · exact ⟨_, by simp, hpending⟩
  have hread : ∀ scan ∈ [sampleFirst], ∀ leafIndex, scan.io.path leafIndex ≠ none →
      samplePath leafIndex ≠ none := by
    intro scan hscan leafIndex hsome
    obtain rfl := List.mem_singleton.mp hscan
    exact absurd rfl hsome
  have hlast : ServesFinal sampleFeed samplePath [] sampleLast.io :=
    servesFinal_serverIo samplePath_honest
  have hend : ∀ prev : SelfScanState, (drain sampleLast.io 40 0 prev.cursor []).toOption.map (·.2) =
      some true → Exhausts sampleLast.io prev sampleLast.maxPages := by
    intro prev h
    cases hdrain : drain sampleLast.io 40 0 prev.cursor [] with
    | error e => simp [hdrain, Except.toOption] at h
    | ok drained =>
      obtain ⟨events, ex⟩ := drained
      obtain rfl : ex = true := by simpa [hdrain, Except.toOption] using h
      exact ⟨events, hdrain⟩
  obtain ⟨single, hsingle, hresumed⟩ := self_scan_resumes collisionFree_plain sampleFeed hserves hread
    hlast (hend _ (by decide +kernel)) hfinal hlast (hend _ (by decide +kernel))
  exact ⟨final, single, hfinal, hsingle, hresumed⟩

end Sample

end Bongtu.Client
