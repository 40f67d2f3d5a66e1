import Bongtu.Client.Found

namespace Bongtu.Client

open Bongtu.Core Outcome

def topOf (events : List FeedEvent) (cursor : ℤ) : ℤ :=
  events.foldl (fun m e => max m (e.seq : ℤ)) cursor

section Drain

theorem le_topOf (events : List FeedEvent) (cursor : ℤ) : cursor ≤ topOf events cursor := by
  induction events generalizing cursor with
  | nil => exact le_rfl
  | cons e events ih => exact (le_max_left _ _).trans (ih _)

theorem seq_le_topOf {events : List FeedEvent} {e : FeedEvent} (he : e ∈ events) (cursor : ℤ) :
    (e.seq : ℤ) ≤ topOf events cursor := by
  induction events generalizing cursor with
  | nil => exact absurd he List.not_mem_nil
  | cons e' events ih =>
    rcases List.mem_cons.mp he with rfl | he
    · exact (le_max_right _ _).trans (le_topOf events _)
    · exact ih he _

theorem topOf_cases (events : List FeedEvent) (cursor : ℤ) :
    topOf events cursor = cursor ∨ ∃ e ∈ events, topOf events cursor = e.seq := by
  induction events generalizing cursor with
  | nil => exact .inl rfl
  | cons e events ih =>
    rcases ih (max cursor e.seq) with h | ⟨e', he', h⟩
    · rcases max_choice cursor (e.seq : ℤ) with hmax | hmax
      · exact .inl (h.trans hmax)
      · exact .inr ⟨e, by simp, h.trans hmax⟩
    · exact .inr ⟨e', by simp [he'], h⟩

-- The pages a drain has read from a cursor on, and whether the last of them was empty.
inductive Drained (io : SelfScanIo) : ℤ → List FeedEvent → Bool → Prop
  | capped (cursor : ℤ) : Drained io cursor [] false
  | exhausted (n : ℕ) (cursor : ℤ) (served : List FeedEvent) :
      io.events n cursor = some served → (∀ e ∈ served, (e.seq : ℤ) ≤ cursor) →
      Drained io cursor [] true
  | page (n : ℕ) (cursor : ℤ) (served got : List FeedEvent) (ex : Bool) :
      io.events n cursor = some served →
      Drained io (topOf (served.filter fun e => cursor < e.seq) cursor) got ex →
      Drained io cursor ((served.filter fun e => cursor < e.seq) ++ got) ex

theorem drained_of_drain {io : SelfScanIo} {left n : ℕ} {cursor : ℤ} {acc out : List FeedEvent}
    {ex : Bool} (h : drain io left n cursor acc = .ok (out, ex)) :
    ∃ got, out = acc ++ got ∧ Drained io cursor got ex := by
  induction left generalizing n cursor acc with
  | zero =>
    cases h
    exact ⟨[], by simp, .capped cursor⟩
  | succ left ih =>
    simp only [drain, bind_ok] at h
    obtain ⟨served, hserved, h⟩ := h
    have hevents : io.events n cursor = some served := by
      cases hread : io.events n cursor with
      | none => simp [hread, read] at hserved
      | some page => simpa [hread, read] using hserved
    split_ifs at h with hnext
    · cases h
      refine ⟨[], by simp, .exhausted n cursor served hevents fun e he => ?_⟩
      by_contra hlt
      have hmem : e ∈ served.filter fun e => cursor < e.seq := by simpa [he] using hlt
      have := seq_le_topOf hmem cursor
      rw [topOf, hnext] at this
      exact hlt this
    · obtain ⟨got, hout, hgot⟩ := ih h
      exact ⟨_, by rw [hout, List.append_assoc], .page n cursor served got ex hevents hgot⟩

variable {io : SelfScanIo} {cursor : ℤ} {got : List FeedEvent} {ex : Bool}

theorem Drained.known (h : Drained io cursor got ex) : ∀ e ∈ got, cursor < e.seq ∧
    ∃ n from' page, io.events n from' = some page ∧ e ∈ page := by
  induction h with
  | capped cursor => simp
  | exhausted n cursor served hserved hpast => simp
  | page n cursor served got ex hserved hgot ih =>
    intro e he
    rcases List.mem_append.mp he with he | he
    · obtain ⟨hmem, hlt⟩ := List.mem_filter.mp he
      exact ⟨by simpa using hlt, n, cursor, served, hserved, hmem⟩
    · obtain ⟨hlt, hpage⟩ := ih e he
      exact ⟨(le_topOf _ _).trans_lt hlt, hpage⟩

theorem Drained.gapless (h : Drained io cursor got ex) {P : FeedEvent → Prop} {seq : ℕ}
    (hpage : ∀ n from' page, io.events n from' = some page → from' < seq →
      ∀ last ∈ page, seq ≤ last.seq → ∃ e ∈ page, e.seq = seq ∧ P e)
    (hseq : cursor < seq) {last : FeedEvent} (hlast : last ∈ got) (hle : seq ≤ last.seq) :
    ∃ e ∈ got, e.seq = seq ∧ P e := by
  induction h with
  | capped cursor => exact absurd hlast List.not_mem_nil
  | exhausted n cursor served hserved hpast => exact absurd hlast List.not_mem_nil
  | page n cursor served got ex hserved hgot ih =>
    rcases lt_or_ge (topOf (served.filter fun e => cursor < e.seq) cursor) seq with hnext | hnext
    · have hrest : last ∈ got := by
        rcases List.mem_append.mp hlast with hmem | hmem
        · have := seq_le_topOf hmem cursor
          omega
        · exact hmem
      obtain ⟨e, he, hfound⟩ := ih hnext hrest
      exact ⟨e, by simp [he], hfound⟩
    · obtain ⟨top, htop, htopseq⟩ : ∃ top ∈ served.filter fun e => cursor < e.seq, seq ≤ top.seq := by
        rcases topOf_cases (served.filter fun e => cursor < e.seq) cursor with htop | ⟨top, hmem, htop⟩
        · omega
        · exact ⟨top, hmem, by omega⟩
      obtain ⟨e, he, hes, hP⟩ := hpage n cursor served hserved hseq top (List.mem_filter.mp htop).1 htopseq
      refine ⟨e, List.mem_append.mpr (.inl (List.mem_filter.mpr ⟨he, ?_⟩)), hes, hP⟩
      rw [hes]
      exact decide_eq_true hseq

end Drain

section Merge

theorem mem_mergeFresh {seen : List ℕ} {found : List ScanCandidate} {n : ScanNote}
    (h : n ∈ mergeFresh seen found) : n.toScanCandidate ∈ found := by
  induction found generalizing seen with
  | nil => exact absurd h List.not_mem_nil
  | cons c found ih =>
    unfold mergeFresh at h
    split_ifs at h
    · exact List.mem_cons_of_mem _ (ih h)
    · rcases List.mem_cons.mp h with rfl | h
      · exact List.mem_cons_self
      · exact List.mem_cons_of_mem _ (ih h)

theorem mergeFresh_covers (seen : List ℕ) {found : List ScanCandidate} {c : ScanCandidate}
    (hc : c ∈ found) : c.commitment ∈ seen ∨ ∃ n ∈ mergeFresh seen found, n.commitment = c.commitment := by
  induction found generalizing seen with
  | nil => exact absurd hc List.not_mem_nil
  | cons c' found ih =>
    unfold mergeFresh
    split_ifs with hseen
    · rcases List.mem_cons.mp hc with rfl | hc
      · exact .inl hseen
      · exact ih seen hc
    · rcases List.mem_cons.mp hc with rfl | hc
      · exact .inr ⟨⟨c, false⟩, List.mem_cons_self, rfl⟩
      · rcases ih (c'.commitment :: seen) hc with hmem | ⟨n, hn, hnc⟩
        · rcases List.mem_cons.mp hmem with heq | hmem
          · exact .inr ⟨⟨c', false⟩, List.mem_cons_self, heq.symm⟩
          · exact .inl hmem
        · exact .inr ⟨n, List.mem_cons_of_mem _ hn, hnc⟩

variable {prev : List ScanNote} {found : List ScanCandidate}

theorem mem_mergeNotes {n : ScanNote} (h : n ∈ mergeNotes prev found) :
    n ∈ prev ∨ n.toScanCandidate ∈ found := by
  rcases List.mem_append.mp h with h | h
  · exact .inl h
  · exact .inr (mem_mergeFresh h)

theorem mergeNotes_covers (prev : List ScanNote) {c : ScanCandidate} (hc : c ∈ found) :
    ∃ n ∈ mergeNotes prev found, n.commitment = c.commitment := by
  rcases mergeFresh_covers (prev.map (·.commitment)) hc with h | ⟨n, hn, hnc⟩
  · obtain ⟨n, hn, hnc⟩ := List.mem_map.mp h
    exact ⟨n, List.mem_append.mpr (.inl hn), hnc⟩
  · exact ⟨n, List.mem_append.mpr (.inr hn), hnc⟩

theorem mem_applySpent {notes : List ScanNote} {spent : List ℕ} {n : ScanNote} :
    n ∈ applySpent notes spent ↔
      n.spent = decide (n.nullifier ∈ spent) ∧ ∃ m ∈ notes, m.toScanCandidate = n.toScanCandidate := by
  unfold applySpent
  constructor
  · intro h
    obtain ⟨m, hm, rfl⟩ := List.mem_map.mp h
    exact ⟨rfl, m, hm, rfl⟩
  · rintro ⟨hspent, m, hm, hmn⟩
    refine List.mem_map.mpr ⟨m, hm, ?_⟩
    obtain ⟨c, spent'⟩ := n
    simp only at hspent hmn
    rw [hmn, hspent]

theorem mem_dedupePending {entries : List PendingDiscovery} {d : PendingDiscovery}
    (h : d ∈ dedupePending entries) : d ∈ entries := by
  have key : ∀ (entries : List PendingDiscovery) (seen : List ℕ), d ∈ dedupeSeen seen entries →
      d ∈ entries := by
    intro entries
    induction entries with
    | nil => exact fun _ h => h
    | cons e entries ih =>
      intro seen h
      unfold dedupeSeen at h
      split_ifs at h
      · exact List.mem_cons_of_mem _ (ih _ h)
      · rcases List.mem_cons.mp h with rfl | h
        · exact List.mem_cons_self
        · exact List.mem_cons_of_mem _ (ih _ h)
  exact key entries [] h

theorem dedupePending_covers {entries : List PendingDiscovery} {d : PendingDiscovery}
    (hd : d ∈ entries) : ∃ d' ∈ dedupePending entries, d'.seq = d.seq := by
  have key : ∀ (entries : List PendingDiscovery) (seen : List ℕ), d ∈ entries →
      d.seq ∈ seen ∨ ∃ d' ∈ dedupeSeen seen entries, d'.seq = d.seq := by
    intro entries
    induction entries with
    | nil => exact fun _ h => absurd h List.not_mem_nil
    | cons e entries ih =>
      intro seen h
      unfold dedupeSeen
      split_ifs with hseen
      · rcases List.mem_cons.mp h with rfl | h
        · exact .inl hseen
        · exact ih _ h
      · rcases List.mem_cons.mp h with rfl | h
        · exact .inr ⟨d, List.mem_cons_self, rfl⟩
        · rcases ih (e.seq :: seen) h with hmem | ⟨d', hd', hseq⟩
          · rcases List.mem_cons.mp hmem with heq | hmem
            · exact .inr ⟨e, List.mem_cons_self, heq.symm⟩
            · exact .inl hmem
          · exact .inr ⟨d', List.mem_cons_of_mem _ hd', hseq⟩
  rcases key entries [] hd with h | h
  · exact absurd h List.not_mem_nil
  · exact h

theorem seq_mem_dedupePending {entries : List PendingDiscovery} {seq : ℕ} :
    (∃ d ∈ dedupePending entries, d.seq = seq) ↔ ∃ d ∈ entries, d.seq = seq := by
  constructor
  · rintro ⟨d, hd, hseq⟩
    exact ⟨d, mem_dedupePending hd, hseq⟩
  · rintro ⟨d, hd, rfl⟩
    exact dedupePending_covers hd

end Merge

variable {p : Primitives} {me : Identity} {ev : FeedEvent} {found : Found}

-- What one successful scan read and scanned.
structure Pass (p : Primitives) (me : Identity) (io : SelfScanIo) (prev : SelfScanState)
    (maxPages : ℕ) where
  got : List FeedEvent
  exhausted : Bool
  found : Found
  spent : List ℕ
  drained : drain io maxPages 0 prev.cursor [] = .ok (got, exhausted)
  scans : collect (scanEvent p me) (prev.pending.filterMap (rereadOf io) ++ got) = .ok found
  nullifiers : io.nullifiers = some spent

namespace Pass

variable {io : SelfScanIo} {prev next : SelfScanState} {maxPages : ℕ}

def scanned (pass : Pass p me io prev maxPages) : List FeedEvent :=
  prev.pending.filterMap (rereadOf io) ++ pass.got

def fresh (pass : Pass p me io prev maxPages) : List ScanCandidate :=
  pass.found.accepted ++ pass.found.candidates.filter (confirms p io.path)

def unsettled (pass : Pass p me io prev maxPages) : List PendingDiscovery :=
  prev.pending.filter (fun entry => rereadOf io entry = none) ++ pass.found.pending ++
    pass.found.candidates.filterMap (gatedOf io.path)

structure Gives (pass : Pass p me io prev maxPages) (next : SelfScanState) : Prop where
  cursor : next.cursor = max prev.cursor (cursorOf pass.scanned)
  notes : next.notes = applySpent (mergeNotes prev.notes pass.fresh) pass.spent
  pending : next.pending = dedupePending pass.unsettled

end Pass

theorem read_ok {α : Type} {x : Option α} {y : α} (h : read x = .ok y) : x = some y := by
  cases x with
  | none => exact nomatch h
  | some x => exact congrArg some (Except.ok.inj h)

variable {io : SelfScanIo} {prev next : SelfScanState} {maxPages : ℕ}

theorem runSelfScan_ok (h : runSelfScan p me io prev maxPages = .ok next) :
    ∃ pass : Pass p me io prev maxPages, pass.Gives next := by
  simp only [runSelfScan, bind_ok] at h
  obtain ⟨head, -, ⟨got, ex⟩, hdrain, scanPass, hscan, spent, hspent, hnext⟩ := h
  cases hcollect : collect (scanEvent p me) (prev.pending.filterMap (rereadOf io) ++ got) with
  | error e => simp [scanEventsPass, hcollect, Except.mapError, bind, Except.bind] at hscan
  | ok found =>
    simp only [scanEventsPass, hcollect, bind, Except.bind, pure, Except.pure, Except.mapError,
      Except.ok.injEq] at hscan
    subst hscan
    cases hnext
    exact ⟨⟨got, ex, found, spent, hdrain, hcollect, read_ok hspent⟩, rfl, rfl, rfl⟩

theorem runSelfScan_total {head : Head} (hhead : io.head = some head)
    (pass : Pass p me io prev maxPages) :
    ∃ next, runSelfScan p me io prev maxPages = .ok next ∧ pass.Gives next := by
  refine ⟨⟨max prev.cursor (cursorOf pass.scanned), coveredBy prev head (pass.got, pass.exhausted),
    applySpent (mergeNotes prev.notes pass.fresh) pass.spent, dedupePending pass.unsettled⟩, ?_,
    rfl, rfl, rfl⟩
  have hscan := pass.scans
  simp only [runSelfScan, hhead, pass.nullifiers, pass.drained, scanEventsPass, hscan, read, bind,
    Except.bind, pure, Except.pure, Except.mapError, Option.elim_some]
  rfl

variable {pass : Pass p me io prev maxPages}

theorem Pass.drained_from (pass : Pass p me io prev maxPages) :
    Drained io prev.cursor pass.got pass.exhausted := by
  obtain ⟨got, hgot, hdrained⟩ := drained_of_drain pass.drained
  rw [hgot]
  exact hdrained

theorem mem_scanned {pass : Pass p me io prev maxPages} {ev : FeedEvent} : ev ∈ pass.scanned ↔
    (∃ d ∈ prev.pending, rereadOf io d = some ev) ∨ ev ∈ pass.got := by
  simp [Pass.scanned]

theorem rereadOf_some {d : PendingDiscovery} {ev : FeedEvent} (h : rereadOf io d = some ev) :
    ev.seq = d.seq ∧ ∃ served, io.reread d.seq = some served ∧ ev ∈ served := by
  obtain ⟨served, hserved, hfind⟩ := Option.bind_eq_some_iff.mp h
  exact ⟨by simpa using List.find?_some hfind, served, hserved, List.mem_of_find?_eq_some hfind⟩

theorem Pass.scanned_le (pass : Pass p me io prev maxPages) (hnext : pass.Gives next) {ev : FeedEvent}
    (h : ev ∈ pass.scanned) : (ev.seq : ℤ) ≤ next.cursor := by
  rw [hnext.cursor]
  exact (seq_le_topOf h (-1)).trans (le_max_right _ _)

theorem Pass.gain_ok (pass : Pass p me io prev maxPages) {ev : FeedEvent} (h : ev ∈ pass.scanned) :
    scanEvent p me ev = .ok (gain (scanEvent p me) ev) := (collect_eq_ok.mp pass.scans).1 ev h

theorem Pass.part {β : Type} {part : Found → List β} (hpart : IsPart part)
    (pass : Pass p me io prev maxPages) {c : β} :
    c ∈ part pass.found ↔ ∃ ev ∈ pass.scanned, c ∈ part (gain (scanEvent p me) ev) := by
  rw [hpart.collect pass.scans, List.mem_flatMap]
  rfl

theorem gatedOf_none {path : ℕ → Option PathResult} {c : ScanCandidate} :
    gatedOf path c = none ↔ (path c.leafIndex = none → c.family = .enterprise → c.kind ≠ .disburse) := by
  unfold gatedOf
  split_ifs with h
  · simp [h]
  · simp only [true_iff]
    exact fun hpath hfamily hkind => h ⟨hpath, hfamily, hkind⟩

theorem gatedOf_some {path : ℕ → Option PathResult} {c : ScanCandidate} {d : PendingDiscovery}
    (h : gatedOf path c = some d) : d.seq = c.seq ∧ c.kind = .disburse ∧ path c.leafIndex = none ∧
      d.status = .enterpriseBatchGated := by
  unfold gatedOf at h
  split_ifs at h with hgate
  cases h
  exact ⟨rfl, hgate.2.2, hgate.1, rfl⟩

structure Scan where
  io : SelfScanIo
  maxPages : ℕ

-- A scan that throws leaves the state it started from.
def scanOnce (p : Primitives) (me : Identity) (prev : SelfScanState) (scan : Scan) : SelfScanState :=
  (runSelfScan p me scan.io prev scan.maxPages).toOption.getD prev

def scanAll (p : Primitives) (me : Identity) (scans : List Scan) : SelfScanState :=
  scans.foldl (scanOnce p me) emptyScanState

theorem scanAll_snoc (p : Primitives) (me : Identity) (scans : List Scan) (scan : Scan) :
    scanAll p me (scans ++ [scan]) = scanOnce p me (scanAll p me scans) scan := by
  simp [scanAll]

end Bongtu.Client
