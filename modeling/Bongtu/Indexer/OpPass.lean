import Bongtu.Indexer.Attribution

namespace Bongtu.Indexer

open Bongtu.Core Outcome

open Evm (Address)

variable {cfg : IngestConfig} {logs own rest ts : List ParsedLog} {txHash : TxHash} {p : Pass}

namespace Pass.Aligned

variable (h : Aligned (own ++ rest) p) (htx : ∀ l ∈ own, l.txHash = txHash)

include h htx

theorem pairs : p.appended txHash = ownPairs own ++ appendedOf rest txHash := by
  rw [h.appended, appendedOf_eq, appendedOf_eq, Fifo.queue_block htx]
  rfl

theorem subtree : p.subtrees txHash = own.filterMap (·.event.subtree) ++ subtreesOf rest txHash := by
  rw [h.subtrees, subtreesOf_eq, subtreesOf_eq, Fifo.queue_block htx]

theorem applied : p.opApplied txHash = own.filterMap (·.event.applied) ++ opAppliedOf rest txHash := by
  rw [h.opApplied, opAppliedOf_eq, opAppliedOf_eq, Fifo.queue_block htx]

theorem next_pairs : Function.update p.appended txHash (appendedOf rest txHash) = appendedOf rest := by
  rw [h.appended, appendedOf_eq, appendedOf_eq, Fifo.update_block htx]

theorem next_subtree : Function.update p.subtrees txHash (subtreesOf rest txHash) = subtreesOf rest := by
  rw [h.subtrees, subtreesOf_eq, subtreesOf_eq, Fifo.update_block htx]

theorem next_applied : Function.update p.opApplied txHash (opAppliedOf rest txHash) = opAppliedOf rest := by
  rw [h.opApplied, opAppliedOf_eq, opAppliedOf_eq, Fifo.update_block htx]

omit htx

theorem idle_pairs (hnone : ∀ l ∈ own, l.event.pair = none) : p.appended = appendedOf rest := by
  rw [h.appended, appendedOf_eq, appendedOf_eq, Fifo.queue_idle hnone]

theorem idle_subtree (hnone : ∀ l ∈ own, l.event.subtree = none) : p.subtrees = subtreesOf rest := by
  rw [h.subtrees, subtreesOf_eq, subtreesOf_eq, Fifo.queue_idle hnone]

theorem idle_applied (hnone : ∀ l ∈ own, l.event.applied = none) : p.opApplied = opAppliedOf rest := by
  rw [h.opApplied, opAppliedOf_eq, opAppliedOf_eq, Fifo.queue_idle hnone]

end Pass.Aligned

-- The op's own logs are handled without a throw and take from the queues exactly what they put in.
def Passes (cfg : IngestConfig) (logs own : List ParsedLog) (s s' : IndexerState) : Prop :=
  ∀ rest p, p.Aligned (own ++ rest) → p.indexer = s → ∃ p', Run.forEach (handle cfg logs) own p = .returned p' ∧
    p'.Aligned rest ∧ p'.indexer = s'

def AppendedPair.event (pair : AppendedPair) : ParsedEvent := .appended pair.leafIndex pair.leaf pair.root

section Trees

variable {pairs : List AppendedPair} (hts : ts.map (·.event) = pairs.map AppendedPair.event)

include hts

theorem exists_pair {l : ParsedLog} (hl : l ∈ ts) : ∃ pair ∈ pairs, l.event = pair.event := by
  have hmem : l.event ∈ pairs.map AppendedPair.event := hts ▸ List.mem_map_of_mem hl
  obtain ⟨pair, hpair, heq⟩ := List.mem_map.mp hmem
  exact ⟨pair, hpair, heq.symm⟩

theorem quiet_trees : ∀ l ∈ ts, l.event.isQuiet = true := by
  intro l hl
  obtain ⟨pair, -, heq⟩ := exists_pair hts hl
  rw [heq]
  rfl

theorem ownPairs_trees : ownPairs ts = pairs := by
  have hmap : ownPairs ts = (ts.map (·.event)).filterMap ParsedEvent.pair := by
    rw [List.filterMap_map]
    rfl
  rw [hmap, hts, List.filterMap_map]
  exact List.filterMap_some

end Trees

theorem postingAt_quiet {l : ParsedLog} (h : l.event.isQuiet = true) : postingAt cfg own l = none := by
  unfold postingAt
  cases hl : l.event <;> rw [hl] at h <;> first | rfl | cases h

theorem findSome_quiet (ls : List ParsedLog) (h : ∀ l ∈ ls, l.event.isQuiet = true) :
    ls.findSome? (postingAt cfg own) = none :=
  List.findSome?_eq_none_iff.mpr fun l hl => postingAt_quiet (h l hl)

-- The pass once the queues have moved on to the logs after an op's own.
def Pass.after (rest : List ParsedLog) (p : Pass) : Pass :=
  { p with appended := appendedOf rest, subtrees := subtreesOf rest, opApplied := opAppliedOf rest }

theorem Pass.Aligned.after_aligned (h : p.Aligned (own ++ rest)) : (p.after rest).Aligned rest :=
  ⟨rfl, rfl, rfl, h.withdrawEntries⟩

section After

variable (h : p.Aligned (own ++ rest)) (htx : ∀ l ∈ own, l.txHash = txHash)

include h htx

theorem after_pairs (hsubtree : ∀ l ∈ own, l.event.subtree = none) (happlied : ∀ l ∈ own, l.event.applied = none) :
    { p with appended := Function.update p.appended txHash (appendedOf rest txHash) } = p.after rest := by
  rw [h.next_pairs htx, Pass.after, ← h.idle_subtree hsubtree, ← h.idle_applied happlied]

theorem after_applied (hsubtree : ∀ l ∈ own, l.event.subtree = none) :
    { p with
      appended := Function.update p.appended txHash (appendedOf rest txHash)
      opApplied := Function.update p.opApplied txHash (opAppliedOf rest txHash) } = p.after rest := by
  rw [h.next_pairs htx, h.next_applied htx, Pass.after, ← h.idle_subtree hsubtree]

theorem after_subtree (hpair : ∀ l ∈ own, l.event.pair = none) (happlied : ∀ l ∈ own, l.event.applied = none) :
    { p with subtrees := Function.update p.subtrees txHash (subtreesOf rest txHash) } = p.after rest := by
  rw [h.next_subtree htx, Pass.after, ← h.idle_pairs hpair, ← h.idle_applied happlied]

theorem after_batch (hpair : ∀ l ∈ own, l.event.pair = none) :
    { p with
      subtrees := Function.update p.subtrees txHash (subtreesOf rest txHash)
      opApplied := Function.update p.opApplied txHash (opAppliedOf rest txHash) } = p.after rest := by
  rw [h.next_subtree htx, h.next_applied htx, Pass.after, ← h.idle_pairs hpair]

end After

section Shapes

variable {s : IndexerState} {pre post : List ParsedLog} {fam ann : ParsedLog} {x : Posting}

theorem passes_family (hpre : ∀ l ∈ pre, l.event.isQuiet = true) (hpost : ∀ l ∈ post, l.event.isQuiet = true)
    (hfam : ∀ rest p, p.Aligned (pre ++ fam :: post ++ rest) → p.indexer = s →
      handle cfg logs fam p = .returned ((p.after rest).posted x)) :
    Passes cfg logs (pre ++ fam :: post) s (s.post x) := by
  intro rest p hp hs
  refine ⟨(p.after rest).posted x, ?_, ⟨rfl, rfl, rfl, hp.withdrawEntries⟩, congrArg (IndexerState.post _) hs⟩
  rw [Run.forEach_append, forEach_quiet pre hpre, Run.bind_returned, Run.forEach, hfam rest p hp hs,
    Run.bind_returned, forEach_quiet post hpost]

theorem passes_withdraw {recipient ephemeralPub viewTag : ℕ} (hpre : ∀ l ∈ pre, l.event.isQuiet = true)
    (hann : ann.event = .withdrawAnnouncement recipient ephemeralPub viewTag) (hbatch : x.batch = none)
    (hfam : ∀ rest p, p.Aligned (pre ++ [fam, ann] ++ rest) → p.indexer = s →
      handle cfg logs fam p = .returned ((p.after rest).withdrawn ann.txHash x)) :
    Passes cfg logs (pre ++ [fam, ann]) s (s.post (x.announced ann.event.announcement)) := by
  intro rest p hp hs
  refine ⟨(p.after rest).posted (x.announced ann.event.announcement), ?_,
    ⟨rfl, rfl, rfl, hp.withdrawEntries⟩, congrArg (IndexerState.post _) hs⟩
  have hwait : handle cfg logs ann ((p.after rest).withdrawn ann.txHash x) =
      .returned ((p.after rest).posted (x.announced ann.event.announcement)) :=
    handle_announcement hann hbatch hp.withdrawEntries
  rw [Run.forEach_append, forEach_quiet pre hpre, Run.bind_returned, Run.forEach, hfam rest p hp hs,
    Run.bind_returned, Run.forEach, hwait]
  rfl

end Shapes

section Families

variable {s : IndexerState} {fam ann app : ParsedLog} {pairs : List AppendedPair} {x : Posting}
  {mid : List ParsedLog}

section Own

variable (hts : ts.map (·.event) = pairs.map AppendedPair.event)

include hts

theorem ownPairs_mid (hmid : ∀ l ∈ mid, l.event.pair = none) : ownPairs (ts ++ mid) = pairs := by
  have hnone : ownPairs mid = [] := List.filterMap_eq_nil_iff.mpr hmid
  rw [ownPairs, List.filterMap_append, ← ownPairs, ← ownPairs, ownPairs_trees hts, hnone, List.append_nil]

theorem subtree_mid (hmid : ∀ l ∈ mid, l.event.subtree = none) : ∀ l ∈ ts ++ mid, l.event.subtree = none := by
  intro l hl
  rcases List.mem_append.mp hl with hl | hl
  · obtain ⟨pair, -, heq⟩ := exists_pair hts hl
    rw [heq]
    rfl
  · exact hmid l hl

theorem applied_trees : ∀ l ∈ ts, l.event.applied = none := by
  intro l hl
  obtain ⟨pair, -, heq⟩ := exists_pair hts hl
  rw [heq]
  rfl

theorem applied_mid (hmid : ∀ l ∈ mid, l.event.applied = none) : ∀ l ∈ ts ++ mid, l.event.applied = none := by
  intro l hl
  rcases List.mem_append.mp hl with hl | hl
  · exact applied_trees hts l hl
  · exact hmid l hl

theorem ownApplied_mid :
    (ts ++ mid).filterMap (·.event.applied) = mid.filterMap (·.event.applied) := by
  have hnone : ts.filterMap (·.event.applied) = [] := List.filterMap_eq_nil_iff.mpr (applied_trees hts)
  rw [List.filterMap_append, hnone, List.nil_append]

end Own

section Appends

variable (hts : ts.map (·.event) = pairs.map AppendedPair.event) (hledger : s.ledger = none)

include hts hledger

theorem passes_pairs (htx : ∀ l ∈ ts ++ [fam], l.txHash = fam.txHash) (hpair : fam.event.pair = none)
    (hsubtree : fam.event.subtree = none) (happlied : fam.event.applied = none)
    (hfam : ∀ (rest : List AppendedPair) (p : Pass), p.appended fam.txHash = pairs ++ rest →
      p.indexer.ledger = none → handle cfg logs fam p =
        .returned (Pass.posted x { p with appended := Function.update p.appended fam.txHash rest })) :
    Passes cfg logs (ts ++ [fam]) s (s.post x) := by
  refine passes_family (quiet_trees hts) (by simp) fun rest p hp hs => ?_
  have hqueue := hp.pairs htx
  rw [ownPairs_mid hts (by simpa using hpair)] at hqueue
  rw [hfam _ p hqueue (hs ▸ hledger), after_pairs hp htx (subtree_mid hts (by simpa using hsubtree))
    (applied_mid hts (by simpa using happlied))]

theorem passes_paid (htx : ∀ l ∈ ts ++ [fam, ann], l.txHash = fam.txHash) (hpair : fam.event.pair = none)
    (hsubtree : fam.event.subtree = none) (happlied : fam.event.applied = none) (hbatch : x.batch = none)
    {recipient ephemeralPub viewTag : ℕ}
    (hann : ann.event = .withdrawAnnouncement recipient ephemeralPub viewTag)
    (hfam : ∀ (rest : List AppendedPair) (p : Pass), p.appended fam.txHash = pairs ++ rest →
      p.indexer.ledger = none → handle cfg logs fam p = .returned
        (Pass.withdrawn fam.txHash x { p with appended := Function.update p.appended fam.txHash rest })) :
    Passes cfg logs (ts ++ [fam, ann]) s (s.post (x.announced ann.event.announcement)) := by
  have hnone : ann.event.pair = none ∧ ann.event.subtree = none ∧ ann.event.applied = none := by
    rw [hann]
    exact ⟨rfl, rfl, rfl⟩
  refine passes_withdraw (quiet_trees hts) hann hbatch fun rest p hp hs => ?_
  have hqueue := hp.pairs htx
  rw [ownPairs_mid hts (by simp [hpair, hnone])] at hqueue
  rw [hfam _ p hqueue (hs ▸ hledger), htx ann (by simp), after_pairs hp htx
    (subtree_mid hts (by simp [hsubtree, hnone])) (applied_mid hts (by simp [happlied, hnone]))]

end Appends

section Module

variable {op : OpAppliedRef} (hts : ts.map (·.event) = pairs.map AppendedPair.event)
  (happ : app.event = .opApplied op.module op.applied.startLeafIndex op.applied.nullifierCount
    op.applied.leafCount op.applied.subtreeRoot op.applied.root)

include hts happ

theorem quiet_module : ∀ l ∈ ts ++ [app], l.event.isQuiet = true := by
  intro l hl
  rcases List.mem_append.mp hl with hl | hl
  · exact quiet_trees hts l hl
  · rw [List.mem_singleton.mp hl, happ]
    rfl

omit hts in
theorem app_event : app.event.pair = none ∧ app.event.subtree = none ∧ app.event.applied = some op := by
  rw [happ]
  exact ⟨rfl, rfl, rfl⟩

variable (op) in
theorem passes_module (htx : ∀ l ∈ ts ++ [app, fam], l.txHash = fam.txHash) (hpair : fam.event.pair = none)
    (hsubtree : fam.event.subtree = none) (happlied : fam.event.applied = none)
    (hfam : ∀ (rest : List AppendedPair) (ops : List OpAppliedRef) (p : Pass),
      p.appended fam.txHash = pairs ++ rest → p.opApplied fam.txHash = op :: ops → p.indexer = s →
      handle cfg logs fam p = .returned (Pass.posted x { p with
        appended := Function.update p.appended fam.txHash rest
        opApplied := Function.update p.opApplied fam.txHash ops })) :
    Passes cfg logs (ts ++ [app, fam]) s (s.post x) := by
  obtain ⟨hpair', hsubtree', happlied'⟩ := app_event happ
  have hsplit : ts ++ [app, fam] = (ts ++ [app]) ++ fam :: [] := by simp
  rw [hsplit] at htx ⊢
  refine passes_family (quiet_module hts happ) (by simp) fun rest p hp hs => ?_
  have hqueue := hp.pairs htx
  have hops := hp.applied htx
  rw [← hsplit] at hqueue hops
  rw [ownPairs_mid hts (by simp [hpair, hpair'])] at hqueue
  rw [ownApplied_mid hts] at hops
  simp only [List.filterMap_cons, happlied', happlied, List.filterMap_nil, List.singleton_append] at hops
  rw [hfam _ _ p hqueue hops hs, after_applied hp htx]
  rw [← hsplit]
  exact subtree_mid hts (by simp [hsubtree, hsubtree'])

variable (op) in
theorem passes_modulePaid (htx : ∀ l ∈ ts ++ [app, fam, ann], l.txHash = fam.txHash)
    (hpair : fam.event.pair = none) (hsubtree : fam.event.subtree = none) (happlied : fam.event.applied = none)
    (hbatch : x.batch = none) {recipient ephemeralPub viewTag : ℕ}
    (hann : ann.event = .withdrawAnnouncement recipient ephemeralPub viewTag)
    (hfam : ∀ (rest : List AppendedPair) (ops : List OpAppliedRef) (p : Pass),
      p.appended fam.txHash = pairs ++ rest → p.opApplied fam.txHash = op :: ops → p.indexer = s →
      handle cfg logs fam p = .returned (Pass.withdrawn fam.txHash x { p with
        appended := Function.update p.appended fam.txHash rest
        opApplied := Function.update p.opApplied fam.txHash ops })) :
    Passes cfg logs (ts ++ [app, fam, ann]) s (s.post (x.announced ann.event.announcement)) := by
  obtain ⟨hpair', hsubtree', happlied'⟩ := app_event happ
  have hnone : ann.event.pair = none ∧ ann.event.subtree = none ∧ ann.event.applied = none := by
    rw [hann]
    exact ⟨rfl, rfl, rfl⟩
  have hsplit : ts ++ [app, fam, ann] = (ts ++ [app]) ++ [fam, ann] := by simp
  rw [hsplit] at htx ⊢
  refine passes_withdraw (quiet_module hts happ) hann hbatch fun rest p hp hs => ?_
  have hqueue := hp.pairs htx
  have hops := hp.applied htx
  rw [← hsplit] at hqueue hops
  rw [ownPairs_mid hts (by simp [hpair, hpair', hnone])] at hqueue
  rw [ownApplied_mid hts] at hops
  simp only [List.filterMap_cons, happlied', happlied, hnone, List.filterMap_nil, List.singleton_append] at hops
  rw [hfam _ _ p hqueue hops hs, htx ann (by simp), after_applied hp htx]
  rw [← hsplit]
  exact subtree_mid hts (by simp [hsubtree, hsubtree', hnone])

end Module

section Batch

variable {sub : ParsedLog} {st : SubtreePair}
  (hsub : sub.event = .subtreeAppended st.startLeafIndex st.subtreeRoot st.root)

include hsub

theorem sub_event : sub.event.pair = none ∧ sub.event.subtree = some st ∧ sub.event.applied = none := by
  rw [hsub]
  exact ⟨rfl, rfl, rfl⟩

theorem passes_disburse {cts : ParsedLog} {start : ℕ} {ciphertexts : List ℕ} (hledger : s.ledger = none)
    (htx : ∀ l ∈ [fam, sub, cts], l.txHash = fam.txHash) (hpair : fam.event.pair = none)
    (hsubtree : fam.event.subtree = none) (happlied : fam.event.applied = none)
    (hcts : cts.event = .disburseCiphertexts start ciphertexts)
    (hfam : ∀ (rest : List SubtreePair) (p : Pass), p.subtrees fam.txHash = st :: rest →
      p.indexer.ledger = none → handle cfg logs fam p =
        .returned (Pass.posted x { p with subtrees := Function.update p.subtrees fam.txHash rest })) :
    Passes cfg logs [fam, sub, cts] s (s.post x) := by
  obtain ⟨hpair', hsubtree', happlied'⟩ := sub_event hsub
  have hnone : cts.event.pair = none ∧ cts.event.subtree = none ∧ cts.event.applied = none := by
    rw [hcts]
    exact ⟨rfl, rfl, rfl⟩
  have hquiet : ∀ l ∈ [sub, cts], l.event.isQuiet = true := by
    simp only [List.mem_cons, List.not_mem_nil, or_false, forall_eq_or_imp, forall_eq, hsub, hcts]
    exact ⟨rfl, rfl⟩
  change Passes cfg logs ([] ++ fam :: [sub, cts]) s (s.post x)
  refine passes_family (by simp) hquiet fun rest p hp hs => ?_
  have hqueue := hp.subtree htx
  simp only [List.nil_append, List.filterMap_cons, hsubtree, hsubtree', hnone, List.filterMap_nil,
    List.singleton_append] at hqueue
  rw [hfam _ p hqueue (hs ▸ hledger), after_subtree hp htx (by simp [hpair, hpair', hnone])
    (by simp [happlied, happlied', hnone])]

theorem passes_disbursePriv (op : OpAppliedRef) {disc : ParsedLog} {start : ℕ} {disclosure : List ℕ}
    (happ : app.event = .opApplied op.module op.applied.startLeafIndex op.applied.nullifierCount
      op.applied.leafCount op.applied.subtreeRoot op.applied.root)
    (htx : ∀ l ∈ [sub, app, fam, disc], l.txHash = fam.txHash) (hpair : fam.event.pair = none)
    (hsubtree : fam.event.subtree = none) (happlied : fam.event.applied = none)
    (hdisc : disc.event = .disbursePrivDisclosure start disclosure)
    (hfam : ∀ (rest : List SubtreePair) (ops : List OpAppliedRef) (p : Pass),
      p.subtrees fam.txHash = st :: rest → p.opApplied fam.txHash = op :: ops → p.indexer = s →
      handle cfg logs fam p = .returned (Pass.posted x { p with
        subtrees := Function.update p.subtrees fam.txHash rest
        opApplied := Function.update p.opApplied fam.txHash ops })) :
    Passes cfg logs [sub, app, fam, disc] s (s.post x) := by
  obtain ⟨hpair', hsubtree', happlied'⟩ := sub_event hsub
  obtain ⟨hpair'', hsubtree'', happlied''⟩ := app_event happ
  have hnone : disc.event.pair = none ∧ disc.event.subtree = none ∧ disc.event.applied = none := by
    rw [hdisc]
    exact ⟨rfl, rfl, rfl⟩
  have hpre : ∀ l ∈ [sub, app], l.event.isQuiet = true := by
    simp only [List.mem_cons, List.not_mem_nil, or_false, forall_eq_or_imp, forall_eq, hsub, happ]
    exact ⟨rfl, rfl⟩
  have hpost : ∀ l ∈ [disc], l.event.isQuiet = true := by
    simp only [List.mem_singleton, forall_eq, hdisc]
    rfl
  change Passes cfg logs ([sub, app] ++ fam :: [disc]) s (s.post x)
  refine passes_family hpre hpost fun rest p hp hs => ?_
  have hqueue := hp.subtree htx
  have hops := hp.applied htx
  simp only [List.cons_append, List.nil_append, List.filterMap_cons, hsubtree, hsubtree', hsubtree'', hnone,
    List.filterMap_nil] at hqueue
  simp only [List.cons_append, List.nil_append, List.filterMap_cons, happlied, happlied', happlied'', hnone,
    List.filterMap_nil] at hops
  rw [hfam _ _ p hqueue hops hs, after_batch hp htx (by simp [hpair, hpair', hpair'', hnone])]

end Batch

end Families

end Bongtu.Indexer
