import Bongtu.Core.Text
import Bongtu.Outcome

namespace Bongtu.Indexer.ScanRange

open Core Outcome

structure RawLog where
  blockNumber : ℕ
  logIndex : ℕ
  transactionHash : String
  address : String
  data : String
  topics : List String
deriving DecidableEq, Repr

structure ParsedLog (α : Type) where
  name : String
  blockNumber : ℕ
  logIndex : ℕ
  txHash : String
  address : String
  blockTimestamp : ℕ
  args : α
deriving DecidableEq, Repr

structure LogQuery where
  fromBlock : ℕ
  toBlock : ℕ
  answered : Bool
deriving DecidableEq, Repr

-- An RPC endpoint: whether a query fails may depend on its range and on all that came before.
structure LogProvider (σ ε : Type) where
  getLogs : List String → ℕ → ℕ → σ → Except ε (List RawLog) × σ

-- `queries` is kept for the statements only.
structure LogScan (σ α : Type) where
  provider : σ
  out : List (ParsedLog α)
  queries : List LogQuery
deriving DecidableEq

variable {σ ε α : Type} (provider : LogProvider σ ε) (decodeEventLog : String → List String → Option (String × α))
  (addresses : List String)

def parseRaw (log : RawLog) : Option (ParsedLog α) :=
  (decodeEventLog log.data log.topics).map fun ev => {
    name := ev.1
    blockNumber := log.blockNumber
    logIndex := log.logIndex
    txHash := log.transactionHash
    address := toLowerCase log.address
    blockTimestamp := 0
    args := ev.2 }

def walk (lo hi : ℕ) (scan : LogScan σ α) : Run ε (LogScan σ α) :=
  match provider.getLogs addresses lo hi scan.provider with
  | (.ok raw, p) => .returned {
      provider := p
      out := scan.out ++ raw.filterMap (parseRaw decodeEventLog)
      queries := scan.queries ++ [⟨lo, hi, true⟩] }
  | (.error e, p) =>
    let failed := { scan with provider := p, queries := scan.queries ++ [⟨lo, hi, false⟩] }
    if lo < hi then (walk lo ((lo + hi) / 2) failed).bind (walk ((lo + hi) / 2 + 1) hi)
    else .threw e failed
termination_by hi - lo

-- `LOG_CHUNK`
structure LogChunk where
  size : ℕ
  size_pos : 0 < size

def walkChunks (chunk : LogChunk) (toBlock lo : ℕ) (scan : LogScan σ α) : Run ε (LogScan σ α) :=
  if toBlock < lo then .returned scan
  else
    (walk provider decodeEventLog addresses lo (min (lo + chunk.size - 1) toBlock) scan).bind
      (walkChunks chunk toBlock (lo + chunk.size))
termination_by toBlock + 1 - lo
decreasing_by
  have := chunk.size_pos
  omega

def scanRange (chunk : LogChunk) (fromBlock toBlock : ℕ) (s : σ) : Run ε (LogScan σ α) :=
  walkChunks provider decodeEventLog addresses chunk toBlock fromBlock ⟨s, [], []⟩

def blocks (lo hi : ℕ) : List ℕ := List.range' lo (hi + 1 - lo)

def LogQuery.blocks (q : LogQuery) : List ℕ := ScanRange.blocks q.fromBlock q.toBlock

def LogScan.answered (scan : LogScan σ α) : List ℕ := (scan.queries.filter (·.answered)).flatMap LogQuery.blocks

theorem blocks_append {lo mid hi : ℕ} (hlo : lo ≤ mid + 1) (hhi : mid ≤ hi) :
    blocks lo mid ++ blocks (mid + 1) hi = blocks lo hi := by
  have hstart : mid + 1 = lo + 1 * (mid + 1 - lo) := by omega
  have hlen : hi + 1 - lo = mid + 1 - lo + (hi + 1 - (mid + 1)) := by omega
  rw [blocks, blocks, blocks, hlen, ← List.range'_append, ← hstart]

section Coverage

variable {provider decodeEventLog addresses}

-- What a scan of a range leaves: with its answer the logs of the blocks, each block answered for
-- once; with an error a failed query for one block.
inductive Covers (chain : ℕ → List RawLog) (decodeEventLog : String → List String → Option (String × α))
    (lo hi budget : ℕ) (scan : LogScan σ α) : Run ε (LogScan σ α) → Prop where
  | returned {t : LogScan σ α}
      (out : t.out = scan.out ++ ((blocks lo hi).flatMap chain).filterMap (parseRaw decodeEventLog))
      (answered : t.answered = scan.answered ++ blocks lo hi)
      (queries : t.queries.length ≤ scan.queries.length + budget) : Covers _ _ _ _ _ _ (.returned t)
  | threw {e : ε} {t : LogScan σ α} {n : ℕ} (hlo : lo ≤ n) (hhi : n ≤ hi)
      (last : t.queries.getLast? = some ⟨n, n, false⟩)
      (queries : t.queries.length ≤ scan.queries.length + budget) : Covers _ _ _ _ _ _ (.threw e t)

variable {chain : ℕ → List RawLog} {lo mid hi budget budget' : ℕ} {scan : LogScan σ α}
  {x : Run ε (LogScan σ α)} {f : LogScan σ α → Run ε (LogScan σ α)}

theorem Covers.bind (hlo : lo ≤ mid + 1) (hhi : mid ≤ hi) (h : Covers chain decodeEventLog lo mid budget scan x)
    (hf : ∀ t, Covers chain decodeEventLog (mid + 1) hi budget' t (f t)) :
    Covers chain decodeEventLog lo hi (budget + budget') scan (x.bind f) := by
  cases h with
  | threw hlo' hhi' last queries => exact .threw hlo' (hhi'.trans hhi) last (by omega)
  | @returned t out answered queries =>
    have hnext := hf t
    rw [Run.bind_returned]
    generalize f t = y at hnext
    cases hnext with
    | threw hlo' hhi' last queries' => exact .threw (by omega) hhi' last (by omega)
    | returned out' answered' queries' =>
      refine .returned ?_ ?_ (by omega)
      · rw [out', out, List.append_assoc, ← List.filterMap_append, ← List.flatMap_append, blocks_append hlo hhi]
      · rw [answered', answered, List.append_assoc, blocks_append hlo hhi]

-- A failed query in front adds nothing to what is answered.
theorem Covers.failed {p : σ} {q : LogQuery} (hq : q.answered = false)
    (h : Covers chain decodeEventLog lo hi budget { scan with provider := p, queries := scan.queries ++ [q] } x) :
    Covers chain decodeEventLog lo hi (budget + 1) scan x := by
  have hsame : LogScan.answered { scan with provider := p, queries := scan.queries ++ [q] } = scan.answered := by
    simp [LogScan.answered, List.filter_append, hq]
  cases h with
  | threw hlo hhi last queries =>
    rw [List.length_append, List.length_singleton] at queries
    exact .threw hlo hhi last (by omega)
  | returned out answered queries =>
    rw [List.length_append, List.length_singleton] at queries
    exact .returned out (answered.trans (by rw [hsame])) (by omega)

-- The logs that a set of addresses emitted in a block, in their order.
structure LogChain where
  logs : List String → ℕ → List RawLog
  inBlock : ∀ addresses n, ∀ log ∈ logs addresses n, log.blockNumber = n

-- What is answered are the logs of the blocks asked for, in their order.
def LogProvider.Serves (provider : LogProvider σ ε) (chain : LogChain) : Prop :=
  ∀ addresses lo hi s raw s', provider.getLogs addresses lo hi s = (.ok raw, s') →
    raw = (blocks lo hi).flatMap (chain.logs addresses)

variable {chain : LogChain}

theorem walk_covers (hserves : provider.Serves chain) (h : lo ≤ hi) (scan : LogScan σ α) :
    Covers (chain.logs addresses) decodeEventLog lo hi (2 * (hi - lo) + 1) scan
      (walk provider decodeEventLog addresses lo hi scan) := by
  induction hn : hi - lo using Nat.strong_induction_on generalizing lo hi scan with
  | _ n ih =>
    rw [walk]
    split
    · next raw p hquery =>
      refine .returned ?_ ?_ (by simp)
      · rw [hserves _ _ _ _ _ _ hquery]
      · simp [LogScan.answered, List.filter_append, LogQuery.blocks]
    · next e p hquery =>
      dsimp only
      split
      · next hlt =>
        have hleft : Covers (chain.logs addresses) decodeEventLog lo ((lo + hi) / 2) _
            { scan with provider := p, queries := scan.queries ++ [⟨lo, hi, false⟩] } _ :=
          ih _ (by omega) (by omega) _ rfl
        have hboth := hleft.bind (by omega) (by omega) fun t =>
          ih (hi - ((lo + hi) / 2 + 1)) (by omega) (by omega) t rfl
        have hfailed := hboth.failed rfl
        rwa [show 2 * ((lo + hi) / 2 - lo) + 1 + (2 * (hi - ((lo + hi) / 2 + 1)) + 1) + 1 = 2 * n + 1 by omega]
          at hfailed
      · next hge =>
        obtain rfl : lo = hi := by omega
        exact .threw le_rfl le_rfl (by simp) (by simp)

theorem Covers.empty (h : hi < lo) (scan : LogScan σ α) :
    Covers (ε := ε) (chain.logs addresses) decodeEventLog lo hi budget scan (.returned scan) := by
  have hnone : blocks lo hi = [] := by
    rw [blocks, Nat.sub_eq_zero_of_le h]
    rfl
  exact .returned (by simp [hnone]) (by simp [hnone]) (by omega)

theorem Covers.mono (h : Covers (chain.logs addresses) decodeEventLog lo hi budget scan x) (hle : budget ≤ budget') :
    Covers (chain.logs addresses) decodeEventLog lo hi budget' scan x := by
  cases h with
  | returned out answered queries => exact .returned out answered (by omega)
  | threw hlo hhi last queries => exact .threw hlo hhi last (by omega)

theorem walkChunks_covers (hserves : provider.Serves chain) (chunk : LogChunk) (toBlock lo : ℕ)
    (scan : LogScan σ α) :
    Covers (chain.logs addresses) decodeEventLog lo toBlock (2 * (toBlock + 1 - lo)) scan
      (walkChunks provider decodeEventLog addresses chunk toBlock lo scan) := by
  induction hn : toBlock + 1 - lo using Nat.strong_induction_on generalizing lo scan with
  | _ n ih =>
    have hpos := chunk.size_pos
    rw [walkChunks]
    split
    · next hlt => exact .empty hlt scan
    · next hle =>
      have hfirst : Covers (chain.logs addresses) decodeEventLog lo (min (lo + chunk.size - 1) toBlock) _ scan
          (walk provider decodeEventLog addresses lo (min (lo + chunk.size - 1) toBlock) scan) :=
        walk_covers hserves (by omega) scan
      have hrest : ∀ t, Covers (chain.logs addresses) decodeEventLog (min (lo + chunk.size - 1) toBlock + 1) toBlock
          (2 * (toBlock + 1 - (lo + chunk.size))) t
          (walkChunks provider decodeEventLog addresses chunk toBlock (lo + chunk.size) t) := by
        intro t
        rcases le_or_gt (lo + chunk.size) toBlock with hinside | hpast
        · rw [show min (lo + chunk.size - 1) toBlock + 1 = lo + chunk.size by omega]
          exact ih _ (by omega) _ t rfl
        · rw [walkChunks, if_pos hpast]
          exact .empty (by omega) t
      exact (hfirst.bind (by omega) (by omega) hrest).mono (by omega)

end Coverage

section Scan

variable {provider decodeEventLog addresses} {chain : LogChain}

-- The logs of a range that the ABI models.
def decoded (decodeEventLog : String → List String → Option (String × α)) (chain : LogChain)
    (addresses : List String) (lo hi : ℕ) : List (ParsedLog α) :=
  ((blocks lo hi).flatMap (chain.logs addresses)).filterMap (parseRaw decodeEventLog)

theorem pairwise_decoded (lo hi : ℕ) :
    (decoded decodeEventLog chain addresses lo hi).Pairwise fun a b => a.blockNumber ≤ b.blockNumber := by
  have hraw : ((blocks lo hi).flatMap (chain.logs addresses)).Pairwise fun a b => a.blockNumber ≤ b.blockNumber := by
    rw [List.pairwise_flatMap]
    refine ⟨fun n _ => List.pairwise_of_forall_mem_list fun a ha b hb => ?_, ?_⟩
    · rw [chain.inBlock addresses n a ha, chain.inBlock addresses n b hb]
    · refine (List.pairwise_lt_range' (s := lo) (n := hi + 1 - lo)).imp fun {m n} hlt a ha b hb => ?_
      rw [chain.inBlock addresses m a ha, chain.inBlock addresses n b hb]
      exact hlt.le
  rw [decoded, List.pairwise_filterMap]
  refine hraw.imp fun {a b} hab a' ha' b' hb' => ?_
  obtain ⟨ev, -, rfl⟩ := Option.map_eq_some_iff.1 ha'
  obtain ⟨ev', -, rfl⟩ := Option.map_eq_some_iff.1 hb'
  exact hab

theorem scanRange_partitions (hserves : provider.Serves chain) (chunk : LogChunk) (fromBlock toBlock : ℕ) (s : σ) :
    (∀ scan, scanRange provider decodeEventLog addresses chunk fromBlock toBlock s = .returned scan →
      scan.out = decoded decodeEventLog chain addresses fromBlock toBlock ∧
        scan.out.Pairwise (fun a b => a.blockNumber ≤ b.blockNumber) ∧
        scan.answered = blocks fromBlock toBlock) ∧
    (∀ e scan, scanRange provider decodeEventLog addresses chunk fromBlock toBlock s = .threw e scan →
      ∃ n, fromBlock ≤ n ∧ n ≤ toBlock ∧ scan.queries.getLast? = some ⟨n, n, false⟩) ∧
    (scanRange provider decodeEventLog addresses chunk fromBlock toBlock s).state.queries.length ≤
      2 * (toBlock + 1 - fromBlock) := by
  have hcovers : Covers (chain.logs addresses) decodeEventLog fromBlock toBlock (2 * (toBlock + 1 - fromBlock))
      ⟨s, [], []⟩ (scanRange provider decodeEventLog addresses chunk fromBlock toBlock s) :=
    walkChunks_covers hserves chunk toBlock fromBlock ⟨s, [], []⟩
  generalize scanRange provider decodeEventLog addresses chunk fromBlock toBlock s = x at hcovers
  cases hcovers with
  | @returned t out answered queries =>
    have hout : t.out = decoded decodeEventLog chain addresses fromBlock toBlock := out
    refine ⟨fun scan hscan => ?_, fun e scan hscan => (by cases hscan), by simpa using queries⟩
    obtain rfl := Run.returned.inj hscan
    exact ⟨hout, hout ▸ pairwise_decoded fromBlock toBlock, answered⟩
  | threw hlo hhi last queries =>
    refine ⟨fun scan hscan => (by cases hscan), fun e scan hscan => ?_, by simpa using queries⟩
    obtain ⟨-, rfl⟩ := Run.threw.inj hscan
    exact ⟨_, hlo, hhi, last⟩

end Scan

section Sample

def sampleLog (n : ℕ) (topics : List String) : RawLog := ⟨n, 0, "0xt", "0xA", "0x", topics⟩

-- Block 5 has an event the ABI models, block 6 one it does not.
def sampleChain : LogChain where
  logs _ n := if n = 5 then [sampleLog 5 ["known"]] else if n = 6 then [sampleLog 6 ["foreign"]] else []
  inBlock := by
    intro _ n log hlog
    split at hlog
    · next h => simpa [sampleLog, h] using congrArg RawLog.blockNumber (List.mem_singleton.1 hlog)
    · split at hlog
      · next h => simpa [sampleLog, h] using congrArg RawLog.blockNumber (List.mem_singleton.1 hlog)
      · simp at hlog

def sampleDecode (_ : String) (topics : List String) : Option (String × Unit) :=
  if topics = ["known"] then some ("Deposited", ()) else none

-- Fails what asks for more than two blocks, and its first query.
def limitedProvider : LogProvider ℕ Unit where
  getLogs addresses lo hi attempts :=
    (if attempts = 0 ∨ lo + 1 < hi then .error () else .ok ((blocks lo hi).flatMap (sampleChain.logs addresses)),
      attempts + 1)

theorem limitedProvider_serves : limitedProvider.Serves sampleChain := by
  intro addresses lo hi s raw s' h
  have hanswer := congrArg Prod.fst h
  dsimp only [limitedProvider] at hanswer
  split at hanswer
  · cases hanswer
  · exact (Except.ok.inj hanswer).symm

-- Four blocks in one chunk: the first query fails, then each half is read at once.
theorem sample_run : ∃ scan, scanRange limitedProvider sampleDecode ["0xA"] ⟨50000, by decide⟩ 4 7 0 = .returned scan ∧
    scan.out.length = 1 := by
  simp [scanRange, walkChunks, walk, limitedProvider, blocks, sampleChain, List.range'_succ, parseRaw, sampleDecode,
    sampleLog]

theorem scanRange_partitions_sample :
    ∃ scan, scanRange limitedProvider sampleDecode ["0xA"] ⟨50000, by decide⟩ 4 7 0 = .returned scan ∧
      scan.answered = [4, 5, 6, 7] ∧
        scan.out = decoded sampleDecode sampleChain ["0xA"] 4 7 := by
  obtain ⟨scan, hscan, -⟩ := sample_run
  obtain ⟨hout, -, hanswered⟩ := (scanRange_partitions limitedProvider_serves ⟨50000, by decide⟩ 4 7 0).1 scan hscan
  exact ⟨scan, hscan, hanswered, hout⟩

-- The log of block 6 is read and left out.
theorem foreign_log_skipped : ¬ ∀ (chain : LogChain) (provider : LogProvider ℕ Unit) (scan : LogScan ℕ Unit),
    provider.Serves chain →
      scanRange provider sampleDecode ["0xA"] ⟨50000, by decide⟩ 4 7 0 = .returned scan →
        scan.out.length = ((blocks 4 7).flatMap (chain.logs ["0xA"])).length := by
  intro hclaim
  obtain ⟨scan, hscan, hlen⟩ := sample_run
  have hall := hclaim sampleChain limitedProvider scan limitedProvider_serves hscan
  rw [hlen] at hall
  exact absurd hall (by decide)

end Sample

end Bongtu.Indexer.ScanRange
