import Bongtu.Client.Engine

namespace Bongtu.Client

open Bongtu.Core Outcome

structure SelfScanState where
  cursor : ℤ
  scannedNextLeafIndex : ℕ
  notes : List ScanNote
  pending : List PendingDiscovery
deriving DecidableEq, Repr

def emptyScanState : SelfScanState := ⟨-1, 0, [], []⟩

-- What the reads of one scan return: the n-th page past a cursor, the re-read of a pending seq, the
-- path of a leaf (read once, then cached). A read that throws returns nothing.
structure SelfScanIo where
  head : Option Head
  events : ℕ → ℤ → Option (List FeedEvent)
  reread : ℕ → Option (List FeedEvent)
  path : ℕ → Option PathResult
  nullifiers : Option (List ℕ)

inductive RunError where
  | readFailed
  | scan (e : ScanError)
deriving DecidableEq, Repr

def read {α : Type} (x : Option α) : Except RunError α := x.elim (.error .readFailed) .ok

def drain (io : SelfScanIo) : ℕ → ℕ → ℤ → List FeedEvent → Except RunError (List FeedEvent × Bool)
  | 0, _, _, acc => .ok (acc, false)
  | left + 1, n, cursor, acc => do
    let served ← read (io.events n cursor)
    let page := served.filter fun e => cursor < e.seq
    let next := page.foldl (fun m e => max m (e.seq : ℤ)) cursor
    if next = cursor then return (acc, true)
    else drain io left (n + 1) next (acc ++ page)

def rereadOf (io : SelfScanIo) (entry : PendingDiscovery) : Option FeedEvent :=
  (io.reread entry.seq).bind fun served => served.find? fun e => e.seq = entry.seq

def dedupeSeen (seen : List ℕ) : List PendingDiscovery → List PendingDiscovery
  | [] => []
  | entry :: entries =>
    if entry.seq ∈ seen then dedupeSeen seen entries
    else entry :: dedupeSeen (entry.seq :: seen) entries

def dedupePending (entries : List PendingDiscovery) : List PendingDiscovery := dedupeSeen [] entries

variable (p : Primitives) (me : Identity)

def confirms (path : ℕ → Option PathResult) (c : ScanCandidate) : Bool :=
  (path c.leafIndex).any fun read => pathConfirmsLeaf p c.commitment read c.leafIndex

def gatedOf (path : ℕ → Option PathResult) (c : ScanCandidate) : Option PendingDiscovery :=
  if path c.leafIndex = none ∧ c.family = .enterprise ∧ c.kind = .disburse then
    some ⟨c.seq, c.txHash, none, .enterpriseBatchGated⟩
  else none

def coveredBy (prev : SelfScanState) (head : Head) (drained : List FeedEvent × Bool) : ℕ :=
  if drained.2 then max prev.scannedNextLeafIndex head.nextLeafIndex
  else drained.1.foldl (fun m e => e.slices.foldl
    (fun mm sl => sl.leafIndex.elim mm fun leafIndex => max mm (leafIndex + 1)) m)
    prev.scannedNextLeafIndex

def runSelfScan (io : SelfScanIo) (prev : SelfScanState) (maxPages : ℕ) :
    Except RunError SelfScanState := do
  let head ← read io.head
  let drained ← drain io maxPages 0 prev.cursor []
  let reread := prev.pending.filterMap (rereadOf io)
  let kept := prev.pending.filter fun entry => rereadOf io entry = none
  let pass ← (scanEventsPass p me (reread ++ drained.1)).mapError .scan
  let confirmed := pass.candidates.filter (confirms p io.path)
  let gated := pass.candidates.filterMap (gatedOf io.path)
  let spent ← read io.nullifiers
  return {
    cursor := max prev.cursor pass.cursor
    scannedNextLeafIndex := coveredBy prev head drained
    notes := applySpent (mergeNotes prev.notes (pass.accepted ++ confirmed)) spent
    pending := dedupePending (kept ++ pass.pending ++ gated) }

end Bongtu.Client
