import Bongtu.Indexer.PostgresLedger
import Bongtu.Indexer.Projection

namespace Bongtu.Indexer

open Bongtu.Core Outcome

def FeedEntry.key (e : FeedEntry) : OpKey := (e.txHash, e.logIndex)

structure StoredEntry where
  entry : FeedEntry
  seq : ℕ
deriving DecidableEq, Repr

-- The read model with its write-behind buffers; a pending event is the feed's own object, held by its
-- place.
@[ext] structure Store where
  feed : List StoredEntry
  seen : List OpKey
  nullifierSet : List ℕ
  seq : ℕ
  lastBlock : Option ℕ
  pendingEvents : List ℕ
  pendingNullifiers : List ℕ
deriving DecidableEq, Repr

structure StoreTables where
  events : List StoredEntry
  nullifiers : List ℕ
  leaves : List (LeafRow ℕ)
  lastBlock : Option ℕ
deriving DecidableEq, Repr

def StoreTables.empty : StoreTables := ⟨[], [], [], none⟩

namespace Store

def empty : Store := ⟨[], [], [], 0, none, [], []⟩

def addEvent (e : FeedEntry) (s : Store) : Option ℕ × Store :=
  if e.key ∈ s.seen then (none, s)
  else (some s.feed.length, { s with
    seen := s.seen ++ [e.key]
    feed := s.feed ++ [⟨e, s.seq⟩]
    seq := s.seq + 1
    pendingEvents := s.pendingEvents ++ [s.feed.length] })

def addNullifier (s : Store) (nf : ℕ) : Store :=
  if nf = 0 ∨ nf ∈ s.nullifierSet then s
  else { s with
    nullifierSet := s.nullifierSet ++ [nf]
    pendingNullifiers := s.pendingNullifiers ++ [nf] }

def addNullifiers (nfs : List ℕ) (s : Store) : Store := nfs.foldl addNullifier s

def attach (place : ℕ) (announcement : Announcement) (s : Store) : Store :=
  { s with feed := s.feed.modify place fun e =>
      { e with entry := { e.entry with announcement := some announcement } } }

def alarms (s : Store) : List StoredEntry :=
  s.feed.filter fun e => e.entry.disclosure.elim false (· ≠ .verified)

-- `INSERT INTO events ... ON CONFLICT (tx_hash, log_index) DO NOTHING`: a second row under one `seq`
-- fails the statement.
def insertEvent (rows : List StoredEntry) (e : StoredEntry) : Option (List StoredEntry) :=
  if e.entry.key ∈ rows.map (·.entry.key) then some rows
  else if e.seq ∈ rows.map (·.seq) then none
  else some (rows ++ [e])

def flushInto (s : Store) (tree : MirrorTree ℕ) (t : StoreTables) : Option StoreTables := do
  let events ← (s.pendingEvents.filterMap (s.feed[·]?)).foldlM insertEvent t.events
  return { t with
    events := events
    nullifiers := Table.insertAll id t.nullifiers s.pendingNullifiers
    leaves := Table.insertAll (·.leafIndex) t.leaves tree.pendingLeaves }

def commitFlush (s : Store) : Store := { s with pendingEvents := [], pendingNullifiers := [] }

def replayEvent (s : Store) (e : StoredEntry) : Store :=
  { (s.addEvent e.entry).2 with pendingEvents := s.pendingEvents }

def boot (t : StoreTables) : Store :=
  let replayed := (Table.orderBy (·.seq) t.events).foldl replayEvent empty
  { (replayed.addNullifiers t.nullifiers) with lastBlock := t.lastBlock, pendingNullifiers := [] }

end Store

end Bongtu.Indexer
