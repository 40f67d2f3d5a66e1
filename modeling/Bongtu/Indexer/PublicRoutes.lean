import Bongtu.Core.Text
import Bongtu.Indexer.Ingest
import Bongtu.Indexer.KemChunks
import Bongtu.Indexer.Path

namespace Bongtu.Indexer

open Core

structure RouteQuery where
  owner : Option String
  token : Option String
  sig : Option String
  ts : Option String
  cursor : Option String
  limit : Option String
deriving DecidableEq, Repr

-- `tokens` tells whether a view token authorises reads for an owner now; public mode has none.
structure RouteContext where
  tokens : Option (String → String → Bool)
  query : RouteQuery
  nowSeconds : ℤ

inductive ReadDenied where
  | ownerRequired
  | malformedOwner (e : PubkeyError) (owner : String)
  | tokenInvalid
  | authRequired
  | tsNotInteger (ts : String)
  | malformedSig (e : SignatureError)
  | outsideWindow
  | badSignature
deriving DecidableEq, Repr

def ReadDenied.status : ReadDenied → ℕ
  | tokenInvalid | outsideWindow | badSignature => 401
  | _ => 400

def readWindowSeconds : ℤ := 300

-- What the routes check a signature with; `integer` is the whole number a text reads as.
structure ReadAuth where
  curve : Curve
  poseidonN : List ℕ → ℕ
  integer : String → Option ℤ

namespace ReadAuth

variable (a : ReadAuth)

def notesAuthMessage (ownerPub : Point) (timestamp : ℤ) : ℕ :=
  a.poseidonN [ownerPub.1, ownerPub.2, timestamp.toNat]

-- An empty parameter is read as a missing one.
def present (param : Option String) : Option String := param.filter (· ≠ "")

def authorizeSigned (query : RouteQuery) (nowSeconds : ℤ) (pub : Point) : Except ReadDenied Point :=
  match present query.sig, present query.ts with
  | some sigHex, some tsRaw =>
    match a.integer tsRaw with
    | none => .error (.tsNotInteger tsRaw)
    | some ts =>
      match parseSignature sigHex with
      | .error e => .error (.malformedSig e)
      | .ok sig =>
        if readWindowSeconds < |nowSeconds - ts| then .error .outsideWindow
        else if a.curve.verifyNotesAuth a.poseidonN pub (a.notesAuthMessage pub ts) sig then .ok pub
        else .error .badSignature
  | _, _ => .error .authRequired

def authorizeOwner (ctx : RouteContext) : Except ReadDenied Point :=
  match present ctx.query.owner with
  | none => .error .ownerRequired
  | some owner =>
    match a.curve.unpackPubkey owner with
    | .error e => .error (.malformedOwner e owner)
    | .ok pub =>
      match ctx.query.token with
      | some token =>
        if ctx.tokens.any fun verifyToken => verifyToken owner token then .ok pub else .error .tokenInvalid
      | none => a.authorizeSigned ctx.query ctx.nowSeconds pub

end ReadAuth

structure BatchState where
  recordedAt : ℤ
  result : Option DisclosureStatus
deriving DecidableEq, Repr

structure DisclosureRegistry where
  batches : ℕ → Option BatchState
  graceSeconds : ℤ

namespace DisclosureRegistry

def statusOf (r : DisclosureRegistry) (startLeafIndex : ℕ) (nowSeconds : ℤ) : Option DisclosureStatus :=
  match r.batches startLeafIndex with
  | none => none
  | some state =>
    match state.result with
    | some status => some status
    | none => if nowSeconds - state.recordedAt > r.graceSeconds then some .withheld else none

def currentStatus (r : DisclosureRegistry) (entry : FeedEntry) (nowSeconds : ℤ) : Option DisclosureStatus :=
  match entry.kind, entry.batchId with
  | .disburse, some batchId => (r.statusOf batchId nowSeconds).or entry.disclosure
  | _, _ => entry.disclosure

end DisclosureRegistry

structure IndexerHost where
  indexer : IndexerState
  disclosures : DisclosureRegistry
  kemGraceSeconds : ℤ

inductive PathAnswer where
  | outOfRange (leafIndex : ℕ)
  | batchLeaf (leafIndex : ℕ)
  | denied (d : ReadDenied)
  | notBuilt
  | notHeld (leafIndex : ℕ)
  | served (leafIndex : ℕ) (body : PathResult) (authHeader : Bool)
  | failed (e : MirrorError)
deriving DecidableEq, Repr

inductive EventsAnswer where
  | badCursor (cursor : Option String)
  | badLimit (limit : Option String)
  | feed (events : List FeedEvent)
  | failed (e : KemError)
deriving DecidableEq, Repr

namespace MirrorTree

variable {W : Type}

def isBatch (t : MirrorTree W) (block : ℕ) : Bool := (t.batchRoots (block * t.tree.B)).isSome

def isPublicBatch (t : MirrorTree W) (block : ℕ) : Bool := t.publicFilled (block * t.tree.B)

end MirrorTree

-- Whether an owner holds a leaf in the arbiter ledger.
def PostgresLedger.holds (l : PostgresLedger) (owner : Point) (leafIndex : ℕ) : Bool :=
  (l.notesOf owner).any fun n => n.leafIndex = leafIndex

namespace IndexerHost

variable (p : Primitives) (a : ReadAuth) (ix : IndexerHost) (ctx : RouteContext)

def path (leafIndex : ℕ) : PathAnswer :=
  let tree := ix.indexer.tree
  if tree.tree.nextLeafIndex ≤ leafIndex then .outOfRange leafIndex
  else match tree.path p.poseidon2 leafIndex with
  | .error e => .failed e
  | .ok .batchLeaf => .batchLeaf leafIndex
  | .ok (.path siblings pathIndices root) =>
    let block := leafIndex / tree.tree.B
    if tree.isBatch block ∧ tree.isPublicBatch block = false then
      match a.authorizeOwner ctx with
      | .error d => .denied d
      | .ok pub =>
        match ix.indexer.ledger with
        | none => .notBuilt
        | some ledger =>
          if ledger.holds pub leafIndex then .served leafIndex ⟨siblings, pathIndices, root⟩ true
          else .notHeld leafIndex
    else .served leafIndex ⟨siblings, pathIndices, root⟩ false

def serve (e : StoredEntry) : Except KemError FeedEvent := do
  let kem ← match e.entry.kind, e.entry.batchId with
    | .disbursePriv, some batchId => ix.indexer.kem.projection batchId ctx.nowSeconds ix.kemGraceSeconds
    | _, _ => .ok none
  return serveEvent e.seq e.entry (ix.disclosures.currentStatus e.entry ctx.nowSeconds) kem

def events : EventsAnswer :=
  let query := ctx.query
  match query.cursor.elim (some (-1)) a.integer, query.limit.elim (some 1000) a.integer with
  | none, _ => .badCursor query.cursor
  | some cursor, limit =>
    if cursor < -1 then .badCursor query.cursor
    else match limit with
    | none => .badLimit query.limit
    | some limit =>
      if limit < 1 then .badLimit query.limit
      else
        let page := (ix.indexer.store.feed.filter fun e => cursor < e.seq).take limit.toNat
        match page.mapM (ix.serve ctx) with
        | .error e => .failed e
        | .ok out => .feed out

end IndexerHost

end Bongtu.Indexer
