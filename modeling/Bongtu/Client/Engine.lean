import Bongtu.Core.Feed
import Bongtu.Core.MerklePath

namespace Bongtu.Client

open Bongtu.Core Outcome

-- A consumer wallet identity: the spend key, the note-layer view key and the ML-KEM pair.
structure Identity where
  spendPriv : ℕ
  viewPriv : ℕ
  kemDk : Bytes
deriving DecidableEq, Repr

inductive Family where
  | consumer
  | enterprise
deriving DecidableEq, Repr

structure ScanCandidate where
  value : ℕ
  salt : ℕ
  leafIndex : ℕ
  commitment : ℕ
  nullifier : ℕ
  txHash : TxHash
  seq : ℕ
  kind : EventKind
  family : Family
deriving DecidableEq, Repr

structure ScanNote extends ScanCandidate where
  spent : Bool
deriving DecidableEq, Repr

inductive PendingStatus where
  | transport (status : KemStatus)
  | disclosureIncomplete
  | enterpriseBatchGated
deriving DecidableEq, Repr

structure PendingDiscovery where
  seq : ℕ
  txHash : TxHash
  batchId : Option ℕ
  status : PendingStatus
deriving DecidableEq, Repr

structure ScanStats where
  consumerSlices : ℕ := 0
  tagMatches : ℕ := 0
  decapsulations : ℕ := 0
  enterpriseDecrypts : ℕ := 0
deriving DecidableEq, Repr

def ScanStats.add (a b : ScanStats) : ScanStats :=
  ⟨a.consumerSlices + b.consumerSlices, a.tagMatches + b.tagMatches,
    a.decapsulations + b.decapsulations, a.enterpriseDecrypts + b.enterpriseDecrypts⟩

-- What a pass has collected so far.
structure Found where
  accepted : List ScanCandidate := []
  candidates : List ScanCandidate := []
  pending : List PendingDiscovery := []
  stats : ScanStats := {}
deriving DecidableEq, Repr

def Found.append (a b : Found) : Found :=
  ⟨a.accepted ++ b.accepted, a.candidates ++ b.candidates, a.pending ++ b.pending,
    a.stats.add b.stats⟩

inductive ScanError where
  | note (e : NoteError)
  | fractionalOffset (offset : ℕ)
deriving DecidableEq, Repr

def collect {α : Type} (f : α → Except ScanError Found) (xs : List α) : Except ScanError Found :=
  xs.foldlM (fun acc x => return acc.append (← f x)) {}

-- `xs[offset / 4]`: a fractional index finds nothing.
def entryAt {α : Type} (xs : List α) (slice : Slice) : Option α :=
  if slice.offset % consumerCtLen = 0 then xs[slice.offset / consumerCtLen]? else none

def slicePart (ev : FeedEvent) (slice : Slice) : List ℕ :=
  (ev.ciphertext.drop slice.offset).take slice.elts

def pendingOf (ev : FeedEvent) (batchId : Option ℕ) (status : PendingStatus) : Found :=
  { pending := [⟨ev.seq, ev.txHash, batchId, status⟩] }

variable (p : Primitives) (me : Identity)

def draftOf (ev : FeedEvent) (family : Family) (leafIndex value salt : ℕ) : ScanCandidate where
  value := value
  salt := salt
  leafIndex := leafIndex
  commitment := p.commitment value salt (p.publicKey me.spendPriv)
  nullifier := p.nullifier value salt me.spendPriv
  txHash := ev.txHash
  seq := ev.seq
  kind := ev.kind
  family := family

-- The kem ciphertexts the event can be opened with, or what the event leaves pending without them.
def kemCtsOf (ev : FeedEvent) (tags : List ℕ) (myTag : ℕ) : Found ⊕ List Bytes :=
  if ev.kind ≠ .disbursePriv then ev.kemCiphertexts.elim (.inl {}) .inr
  else if ev.outputCommitments = none ∨ ev.slices = [] then
    .inl (pendingOf ev ev.batchId .disclosureIncomplete)
  else
    match ev.kem with
    | some ⟨.complete, _, _, some kemCts⟩ => .inr kemCts
    | kem =>
      if tags.any (· = myTag) then
        .inl (pendingOf ev ev.batchId (.transport ((kem.map (·.status)).getD .pending)))
      else .inl {}

-- A batch note is matched against the served commitment run, a single append waits for its path.
def placeOpened (ev : FeedEvent) (slice : Slice) (leafIndex : ℕ)
    (opened : Primitives.OpenedConsumerOutput) : Found :=
  let draft := draftOf p me ev .consumer leafIndex opened.value opened.salt
  if ev.kind = .disbursePriv then
    if (ev.outputCommitments.bind fun run => entryAt run slice) = some draft.commitment then
      { accepted := [draft] }
    else {}
  else { candidates := [draft] }

def scanConsumerSlice (ev : FeedEvent) (eph : Point) (nonce : ℕ) (tags : List ℕ) (myTag : ℕ)
    (kemCts : List Bytes) (slice : Slice) : Except ScanError Found :=
  match slice.leafIndex with
  | none => .ok {}
  | some leafIndex =>
    if slice.elts ≠ consumerCtLen then .ok {}
    else if entryAt tags slice ≠ some myTag then .ok { stats := { consumerSlices := 1 } }
    else
      match entryAt kemCts slice with
      | none => .ok { stats := { consumerSlices := 1, tagMatches := 1 } }
      | some kem => do
        let opened ← (p.openConsumerOutput (slicePart ev slice) eph me.viewPriv me.kemDk kem nonce
          (slice.offset / consumerCtLen)).mapError .note
        return (placeOpened p me ev slice leafIndex opened).append
          { stats := { consumerSlices := 1, tagMatches := 1, decapsulations := 1 } }

def scanConsumer (ev : FeedEvent) (eph : Point) (nonce : ℕ) (tags : List ℕ) :
    Except ScanError Found := do
  let myTag ← (p.consumerViewTag (p.ecdhSharedSecret me.viewPriv eph)).mapError .note
  match kemCtsOf ev tags myTag with
  | .inl found => return found
  | .inr kemCts => collect (scanConsumerSlice p me ev eph nonce tags myTag kemCts) ev.slices

def tryNonces (nonce ctIndex : ℕ) : List ℕ :=
  if ctIndex = 0 then [nonce] else [nonce, nonce + ctIndex]

-- The sponge has no tag, so every decryption gives a value and a salt.
def decryptEnterprise (ev : FeedEvent) (eph : Point) (slice : Slice) (nonce : ℕ) : ℕ × ℕ :=
  let message := p.poseidonDecrypt (slicePart ev slice) (p.ecdhSharedSecret me.spendPriv eph) nonce 2
  (message.getD 0 0, message.getD 1 0)

def scanEnterpriseSlice (ev : FeedEvent) (eph : Point) (nonce : ℕ) (slice : Slice) :
    Except ScanError Found :=
  match slice.leafIndex with
  | none => .ok {}
  | some leafIndex =>
    if slice.elts ≠ 4 then .ok {}
    else if (slicePart ev slice).length ≠ 4 then .ok {}
    else if slice.offset % 4 ≠ 0 then .error (.fractionalOffset slice.offset)
    else
      let drafts := (tryNonces nonce (slice.offset / 4)).map fun tryNonce =>
        let note := decryptEnterprise p me ev eph slice tryNonce
        draftOf p me ev .enterprise leafIndex note.1 note.2
      .ok { candidates := drafts, stats := { enterpriseDecrypts := drafts.length } }

def incompleteDisclosure (ev : FeedEvent) : Bool :=
  ev.kind = .disbursePriv ∧ ev.batchId ≠ none ∧
    (ev.viewTags = none ∨ ev.outputCommitments = none ∨ ev.slices = [])

def scanEvent (ev : FeedEvent) : Except ScanError Found :=
  if incompleteDisclosure ev then .ok (pendingOf ev ev.batchId .disclosureIncomplete)
  else
    match ev.ecdhPublicKey, ev.encryptionNonce with
    | some eph, some nonce =>
      if ev.kind.isConsumer then
        match ev.viewTags with
        | some tags => scanConsumer p me ev eph nonce tags
        | none => .ok {}
      else collect (scanEnterpriseSlice p me ev eph nonce) ev.slices
    | _, _ => .ok {}

def cursorOf (events : List FeedEvent) : ℤ := events.foldl (fun m ev => max m ev.seq) (-1)

structure ScanPass extends Found where
  cursor : ℤ
deriving DecidableEq, Repr

def scanEventsPass (events : List FeedEvent) : Except ScanError ScanPass := do
  let found ← collect (scanEvent p me) events
  return ⟨found, cursorOf events⟩

def poseidon2 (a b : ℕ) : ℕ := p.poseidonN [a, b]

def pathConfirmsLeaf (commitment : ℕ) (path : PathResult) (leafIndex : ℕ) : Bool :=
  foldToRoot (poseidon2 p) commitment path.siblings leafIndex = path.root

def mergeFresh (seen : List ℕ) : List ScanCandidate → List ScanNote
  | [] => []
  | n :: found =>
    if n.commitment ∈ seen then mergeFresh seen found
    else ⟨n, false⟩ :: mergeFresh (n.commitment :: seen) found

def mergeNotes (prev : List ScanNote) (found : List ScanCandidate) : List ScanNote :=
  prev ++ mergeFresh (prev.map (·.commitment)) found

def applySpent (notes : List ScanNote) (spentNullifiers : List ℕ) : List ScanNote :=
  notes.map fun n => { n with spent := decide (n.nullifier ∈ spentNullifiers) }

end Bongtu.Client
