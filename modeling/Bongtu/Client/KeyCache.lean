import Bongtu.Core.Text

namespace Bongtu.Client

open Bongtu.Core

-- One object of the lock: `ref` tells it from every other, `origin` is the seed or unlock it came from.
structure HeldKey (I K : Type) where
  ref : ℕ
  origin : ℕ
  identity : I
  stealth : Option K
  account : String
  sessionPubkey : String
  lastUsedAt : ℤ
deriving DecidableEq

-- The promise a suspended call waits for.
inductive Awaited (I K : Type) where
  | currentAccount
  | derive (account : Option String)
  | deriveStealth (held : HeldKey I K)
  | accountAgain (held : HeldKey I K) (stealth : K)
deriving DecidableEq

structure PendingCall (I K : Type) where
  id : ℕ
  forStealth : Bool
  address : String
  sessionPubkey : String
  awaits : Awaited I K
deriving DecidableEq

structure KeyCache (I K : Type) where
  held : Option (HeldKey I K) := none
  armed : Bool := false
  calls : List (PendingCall I K) := []
  events : ℕ := 0
deriving DecidableEq

-- A settled promise carries nothing where it rejects.
inductive KeyEvent (I K : Type) where
  | isUnlocked
  | peek (sessionPubkey : String)
  | lock
  | timer
  | seed (identity : I) (account sessionPubkey : String)
  | unlock (address sessionPubkey : String)
  | unlockStealth (address sessionPubkey : String)
  | accountIs (call : ℕ) (answer : Option (Option String))
  | derived (call : ℕ) (answer : Option I)
  | derivedStealth (call : ℕ) (answer : Option K)
deriving DecidableEq

inductive KeyReply (I K : Type) where
  | done
  | locked
  | unlocked (held : Bool)
  | peeked (identity : Option I)
  | pending (call : ℕ)
  | identity (call : ℕ) (identity : I)
  | stealth (call : ℕ) (keys : K)
  | lockedOut
  | refused
deriving DecidableEq

-- `norm` of `assertSessionIdentity`.
def norm (k : String) : String := toLowerCase (trim k)

variable {I K : Type}

namespace KeyCache

section Lock

variable (idleMs now : ℤ)

def expired (held : HeldKey I K) : Bool := now - held.lastUsedAt ≥ idleMs

def lock (c : KeyCache I K) : KeyCache I K := { c with held := none, armed := false }

def hold (held : HeldKey I K) (c : KeyCache I K) : KeyCache I K := { c with held := some held, armed := true }

def suspend (call : PendingCall I K) (awaits : Awaited I K) (c : KeyCache I K) : KeyCache I K :=
  { c with calls := { call with awaits := awaits } :: c.calls }

def isUnlocked (c : KeyCache I K) : Bool := c.held.any fun held => !expired idleMs now held

def peek (sessionPubkey : String) (c : KeyCache I K) : Option I :=
  (c.held.filter fun held => held.sessionPubkey = sessionPubkey ∧ !expired idleMs now held).map (·.identity)

-- The held key passed the session check under another account than the selected one.
def switched (account : Option String) (c : KeyCache I K) : Bool :=
  c.held.any fun held => account.isSome ∧ account ≠ some held.account

def dropStale (call : PendingCall I K) (account : Option String) (c : KeyCache I K) : KeyCache I K :=
  if c.held.any fun held =>
    account.isNone ∨ held.sessionPubkey ≠ call.sessionPubkey ∨ expired idleMs now held then c.lock else c

-- `unlockStealth` once the spending key is unlocked.
def takeStealth (call : PendingCall I K) (c : KeyCache I K) : KeyCache I K × KeyReply I K :=
  match c.held with
  | none => (c, .refused)
  | some held =>
    match held.stealth with
    | some keys => (c.hold { held with lastUsedAt := now }, .stealth call.id keys)
    | none => (c.suspend call (.deriveStealth held), .pending call.id)

def handOut (call : PendingCall I K) (identity : I) (c : KeyCache I K) : KeyCache I K × KeyReply I K :=
  if call.forStealth then takeStealth now call c else (c, .identity call.id identity)

def resumeUnlock (call : PendingCall I K) (account : Option String) (c : KeyCache I K) :
    KeyCache I K × KeyReply I K :=
  if c.switched account then (c.lock, .lockedOut)
  else
    let c := dropStale idleMs now call account c
    match c.held with
    | some held => handOut now call held.identity (c.hold { held with lastUsedAt := now })
    | none => (c.suspend call (.derive account), .pending call.id)

def resumeStealth (call : PendingCall I K) (held : HeldKey I K) (stealth : K) (account : Option String)
    (c : KeyCache I K) : KeyCache I K × KeyReply I K :=
  match c.held with
  | some h =>
    if h.ref ≠ held.ref ∨ account ≠ some held.account then (c.lock, .lockedOut)
    else (c.hold { h with stealth := some stealth, lastUsedAt := now }, .stealth call.id stealth)
  | none => (c.lock, .lockedOut)

end Lock

section Session

variable (compressedPubkey : I → String) (idleMs now : ℤ)

def seed (identity : I) (account sessionPubkey : String) (c : KeyCache I K) : KeyCache I K × KeyReply I K :=
  if norm (compressedPubkey identity) ≠ norm sessionPubkey then (c, .refused)
  else (c.hold ⟨c.events, c.events, identity, none, toLowerCase account, sessionPubkey, now⟩, .done)

def resumeDerive (call : PendingCall I K) (account : Option String) (identity : I) (c : KeyCache I K) :
    KeyCache I K × KeyReply I K :=
  if norm (compressedPubkey identity) ≠ norm call.sessionPubkey then (c, .refused)
  else handOut now call identity (c.hold ⟨c.events, call.id, identity, none,
    account.getD (toLowerCase call.address), call.sessionPubkey, now⟩)

def begin (forStealth : Bool) (address sessionPubkey : String) (c : KeyCache I K) :
    KeyCache I K × KeyReply I K :=
  ({ c with calls := ⟨c.events, forStealth, address, sessionPubkey, .currentAccount⟩ :: c.calls },
    .pending c.events)

-- What a call does from the promise it waited for to the next one, the promise `e` settles.
def resume (call : PendingCall I K) (e : KeyEvent I K) (c : KeyCache I K) : KeyCache I K × KeyReply I K :=
  match call.awaits, e with
  | .currentAccount, .accountIs _ (some account) => resumeUnlock idleMs now call account c
  | .derive account, .derived _ (some identity) => resumeDerive compressedPubkey now call account identity c
  | .deriveStealth held, .derivedStealth _ (some stealth) =>
    (c.suspend call (.accountAgain held stealth), .pending call.id)
  | .accountAgain held stealth, .accountIs _ (some account) => resumeStealth now call held stealth account c
  | _, _ => (c, .refused)

def settles (call : PendingCall I K) (e : KeyEvent I K) : Bool :=
  match call.awaits, e with
  | .currentAccount, .accountIs id _ | .accountAgain _ _, .accountIs id _ => call.id = id
  | .derive _, .derived id _ => call.id = id
  | .deriveStealth _, .derivedStealth id _ => call.id = id
  | _, _ => false

def settle (e : KeyEvent I K) (c : KeyCache I K) : KeyCache I K × KeyReply I K :=
  match c.calls.find? (settles · e) with
  | none => (c, .done)
  | some call =>
    resume compressedPubkey idleMs now call e { c with calls := c.calls.filter (·.id ≠ call.id) }

def act (e : KeyEvent I K) (c : KeyCache I K) : KeyCache I K × KeyReply I K :=
  match e with
  | .isUnlocked => (c, .unlocked (isUnlocked idleMs now c))
  | .peek sessionPubkey => (c, .peeked (peek idleMs now sessionPubkey c))
  | .lock => (c.lock, .locked)
  | .timer => if c.armed then (c.lock, .locked) else (c, .done)
  | .seed identity account sessionPubkey => seed compressedPubkey now identity account sessionPubkey c
  | .unlock address sessionPubkey => begin false address sessionPubkey c
  | .unlockStealth address sessionPubkey => begin true address sessionPubkey c
  | .accountIs _ _ | .derived _ _ | .derivedStealth _ _ => settle compressedPubkey idleMs now e c

-- What happens between two suspensions happens at one instant, `now`.
def step (e : KeyEvent I K) (c : KeyCache I K) : KeyCache I K × KeyReply I K :=
  let (after, reply) := act compressedPubkey idleMs now e c
  ({ after with events := c.events + 1 }, reply)

end Session

end KeyCache

end Bongtu.Client
