import Bongtu.Core.BigIntText
import Bongtu.Indexer.NameRoutes
import Bongtu.Trace

namespace Bongtu.Indexer.ViewTokens

open Core

def tokenTtlSeconds : ℤ := 24 * 60 * 60

def challengeTtlSeconds : ℤ := 120

def tokenPrefix : String := "v1"

def viewTokenDomainTag : ℕ := 0x626f6e6774752f76696577746f6b656e2f7631

-- What a service is set up with, its secret inside `hmac`. `integer` is the whole number a text reads
-- as, `decimal` the text of one.
structure Service where
  curve : Curve
  poseidonN : List ℕ → ℕ
  hmac : String → String
  integer : String → Option ℤ
  decimal : ℤ → String
  hostBindings : List ℕ
  maxChallenges : ℕ

structure Challenge where
  owner : String
  exp : ℤ
deriving DecidableEq, Repr

-- The map of live challenges, the oldest first.
abbrev Challenges := List (String × Challenge)

structure IssuedToken where
  token : String
  exp : ℤ
deriving DecidableEq, Repr

def canonicalOwner (ownerCompressed : String) : String := toLowerCase (trim ownerCompressed)

def get (live : Challenges) (challenge : String) : Option Challenge :=
  (live.find? (·.1 = challenge)).map (·.2)

def delete (live : Challenges) (challenge : String) : Challenges := live.filter (·.1 ≠ challenge)

def set (live : Challenges) (challenge : String) (entry : Challenge) : Challenges :=
  if challenge ∈ live.map (·.1) then live.map fun e => if e.1 = challenge then (challenge, entry) else e
  else live ++ [(challenge, entry)]

def sweep (now : ℤ) (live : Challenges) : Challenges := live.filter fun e => ! (e.2.exp < now)

-- The oldest go until there is room for one more.
def evictToFit (maxChallenges : ℕ) (live : Challenges) : Challenges :=
  live.drop (live.length + 1 - maxChallenges)

-- The text of the number drawn; zero is taken for one.
def challengeText (x : ℕ) : String := String.ofList (numeral 10 (if x = 0 then 1 else x))

namespace Service

variable (v : Service)

def macText (owner : String) (exp : ℤ) : String := owner ++ "|" ++ v.decimal exp

def hmacHex (owner : String) (exp : ℤ) : String := v.hmac (v.macText owner exp)

def viewTokenAuthMessage (ownerPub : Point) (challenge hostBinding : ℕ) : ℕ :=
  v.poseidonN [ownerPub.1, ownerPub.2, challenge, hostBinding, viewTokenDomainTag]

-- The clock is read for the expiry, then by the sweep.
def issueChallenge (live : Challenges) (ownerCompressed : String) (x : ℕ) (now now' : ℤ) :
    Except PubkeyError Challenges := do
  let _ ← v.curve.unpackPubkey (trim ownerCompressed)
  return set (evictToFit v.maxChallenges (sweep now' live)) (challengeText x)
    ⟨canonicalOwner ownerCompressed, now + challengeTtlSeconds⟩

-- A live challenge is decimal text, so that `BigInt` reads it.
def signedFor (owner challenge sigHex : String) : Bool :=
  match v.curve.unpackPubkey owner, parseSignature sigHex, bigIntOf challenge with
  | .ok pub, .ok sig, some c => v.hostBindings.any fun b =>
      v.curve.verifyNotesAuth v.poseidonN pub (v.viewTokenAuthMessage pub c.toNat b) sig
  | _, _, _ => false

-- The clock is read for the challenge's expiry, then for the token's.
def redeemChallenge (live : Challenges) (ownerCompressed challenge sigHex : String) (now now' : ℤ) :
    Challenges × Option IssuedToken :=
  let owner := canonicalOwner ownerCompressed
  (delete live challenge,
    match get live challenge with
    | none => none
    | some entry =>
      if entry.owner ≠ owner ∨ entry.exp < now then none
      else if v.signedFor owner challenge sigHex then
        let exp := now' + tokenTtlSeconds
        some ⟨tokenPrefix ++ "." ++ owner ++ "." ++ v.decimal exp ++ "." ++ v.hmacHex owner exp, exp⟩
      else none)

def verifyToken (ownerCompressed token : String) (now : ℤ) : Bool :=
  match token.splitOn "." with
  | [version, owner, expRaw, mac] =>
    match v.integer expRaw with
    | some exp => version = tokenPrefix ∧ owner = canonicalOwner ownerCompressed ∧ now ≤ exp ∧
        mac = v.hmacHex owner exp
    | none => false
  | _ => false

end Service

-- A token minted: for whose challenge, on which signature, and the reading of the clock it passed.
structure Mint where
  challenge : String
  owner : String
  exp : ℤ
  sigHex : String
  passedAt : ℤ
deriving DecidableEq, Repr

-- The service's memory, every challenge it issued and every token it minted.
structure World where
  live : Challenges
  issued : Challenges
  minted : List Mint
deriving DecidableEq, Repr

inductive Call where
  | issueChallenge (ownerCompressed : String) (x : ℕ) (now now' : ℤ)
  | redeemChallenge (ownerCompressed challenge sigHex : String) (now now' : ℤ)
  | verifyToken (ownerCompressed token : String) (now : ℤ)
deriving DecidableEq, Repr

namespace World

def empty : World := ⟨[], [], []⟩

def step (v : Service) (w : World) : Call → World
  | .issueChallenge ownerCompressed x now now' =>
    match v.issueChallenge w.live ownerCompressed x now now' with
    | .error _ => w
    | .ok live => { w with
        live := live
        issued := (challengeText x, ⟨canonicalOwner ownerCompressed, now + challengeTtlSeconds⟩) :: w.issued }
  | .redeemChallenge ownerCompressed challenge sigHex now now' =>
    let (live, token) := v.redeemChallenge w.live ownerCompressed challenge sigHex now now'
    { w with
      live := live
      minted := w.minted ++ (token.map fun t =>
        ⟨challenge, canonicalOwner ownerCompressed, t.exp, sigHex, now⟩).toList }
  | .verifyToken .. => w

end World

variable {v : Service}

-- A draw is fresh, and no one sends a tag of a text the service has not tagged.
def Assumed (v : Service) (w : World) : Call → Prop
  | .issueChallenge _ x _ _ => challengeText x ∉ w.issued.map (·.1)
  | .redeemChallenge .. => True
  | .verifyToken _ token _ => ∀ part ∈ token.splitOn ".", ∀ text, part = v.hmac text →
      ∃ mint ∈ w.minted, text = v.macText mint.owner mint.exp

-- A token was minted on a live challenge of its owner, signed for this server.
def Earned (v : Service) (w : World) (mint : Mint) : Prop :=
  ∃ entry, (mint.challenge, entry) ∈ w.issued ∧ entry.owner = mint.owner ∧ mint.passedAt ≤ entry.exp ∧
    ∃ pub sig c, v.curve.unpackPubkey mint.owner = .ok pub ∧ parseSignature mint.sigHex = .ok sig ∧
      bigIntOf mint.challenge = some c ∧ ∃ b ∈ v.hostBindings,
        v.curve.verifyNotesAuth v.poseidonN pub (v.viewTokenAuthMessage pub c.toNat b) sig = true

structure Inv (v : Service) (w : World) : Prop where
  capped : w.live.length ≤ v.maxChallenges
  issued : ∀ e ∈ w.live, e ∈ w.issued
  spent : ∀ mint ∈ w.minted, mint.challenge ∉ w.live.map (·.1)
  once : (w.minted.map (·.challenge)).Nodup
  earned : ∀ mint ∈ w.minted, Earned v w mint

section Live

variable {live : Challenges} {challenge : String} {entry : Challenge}

theorem sweep_sublist (now : ℤ) (live : Challenges) : (sweep now live).Sublist live := List.filter_sublist

theorem evictToFit_sublist (maxChallenges : ℕ) (live : Challenges) :
    (evictToFit maxChallenges live).Sublist live := List.drop_sublist _ _

theorem length_evictToFit {maxChallenges : ℕ} (hmax : 1 ≤ maxChallenges) (live : Challenges) :
    (evictToFit maxChallenges live).length + 1 ≤ maxChallenges := by
  rw [evictToFit, List.length_drop]
  omega

theorem delete_sublist : (delete live challenge).Sublist live := List.filter_sublist

theorem not_mem_delete : challenge ∉ (delete live challenge).map (·.1) := by
  simp [delete]

theorem get_mem (h : get live challenge = some entry) : (challenge, entry) ∈ live := by
  obtain ⟨e, he, rfl⟩ := Option.map_eq_some_iff.1 h
  have hkey : e.1 = challenge := by simpa using List.find?_some he
  rw [← hkey]
  exact List.mem_of_find?_eq_some he

theorem get_none (h : challenge ∉ live.map (·.1)) : get live challenge = none := by
  cases hget : get live challenge with
  | none => rfl
  | some entry => exact absurd (List.mem_map_of_mem (get_mem hget)) h

theorem set_new (h : challenge ∉ live.map (·.1)) : set live challenge entry = live ++ [(challenge, entry)] :=
  if_neg h

end Live

section Steps

variable {w : World}

theorem Earned.mono {w' : World} {mint : Mint} (h : Earned v w mint) (hsub : w.issued ⊆ w'.issued) :
    Earned v w' mint := by
  obtain ⟨entry, hissued, hrest⟩ := h
  exact ⟨entry, hsub hissued, hrest⟩

theorem Earned.issued {mint : Mint} (h : Earned v w mint) : mint.challenge ∈ w.issued.map (·.1) := by
  obtain ⟨entry, hissued, -⟩ := h
  exact List.mem_map_of_mem hissued

theorem signedFor_ok {owner challenge sigHex : String} (h : v.signedFor owner challenge sigHex = true) :
    ∃ pub sig c, v.curve.unpackPubkey owner = .ok pub ∧ parseSignature sigHex = .ok sig ∧
      bigIntOf challenge = some c ∧ ∃ b ∈ v.hostBindings,
        v.curve.verifyNotesAuth v.poseidonN pub (v.viewTokenAuthMessage pub c.toNat b) sig = true := by
  unfold Service.signedFor at h
  split at h
  · next pub sig c hpub hsig hc => exact ⟨pub, sig, c, hpub, hsig, hc, List.any_eq_true.1 h⟩
  · exact absurd h (by simp)

-- A token comes of a live challenge of the owner, not expired, with a signature for this server.
theorem redeemChallenge_some {live : Challenges} {ownerCompressed challenge sigHex : String} {now now' : ℤ}
    {t : IssuedToken} (h : (v.redeemChallenge live ownerCompressed challenge sigHex now now').2 = some t) :
    ∃ entry, get live challenge = some entry ∧ entry.owner = canonicalOwner ownerCompressed ∧
      now ≤ entry.exp ∧ v.signedFor (canonicalOwner ownerCompressed) challenge sigHex = true := by
  simp only [Service.redeemChallenge] at h
  split at h
  · exact absurd h (by simp)
  · next entry hget =>
    split at h
    · exact absurd h (by simp)
    · next hok =>
      split at h
      · next hsigned =>
        push Not at hok
        exact ⟨entry, hget, hok.1, hok.2, hsigned⟩
      · exact absurd h (by simp)

theorem step_issueChallenge (v : Service) (w : World) (ownerCompressed : String) (x : ℕ) (now now' : ℤ) :
    w.step v (.issueChallenge ownerCompressed x now now') = w ∨
      w.step v (.issueChallenge ownerCompressed x now now') =
        ⟨set (evictToFit v.maxChallenges (sweep now' w.live)) (challengeText x)
            ⟨canonicalOwner ownerCompressed, now + challengeTtlSeconds⟩,
          (challengeText x, ⟨canonicalOwner ownerCompressed, now + challengeTtlSeconds⟩) :: w.issued,
          w.minted⟩ := by
  simp only [World.step, Service.issueChallenge]
  cases v.curve.unpackPubkey (trim ownerCompressed) with
  | error e => exact .inl rfl
  | ok pub => exact .inr rfl

theorem step_redeemChallenge (v : Service) (w : World) (ownerCompressed challenge sigHex : String)
    (now now' : ℤ) : w.step v (.redeemChallenge ownerCompressed challenge sigHex now now') =
      ⟨delete w.live challenge, w.issued, w.minted ++
        ((v.redeemChallenge w.live ownerCompressed challenge sigHex now now').2.map fun t =>
          (⟨challenge, canonicalOwner ownerCompressed, t.exp, sigHex, now⟩ : Mint)).toList⟩ := rfl

theorem live_sublist (maxChallenges : ℕ) (now : ℤ) (live : Challenges) :
    (evictToFit maxChallenges (sweep now live)).Sublist live :=
  (evictToFit_sublist _ _).trans (sweep_sublist _ _)

theorem Inv.issue (hmax : 1 ≤ v.maxChallenges) (h : Inv v w) {ownerCompressed : String} {x : ℕ} {now now' : ℤ}
    (hfresh : challengeText x ∉ w.issued.map (·.1)) :
    Inv v (w.step v (.issueChallenge ownerCompressed x now now')) := by
  rcases step_issueChallenge v w ownerCompressed x now now' with hsame | hset
  · rw [hsame]
    exact h
  · have hsub := live_sublist v.maxChallenges now' w.live
    have hnew : challengeText x ∉ (evictToFit v.maxChallenges (sweep now' w.live)).map (·.1) := fun hmem =>
      hfresh (List.map_subset _ h.issued ((hsub.map _).subset hmem))
    rw [hset, set_new hnew]
    refine ⟨?_, ?_, ?_, h.once, fun mint hmint => (h.earned mint hmint).mono (List.subset_cons_self _ _)⟩
    · rw [List.length_append, List.length_singleton]
      exact length_evictToFit hmax _
    · intro e he
      rcases List.mem_append.1 he with he | he
      · exact List.mem_cons_of_mem _ (h.issued e (hsub.subset he))
      · exact List.mem_singleton.1 he ▸ List.mem_cons_self
    · intro mint hmint hmem
      rw [List.map_append, List.mem_append] at hmem
      rcases hmem with hmem | hmem
      · exact h.spent mint hmint ((hsub.map _).subset hmem)
      · have heq : mint.challenge = challengeText x := List.mem_singleton.1 hmem
        exact hfresh (heq ▸ (h.earned mint hmint).issued)

theorem Inv.redeem (h : Inv v w) {ownerCompressed challenge sigHex : String} {now now' : ℤ} :
    Inv v (w.step v (.redeemChallenge ownerCompressed challenge sigHex now now')) := by
  have hsub : (delete w.live challenge).Sublist w.live := delete_sublist
  have hspent : ∀ mint ∈ w.minted, mint.challenge ∉ (delete w.live challenge).map (·.1) :=
    fun mint hmint hmem => h.spent mint hmint ((hsub.map _).subset hmem)
  have hissued : ∀ e ∈ delete w.live challenge, e ∈ w.issued := fun e he => h.issued e (hsub.subset he)
  rw [step_redeemChallenge]
  cases htoken : (v.redeemChallenge w.live ownerCompressed challenge sigHex now now').2 with
  | none =>
    rw [Option.map_none, Option.toList_none, List.append_nil]
    exact ⟨hsub.length_le.trans h.capped, hissued, hspent, h.once,
      fun mint hmint => (h.earned mint hmint).mono (List.Subset.refl _)⟩
  | some t =>
    obtain ⟨entry, hget, howner, hnow, hsigned⟩ := redeemChallenge_some htoken
    have hmem := get_mem hget
    obtain ⟨pub, sig, c, hvalid⟩ := signedFor_ok hsigned
    rw [Option.map_some, Option.toList_some]
    refine ⟨hsub.length_le.trans h.capped, hissued, ?_, ?_, ?_⟩
    · intro mint hmint
      rcases List.mem_append.1 hmint with hmint | hmint
      · exact hspent mint hmint
      · rw [List.mem_singleton.1 hmint]
        exact not_mem_delete
    · rw [List.map_append, List.nodup_append_comm, List.map_singleton, List.singleton_append, List.nodup_cons]
      refine ⟨fun hminted => ?_, h.once⟩
      obtain ⟨mint, hmint, heq⟩ := List.mem_map.1 hminted
      exact h.spent mint hmint (heq ▸ List.mem_map_of_mem hmem)
    · intro mint hmint
      rcases List.mem_append.1 hmint with hmint | hmint
      · exact (h.earned mint hmint).mono (List.Subset.refl _)
      · rw [List.mem_singleton.1 hmint]
        exact ⟨entry, h.issued _ hmem, howner, hnow, pub, sig, c, hvalid⟩

theorem Inv.step (hmax : 1 ≤ v.maxChallenges) (h : Inv v w) {c : Call} (hassumed : Assumed v w c) :
    Inv v (w.step v c) := by
  cases c with
  | issueChallenge ownerCompressed x now now' => exact h.issue hmax hassumed
  | redeemChallenge ownerCompressed challenge sigHex now now' => exact h.redeem
  | verifyToken ownerCompressed token now => exact h

theorem Inv.empty : Inv v World.empty :=
  ⟨Nat.zero_le _, by simp [World.empty], by simp [World.empty], by simp [World.empty], by simp [World.empty]⟩

-- An issued challenge that is gone.
def Gone (challenge : String) (w : World) : Prop :=
  challenge ∈ w.issued.map (·.1) ∧ challenge ∉ w.live.map (·.1)

-- A fresh draw does not bring it back.
theorem Gone.step {challenge : String} (h : Gone challenge w) {c : Call} (hassumed : Assumed v w c) :
    Gone challenge (w.step v c) := by
  obtain ⟨hissued, hgone⟩ := h
  cases c with
  | issueChallenge ownerCompressed x now now' =>
    rcases step_issueChallenge v w ownerCompressed x now now' with hsame | hset
    · rw [hsame]
      exact ⟨hissued, hgone⟩
    · rw [hset]
      refine ⟨List.mem_cons_of_mem _ hissued, fun hmem => ?_⟩
      have hsub := live_sublist v.maxChallenges now' w.live
      unfold set at hmem
      split at hmem
      · rw [List.map_map] at hmem
        obtain ⟨e, he, heq⟩ := List.mem_map.1 hmem
        refine hgone ((hsub.map _).subset (List.mem_map.2 ⟨e, he, ?_⟩))
        dsimp only [Function.comp] at heq
        split at heq
        · next hkey => exact hkey.trans heq
        · exact heq
      · rw [List.map_append, List.mem_append] at hmem
        rcases hmem with hmem | hmem
        · exact hgone ((hsub.map _).subset hmem)
        · have heq : challenge = challengeText x := List.mem_singleton.1 hmem
          exact hassumed (heq ▸ hissued)
  | redeemChallenge ownerCompressed challenge' sigHex now now' =>
    exact ⟨hissued, fun hmem => hgone ((delete_sublist.map _).subset hmem)⟩
  | verifyToken ownerCompressed token now => exact ⟨hissued, hgone⟩

theorem Gone.redeem {challenge : String} (h : Gone challenge w) (ownerCompressed sigHex : String) (now now' : ℤ) :
    (v.redeemChallenge w.live ownerCompressed challenge sigHex now now').2 = none := by
  simp only [Service.redeemChallenge, get_none h.2]

-- The last bar of the tagged text ends the owner.
theorem macText_inj (hinj : Function.Injective v.decimal) (hbar : ∀ n, '|' ∉ (v.decimal n).toList)
    {owner owner' : String} {exp exp' : ℤ} (h : v.macText owner exp = v.macText owner' exp') :
    owner = owner' ∧ exp = exp' := by
  have hlast : ∀ {a b c d : List Char}, '|' ∉ b → '|' ∉ d → a ++ '|' :: b = c ++ '|' :: d → a = c ∧ b = d := by
    intro a b c d hb hd heq
    rcases List.append_eq_append_iff.1 heq with ⟨e, rfl, he⟩ | ⟨e, rfl, he⟩
    · cases e with
      | nil => simpa using he
      | cons x e =>
        rw [List.cons_append, List.cons.injEq] at he
        exact absurd (he.2 ▸ List.mem_append_right e List.mem_cons_self) hb
    · cases e with
      | nil => simpa [eq_comm] using he
      | cons x e =>
        rw [List.cons_append, List.cons.injEq] at he
        exact absurd (he.2 ▸ List.mem_append_right e List.mem_cons_self) hd
  have hlist := congrArg String.toList h
  simp only [Service.macText, String.toList_append, List.append_assoc] at hlist
  obtain ⟨howner, hexp⟩ := hlast (hbar exp) (hbar exp') hlist
  exact ⟨String.toList_inj.1 howner, hinj (String.toList_inj.1 hexp)⟩

end Steps

def run (v : Service) (calls : List Call) : World := calls.foldl (World.step v) World.empty

-- What holds of the service after these calls: the cap, one token for a challenge, each earned; a
-- challenge attempted is redeemed no more; a token that verifies is one minted and not expired.
structure Holds (v : Service) (calls : List Call) : Prop where
  capped : (run v calls).live.length ≤ v.maxChallenges
  once : ((run v calls).minted.map (·.challenge)).Nodup
  earned : ∀ mint ∈ (run v calls).minted, Earned v (run v calls) mint
  burned : ∀ before ownerCompressed challenge sigHex now now' after,
    calls = before ++ .redeemChallenge ownerCompressed challenge sigHex now now' :: after →
    challenge ∈ (run v before).issued.map (·.1) → ∀ ownerCompressed' sigHex' later later',
    (v.redeemChallenge (run v calls).live ownerCompressed' challenge sigHex' later later').2 = none
  verified : ∀ ownerCompressed token now, Assumed v (run v calls) (.verifyToken ownerCompressed token now) →
    v.verifyToken ownerCompressed token now = true → ∃ mint ∈ (run v calls).minted,
      mint.owner = canonicalOwner ownerCompressed ∧ now ≤ mint.exp ∧ ∃ expRaw,
        token.splitOn "." = [tokenPrefix, mint.owner, expRaw, v.hmacHex mint.owner mint.exp] ∧
        v.integer expRaw = some mint.exp

theorem verifyToken_ok {ownerCompressed token : String} {now : ℤ}
    (h : v.verifyToken ownerCompressed token now = true) : ∃ expRaw exp,
      token.splitOn "." = [tokenPrefix, canonicalOwner ownerCompressed, expRaw,
        v.hmacHex (canonicalOwner ownerCompressed) exp] ∧ v.integer expRaw = some exp ∧ now ≤ exp := by
  unfold Service.verifyToken at h
  split at h
  · next version owner expRaw mac hparts =>
    split at h
    · next exp hexp =>
      simp only [decide_eq_true_eq] at h
      obtain ⟨rfl, rfl, hnow, rfl⟩ := h
      exact ⟨expRaw, exp, hparts, hexp, hnow⟩
    · exact absurd h (by simp)
  · exact absurd h (by simp)

-- A service whose one key signs, and its sign-in.
def plainService : Service :=
  ⟨plainCurve, List.sum, fun text => "mac " ++ text, bigIntOf, fun n => String.ofList (bigIntText 10 n), [5], 2⟩

def plainSignIn : List Call :=
  [.issueChallenge plainKey 7 100 100, .redeemChallenge (" " ++ plainKey) "7" plainSig 110 111]

end Bongtu.Indexer.ViewTokens
