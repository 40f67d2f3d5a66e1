import Bongtu.Client.LockTurn
import Bongtu.Trace

namespace Bongtu.Client

open Bongtu.Core KeyCache

variable {I K : Type} {compressedPubkey : I → String} {idleMs now : ℤ}

def KeyReply.locks : KeyReply I K → Bool
  | .locked | .lockedOut => true
  | _ => false

def KeyReply.hands : KeyReply I K → Bool
  | .identity _ _ | .stealth _ _ => true
  | _ => false

-- The lock with the clock's last reading. The seeds and unlocks numbered below `since` started before the
-- last sign-out, or before the last deadline that passed.
structure Watch (I K : Type) where
  cache : KeyCache I K := {}
  clock : ℤ := 0
  since : ℕ := 0

section Watched

variable (compressedPubkey : I → String) (idleMs : ℤ)

def Watch.passed (now : ℤ) (w : Watch I K) : ℕ :=
  if w.cache.held.any (expired idleMs now) then w.cache.events else w.since

def Watch.turn (w : Watch I K) (e : KeyEvent I K × ℤ) : KeyCache I K × KeyReply I K :=
  w.cache.step compressedPubkey idleMs e.2 e.1

def Watch.step (w : Watch I K) (e : KeyEvent I K × ℤ) : Watch I K where
  cache := (w.turn compressedPubkey idleMs e).1
  clock := e.2
  since := if (w.turn compressedPubkey idleMs e).2.locks then w.cache.events + 1 else w.passed idleMs e.2

-- The hold after the event that is usable at its instant.
def Usable (now : ℤ) (c : KeyCache I K) (h : HeldKey I K) : Prop := c.held = some h ∧ expired idleMs now h = false

instance [DecidableEq I] [DecidableEq K] (now : ℤ) (c : KeyCache I K) (h : HeldKey I K) :
    Decidable (Usable idleMs now c h) := inferInstanceAs (Decidable (_ ∧ _))

structure Safe (w : Watch I K) (e : KeyEvent I K × ℤ) : Prop where
  fresh : ∀ h, Usable idleMs e.2 (w.step compressedPubkey idleMs e).cache h →
    (w.step compressedPubkey idleMs e).since ≤ h.origin
  unlocked : (w.turn compressedPubkey idleMs e).2 = .unlocked true →
    ∃ h, Usable idleMs e.2 (w.step compressedPubkey idleMs e).cache h
  peeked : ∀ sessionPubkey identity, e.1 = .peek sessionPubkey →
    (w.turn compressedPubkey idleMs e).2 = .peeked (some identity) →
    (∃ h, Usable idleMs e.2 (w.step compressedPubkey idleMs e).cache h ∧ h.identity = identity) ∧
      norm (compressedPubkey identity) = norm sessionPubkey
  handed : ∀ id identity, (w.turn compressedPubkey idleMs e).2 = .identity id identity →
    (∃ h, (w.step compressedPubkey idleMs e).cache.held = some h ∧ h.identity = identity ∧
      (w.step compressedPubkey idleMs e).since ≤ h.origin) ∧
    ∃ call ∈ w.cache.calls, call.id = id ∧ norm (compressedPubkey identity) = norm call.sessionPubkey
  revived : ∀ h h', w.cache.held = some h → expired idleMs e.2 h →
    Usable idleMs e.2 (w.step compressedPubkey idleMs e).cache h' → h'.ref ≠ h.ref
  stealth : ∀ id keys, (w.turn compressedPubkey idleMs e).2 = .stealth id keys →
    ∃ h h', Usable idleMs e.2 w.cache h ∧ (w.step compressedPubkey idleMs e).cache.held = some h' ∧
      h'.ref = h.ref ∧ h'.stealth = some keys ∧ (w.step compressedPubkey idleMs e).since ≤ h'.origin ∧
      e.1 = .accountIs id (some (some h'.account)) ∧
      ∃ call ∈ w.cache.calls, call.id = id ∧ h'.sessionPubkey = call.sessionPubkey
  stored : ∀ h keys, (w.step compressedPubkey idleMs e).cache.held = some h → h.stealth = some keys →
    (∃ id, (w.turn compressedPubkey idleMs e).2 = .stealth id keys) ∨
      ∃ h', w.cache.held = some h' ∧ h'.stealth = some keys ∧ h'.ref = h.ref ∧ h'.account = h.account ∧
        h'.sessionPubkey = h.sessionPubkey

-- The clock does not fall back behind a deadline it has passed, a derivation resolves before the next
-- sign-out and the next deadline, and a stealth derivation before the deadline of its hold.
structure Orderly (w : Watch I K) (e : KeyEvent I K × ℤ) : Prop where
  clock : ∀ h, w.cache.held = some h → expired idleMs w.clock h → expired idleMs e.2 h
  derived : ∀ call ∈ w.cache.calls, ∀ identity account, call.awaits = .derive account →
    e.1 = .derived call.id (some identity) → norm (compressedPubkey identity) = norm call.sessionPubkey →
    w.passed idleMs e.2 ≤ call.id
  stealth : ∀ call ∈ w.cache.calls, ∀ h held keys, w.cache.held = some h →
    call.awaits = .accountAgain held keys → h.ref = held.ref →
    e.1 = .accountIs call.id (some (some held.account)) → expired idleMs e.2 h = false

structure Watch.Inv (w : Watch I K) : Prop where
  since : w.since ≤ w.cache.events
  ref : ∀ h, w.cache.held = some h → h.ref < w.cache.events
  checked : ∀ h, w.cache.held = some h → norm (compressedPubkey h.identity) = norm h.sessionPubkey
  fresh : ∀ h, Usable idleMs w.clock w.cache h → w.since ≤ h.origin
  follows : ∀ call ∈ w.cache.calls, ∀ h, call.awaits.hold = some h → h.ref < w.cache.events ∧
    h.sessionPubkey = call.sessionPubkey ∧ ∀ h', w.cache.held = some h' → h'.ref = h.ref →
      h'.account = h.account ∧ h'.sessionPubkey = h.sessionPubkey

end Watched

variable {w : Watch I K} {e : KeyEvent I K} {after : Option (HeldKey I K)} {reply : KeyReply I K}

theorem passed_le (hinv : w.Inv compressedPubkey idleMs) : w.passed idleMs now ≤ w.cache.events := by
  rw [Watch.passed]
  split
  · exact le_rfl
  · exact hinv.since

theorem live_since (hinv : w.Inv compressedPubkey idleMs) (hord : Orderly compressedPubkey idleMs w (e, now))
    {h : HeldKey I K} (hheld : w.cache.held = some h) (hlive : expired idleMs now h = false) :
    w.passed idleMs now = w.since ∧ w.since ≤ h.origin := by
  constructor
  · simp [Watch.passed, hheld, hlive]
  · refine hinv.fresh h ⟨hheld, ?_⟩
    by_contra hexpired
    rw [Bool.not_eq_false] at hexpired
    exact absurd (hord.clock h hheld hexpired) (by simp [hlive])

-- A hold that is usable, or that a key is handed out from, stays on the right side of the last sign-out
-- and the last deadline.
theorem turn_fresh (hinv : w.Inv compressedPubkey idleMs) (hord : Orderly compressedPubkey idleMs w (e, now))
    (ht : Turn compressedPubkey idleMs now w.cache e after reply) {h : HeldKey I K} (hafter : after = some h)
    (hlive : expired idleMs now h = false ∨ reply.hands) :
    reply.locks = false ∧ w.passed idleMs now ≤ h.origin := by
  have hquiet : ∀ r : KeyReply I K, (r = .done ∨ r = .refused ∨ ∃ id, r = .pending id) →
      r.locks = false ∧ ¬ r.hands := by
    rintro r (rfl | rfl | ⟨id, rfl⟩) <;> exact ⟨rfl, Bool.false_ne_true⟩
  have hread : ∀ r : KeyReply I K, (e = .isUnlocked ∧ r = .unlocked (isUnlocked idleMs now w.cache) ∨
      ∃ sessionPubkey, e = .peek sessionPubkey ∧ r = .peeked (peek idleMs now sessionPubkey w.cache)) →
      r.locks = false ∧ ¬ r.hands := by
    rintro r (⟨-, rfl⟩ | ⟨_, -, rfl⟩) <;> exact ⟨rfl, Bool.false_ne_true⟩
  cases ht with
  | dropped hreply => cases hafter
  | kept hreply =>
    obtain ⟨hlocks, hhands⟩ := hquiet reply hreply
    obtain ⟨hpassed, hsince⟩ := live_since hinv hord hafter (hlive.resolve_right hhands)
    exact ⟨hlocks, hpassed ▸ hsince⟩
  | read hreply =>
    obtain ⟨hlocks, hhands⟩ := hread reply hreply
    obtain ⟨hpassed, hsince⟩ := live_since hinv hord hafter (hlive.resolve_right hhands)
    exact ⟨hlocks, hpassed ▸ hsince⟩
  | used hheld hbefore hcall hsession he hreply =>
    cases hafter
    obtain ⟨hpassed, hsince⟩ := live_since hinv hord hheld hbefore
    refine ⟨?_, hpassed ▸ hsince⟩
    rcases hreply with rfl | rfl | ⟨_, -, rfl⟩ <;> rfl
  | seeded hchecked he =>
    cases hafter
    exact ⟨rfl, passed_le hinv⟩
  | made hcall hchecked hawaits he hreply =>
    cases hafter
    refine ⟨?_, hord.derived _ hcall _ _ hawaits he hchecked⟩
    rcases hreply with rfl | rfl <;> rfl
  | stored hheld hcall hawaits href he =>
    cases hafter
    have hbefore := hord.stealth _ hcall _ _ _ hheld hawaits href he
    obtain ⟨hpassed, hsince⟩ := live_since hinv hord hheld hbefore
    exact ⟨rfl, hpassed ▸ hsince⟩

theorem turn_revived (hinv : w.Inv compressedPubkey idleMs) (hord : Orderly compressedPubkey idleMs w (e, now))
    (ht : Turn compressedPubkey idleMs now w.cache e after reply) {h h' : HeldKey I K}
    (hheld : w.cache.held = some h) (hexpired : expired idleMs now h) (hafter : after = some h')
    (hlive : expired idleMs now h' = false) : h'.ref ≠ h.ref := by
  have hnew : ∀ h'' : HeldKey I K, h''.ref = w.cache.events → h''.ref ≠ h.ref := by
    intro h'' href
    rw [href]
    exact (hinv.ref h hheld).ne'
  have hdead : ∀ h'' : HeldKey I K, w.cache.held = some h'' → expired idleMs now h'' ≠ false := by
    intro h'' hheld''
    obtain rfl := Option.some.inj (hheld.symm.trans hheld'')
    simp [hexpired]
  cases ht with
  | dropped hreply => cases hafter
  | kept hreply => exact absurd hlive (hdead h' hafter)
  | read hreply => exact absurd hlive (hdead h' hafter)
  | used hbefore hlive' hcall hsession he hreply => exact absurd hlive' (hdead _ hbefore)
  | seeded hchecked he =>
    cases hafter
    exact hnew _ rfl
  | made hcall hchecked hawaits he hreply =>
    cases hafter
    exact hnew _ rfl
  | stored hbefore hcall hawaits href he =>
    exact absurd (hord.stealth _ hcall _ _ _ hbefore hawaits href he) (hdead _ hbefore)

theorem turn_checked (hinv : w.Inv compressedPubkey idleMs)
    (ht : Turn compressedPubkey idleMs now w.cache e after reply) {h : HeldKey I K} (hafter : after = some h) :
    norm (compressedPubkey h.identity) = norm h.sessionPubkey := by
  cases ht with
  | dropped hreply => cases hafter
  | kept hreply => exact hinv.checked h hafter
  | read hreply => exact hinv.checked h hafter
  | @used h _ _ hheld hlive hcall hsession he hreply =>
    cases hafter
    exact hinv.checked h hheld
  | seeded hchecked he =>
    cases hafter
    exact hchecked
  | made hcall hchecked hawaits he hreply =>
    cases hafter
    exact hchecked
  | @stored h _ _ _ hheld hcall hawaits href he =>
    cases hafter
    exact hinv.checked h hheld

-- A hold is the one before, for the same account and session, or it is new.
theorem turn_ref (ht : Turn compressedPubkey idleMs now w.cache e after reply) {h : HeldKey I K}
    (hafter : after = some h) : h.ref = w.cache.events ∨ ∃ h', w.cache.held = some h' ∧ h'.ref = h.ref ∧
      h'.account = h.account ∧ h'.sessionPubkey = h.sessionPubkey := by
  cases ht with
  | dropped hreply => cases hafter
  | kept hreply => exact .inr ⟨h, hafter, rfl, rfl, rfl⟩
  | read hreply => exact .inr ⟨h, hafter, rfl, rfl, rfl⟩
  | used hheld hlive hcall hsession he hreply =>
    cases hafter
    exact .inr ⟨_, hheld, rfl, rfl, rfl⟩
  | seeded hchecked he =>
    cases hafter
    exact .inl rfl
  | made hcall hchecked hawaits he hreply =>
    cases hafter
    exact .inl rfl
  | stored hheld hcall hawaits href he =>
    cases hafter
    exact .inr ⟨_, hheld, rfl, rfl, rfl⟩

theorem turn_handed (hinv : w.Inv compressedPubkey idleMs)
    (ht : Turn compressedPubkey idleMs now w.cache e after reply) {id : ℕ} {identity : I}
    (hidentity : reply = .identity id identity) : (∃ h, after = some h ∧ h.identity = identity) ∧
      ∃ call ∈ w.cache.calls, call.id = id ∧ norm (compressedPubkey identity) = norm call.sessionPubkey := by
  subst hidentity
  cases ht with
  | dropped hreply => simp at hreply
  | kept hreply => simp at hreply
  | read hreply => simp at hreply
  | @used h call _ hheld hlive hcall hsession he hreply =>
    simp only [reduceCtorEq, KeyReply.identity.injEq, and_false, exists_false, or_false, false_or] at hreply
    obtain ⟨rfl, rfl⟩ := hreply
    exact ⟨⟨_, rfl, rfl⟩, call, hcall, rfl, hsession ▸ hinv.checked h hheld⟩
  | @made call identity' account _ hcall hchecked hawaits he hreply =>
    simp only [reduceCtorEq, KeyReply.identity.injEq, false_or] at hreply
    obtain ⟨rfl, rfl⟩ := hreply
    exact ⟨⟨_, rfl, rfl⟩, call, hcall, rfl, hchecked⟩

theorem turn_stealth (hinv : w.Inv compressedPubkey idleMs) (hord : Orderly compressedPubkey idleMs w (e, now))
    (ht : Turn compressedPubkey idleMs now w.cache e after reply) {id : ℕ} {keys : K}
    (hstealth : reply = .stealth id keys) :
    ∃ h h', Usable idleMs now w.cache h ∧ after = some h' ∧ h'.ref = h.ref ∧ h'.stealth = some keys ∧
      e = .accountIs id (some (some h'.account)) ∧
      ∃ call ∈ w.cache.calls, call.id = id ∧ h'.sessionPubkey = call.sessionPubkey := by
  subst hstealth
  cases ht with
  | dropped hreply => simp at hreply
  | kept hreply => simp at hreply
  | read hreply => simp at hreply
  | @used h call _ hheld hlive hcall hsession he hreply =>
    simp only [reduceCtorEq, KeyReply.stealth.injEq, false_or] at hreply
    obtain ⟨keys', hkeys, rfl, rfl⟩ := hreply
    exact ⟨h, _, ⟨hheld, hlive⟩, rfl, rfl, hkeys, he, call, hcall, rfl, hsession⟩
  | made hcall hchecked hawaits he hreply => simp at hreply
  | @stored h held call _ hheld hcall hawaits href he =>
    have hlive := hord.stealth call hcall h held keys hheld hawaits href he
    obtain ⟨-, hsession, hsame⟩ := hinv.follows call hcall held (by rw [hawaits]; rfl)
    obtain ⟨haccount, hsession'⟩ := hsame h hheld href
    exact ⟨h, _, ⟨hheld, hlive⟩, rfl, rfl, rfl, by rw [haccount, he], call, hcall, rfl, hsession'.trans hsession⟩

theorem turn_stored (ht : Turn compressedPubkey idleMs now w.cache e after reply) {h : HeldKey I K} {keys : K}
    (hafter : after = some h) (hkeys : h.stealth = some keys) :
    (∃ id, reply = .stealth id keys) ∨ ∃ h', w.cache.held = some h' ∧ h'.stealth = some keys ∧
      h'.ref = h.ref ∧ h'.account = h.account ∧ h'.sessionPubkey = h.sessionPubkey := by
  cases ht with
  | dropped hreply => cases hafter
  | kept hreply => exact .inr ⟨h, hafter, hkeys, rfl, rfl, rfl⟩
  | read hreply => exact .inr ⟨h, hafter, hkeys, rfl, rfl, rfl⟩
  | used hheld hlive hcall hsession he hreply =>
    cases hafter
    exact .inr ⟨_, hheld, hkeys, rfl, rfl, rfl⟩
  | seeded hchecked he =>
    cases hafter
    cases hkeys
  | made hcall hchecked hawaits he hreply =>
    cases hafter
    cases hkeys
  | stored hheld hcall hawaits href he =>
    cases hafter
    cases hkeys
    exact .inl ⟨_, rfl⟩

theorem isUnlocked_iff {c : KeyCache I K} : isUnlocked idleMs now c = true ↔ ∃ h, Usable idleMs now c h := by
  simp [isUnlocked, Usable, Option.any_eq_true]

theorem peek_some {c : KeyCache I K} {sessionPubkey : String} {identity : I}
    (h : peek idleMs now sessionPubkey c = some identity) :
    ∃ h, Usable idleMs now c h ∧ h.identity = identity ∧ h.sessionPubkey = sessionPubkey := by
  obtain ⟨held, hheld, rfl⟩ := Option.map_eq_some_iff.mp h
  rw [Option.filter_eq_some_iff, decide_eq_true_eq, Bool.not_eq_true'] at hheld
  exact ⟨held, ⟨hheld.1, hheld.2.2⟩, rfl, hheld.2.1⟩

theorem turn_unlocked (ht : Turn compressedPubkey idleMs now w.cache e after reply)
    (hunlocked : reply = .unlocked true) : after = w.cache.held ∧ isUnlocked idleMs now w.cache = true := by
  subst hunlocked
  cases ht with
  | dropped hreply => simp at hreply
  | kept hreply => simp at hreply
  | read hreply =>
    simp only [KeyReply.unlocked.injEq, reduceCtorEq, and_false, exists_false, or_false] at hreply
    exact ⟨rfl, hreply.2.symm⟩
  | used hheld hlive hcall hsession he hreply => simp at hreply
  | made hcall hchecked hawaits he hreply => simp at hreply

theorem step_safe (hinv : w.Inv compressedPubkey idleMs)
    (hord : Orderly compressedPubkey idleMs w (e, now)) : Safe compressedPubkey idleMs w (e, now) := by
  have ht : Turn compressedPubkey idleMs now w.cache e
      (w.step compressedPubkey idleMs (e, now)).cache.held (w.turn compressedPubkey idleMs (e, now)).2 :=
    act_turn w.cache e
  have hsince : ∀ h, (w.step compressedPubkey idleMs (e, now)).cache.held = some h →
      (expired idleMs now h = false ∨ (w.turn compressedPubkey idleMs (e, now)).2.hands) →
      (w.step compressedPubkey idleMs (e, now)).since ≤ h.origin := by
    intro h hafter hlive
    obtain ⟨hlocks, hpassed⟩ := turn_fresh hinv hord ht hafter hlive
    simpa only [Watch.step, hlocks, Bool.false_eq_true, if_false] using hpassed
  exact {
    fresh := fun h hh => hsince h hh.1 (.inl hh.2)
    unlocked := fun hreply => by
      obtain ⟨hafter, hunlocked⟩ := turn_unlocked ht hreply
      obtain ⟨h, hheld, hlive⟩ := isUnlocked_iff.mp hunlocked
      exact ⟨h, hafter.trans hheld, hlive⟩
    peeked := fun sessionPubkey identity he hreply => by
      obtain rfl : e = .peek sessionPubkey := he
      obtain ⟨h, husable, rfl, rfl⟩ := peek_some (KeyReply.peeked.inj hreply)
      exact ⟨⟨h, husable, rfl⟩, hinv.checked h husable.1⟩
    handed := fun id identity hreply => by
      obtain ⟨⟨h, hafter, hidentity⟩, hcall⟩ := turn_handed hinv ht hreply
      exact ⟨⟨h, hafter, hidentity, hsince h hafter (.inr (hreply ▸ rfl))⟩, hcall⟩
    revived := fun h h' hheld hexpired husable => turn_revived hinv hord ht hheld hexpired husable.1 husable.2
    stealth := fun id keys hreply => by
      obtain ⟨h, h', husable, hafter, href, hkeys, he, hcall⟩ := turn_stealth hinv hord ht hreply
      exact ⟨h, h', husable, hafter, href, hkeys, hsince h' hafter (.inr (hreply ▸ rfl)), he, hcall⟩
    stored := fun h keys hafter hkeys => turn_stored ht hafter hkeys }

theorem step_inv (hinv : w.Inv compressedPubkey idleMs)
    (hord : Orderly compressedPubkey idleMs w (e, now)) :
    (w.step compressedPubkey idleMs (e, now)).Inv compressedPubkey idleMs := by
  have ht : Turn compressedPubkey idleMs now w.cache e
      (w.step compressedPubkey idleMs (e, now)).cache.held (w.turn compressedPubkey idleMs (e, now)).2 :=
    act_turn w.cache e
  have hevents : (w.step compressedPubkey idleMs (e, now)).cache.events = w.cache.events + 1 := rfl
  exact {
    since := by
      have hpassed : w.passed idleMs now ≤ w.cache.events := passed_le hinv
      rw [hevents, Watch.step]
      dsimp only
      split <;> omega
    ref := fun h hafter => by
      rw [hevents]
      rcases turn_ref ht hafter with href | ⟨h', hheld, href, -⟩
      · omega
      · have hlt := hinv.ref h' hheld
        omega
    checked := fun h hafter => turn_checked hinv ht hafter
    fresh := (step_safe hinv hord).fresh
    follows := fun call hcall h hh => by
      rcases act_follows w.cache e call hcall h hh with ⟨call', hcall', hsession, hh'⟩ | ⟨hafter, hsession⟩
      · obtain ⟨hlt, hsame, hheld⟩ := hinv.follows call' hcall' h hh'
        refine ⟨hlt.trans (Nat.lt_succ_self _), hsame.trans hsession, fun h₁ hafter href => ?_⟩
        rcases turn_ref ht hafter with hnew | ⟨h₂, hbefore, href₂, haccount, hsession₂⟩
        · omega
        · obtain ⟨haccount', hsession'⟩ := hheld h₂ hbefore (href₂.trans href)
          exact ⟨haccount ▸ haccount', hsession₂ ▸ hsession'⟩
      · refine ⟨?_, hsession, fun h₁ hafter₁ _ => ?_⟩
        · rw [hevents]
          rcases turn_ref ht hafter with href | ⟨h', hheld, href, -⟩
          · omega
          · have hlt := hinv.ref h' hheld
            omega
        · obtain rfl := Option.some.inj (hafter.symm.trans hafter₁)
          exact ⟨rfl, rfl⟩ }

theorem start_inv : (⟨{}, 0, 0⟩ : Watch I K).Inv compressedPubkey idleMs where
  since := le_rfl
  ref _ hheld := by cases hheld
  checked _ hheld := by cases hheld
  fresh _ husable := by cases husable.1
  follows _ hcall := by cases hcall

-- Every orderly run is safe: no key outlives a sign-out or a deadline, and none is handed out unchecked.
theorem orderly_unheld {compressedPubkey : I → String} {now : ℤ} {e : KeyEvent I K} {clock : ℤ}
    {c : KeyCache I K} (hheld : c.held = none) : Orderly compressedPubkey idleMs ⟨c, clock, 0⟩ (e, now) where
  clock h hh := by cases hheld.symm.trans hh
  derived call _ _ _ _ _ _ := by
    have hpassed : Watch.passed idleMs now ⟨c, clock, 0⟩ = 0 := by simp [Watch.passed, hheld]
    rw [hpassed]
    exact Nat.zero_le _
  stealth _ _ h _ _ hh := by cases hheld.symm.trans hh

-- A derivation that is still pending when the user signs out.
def signOutRun : List (KeyEvent String Unit × ℤ) :=
  [(.unlock "0xa" "key", 0), (.accountIs 0 (some (some "0xa")), 1), (.lock, 2), (.derived 0 (some "key"), 3)]

-- A stealth derivation that outlasts the deadline of its hold, whose timer is late.
def lateTimerRun : List (KeyEvent String Unit × ℤ) :=
  [(.seed "key" "0xa" "key", 0), (.unlockStealth "0xa" "key", 1), (.accountIs 1 (some (some "0xa")), 2),
    (.derivedStealth 1 (some ()), 600010), (.accountIs 1 (some (some "0xa")), 600011)]

end Bongtu.Client
