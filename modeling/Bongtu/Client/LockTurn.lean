import Bongtu.Client.KeyCache

namespace Bongtu.Client

open Bongtu.Core KeyCache

variable {I K : Type} {compressedPubkey : I → String} {idleMs now : ℤ}

-- What one event does to the hold.
inductive Turn (compressedPubkey : I → String) (idleMs now : ℤ) (c : KeyCache I K) (e : KeyEvent I K) :
    Option (HeldKey I K) → KeyReply I K → Prop
  | dropped {reply : KeyReply I K} (hreply : reply = .locked ∨ reply = .lockedOut ∨ ∃ id, reply = .pending id) :
    Turn compressedPubkey idleMs now c e none reply
  | kept {reply : KeyReply I K} (hreply : reply = .done ∨ reply = .refused ∨ ∃ id, reply = .pending id) :
    Turn compressedPubkey idleMs now c e c.held reply
  | read {reply : KeyReply I K} (hreply : e = .isUnlocked ∧ reply = .unlocked (isUnlocked idleMs now c) ∨
      ∃ sessionPubkey, e = .peek sessionPubkey ∧ reply = .peeked (peek idleMs now sessionPubkey c)) :
    Turn compressedPubkey idleMs now c e c.held reply
  | used {h : HeldKey I K} {call : PendingCall I K} {reply : KeyReply I K} (hheld : c.held = some h)
      (hlive : expired idleMs now h = false) (hcall : call ∈ c.calls)
      (hsession : h.sessionPubkey = call.sessionPubkey)
      (he : e = .accountIs call.id (some (some h.account)))
      (hreply : reply = .pending call.id ∨ reply = .identity call.id h.identity ∨
        ∃ keys, h.stealth = some keys ∧ reply = .stealth call.id keys) :
    Turn compressedPubkey idleMs now c e (some { h with lastUsedAt := now }) reply
  | seeded {identity : I} {account sessionPubkey : String}
      (hchecked : norm (compressedPubkey identity) = norm sessionPubkey)
      (he : e = .seed identity account sessionPubkey) :
    Turn compressedPubkey idleMs now c e
      (some ⟨c.events, c.events, identity, none, toLowerCase account, sessionPubkey, now⟩) .done
  | made {call : PendingCall I K} {identity : I} {account : Option String} {reply : KeyReply I K}
      (hcall : call ∈ c.calls) (hchecked : norm (compressedPubkey identity) = norm call.sessionPubkey)
      (hawaits : call.awaits = .derive account) (he : e = .derived call.id (some identity))
      (hreply : reply = .pending call.id ∨ reply = .identity call.id identity) :
    Turn compressedPubkey idleMs now c e (some ⟨c.events, call.id, identity, none,
      account.getD (toLowerCase call.address), call.sessionPubkey, now⟩) reply
  | stored {h held : HeldKey I K} {call : PendingCall I K} {keys : K} (hheld : c.held = some h)
      (hcall : call ∈ c.calls) (hawaits : call.awaits = .accountAgain held keys) (href : h.ref = held.ref)
      (he : e = .accountIs call.id (some (some held.account))) :
    Turn compressedPubkey idleMs now c e (some { h with stealth := some keys, lastUsedAt := now })
      (.stealth call.id keys)

theorem seed_turn {c : KeyCache I K} (identity : I) (account sessionPubkey : String) :
    Turn compressedPubkey idleMs now c (.seed identity account sessionPubkey)
      (seed compressedPubkey now identity account sessionPubkey c).1.held
      (seed compressedPubkey now identity account sessionPubkey c).2 := by
  rw [seed]
  split
  · exact .kept (.inr (.inl rfl))
  · next h => exact .seeded (not_not.mp h) rfl

theorem handOut_held (call : PendingCall I K) (identity : I) {c : KeyCache I K} {h : HeldKey I K}
    (hheld : c.held = some h) (hnow : h.lastUsedAt = now) :
    (handOut now call identity c).1.held = some h ∧
      ((handOut now call identity c).2 = .pending call.id ∧ h.stealth = none ∨
        (handOut now call identity c).2 = .identity call.id identity ∨
        ∃ keys, h.stealth = some keys ∧ (handOut now call identity c).2 = .stealth call.id keys) := by
  obtain ⟨ref, origin, identity', stealth, account, sessionPubkey, lastUsedAt⟩ := h
  obtain rfl : lastUsedAt = now := hnow
  rw [handOut]
  split
  · rw [takeStealth, hheld]
    cases stealth with
    | none => exact ⟨hheld, .inl ⟨rfl, rfl⟩⟩
    | some keys => exact ⟨rfl, .inr (.inr ⟨keys, rfl, rfl⟩)⟩
  · exact ⟨hheld, .inr (.inl rfl)⟩

theorem dropStale_some {c : KeyCache I K} {call : PendingCall I K} {account : Option String} {h : HeldKey I K}
    (hheld : (dropStale idleMs now call account c).held = some h) :
    c.held = some h ∧ account ≠ none ∧ h.sessionPubkey = call.sessionPubkey ∧ expired idleMs now h = false := by
  rw [dropStale] at hheld
  split at hheld
  · cases hheld
  · next hkeep =>
    refine ⟨hheld, ?_⟩
    simpa [hheld] using hkeep

theorem resumeUnlock_turn {c : KeyCache I K} {call : PendingCall I K} (hcall : call ∈ c.calls)
    (account : Option String) (rest : List (PendingCall I K)) :
    Turn compressedPubkey idleMs now c (.accountIs call.id (some account))
      (resumeUnlock idleMs now call account { c with calls := rest }).1.held
      (resumeUnlock idleMs now call account { c with calls := rest }).2 := by
  rw [resumeUnlock]
  split
  · exact .dropped (.inr (.inl rfl))
  · next hswitched =>
    dsimp only
    split
    · next h hkept =>
      obtain ⟨hheld, hsome, hsession, hlive⟩ := dropStale_some hkept
      dsimp only at hheld
      have hsame : account = some h.account := by
        simpa [switched, hheld, Option.isSome_iff_ne_none, hsome] using hswitched
      obtain ⟨hafter, hreply⟩ := handOut_held call h.identity
        (c := hold { h with lastUsedAt := now } (dropStale idleMs now call account { c with calls := rest }))
        rfl rfl
      rw [hafter]
      exact .used hheld hlive hcall hsession (by rw [hsame]) (hreply.imp_left And.left)
    · next hnone =>
      exact hnone ▸ .dropped (.inr (.inr ⟨call.id, rfl⟩))

theorem resumeDerive_turn {c : KeyCache I K} {call : PendingCall I K} (hcall : call ∈ c.calls)
    {account : Option String} (hawaits : call.awaits = .derive account) (identity : I)
    (rest : List (PendingCall I K)) :
    Turn compressedPubkey idleMs now c (.derived call.id (some identity))
      (resumeDerive compressedPubkey now call account identity { c with calls := rest }).1.held
      (resumeDerive compressedPubkey now call account identity { c with calls := rest }).2 := by
  rw [resumeDerive]
  split
  · exact .kept (.inr (.inl rfl))
  · next hchecked =>
    obtain ⟨hafter, hreply⟩ := handOut_held call identity
      (c := hold ⟨c.events, call.id, identity, none, account.getD (toLowerCase call.address),
        call.sessionPubkey, now⟩ { c with calls := rest }) rfl rfl
    rw [hafter]
    refine .made hcall (not_not.mp hchecked) hawaits rfl ?_
    rcases hreply with hreply | hreply | ⟨keys, hkeys, -⟩
    · exact .inl hreply.1
    · exact .inr hreply
    · cases hkeys

theorem resumeStealth_turn {c : KeyCache I K} {call : PendingCall I K} (hcall : call ∈ c.calls)
    {held : HeldKey I K} {keys : K} (hawaits : call.awaits = .accountAgain held keys) (account : Option String)
    (rest : List (PendingCall I K)) :
    Turn compressedPubkey idleMs now c (.accountIs call.id (some account))
      (resumeStealth now call held keys account { c with calls := rest }).1.held
      (resumeStealth now call held keys account { c with calls := rest }).2 := by
  rw [resumeStealth]
  split
  · next h hheld =>
    split
    · exact .dropped (.inr (.inl rfl))
    · next hsame =>
      rw [not_or, not_not, not_not] at hsame
      exact .stored hheld hcall hawaits hsame.1 (by rw [hsame.2])
  · exact .dropped (.inr (.inl rfl))

theorem settles_id {call : PendingCall I K} {e : KeyEvent I K} (h : settles call e) :
    (∃ answer, e = .accountIs call.id answer) ∨ (∃ answer, e = .derived call.id answer) ∨
      ∃ answer, e = .derivedStealth call.id answer := by
  unfold settles at h
  split at h
  · exact .inl ⟨_, by rw [of_decide_eq_true h]⟩
  · exact .inl ⟨_, by rw [of_decide_eq_true h]⟩
  · exact .inr (.inl ⟨_, by rw [of_decide_eq_true h]⟩)
  · exact .inr (.inr ⟨_, by rw [of_decide_eq_true h]⟩)
  · cases h

theorem resume_turn {c : KeyCache I K} {call : PendingCall I K} (hcall : call ∈ c.calls) {e : KeyEvent I K}
    (hsettles : settles call e) {rest : List (PendingCall I K)} {r : KeyCache I K × KeyReply I K}
    (hr : resume compressedPubkey idleMs now call e { c with calls := rest } = r) :
    Turn compressedPubkey idleMs now c e r.1.held r.2 := by
  have hid := settles_id hsettles
  unfold resume at hr
  split at hr
  · next account _ =>
    obtain ⟨answer, heq⟩ | ⟨answer, heq⟩ | ⟨answer, heq⟩ := hid <;> cases heq
    exact hr ▸ resumeUnlock_turn hcall account rest
  · next account _ identity hawaits =>
    obtain ⟨answer, heq⟩ | ⟨answer, heq⟩ | ⟨answer, heq⟩ := hid <;> cases heq
    exact hr ▸ resumeDerive_turn hcall hawaits identity rest
  · exact hr ▸ .kept (.inr (.inr ⟨call.id, rfl⟩))
  · next held stealth _ account hawaits =>
    obtain ⟨answer, heq⟩ | ⟨answer, heq⟩ | ⟨answer, heq⟩ := hid <;> cases heq
    exact hr ▸ resumeStealth_turn hcall hawaits account rest
  · exact hr ▸ .kept (.inr (.inl rfl))

theorem settle_turn (c : KeyCache I K) (e : KeyEvent I K) :
    Turn compressedPubkey idleMs now c e (settle compressedPubkey idleMs now e c).1.held
      (settle compressedPubkey idleMs now e c).2 := by
  rw [settle]
  split
  · exact .kept (.inl rfl)
  · next call hfind =>
    have hsettles : settles call e := List.find?_some (p := fun call => settles call e) hfind
    exact resume_turn (List.mem_of_find?_eq_some hfind) hsettles rfl

theorem act_turn (c : KeyCache I K) (e : KeyEvent I K) :
    Turn compressedPubkey idleMs now c e (act compressedPubkey idleMs now e c).1.held
      (act compressedPubkey idleMs now e c).2 := by
  cases e with
  | isUnlocked => exact .read (.inl ⟨rfl, rfl⟩)
  | peek sessionPubkey => exact .read (.inr ⟨sessionPubkey, rfl, rfl⟩)
  | lock => exact .dropped (.inl rfl)
  | timer =>
    rw [act]
    split
    · exact .dropped (.inl rfl)
    · exact .kept (.inl rfl)
  | seed identity account sessionPubkey =>
    rw [act]
    exact seed_turn identity account sessionPubkey
  | unlock address sessionPubkey =>
    change Turn compressedPubkey idleMs now c _ c.held (.pending c.events)
    exact .kept (.inr (.inr ⟨c.events, rfl⟩))
  | unlockStealth address sessionPubkey =>
    change Turn compressedPubkey idleMs now c _ c.held (.pending c.events)
    exact .kept (.inr (.inr ⟨c.events, rfl⟩))
  | accountIs call answer => exact settle_turn c (.accountIs call answer)
  | derived call answer => exact settle_turn c (.derived call answer)
  | derivedStealth call answer => exact settle_turn c (.derivedStealth call answer)

-- The hold a suspended stealth unlock goes by.
def Awaited.hold : Awaited I K → Option (HeldKey I K)
  | .deriveStealth held => some held
  | .accountAgain held _ => some held
  | _ => none

-- A call goes by the hold it went by before, or by the one it has just left behind.
def Follows (before after : KeyCache I K) (call : PendingCall I K) : Prop :=
  ∀ h, call.awaits.hold = some h →
    (∃ call' ∈ before.calls, call'.sessionPubkey = call.sessionPubkey ∧ call'.awaits.hold = some h) ∨
      after.held = some h ∧ h.sessionPubkey = call.sessionPubkey

theorem follows_kept {before after : KeyCache I K} {call : PendingCall I K} (hcall : call ∈ before.calls) :
    Follows before after call :=
  fun _ hh => .inl ⟨call, hcall, rfl, hh⟩

theorem follows_idle {before after : KeyCache I K} {call : PendingCall I K} (hidle : call.awaits.hold = none) :
    Follows before after call := fun h hh => by
  rw [hidle] at hh
  cases hh

theorem handOut_follows {c c₁ : KeyCache I K} {call : PendingCall I K} {h : HeldKey I K} {identity : I}
    {r : KeyCache I K × KeyReply I K} (hheld : c₁.held = some h) (hsession : h.sessionPubkey = call.sessionPubkey)
    (hrest : ∀ call' ∈ c₁.calls, call' ∈ c.calls) (hr : handOut now call identity c₁ = r) :
    ∀ call' ∈ r.1.calls, Follows c r.1 call' := by
  have hkept : ∀ c' : KeyCache I K, c'.calls = c₁.calls → ∀ call' ∈ c'.calls, Follows c c' call' :=
    fun c' hc' call' hcall' => follows_kept (hrest call' (hc' ▸ hcall'))
  rw [handOut] at hr
  split at hr
  · rw [takeStealth, hheld] at hr
    dsimp only at hr
    split at hr
    · exact hr ▸ hkept _ rfl
    · subst hr
      intro call' hcall'
      rcases List.mem_cons.mp hcall' with rfl | hcall'
      · intro h' hh'
        cases hh'
        exact .inr ⟨hheld, hsession⟩
      · exact follows_kept (hrest call' hcall')
  · exact hr ▸ hkept _ rfl

theorem mem_suspend {c : KeyCache I K} {call call' : PendingCall I K} {awaits : Awaited I K}
    (h : call' ∈ (c.suspend call awaits).calls) : call' = { call with awaits := awaits } ∨ call' ∈ c.calls :=
  List.mem_cons.mp h

theorem dropStale_calls {c : KeyCache I K} {call : PendingCall I K} {account : Option String} :
    (dropStale idleMs now call account c).calls = c.calls := by
  rw [dropStale]
  split <;> rfl

theorem resume_follows {c : KeyCache I K} {call : PendingCall I K} (hcall : call ∈ c.calls) {e : KeyEvent I K}
    {rest : List (PendingCall I K)} (hrest : ∀ call' ∈ rest, call' ∈ c.calls)
    {r : KeyCache I K × KeyReply I K}
    (hr : resume compressedPubkey idleMs now call e { c with calls := rest } = r) :
    ∀ call' ∈ r.1.calls, Follows c r.1 call' := by
  unfold resume at hr
  split at hr
  · next account _ =>
    rw [resumeUnlock] at hr
    split at hr
    · exact hr ▸ fun call' hcall' => follows_kept (hrest call' hcall')
    · dsimp only at hr
      split at hr
      · next h hkept =>
        refine handOut_follows (h := { h with lastUsedAt := now }) rfl (dropStale_some hkept).2.2.1 (fun call' hcall' => hrest call' ?_) hr
        have hcalls : call' ∈ (dropStale idleMs now call account { c with calls := rest }).calls := hcall'
        rwa [dropStale_calls] at hcalls
      · subst hr
        intro call' hcall'
        rcases mem_suspend hcall' with rfl | hcall'
        · exact follows_idle rfl
        · rw [dropStale_calls] at hcall'
          exact follows_kept (hrest call' hcall')
  · rw [resumeDerive] at hr
    split at hr
    · exact hr ▸ fun call' hcall' => follows_kept (hrest call' hcall')
    · exact handOut_follows rfl rfl hrest hr
  · next held stealth hawaits =>
    subst hr
    intro call' hcall'
    rcases mem_suspend hcall' with rfl | hcall'
    · intro h hh
      exact .inl ⟨call, hcall, rfl, by rw [hawaits]; exact hh⟩
    · exact follows_kept (hrest call' hcall')
  · rw [resumeStealth] at hr
    split at hr
    · split at hr <;> exact hr ▸ fun call' hcall' => follows_kept (hrest call' hcall')
    · exact hr ▸ fun call' hcall' => follows_kept (hrest call' hcall')
  · exact hr ▸ fun call' hcall' => follows_kept (hrest call' hcall')

theorem settle_follows (c : KeyCache I K) (e : KeyEvent I K) :
    ∀ call' ∈ (settle compressedPubkey idleMs now e c).1.calls,
      Follows c (settle compressedPubkey idleMs now e c).1 call' := by
  rw [settle]
  split
  · exact fun call' hcall' => follows_kept hcall'
  · next call hfind =>
    exact resume_follows (List.mem_of_find?_eq_some hfind) (fun _ hcall' => List.mem_of_mem_filter hcall') rfl

theorem begin_follows {c : KeyCache I K} {forStealth : Bool} {address sessionPubkey : String} :
    ∀ call' ∈ (begin forStealth address sessionPubkey c).1.calls,
      Follows c (begin forStealth address sessionPubkey c).1 call' := by
  intro call' hcall'
  rcases List.mem_cons.mp hcall' with rfl | hcall'
  · exact follows_idle rfl
  · exact follows_kept hcall'

theorem act_follows (c : KeyCache I K) (e : KeyEvent I K) :
    ∀ call' ∈ (act compressedPubkey idleMs now e c).1.calls,
      Follows c (act compressedPubkey idleMs now e c).1 call' := by
  have hsame : ∀ c' : KeyCache I K, c'.calls = c.calls → ∀ call' ∈ c'.calls, Follows c c' call' :=
    fun c' hc' call' hcall' => follows_kept (hc' ▸ hcall')
  cases e with
  | isUnlocked => exact hsame c rfl
  | peek sessionPubkey => exact hsame c rfl
  | lock => exact hsame c.lock rfl
  | timer =>
    rw [act]
    split
    · exact hsame c.lock rfl
    · exact hsame c rfl
  | seed identity account sessionPubkey =>
    rw [act, seed]
    split
    · exact hsame c rfl
    · exact hsame _ rfl
  | unlock address sessionPubkey => exact begin_follows
  | unlockStealth address sessionPubkey => exact begin_follows
  | accountIs call answer => exact settle_follows c (.accountIs call answer)
  | derived call answer => exact settle_follows c (.derived call answer)
  | derivedStealth call answer => exact settle_follows c (.derivedStealth call answer)

end Bongtu.Client
