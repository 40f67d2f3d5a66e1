import Bongtu.Client.Run

set_option linter.unusedSectionVars false

namespace Bongtu.Client

open Bongtu.Core Outcome

abbrev ScanStateStore (O : Type) := O → Option SelfScanState

structure ScanSession (O : Type) where
  state : Option SelfScanState
  owner : Option O

variable {O : Type} [DecidableEq O]

namespace ScanSession

def resume (s : ScanSession O) (store : ScanStateStore O) (owner : O) : SelfScanState :=
  ((if s.owner = some owner then s.state else none).orElse fun _ => store owner).getD emptyScanState

def notes (s : ScanSession O) : List ScanNote := (s.state.map (·.notes)).getD []

def detach (s : ScanSession O) : ScanSession O := { s with state := none }

def signOut (_ : ScanSession O) : ScanSession O := ⟨none, none⟩

def cleared (s : ScanSession O) (store : ScanStateStore O) : ScanStateStore O :=
  match s.owner with
  | some owner => Function.update store owner none
  | none => store

end ScanSession

-- A scan suspended inside runSelfScan.
structure Flight (O : Type) where
  id : ℕ
  owner : O
  identity : Identity
  prev : SelfScanState

-- Scans are numbered in the order they were called. `heldBy` is the scan whose state is in memory,
-- and `quietSince` how many had been called when one last saved or the session last ended.
structure Page (O : Type) where
  session : ScanSession O
  store : ScanStateStore O
  flights : List (Flight O)
  started : ℕ
  heldBy : Option ℕ
  quietSince : ℕ

inductive Verb (O : Type) where
  | scan (owner : O) (identity : Option Identity)
  | settle (id : ℕ) (io : SelfScanIo)
  | detach
  | signOut
  | forgetOwner

structure Saved (O : Type) where
  id : ℕ
  owner : O
  state : SelfScanState

def defaultMaxPages : ℕ := 40

namespace Page

def opened (store : ScanStateStore O) : Page O := ⟨⟨none, none⟩, store, [], 0, none, 0⟩

def save (w : Page O) (s : Saved O) : Page O :=
  { w with
    session := ⟨some s.state, some s.owner⟩
    store := Function.update w.store s.owner (some s.state)
    heldBy := some s.id
    quietSince := w.started }

def flight (w : Page O) (id : ℕ) : Option (Flight O) := w.flights.find? (·.id = id)

def land (w : Page O) (id : ℕ) : Page O := { w with flights := w.flights.filter (·.id ≠ id) }

def launch (w : Page O) (owner : O) (identity : Identity) : Page O :=
  { w with
    flights := ⟨w.started, owner, identity, w.session.resume w.store owner⟩ :: w.flights
    started := w.started + 1 }

def ended (w : Page O) (store : ScanStateStore O) : Page O :=
  { w with session := w.session.signOut, store := store, heldBy := none, quietSince := w.started }

variable (p : Primitives)

-- What a verb writes back: a locked scan returns in the call itself, a suspended one when its pass
-- returns and nothing when it throws.
def saved (w : Page O) : Verb O → Option (Saved O)
  | .scan owner none => some ⟨w.started, owner, w.session.resume w.store owner⟩
  | .settle id io => (w.flight id).bind fun f =>
    (runSelfScan p f.identity io f.prev defaultMaxPages).toOption.map fun state => ⟨id, f.owner, state⟩
  | _ => none

def prepare (w : Page O) : Verb O → Page O
  | .scan _ none => { w with started := w.started + 1 }
  | .scan owner (some identity) => w.launch owner identity
  | .settle id _ => w.land id
  | .detach => { w with session := w.session.detach, heldBy := none }
  | .signOut => w.ended w.store
  | .forgetOwner => w.ended (w.session.cleared w.store)

def step (w : Page O) (v : Verb O) : Page O :=
  match w.saved p v with
  | some s => (w.prepare v).save s
  | none => w.prepare v

def after (store : ScanStateStore O) (verbs : List (Verb O)) : Page O :=
  verbs.foldl (step p) (opened store)

end Page

def Verb.Ends : Verb O → Prop
  | .signOut | .forgetOwner => True
  | _ => False

structure Isolated (p : Primitives) (store : ScanStateStore O) (verbs : List (Verb O)) : Prop where
  clean : ∀ pre post owner, verbs = pre ++ .forgetOwner :: post →
    (Page.after p store pre).session.owner = some owner →
    (∀ q v r s, post = q ++ v :: r → (Page.after p store (pre ++ .forgetOwner :: q)).saved p v = some s →
      s.owner = owner → s.id < (Page.after p store pre).started) →
    (Page.after p store verbs).store owner = none
  afterEnd : ∀ pre v post, verbs = pre ++ v :: post → v.Ends →
    (Page.after p store verbs).session.notes ≠ [] →
    ∃ id, (Page.after p store verbs).heldBy = some id ∧ (Page.after p store pre).started ≤ id
  afterOther : ∀ pre v post s owner, verbs = pre ++ v :: post →
    (Page.after p store pre).saved p v = some s →
    (Page.after p store verbs).session.owner = some owner → owner ≠ s.owner →
    (Page.after p store verbs).session.notes ≠ [] →
    ∃ id, (Page.after p store verbs).heldBy = some id ∧ (Page.after p store pre).started ≤ id
  cursor : ∀ pre v post owner row row', verbs = pre ++ v :: post →
    (Page.after p store pre).store owner = some row →
    (Page.after p store (pre ++ [v])).store owner = some row' → row.cursor ≤ row'.cursor

-- A scan writes back only when no scan has saved and the session has not ended since it was called.
def Undisturbed (p : Primitives) (store : ScanStateStore O) (verbs : List (Verb O)) : Prop :=
  ∀ pre v post s, verbs = pre ++ v :: post → (Page.after p store pre).saved p v = some s →
    (Page.after p store pre).quietSince ≤ s.id

variable {p : Primitives}

theorem runSelfScan_cursor {me : Identity} {io : SelfScanIo} {prev next : SelfScanState}
    {maxPages : ℕ} (h : runSelfScan p me io prev maxPages = .ok next) : prev.cursor ≤ next.cursor := by
  simp only [runSelfScan, bind_ok] at h
  obtain ⟨head, -, drained, -, pass, -, spent, -, hnext⟩ := h
  cases hnext
  exact le_max_left _ _

namespace Page

theorem after_append (store : ScanStateStore O) (xs ys : List (Verb O)) :
    after p store (xs ++ ys) = ys.foldl (step p) (after p store xs) := List.foldl_append ..

theorem after_snoc (store : ScanStateStore O) (xs : List (Verb O)) (v : Verb O) :
    after p store (xs ++ [v]) = (after p store xs).step p v := by
  rw [after_append]
  rfl

theorem started_prepare (w : Page O) (v : Verb O) : w.started ≤ (w.prepare v).started := by
  cases v with
  | scan owner identity => cases identity <;> simp [prepare, launch]
  | settle id io => simp [prepare, land]
  | detach => simp [prepare]
  | signOut => simp [prepare, ended]
  | forgetOwner => simp [prepare, ended]

theorem store_prepare {w : Page O} {v : Verb O} {owner : O} {row : SelfScanState}
    (h : (w.prepare v).store owner = some row) : w.store owner = some row := by
  cases v with
  | scan o identity => cases identity <;> exact h
  | settle id io => exact h
  | detach => exact h
  | signOut => exact h
  | forgetOwner =>
    simp only [prepare, ended, ScanSession.cleared] at h
    cases hw : w.session.owner with
    | none => simpa only [hw] using h
    | some o =>
      simp only [hw] at h
      rcases eq_or_ne owner o with rfl | ho
      · simp at h
      · rwa [Function.update_of_ne ho] at h

-- What holds of every page of an undisturbed run: memory agrees with the stored row, and a scan that
-- may still save resumed from a state no older than its owner's row.
structure Sound (w : Page O) : Prop where
  quiet : w.quietSince ≤ w.started
  ids : ∀ f ∈ w.flights, f.id < w.started
  held : w.heldBy = none → w.session.state = none
  memory : ∀ owner state, w.session.owner = some owner → w.session.state = some state →
    w.store owner = some state
  prevs : ∀ f ∈ w.flights, w.quietSince ≤ f.id → ∀ row, w.store f.owner = some row →
    row.cursor ≤ f.prev.cursor

def Allows (p : Primitives) (w : Page O) (v : Verb O) : Prop :=
  ∀ s, w.saved p v = some s → w.quietSince ≤ s.id

theorem sound_opened (store : ScanStateStore O) : (opened store).Sound where
  quiet := le_rfl
  ids f hf := by simp [opened] at hf
  held _ := rfl
  memory owner state ho := by simp [opened] at ho
  prevs f hf := by simp [opened] at hf

theorem Sound.resume {w : Page O} (hw : w.Sound) {owner : O} {row : SelfScanState}
    (hrow : w.store owner = some row) : (w.session.resume w.store owner) = row := by
  unfold ScanSession.resume
  split
  · case isTrue ho =>
    cases hs : w.session.state with
    | none => simp [hrow]
    | some state =>
      have := hw.memory owner state ho hs
      simp_all
  · case isFalse ho => simp [hrow]

theorem Sound.prepare {w : Page O} (hw : w.Sound) (v : Verb O) : (w.prepare v).Sound := by
  have hquiet := hw.quiet
  cases v with
  | scan owner identity =>
    cases identity with
    | none =>
      exact ⟨Nat.le_succ_of_le hquiet, fun f hf => Nat.lt_succ_of_lt (hw.ids f hf), hw.held,
        hw.memory, hw.prevs⟩
    | some identity =>
      refine ⟨Nat.le_succ_of_le hquiet, ?_, hw.held, hw.memory, ?_⟩
      · intro f hf
        rcases List.mem_cons.mp hf with rfl | hf
        · exact Nat.lt_succ_self _
        · exact Nat.lt_succ_of_lt (hw.ids f hf)
      · intro f hf hid row hrow
        rcases List.mem_cons.mp hf with rfl | hf
        · exact (congrArg SelfScanState.cursor (hw.resume hrow)).ge
        · exact hw.prevs f hf hid row hrow
  | settle id io =>
    exact ⟨hquiet, fun f hf => hw.ids f (List.mem_of_mem_filter hf), hw.held, hw.memory,
      fun f hf => hw.prevs f (List.mem_of_mem_filter hf)⟩
  | detach => exact ⟨hquiet, hw.ids, fun _ => rfl, fun _ _ _ hs => (nomatch hs), hw.prevs⟩
  | signOut =>
    refine ⟨le_rfl, hw.ids, fun _ => rfl, fun _ _ ho => (nomatch ho), ?_⟩
    intro f hf hid
    exact absurd (hw.ids f hf) (Nat.not_lt.mpr hid)
  | forgetOwner =>
    refine ⟨le_rfl, hw.ids, fun _ => rfl, fun _ _ ho => (nomatch ho), ?_⟩
    intro f hf hid
    exact absurd (hw.ids f hf) (Nat.not_lt.mpr hid)

theorem Sound.save {w : Page O} (hw : w.Sound) (s : Saved O) : (w.save s).Sound := by
  refine ⟨le_rfl, hw.ids, fun h => (nomatch h), ?_, ?_⟩
  · rintro owner state ⟨⟩ ⟨⟩
    exact Function.update_self ..
  · intro f hf hid
    exact absurd (hw.ids f hf) (Nat.not_lt.mpr hid)

theorem Sound.step {w : Page O} (hw : w.Sound) (v : Verb O) : (w.step p v).Sound := by
  unfold Page.step
  split
  · exact (hw.prepare v).save _
  · exact hw.prepare v

theorem Sound.after (store : ScanStateStore O) (verbs : List (Verb O)) :
    (Page.after p store verbs).Sound := by
  induction verbs using List.reverseRecOn with
  | nil => exact sound_opened store
  | append_singleton verbs v ih => simpa only [after_snoc] using ih.step v

theorem Sound.saved_cursor {w : Page O} (hw : w.Sound) {v : Verb O} {s : Saved O}
    (hs : w.saved p v = some s) (hv : w.Allows p v) {row : SelfScanState}
    (hrow : w.store s.owner = some row) : row.cursor ≤ s.state.cursor := by
  have hid := hv s hs
  cases v with
  | scan owner identity =>
    cases identity with
    | none =>
      cases hs
      exact (congrArg SelfScanState.cursor (hw.resume hrow)).ge
    | some identity => cases hs
  | settle id io =>
    simp only [saved, Option.bind_eq_some_iff, Option.map_eq_some_iff] at hs
    obtain ⟨f, hf, state, hstate, rfl⟩ := hs
    have hmem := List.mem_of_find?_eq_some hf
    have hfid : f.id = id := by simpa using List.find?_some hf
    have hrun : runSelfScan p f.identity io f.prev defaultMaxPages = .ok state := by
      cases hr : runSelfScan p f.identity io f.prev defaultMaxPages with
      | error e => simp [hr, Except.toOption] at hstate
      | ok next => simpa [hr, Except.toOption] using hstate
    exact (hw.prevs f hmem (hfid ▸ hid) row hrow).trans (runSelfScan_cursor hrun)
  | detach => cases hs
  | signOut => cases hs
  | forgetOwner => cases hs

theorem store_step {w : Page O} {v : Verb O} {owner : O} {row : SelfScanState}
    (h : (w.step p v).store owner = some row) :
    w.store owner = some row ∨ ∃ s, w.saved p v = some s ∧ s.owner = owner ∧ s.state = row := by
  unfold Page.step at h
  split at h
  · case h_1 s hs =>
    by_cases ho : owner = s.owner
    · subst ho
      refine .inr ⟨s, hs, rfl, ?_⟩
      simpa [Page.save] using h
    · exact .inl (store_prepare (by simpa [Page.save, Function.update_of_ne ho] using h))
  · case h_2 => exact .inl (store_prepare h)

-- Whatever memory holds comes from a scan numbered n or later, or belongs to an exempt owner.
structure Later (n : ℕ) (exempt : O → Prop) (w : Page O) : Prop where
  quiet : n ≤ w.quietSince
  held : ∀ id, w.heldBy = some id → n ≤ id ∨ ∃ owner, w.session.owner = some owner ∧ exempt owner

variable {n : ℕ} {exempt : O → Prop}

theorem Later.prepare {w : Page O} (hl : w.Later n exempt) (hw : w.Sound) (v : Verb O) :
    (w.prepare v).Later n exempt := by
  have hquiet := hl.quiet.trans hw.quiet
  cases v with
  | scan owner identity => cases identity <;> exact ⟨hl.quiet, hl.held⟩
  | settle id io => exact ⟨hl.quiet, hl.held⟩
  | detach => exact ⟨hl.quiet, fun _ h => nomatch h⟩
  | signOut => exact ⟨hquiet, fun _ h => nomatch h⟩
  | forgetOwner => exact ⟨hquiet, fun _ h => nomatch h⟩

theorem Later.step {w : Page O} (hl : w.Later n exempt) (hw : w.Sound) {v : Verb O}
    (hv : w.Allows p v) : (w.step p v).Later n exempt := by
  have hprep := hl.prepare hw v
  unfold Page.step
  split
  · case h_1 s hs =>
    refine ⟨hprep.quiet.trans (hw.prepare v).quiet, ?_⟩
    rintro id ⟨⟩
    exact .inl (hl.quiet.trans (hv s hs))
  · case h_2 => exact hprep

theorem Later.notes {w : Page O} (hl : w.Later n exempt) (hw : w.Sound)
    (hex : ∀ owner, w.session.owner = some owner → ¬exempt owner) (hnotes : w.session.notes ≠ []) :
    ∃ id, w.heldBy = some id ∧ n ≤ id := by
  cases hheld : w.heldBy with
  | none =>
    refine absurd ?_ hnotes
    simp [ScanSession.notes, hw.held hheld]
  | some id =>
    refine ⟨id, rfl, ?_⟩
    rcases hl.held id hheld with h | ⟨owner, ho, he⟩
    · exact h
    · exact absurd he (hex owner ho)

theorem later_ended {w : Page O} (store : ScanStateStore O) :
    (w.ended store).Later w.started exempt := ⟨le_rfl, fun _ h => nomatch h⟩

end Page

variable {store : ScanStateStore O}

theorem Undisturbed.allows {verbs : List (Verb O)} (hu : Undisturbed p store verbs)
    {pre post : List (Verb O)} {v : Verb O} (h : verbs = pre ++ v :: post) :
    (Page.after p store pre).Allows p v := fun s hs => hu pre v post s h hs

-- From the page after `pre ++ [v]` on, what every allowed step keeps holds to the end of the run.
theorem Undisturbed.keeps {P : Page O → Prop} {pre : List (Verb O)} {v : Verb O}
    (hstart : P (Page.after p store (pre ++ [v]))) (post : List (Verb O))
    (hu : Undisturbed p store (pre ++ v :: post))
    (hstep : ∀ q v' r, post = q ++ v' :: r → P (Page.after p store (pre ++ v :: q)) →
      (Page.after p store (pre ++ v :: q)).Allows p v' →
      P ((Page.after p store (pre ++ v :: q)).step p v')) :
    P (Page.after p store (pre ++ v :: post)) := by
  induction post using List.reverseRecOn with
  | nil => exact hstart
  | append_singleton post v' ih =>
    have hsplit : pre ++ v :: (post ++ [v']) = (pre ++ v :: post) ++ [v'] := by simp
    have hprefix : Undisturbed p store (pre ++ v :: post) := by
      intro a b c s habc hs
      exact hu a b (c ++ [v']) s (by rw [hsplit, habc]; simp) hs
    have hpost := ih hprefix fun q v'' r hq => hstep q v'' (r ++ [v']) (by rw [hq]; simp)
    rw [hsplit, Page.after_snoc]
    exact hstep post v' [] rfl hpost (hu.allows hsplit)

theorem Undisturbed.later {exempt : O → Prop} {n : ℕ} {pre : List (Verb O)} {v : Verb O}
    (hstart : (Page.after p store (pre ++ [v])).Later n exempt) {post : List (Verb O)}
    (hu : Undisturbed p store (pre ++ v :: post)) :
    (Page.after p store (pre ++ v :: post)).Later n exempt :=
  hu.keeps (P := Page.Later n exempt) hstart post
    fun _ _ _ _ hlater hallows => hlater.step (Page.Sound.after store _) hallows

theorem Verb.Ends.later {w : Page O} {v : Verb O} (hends : v.Ends) {exempt : O → Prop} :
    (w.step p v).Later w.started exempt := by
  cases v with
  | signOut => exact Page.later_ended _
  | forgetOwner => exact Page.later_ended _
  | scan owner identity => exact hends.elim
  | settle id io => exact hends.elim
  | detach => exact hends.elim

theorem Page.later_saved {w : Page O} {v : Verb O} {s : Saved O} (hs : w.saved p v = some s) :
    (w.step p v).Later w.started (· = s.owner) := by
  simp only [Page.step, hs]
  exact ⟨started_prepare w v, fun _ _ => .inr ⟨s.owner, rfl, rfl⟩⟩

theorem Page.store_forgotten {w : Page O} {owner : O} (howner : w.session.owner = some owner) :
    (w.step p .forgetOwner).store owner = none := by
  simp [Page.step, Page.saved, Page.prepare, Page.ended, ScanSession.cleared, howner]

theorem Undisturbed.forgotten {owner : O} {pre : List (Verb O)}
    (howner : (Page.after p store pre).session.owner = some owner) {post : List (Verb O)}
    (hu : Undisturbed p store (pre ++ .forgetOwner :: post))
    (hsaves : ∀ q v r s, post = q ++ v :: r →
      (Page.after p store (pre ++ .forgetOwner :: q)).saved p v = some s → s.owner = owner →
      s.id < (Page.after p store pre).started) :
    (Page.after p store (pre ++ .forgetOwner :: post)).store owner = none := by
  let n := (Page.after p store pre).started
  have hstart : (Page.after p store (pre ++ [.forgetOwner])).store owner = none ∧
      (Page.after p store (pre ++ [.forgetOwner])).Later n fun _ => False := by
    rw [Page.after_snoc]
    exact ⟨Page.store_forgotten howner, Verb.Ends.later (v := .forgetOwner) trivial⟩
  refine (hu.keeps (P := fun w => w.store owner = none ∧ w.Later n fun _ => False) hstart post
    fun q v r hq hclean hallows => ⟨?_, hclean.2.step (Page.Sound.after store _) hallows⟩).1
  rw [Option.eq_none_iff_forall_ne_some]
  intro row hrow
  rcases Page.store_step hrow with hold | ⟨s, hs, hso, -⟩
  · rw [hclean.1] at hold
    exact nomatch hold
  · have hearly := hsaves q v r s hq hs hso
    have hlate := hclean.2.quiet.trans (hallows s hs)
    exact absurd hlate (Nat.not_le.mpr hearly)

theorem scan_session_isolated (p : Primitives) (store : ScanStateStore O) {verbs : List (Verb O)}
    (hu : Undisturbed p store verbs) : Isolated p store verbs where
  clean := by
    rintro pre post owner rfl howner hsaves
    exact hu.forgotten howner hsaves
  afterEnd := by
    rintro pre v post rfl hends hnotes
    have hended : ((Page.after p store pre).step p v).Later (Page.after p store pre).started
        fun _ => False := hends.later
    rw [← Page.after_snoc] at hended
    have hlater := hu.later hended
    exact hlater.notes (Page.Sound.after store _) (fun _ _ h => h) hnotes
  afterOther := by
    rintro pre v post s owner rfl hs howner hne hnotes
    have hlater := hu.later (Page.after_snoc (p := p) store pre v ▸ Page.later_saved hs)
    refine hlater.notes (Page.Sound.after store _) ?_ hnotes
    rintro owner' howner' rfl
    rw [howner] at howner'
    exact hne (Option.some.inj howner')
  cursor := by
    rintro pre v post owner row row' rfl hrow hrow'
    rw [Page.after_snoc] at hrow'
    have hw := Page.Sound.after (p := p) store pre
    rcases Page.store_step hrow' with h | ⟨s, hs, rfl, rfl⟩
    · rw [hrow] at h
      cases h
      exact le_rfl
    · exact hw.saved_cursor hs (hu.allows rfl) hrow

def Page.allowed (p : Primitives) : Page O → List (Verb O) → Bool
  | _, [] => true
  | w, v :: verbs =>
    ((w.saved p v).all fun s => w.quietSince ≤ s.id) && Page.allowed p (w.step p v) verbs

theorem Page.allowed_append {w : Page O} (xs ys : List (Verb O)) :
    Page.allowed p w (xs ++ ys) = (Page.allowed p w xs && Page.allowed p (xs.foldl (step p) w) ys) := by
  induction xs generalizing w with
  | nil => rfl
  | cons v xs ih => simp [Page.allowed, ih, Bool.and_assoc]

theorem undisturbed_of_allowed {verbs : List (Verb O)}
    (h : Page.allowed p (Page.opened store) verbs = true) : Undisturbed p store verbs := by
  rintro pre v post s rfl hs
  rw [Page.allowed_append, Bool.and_eq_true] at h
  have hv := h.2
  rw [Page.allowed, Bool.and_eq_true] at hv
  have hall := hv.1
  rw [show pre.foldl (Page.step p) (Page.opened store) = Page.after p store pre from rfl, hs] at hall
  simpa using hall

def quietIo : SelfScanIo := ⟨some ⟨0, 0⟩, fun _ _ => some [], fun _ => none, fun _ => none, some []⟩

def aliceIdentity : Identity := ⟨11, 13, []⟩

-- An owner's second scan is still reading when the owner is forgotten.
def lateScan : List (Verb ℕ) :=
  [.scan 7 (some aliceIdentity), .settle 0 quietIo, .scan 7 (some aliceIdentity), .forgetOwner,
    .settle 1 quietIo]

theorem scan_session_not_isolated :
    ¬Isolated plainPrimitives (fun _ : ℕ => none) lateScan := by
  intro h
  have hsaves : ∀ q v r s, [Verb.settle 1 quietIo] = q ++ v :: r →
      (Page.after plainPrimitives (fun _ : ℕ => none) (lateScan.take 3 ++ .forgetOwner :: q)).saved
        plainPrimitives v = some s → s.owner = 7 →
      s.id < (Page.after plainPrimitives (fun _ : ℕ => none) (lateScan.take 3)).started := by
    intro q v r s hq hs _
    cases q with
    | cons _ q => simp at hq
    | nil =>
      obtain ⟨rfl, rfl⟩ := List.cons.inj hq
      cases hs
      decide
  have hrow := h.clean (lateScan.take 3) [.settle 1 quietIo] 7 rfl rfl hsaves
  exact absurd hrow (by decide)

-- The same scans with the sign-out after the last of them.
def settledScan : List (Verb ℕ) :=
  [.scan 7 (some aliceIdentity), .settle 0 quietIo, .scan 7 (some aliceIdentity),
    .settle 1 quietIo, .forgetOwner]

theorem scan_session_isolated_settled : Isolated plainPrimitives (fun _ : ℕ => none) settledScan :=
  scan_session_isolated plainPrimitives (fun _ => none) (undisturbed_of_allowed (by decide))

end Bongtu.Client
