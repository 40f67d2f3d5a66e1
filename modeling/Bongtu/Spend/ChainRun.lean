import Bongtu.Spend.Driver

namespace Bongtu.Spend

open Bongtu.Core Monitor Outcome

-- What is known of a run from its deeds: the identity of the unlock that no submission has used yet, what was
-- submitted last, and the notes that the submitted merges are seen to have created.
structure Record (I : Type) where
  unlocked : Option (ℕ × I)
  submitted : Option (ℕ × BuiltLeg)
  created : ℕ → Option WalletInputNote

def Record.start {I : Type} : Record I := ⟨none, none, fun _ => none⟩

-- The first output of the transaction, at the leaf it is read from.
def createdNote (built : BuiltLeg) (notes : List MergedNoteView) : Option WalletInputNote :=
  (seen (built.request.input.outputCommitments.headD 0) notes).map fun n =>
    ⟨built.request.input.outputValues.headD 0, built.payeeSalt, n.leafIndex⟩

-- The transaction pays the whole fold to the wallet's own key, and so its change; no relayer submits it.
structure PaysWallet (p : Primitives) (key : Point) (m : MergeLeg) (built : BuiltLeg) : Prop where
  submit : built.submit = .submitTransfer10x2 ∨ built.submit = .submitTransfer10x2Priv
  owners : built.request.input.outputOwnerPublicKeys = [key, key]
  value : built.request.input.outputValues.headD 0 = m.mergedValue
  commitment : ∃ salt, fieldText built.payeeSalt = .ok salt ∧
    built.request.input.outputCommitments.headD 0 = p.commitment m.mergedValue salt key

def Resolved (created : ℕ → Option WalletInputNote) (planned inputs : List WalletInputNote) : Prop :=
  List.Forall₂ (fun n real =>
    match pendingLegOf n.leafIndex with
    | none => real = n
    | some fromLeg => created fromLeg = some real) planned inputs

section Rules

variable {I : Type} (p : Primitives) (publicKey : I → Point) (legs : List SpendLeg)

def Record.allows (w : Record I) (call : LegCall I) : Prop :=
  match call.deed with
  | .getHead | .readPath _ | .prove => ∃ identity, w.unlocked = some (call.leg, identity)
  | .buildLeg inputs => (∃ identity, w.unlocked = some (call.leg, identity)) ∧
      ∃ step, legs[call.leg]? = some step ∧ Resolved w.created step.inputs inputs
  | .submit built => ∃ identity, w.unlocked = some (call.leg, identity) ∧
      ∃ step, legs[call.leg]? = some step ∧ ∀ m, step = .merge m → PaysWallet p (publicKey identity) m built
  | _ => True

def Record.next (w : Record I) (call : LegCall I) : Record I :=
  match call.deed with
  | .unlock (some identity) => { w with unlocked := some (call.leg, identity) }
  | .submit built => { w with unlocked := none, submitted := some (call.leg, built) }
  | .reloadNotes (some notes) =>
    match w.submitted with
    | none => w
    | some (leg, built) =>
      match createdNote built notes with
      | none => w
      | some note => { w with created := Function.update w.created leg (some note) }
  | _ => w

def chainRules : Watch (Record I) (LegCall I) := ⟨Record.allows p publicKey legs, Record.next⟩

end Rules

section Watched

variable {σ I Calldata ω : Type} {p : Primitives} {family : LegChainFamily σ I Calldata} {m : Watch ω (LegCall I)}
  {leg : ℕ} {P : ω → Prop}

-- A deed that leaves the record as it is.
theorem meets_doing {α : Type} {deed : Deed I} {op : Op σ α} (hnext : ∀ w : ω, m.next w ⟨leg, deed⟩ = w)
    (hallows : ∀ w, P w → m.allows w ⟨leg, deed⟩) : Meets m P (doing leg deed op) fun _ => P := by
  refine meets_perform (fun _ w hw => hallows w hw) fun _ w _ hw _ => ?_
  rwa [hnext]

-- The wait for a note: what the record is while it is not seen, and what the load that shows it makes of it.
theorem pollUntil_meets {wanted : ℕ} {Q : MergedNoteView → ω → Prop}
    (hallows : ∀ w answer, P w → m.allows w ⟨leg, .reloadNotes answer⟩)
    (hnone : ∀ w answer, P w → answer.bind (seen wanted) = none → P (m.next w ⟨leg, .reloadNotes answer⟩))
    (hsome : ∀ w notes n, P w → seen wanted notes = some n → Q n (m.next w ⟨leg, .reloadNotes (some notes)⟩))
    (elapsed : ℕ) (last : Option (List MergedNoteView)) (hlast : last.bind (seen wanted) = none) :
    Meets m P (pollUntil family leg (fun notes => (seen wanted notes).isSome) elapsed last) fun answer w =>
      ∀ n, answer.bind (seen wanted) = some n → Q n w := by
  induction hleft : family.poll.capMs - elapsed using Nat.strong_induction_on generalizing elapsed last with
  | _ left ih =>
    rw [pollUntil]
    split
    · refine meets_pure fun w hw n hn => ?_
      rw [hlast] at hn
      exact absurd hn (by simp)
    · next hcap =>
      have hshorter : family.poll.capMs - (elapsed + family.poll.intervalMs) < left := by
        have := family.poll.positive
        omega
      refine Meets.bind (Q := fun loaded w => (loaded.bind (seen wanted) = none → P w) ∧
        ∀ n, loaded.bind (seen wanted) = some n → Q n w) ?_ fun loaded => ?_
      · refine meets_attempting_perform (fun s w hw => hallows w _ hw) fun s w hw => ?_
        refine ⟨fun hunseen => hnone w _ hw hunseen, fun n hn => ?_⟩
        cases hread : (family.reloadNotes s).1 with
        | error e =>
          rw [hread] at hn
          exact absurd hn (by simp [Except.toOption])
        | ok notes =>
          rw [hread] at hn
          exact hsome w notes n hw hn
      · cases loaded with
        | none => exact (ih _ hshorter _ _ hlast rfl).mono (fun w hw => hw.1 rfl) fun _ _ hw => hw
        | some notes =>
          dsimp only
          cases hseen : seen wanted notes with
          | none =>
            rw [if_neg (by simp)]
            exact (ih _ hshorter _ (some notes) hseen rfl).mono (fun w hw => hw.1 hseen) fun _ _ hw => hw
          | some n =>
            rw [if_pos (by simp)]
            exact meets_pure fun w hw => hw.2

theorem awaitMergedNote_meets {identity : I} {leg' : MergeLeg} {built : BuiltLeg} {Q : WalletInputNote → ω → Prop}
    (hpays : PaysWallet p (family.publicKey identity) leg' built)
    (hallows : ∀ w answer, P w → m.allows w ⟨leg, .reloadNotes answer⟩)
    (hnone : ∀ w answer, P w → answer.bind (createdNote built) = none → P (m.next w ⟨leg, .reloadNotes answer⟩))
    (hsome : ∀ w notes note, P w → createdNote built notes = some note →
      Q note (m.next w ⟨leg, .reloadNotes (some notes)⟩)) :
    Meets m P (awaitMergedNote p family leg identity leg'.mergedValue built.payeeSalt) Q := by
  obtain ⟨salt, hsalt, hcommitment⟩ := hpays.commitment
  have hcreated (notes : List MergedNoteView) : createdNote built notes =
      (seen (p.commitment leg'.mergedValue salt (family.publicKey identity)) notes).map fun n =>
        ⟨leg'.mergedValue, built.payeeSalt, n.leafIndex⟩ := by
    rw [createdNote, hcommitment, hpays.value]
  unfold awaitMergedNote
  rw [hsalt]
  refine Meets.bind (Q := fun read w => read = salt ∧ P w)
    (meets_lift fun read w hread hw => ⟨(Except.ok.inj hread).symm, hw⟩) fun read => ?_
  by_cases hread : read = salt
  · subst hread
    refine Meets.bind (Meets.mono (pollUntil_meets (P := P) (Q := fun n => Q ⟨leg'.mergedValue, built.payeeSalt, n.leafIndex⟩)
      hallows (fun w answer hw hunseen => hnone w answer hw ?_) (fun w notes n hw hn => hsome w notes _ hw ?_) 0 none rfl)
      (fun w hw => hw.2) fun _ _ hw => hw) fun answer => ?_
    · cases answer with
      | none => rfl
      | some notes =>
        rw [Option.bind_some] at hunseen ⊢
        rw [hcreated, hunseen]
        rfl
    · rw [hcreated, hn]
      rfl
    · cases hseen : answer.bind (seen (p.commitment leg'.mergedValue read (family.publicKey identity))) with
      | none => exact meets_throwing
      | some n => exact meets_pure fun w hw => hw n rfl
  · exact fun _ w hw => absurd hw.1 hread

end Watched

section Run

variable {σ I Calldata : Type} {p : Primitives} {family : LegChainFamily σ I Calldata} {legs : List SpendLeg}
  {created : ℕ → Option WalletInputNote} {leg : ℕ} {identity : I} {built : BuiltLeg}

-- The leg's unlock stands, and the merges before it created these notes.
structure Open (created : ℕ → Option WalletInputNote) (leg : ℕ) (identity : I) (w : Record I) : Prop where
  unlocked : w.unlocked = some (leg, identity)
  created : w.created = created

structure Landed (created : ℕ → Option WalletInputNote) (leg : ℕ) (built : BuiltLeg) (w : Record I) : Prop where
  submitted : w.submitted = some (leg, built)
  created : w.created = created

def Created (created : ℕ → Option WalletInputNote) (w : Record I) : Prop := w.created = created

theorem meets_stage {P : Record I → Prop} (s : SpendStage) : Meets (chainRules p family.publicKey legs) P
    (emit ⟨leg, .stage s⟩ : Leg σ I Unit) fun _ => P :=
  meets_emit (fun _ _ => trivial) fun _ hw => hw

theorem openSession_meets : Meets (chainRules p family.publicKey legs) (Created created)
    (openSession family leg) (Open created leg) := by
  refine (meets_look fun _ _ hw => hw).bind fun locked => (meets_stage _).bind fun _ => ?_
  refine Meets.bind (meets_doing (fun _ => rfl) fun _ _ => trivial) fun _ => ?_
  refine Meets.bind (Q := fun _ => Created created) ?_ fun _ => ?_
  · cases family.guardPool with
    | none => exact meets_pure fun _ hw => hw
    | some guardPool => exact meets_doing (fun _ => rfl) fun _ _ => trivial
  refine Meets.bind (Q := Open created leg) ?_ fun identity => ?_
  · refine meets_perform (fun s w _ => ?_) fun _ w identity hw _ => ⟨rfl, hw⟩
    trivial
  · refine Meets.bind (Q := fun _ => Open created leg identity) ?_ fun _ => meets_pure fun _ hw => hw
    unfold announce
    split
    · exact meets_stage _
    · exact meets_pure fun _ hw => hw

theorem readMemberships_meets (head : ℕ) (inputs : List WalletInputNote) :
    Meets (chainRules p family.publicKey legs) (Open created leg identity)
      (readMemberships family leg identity head inputs) fun _ => Open created leg identity := by
  induction inputs with
  | nil => exact meets_pure fun _ hw => hw
  | cons n rest ih =>
    refine Meets.bind (meets_doing (fun _ => rfl) fun w hw => ⟨identity, hw.unlocked⟩) fun siblings => ?_
    exact ih.bind fun memberships => meets_pure fun _ hw => hw

theorem fetchMemberships_meets (inputs : List WalletInputNote) :
    Meets (chainRules p family.publicKey legs) (Open created leg identity)
      (fetchMemberships family leg identity inputs) fun _ => Open created leg identity :=
  Meets.bind (meets_doing (fun _ => rfl) fun _ hw => ⟨identity, hw.unlocked⟩) fun head => readMemberships_meets head inputs

theorem resolveInputs_resolved {merged : List (Option WalletInputNote)} {planned inputs : List WalletInputNote}
    (h : resolveInputs planned merged = .ok inputs) : Resolved (fun j => merged[j]?.join) planned inputs := by
  refine (mapM_ok h).imp fun n real hreal => ?_
  rw [resolveInput] at hreal
  cases hpending : pendingLegOf n.leafIndex with
  | none =>
    rw [hpending] at hreal
    exact (Except.ok.inj hreal).symm
  | some fromLeg =>
    rw [hpending] at hreal
    dsimp only at hreal
    split at hreal
    · exact absurd hreal (by simp)
    · next note hnote =>
      obtain rfl := Except.ok.inj hreal
      exact hnote

theorem next_reload {w : Record I} (hw : w.submitted = some (leg, built)) (notes : List MergedNoteView) :
    w.next ⟨leg, .reloadNotes (some notes)⟩ =
      (createdNote built notes).elim w fun note => { w with created := Function.update w.created leg (some note) } := by
  simp only [Record.next, hw]
  cases createdNote built notes <;> rfl

theorem awaitMergedNote_created {m : MergeLeg} (hpays : PaysWallet p (family.publicKey identity) m built) :
    Meets (chainRules p family.publicKey legs) (Landed created leg built)
      (awaitMergedNote p family leg identity m.mergedValue built.payeeSalt) fun note w =>
        w.created = Function.update created leg (some note) := by
  refine awaitMergedNote_meets hpays (fun _ _ _ => trivial) (fun w answer hw hunseen => ?_)
    fun w notes note hw hnote => ?_
  · cases answer with
    | none => exact hw
    | some notes =>
      change Landed created leg built (w.next ⟨leg, .reloadNotes (some notes)⟩)
      rw [Option.bind_some] at hunseen
      rwa [next_reload hw.submitted, hunseen]
  · change (w.next ⟨leg, .reloadNotes (some notes)⟩).created = _
    rw [next_reload hw.submitted, hnote]
    exact congrArg (Function.update · leg _) hw.created

end Run

-- The one promise the driver asks of a family: its merges pay the wallet.
def LegChainFamily.PaysMerges {σ I Calldata : Type} (p : Primitives) (family : LegChainFamily σ I Calldata) : Prop :=
  ∀ m inputs identity memberships s built, (family.buildLeg (.merge m) inputs identity memberships s).1 = .ok built →
    PaysWallet p (family.publicKey identity) m built

section Chain

variable {σ I Calldata : Type} {p : Primitives} {family : LegChainFamily σ I Calldata} {legs : List SpendLeg}

-- The notes the legs so far created, by leg.
def createdBy (merged : List (Option WalletInputNote)) (j : ℕ) : Option WalletInputNote := merged[j]?.join

theorem createdBy_append (merged : List (Option WalletInputNote)) (note : Option WalletInputNote) :
    createdBy (merged ++ [note]) = Function.update (createdBy merged) merged.length note := by
  funext j
  rcases lt_trichotomy j merged.length with hj | rfl | hj
  · rw [Function.update_of_ne hj.ne, createdBy, List.getElem?_append_left hj, createdBy]
  · rw [Function.update_self, createdBy, List.getElem?_concat_length, Option.join_some]
  · rw [Function.update_of_ne hj.ne', createdBy, createdBy, List.getElem?_eq_none (by simpa using hj),
      List.getElem?_eq_none hj.le]

theorem createdBy_none (merged : List (Option WalletInputNote)) :
    Function.update (createdBy merged) merged.length none = createdBy merged :=
  Function.update_eq_self_iff.2 (by rw [createdBy, List.getElem?_eq_none le_rfl]; rfl)

theorem runLeg_meets (hfamily : family.PaysMerges p) {step : SpendLeg} {merged : List (Option WalletInputNote)}
    (hstep : legs[merged.length]? = some step) :
    Meets (chainRules p family.publicKey legs) (Created (createdBy merged))
      (runLeg p family merged.length step merged) fun answer => Created (createdBy (merged ++ [answer.2])) := by
  refine Meets.bind openSession_meets fun identity => ?_
  refine Meets.bind (Q := fun inputs w => Resolved (createdBy merged) step.inputs inputs ∧
    Open (createdBy merged) merged.length identity w)
    (meets_lift fun inputs w hinputs hw => ⟨resolveInputs_resolved hinputs, hw⟩) fun inputs => ?_
  by_cases hresolved : Resolved (createdBy merged) step.inputs inputs
  swap
  · exact fun _ w hw => absurd hw.1 hresolved
  refine Meets.bind ((fetchMemberships_meets inputs).mono (fun w hw => hw.2) fun _ _ hw => hw) fun memberships => ?_
  refine Meets.bind (Q := fun built w => (∀ m, step = .merge m → PaysWallet p (family.publicKey identity) m built) ∧
    Open (createdBy merged) merged.length identity w) ?_ fun built => ?_
  · refine meets_perform (fun s w hw => ?_) fun s w built hw hbuilt => ⟨?_, hw⟩
    · exact ⟨⟨identity, hw.unlocked⟩, step, hstep, hw.created ▸ hresolved⟩
    · rintro m rfl
      exact hfamily m inputs identity memberships s built hbuilt
  by_cases hpays : ∀ m, step = .merge m → PaysWallet p (family.publicKey identity) m built
  swap
  · exact fun _ w hw => absurd hw.1 hpays
  refine Meets.bind (Q := fun _ => Open (createdBy merged) merged.length identity)
    (meets_lift fun _ w _ hw => hw.2) fun _ => ?_
  refine Meets.bind (meets_stage _) fun _ => ?_
  refine Meets.bind (meets_doing (fun _ => rfl) fun w hw => ⟨identity, hw.unlocked⟩) fun calldata => ?_
  refine Meets.bind (meets_stage _) fun _ => ?_
  refine Meets.bind (Q := fun _ => Landed (createdBy merged) merged.length built) ?_ fun outcome => ?_
  · exact meets_perform (fun s w hw => ⟨identity, hw.unlocked, step, hstep, hpays⟩) fun s w outcome hw _ =>
      ⟨rfl, hw.created⟩
  cases step with
  | merge m =>
    refine Meets.bind (meets_stage _) fun _ => ?_
    refine Meets.bind (awaitMergedNote_created (hpays m rfl)) fun note => meets_pure fun w hw => ?_
    rw [createdBy_append]
    exact hw
  | spend circuit inputs =>
    refine meets_pure fun w hw => ?_
    rw [createdBy_append, createdBy_none]
    exact hw.created

theorem runLegs_meets (hfamily : family.PaysMerges p) (count : ℕ) {rest : List SpendLeg} {r : LegChainRun}
    (hlen : r.outcomes.length = r.merged.length) (hrest : legs.drop r.merged.length = rest) :
    Meets (chainRules p family.publicKey legs) (Created (createdBy r.merged)) (runLegs p family count rest r)
      fun done => Created (createdBy done.merged) := by
  induction rest generalizing r with
  | nil => exact meets_pure fun w hw => hw
  | cons step rest ih =>
    have hstep : legs[r.merged.length]? = some step := by
      rw [← List.head?_drop, hrest, List.head?_cons]
    have hnext : legs.drop (r.merged.length + 1) = rest := by
      rw [← List.drop_drop, hrest, List.drop_succ_cons, List.drop_zero]
    unfold runLegs
    rw [hlen]
    refine Meets.bind (runLeg_meets hfamily hstep).rewording fun answer => ?_
    refine ih (r := ⟨r.outcomes ++ [answer.1], r.merged ++ [answer.2]⟩) ?_ ?_
    · rw [List.length_append, List.length_append, hlen]
      rfl
    · rwa [List.length_append]

-- Whatever the world does, every deed of a run keeps to the rules.
theorem runLegChain_accepted (hfamily : family.PaysMerges p) (count : ℕ) (s : σ) :
    (chainRules p family.publicKey legs).Accepts Record.start (runLegChain p family legs count s).calls := by
  have hmeets : Meets (chainRules p family.publicKey legs) (Created (createdBy []))
      (runLegChain p family legs count) fun done => Created (createdBy done.merged) := by
    unfold runLegChain
    split
    · exact meets_throwing
    · exact runLegs_meets (r := ⟨[], []⟩) hfamily count rfl rfl
  exact (hmeets s Record.start (funext fun j => by simp [createdBy, Record.start])).1

end Chain

end Bongtu.Spend
