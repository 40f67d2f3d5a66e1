import Bongtu.Spend.ChainPlan
import Bongtu.Spend.Families

namespace Bongtu.Spend

open Bongtu.Core Monitor Outcome

-- The notes of a wallet while a chain of it runs: what it holds, what the open leg was built with, and the
-- submission whose note is not seen yet.
structure Purse where
  held : Multiset WalletInputNote
  loaded : List WalletInputNote
  awaiting : Option BuiltLeg

def Purse.start (held : Multiset WalletInputNote) : Purse := ⟨held, [], none⟩

section Rules

variable {I : Type} (legs : List SpendLeg)

-- A submission spends notes that the wallet holds, worth what the plan spends there.
def Purse.allows (w : Purse) (call : LegCall I) : Prop :=
  match call.deed with
  | .submit _ => (w.loaded : Multiset WalletInputNote) ≤ w.held ∧
      ∃ step, legs[call.leg]? = some step ∧ totalValue w.loaded = totalValue step.inputs
  | _ => True

def Purse.next (w : Purse) (call : LegCall I) : Purse :=
  match call.deed with
  | .buildLeg inputs => { w with loaded := inputs }
  | .submit built => ⟨w.held - w.loaded, [], some built⟩
  | .reloadNotes (some notes) =>
    match w.awaiting.bind (createdNote · notes) with
    | none => w
    | some note => { w with held := w.held + {note}, awaiting := none }
  | _ => w

def purseRules : Watch Purse (LegCall I) := ⟨Purse.allows legs, Purse.next⟩

end Rules

-- The note that stands in the run for a note of the plan.
def resolveNote (created : ℕ → Option WalletInputNote) (n : WalletInputNote) : WalletInputNote :=
  match pendingLegOf n.leafIndex with
  | none => n
  | some fromLeg => (created fromLeg).getD n

theorem Resolved.eq_map {created : ℕ → Option WalletInputNote} {planned inputs : List WalletInputNote}
    (h : Resolved created planned inputs) : inputs = planned.map (resolveNote created) := by
  induction h with
  | nil => rfl
  | @cons n real planned inputs hn _ ih =>
    rw [List.map_cons, ih]
    refine congrArg (· :: _) ?_
    rw [resolveNote]
    cases hpending : pendingLegOf n.leafIndex with
    | none =>
      rw [hpending] at hn
      exact hn
    | some fromLeg =>
      rw [hpending] at hn
      exact (congrArg (Option.getD · n) hn).symm

theorem pendingLegOf_pendingLeaf (legIndex : ℕ) : pendingLegOf (pendingLeaf legIndex) = some legIndex := by
  have hneg : pendingLeaf legIndex < 0 := by
    unfold pendingLeaf
    omega
  rw [pendingLegOf, if_pos hneg]
  refine congrArg some ?_
  unfold pendingLeaf
  omega

-- Of the notes a plan holds, those still pending are made by legs before, and stand for as much as they say.
structure Dated (merged : List (Option WalletInputNote)) (held : Multiset WalletInputNote) : Prop where
  earlier : ∀ n ∈ held, ∀ j, pendingLegOf n.leafIndex = some j → j < merged.length
  valued : ∀ n ∈ held, (resolveNote (createdBy merged) n).value = n.value

section Steps

variable {merged : List (Option WalletInputNote)} {held : Multiset WalletInputNote} {inputs : List WalletInputNote}
  {n : WalletInputNote}

theorem resolveNote_append (note : Option WalletInputNote)
    (hn : ∀ j, pendingLegOf n.leafIndex = some j → j < merged.length) :
    resolveNote (createdBy (merged ++ [note])) n = resolveNote (createdBy merged) n := by
  unfold resolveNote
  cases hpending : pendingLegOf n.leafIndex with
  | none => rfl
  | some j =>
    dsimp only
    rw [createdBy_append, Function.update_of_ne (hn j hpending).ne]

theorem resolveNote_pending (note : WalletInputNote) (value : ℕ) :
    resolveNote (createdBy (merged ++ [some note])) ⟨value, "", pendingLeaf merged.length⟩ = note := by
  unfold resolveNote
  rw [pendingLegOf_pendingLeaf]
  dsimp only
  rw [createdBy_append, Function.update_self, Option.getD_some]

theorem map_resolve_append (hdated : Dated merged held) (note : Option WalletInputNote) :
    held.map (resolveNote (createdBy (merged ++ [note]))) = held.map (resolveNote (createdBy merged)) :=
  Multiset.map_congr rfl fun n hn => resolveNote_append note (hdated.earlier n hn)

theorem Dated.step (hdated : Dated merged held) (note : Option WalletInputNote) {minted : Multiset WalletInputNote}
    (hminted : ∀ n ∈ minted, pendingLegOf n.leafIndex = some merged.length ∧
      (resolveNote (createdBy (merged ++ [note])) n).value = n.value) (inputs : List WalletInputNote) :
    Dated (merged ++ [note]) (held - inputs + minted) where
  earlier := by
    intro n hn j hj
    rw [List.length_append, List.length_singleton]
    rcases Multiset.mem_add.mp hn with hn | hn
    · have hlt := hdated.earlier n (Multiset.mem_of_le (Multiset.sub_le_self _ _) hn) j hj
      omega
    · rw [(hminted n hn).1] at hj
      obtain rfl := Option.some.inj hj
      omega
  valued := by
    intro n hn
    rcases Multiset.mem_add.mp hn with hn | hn
    · have hmem := Multiset.mem_of_le (Multiset.sub_le_self _ _) hn
      rw [resolveNote_append note (hdated.earlier n hmem)]
      exact hdated.valued n hmem
    · exact (hminted n hn).2

theorem Dated.totalValue (hdated : Dated merged held) (hheld : (inputs : Multiset WalletInputNote) ≤ held) :
    totalValue (inputs.map (resolveNote (createdBy merged))) = totalValue inputs := by
  unfold Spend.totalValue
  rw [List.map_map]
  refine congrArg List.sum (List.map_congr_left fun n hn => ?_)
  exact hdated.valued n (Multiset.mem_of_le hheld (Multiset.mem_coe.mpr hn))

theorem map_resolve_sub (hheld : (inputs : Multiset WalletInputNote) ≤ held) (f : WalletInputNote → WalletInputNote) :
    (held - inputs).map f = held.map f - (inputs.map f : List WalletInputNote) := by
  obtain ⟨rest, rfl⟩ := Multiset.le_iff_exists_add.mp hheld
  rw [add_tsub_cancel_left, Multiset.map_add, Multiset.map_coe, add_tsub_cancel_left]

end Steps

section Run

variable {σ I Calldata : Type} {p : Primitives} {family : LegChainFamily σ I Calldata} {legs : List SpendLeg}
  {leg : ℕ} {P : Purse → Prop}

theorem quiet_stage (s : SpendStage) : Meets (purseRules legs) P (emit ⟨leg, .stage s⟩ : Leg σ I Unit) fun _ => P :=
  meets_emit (fun _ _ => trivial) fun _ hw => hw

theorem openSession_quiet : Meets (purseRules legs) P (openSession family leg) fun _ => P := by
  refine (meets_look fun _ _ hw => hw).bind fun locked => (quiet_stage _).bind fun _ => ?_
  refine Meets.bind (meets_doing (fun _ => rfl) fun _ _ => trivial) fun _ => ?_
  refine Meets.bind (Q := fun _ => P) ?_ fun _ => ?_
  · cases family.guardPool with
    | none => exact meets_pure fun _ hw => hw
    | some guardPool => exact meets_doing (fun _ => rfl) fun _ _ => trivial
  refine Meets.bind (Q := fun _ => P) (meets_perform (fun s w _ => trivial) fun _ w identity hw _ => hw) fun identity => ?_
  refine Meets.bind (Q := fun _ => P) ?_ fun _ => meets_pure fun _ hw => hw
  unfold announce
  split
  · exact quiet_stage _
  · exact meets_pure fun _ hw => hw

theorem readMemberships_quiet (identity : I) (head : ℕ) (inputs : List WalletInputNote) :
    Meets (purseRules legs) P (readMemberships family leg identity head inputs) fun _ => P := by
  induction inputs with
  | nil => exact meets_pure fun _ hw => hw
  | cons n rest ih =>
    refine Meets.bind (meets_doing (fun _ => rfl) fun _ _ => trivial) fun siblings => ?_
    exact ih.bind fun memberships => meets_pure fun _ hw => hw

theorem fetchMemberships_quiet (identity : I) (inputs : List WalletInputNote) :
    Meets (purseRules legs) P (fetchMemberships family leg identity inputs) fun _ => P :=
  Meets.bind (meets_doing (fun _ => rfl) fun _ _ => trivial) fun head => readMemberships_quiet identity head inputs

theorem purse_reload {w : Purse} {built : BuiltLeg} (hw : w.awaiting = some built) (notes : List MergedNoteView) :
    w.next (I := I) ⟨leg, .reloadNotes (some notes)⟩ =
      (createdNote built notes).elim w fun note => { w with held := w.held + {note}, awaiting := none } := by
  simp only [Purse.next, hw, Option.bind_some]
  cases createdNote built notes <;> rfl

theorem awaitMergedNote_held {identity : I} {m : MergeLeg} {built : BuiltLeg} {held : Multiset WalletInputNote}
    (hpays : PaysWallet p (family.publicKey identity) m built) :
    Meets (purseRules legs) (fun w => w.awaiting = some built ∧ w.held = held)
      (awaitMergedNote p family leg identity m.mergedValue built.payeeSalt) fun note w =>
        note.value = m.mergedValue ∧ w.held = held + {note} := by
  refine awaitMergedNote_meets hpays (fun _ _ _ => trivial) (fun w answer hw hunseen => ?_)
    fun w notes note hw hnote => ?_
  · cases answer with
    | none => exact hw
    | some notes =>
      change (w.next (I := I) ⟨leg, .reloadNotes (some notes)⟩).awaiting = some built ∧
        (w.next (I := I) ⟨leg, .reloadNotes (some notes)⟩).held = held
      rw [Option.bind_some] at hunseen
      rwa [purse_reload hw.1, hunseen]
  · refine ⟨?_, ?_⟩
    · obtain ⟨n, -, rfl⟩ := Option.map_eq_some_iff.mp hnote
      exact hpays.value
    · change (w.next (I := I) ⟨leg, .reloadNotes (some notes)⟩).held = _
      rw [purse_reload hw.1, hnote, ← hw.2]
      rfl

-- One leg: the plan's notes and the run's stay in step.
theorem runLeg_held (hfamily : family.PaysMerges p) {step : SpendLeg} {merged : List (Option WalletInputNote)}
    {held : Multiset WalletInputNote} (hstep : legs[merged.length]? = some step) (hdated : Dated merged held)
    (hheld : (step.inputs : Multiset WalletInputNote) ≤ held) :
    Meets (purseRules legs) (fun w => w.held = held.map (resolveNote (createdBy merged)))
      (runLeg p family merged.length step merged) fun answer w =>
        Dated (merged ++ [answer.2]) (held - step.inputs + step.minted merged.length) ∧
          w.held = (held - step.inputs + step.minted merged.length).map
            (resolveNote (createdBy (merged ++ [answer.2]))) := by
  refine Meets.bind openSession_quiet fun identity => ?_
  refine Meets.bind (Q := fun inputs w => inputs = step.inputs.map (resolveNote (createdBy merged)) ∧
    w.held = held.map (resolveNote (createdBy merged)))
    (meets_lift fun inputs w hinputs hw => ⟨(resolveInputs_resolved hinputs).eq_map, hw⟩) fun inputs => ?_
  by_cases hinputs : inputs = step.inputs.map (resolveNote (createdBy merged))
  swap
  · exact fun _ w hw => absurd hw.1 hinputs
  refine Meets.bind ((fetchMemberships_quiet identity inputs).mono (fun w hw => hw.2) fun _ _ hw => hw)
    fun memberships => ?_
  refine Meets.bind (Q := fun built w => (∀ m, step = .merge m → PaysWallet p (family.publicKey identity) m built) ∧
    w.held = held.map (resolveNote (createdBy merged)) ∧ w.loaded = inputs) ?_ fun built => ?_
  · refine meets_perform (fun s w hw => trivial) fun s w built hw hbuilt => ⟨?_, hw, rfl⟩
    rintro m rfl
    exact hfamily m inputs identity memberships s built hbuilt
  by_cases hpays : ∀ m, step = .merge m → PaysWallet p (family.publicKey identity) m built
  swap
  · exact fun _ w hw => absurd hw.1 hpays
  refine Meets.bind (Q := fun _ w => w.held = held.map (resolveNote (createdBy merged)) ∧ w.loaded = inputs)
    (meets_lift fun _ w _ hw => hw.2) fun _ => ?_
  refine Meets.bind (quiet_stage _) fun _ => ?_
  refine Meets.bind (meets_doing (fun _ => rfl) fun _ _ => trivial) fun calldata => ?_
  refine Meets.bind (quiet_stage _) fun _ => ?_
  refine Meets.bind (Q := fun _ w => w.awaiting = some built ∧
    w.held = (held - step.inputs).map (resolveNote (createdBy merged))) ?_ fun outcome => ?_
  · refine meets_perform (fun s w hw => ?_) fun s w outcome hw _ => ⟨rfl, ?_⟩
    · refine ⟨?_, step, hstep, ?_⟩
      · rw [hw.1, hw.2, hinputs, ← Multiset.map_coe]
        exact Multiset.map_le_map hheld
      · rw [hw.2, hinputs]
        exact hdated.totalValue hheld
    · change w.held - w.loaded = _
      rw [hw.1, hw.2, hinputs, map_resolve_sub hheld]
  have hrest : Dated merged (held - step.inputs) :=
    ⟨fun n hn => hdated.earlier n (Multiset.mem_of_le (Multiset.sub_le_self _ _) hn),
      fun n hn => hdated.valued n (Multiset.mem_of_le (Multiset.sub_le_self _ _) hn)⟩
  cases step with
  | merge m =>
    refine Meets.bind (quiet_stage _) fun _ => ?_
    refine Meets.bind (awaitMergedNote_held (hpays m rfl)) fun note => meets_pure fun w hw => ?_
    obtain ⟨hvalue, hw⟩ := hw
    refine ⟨hdated.step (some note) ?_ _, ?_⟩
    · intro n hn
      obtain rfl := Multiset.mem_singleton.mp hn
      exact ⟨pendingLegOf_pendingLeaf _, by rw [resolveNote_pending, hvalue]⟩
    · rw [Multiset.map_add, map_resolve_append hrest, hw]
      rw [SpendLeg.minted, Multiset.map_singleton, resolveNote_pending]
  | spend circuit inputs =>
    refine meets_pure fun w hw => ⟨hdated.step none (fun n hn => absurd hn (Multiset.notMem_zero n)) _, ?_⟩
    rw [SpendLeg.minted, add_zero, map_resolve_append hrest]
    exact hw.2

theorem runLegs_held (hfamily : family.PaysMerges p) (count : ℕ) {rest : List SpendLeg} {r : LegChainRun}
    {held left : Multiset WalletInputNote} (hlen : r.outcomes.length = r.merged.length)
    (hrest : legs.drop r.merged.length = rest) (hdated : Dated r.merged held)
    (hlands : Lands r.merged.length held rest left) :
    Meets (purseRules legs) (fun w => w.held = held.map (resolveNote (createdBy r.merged)))
      (runLegs p family count rest r) fun done w => w.held = left.map (resolveNote (createdBy done.merged)) := by
  induction rest generalizing r held with
  | nil =>
    cases hlands
    exact meets_pure fun w hw => hw
  | cons step rest ih =>
    obtain _ | ⟨hheld, hlands⟩ := hlands
    have hstep : legs[r.merged.length]? = some step := by
      rw [← List.head?_drop, hrest, List.head?_cons]
    have hnext : legs.drop (r.merged.length + 1) = rest := by
      rw [← List.drop_drop, hrest, List.drop_succ_cons, List.drop_zero]
    unfold runLegs
    rw [hlen]
    refine Meets.bind (runLeg_held hfamily hstep hdated hheld).rewording fun answer => ?_
    by_cases hdated' : Dated (r.merged ++ [answer.2]) (held - step.inputs + step.minted r.merged.length)
    swap
    · exact fun _ w hw => absurd hw.1 hdated'
    refine (ih (r := ⟨r.outcomes ++ [answer.1], r.merged ++ [answer.2]⟩) ?_ ?_ hdated' ?_).mono (fun w hw => hw.2)
      fun _ _ hw => hw
    · rw [List.length_append, List.length_append, hlen]
      rfl
    · rwa [List.length_append]
    · rwa [List.length_append]

theorem resolve_wallet {held : Multiset WalletInputNote} (hleaves : ∀ n ∈ held, 0 ≤ n.leafIndex)
    (created : ℕ → Option WalletInputNote) : held.map (resolveNote created) = held := by
  have hreal : held.map (resolveNote created) = held.map id := by
    refine Multiset.map_congr rfl fun n hn => ?_
    rw [resolveNote, pendingLegOf, if_neg (not_lt.mpr (hleaves n hn))]
    rfl
  rw [hreal, Multiset.map_id]

theorem runLegChain_held (hfamily : family.PaysMerges p) {held left : Multiset WalletInputNote}
    (hleaves : ∀ n ∈ held, 0 ≤ n.leafIndex) (hlands : Lands 0 held legs left) (count : ℕ) (s : σ) :
    (purseRules legs).Accepts (Purse.start held) (runLegChain p family legs count s).calls := by
  have hdated : Dated [] held :=
    ⟨fun n hn j hj => by
      rw [pendingLegOf, if_neg (not_lt.mpr (hleaves n hn))] at hj
      exact absurd hj (by simp), fun n hn => by
      rw [resolveNote, pendingLegOf, if_neg (not_lt.mpr (hleaves n hn))]⟩
  have hmeets : Meets (purseRules legs) (fun w => w.held = held.map (resolveNote (createdBy [])))
      (runLegChain p family legs count) fun done w => w.held = left.map (resolveNote (createdBy done.merged)) := by
    unfold runLegChain
    split
    · exact meets_throwing
    · exact runLegs_held (r := ⟨[], []⟩) hfamily count rfl rfl hdated hlands
  exact (hmeets s (Purse.start held) (resolve_wallet hleaves _).symm).1

end Run

theorem walletNotes_leaves {notes : List SelectableNote} (hleaves : ∀ n ∈ notes, 0 ≤ n.leafIndex) :
    ∀ n ∈ walletNotes notes, 0 ≤ n.leafIndex := by
  intro n hn
  obtain ⟨note, hnote, rfl⟩ := List.mem_map.mp (Multiset.mem_coe.mp hn)
  have hmem := (unspentLargestFirst_perm notes).mem_iff.mp hnote
  exact hleaves note (List.mem_filter.mp hmem).1

-- A planned chain of either family, whatever the network does: each submission spends notes that the wallet held or
-- that a merge of the run has created and no submission before it has spent, worth what the plan said.
def soleIdentity : WalletIdentity := ⟨1⟩

-- A wallet that unlocks, before an indexer that answers no path.
def stalledDeps : RunSpendDeps Unit Unit where
  isUnlocked _ := true
  unlock sessionPubkey s :=
    if h : soleIdentity.compressedPubkey = sessionPubkey then (.ok ⟨soleIdentity, h⟩, s)
    else (.error (.io "another account is selected"), s)
  ensureChain s := (.ok (), s)
  assertPoolKemEpoch s := (.ok (), s)
  getHead s := (.ok 0, s)
  getSignedPath _ _ s := (.error (.io "no path"), s)
  freshSpendCrypto s := (.error (.io "no entropy"), s)
  prove _ s := (.error (.io "no prover"), s)
  submit _ _ s := (.error (.io "no network"), s)
  reloadNotes s := (.ok [], s)
  poll := ⟨3000, 30000, by decide⟩

end Bongtu.Spend
