import Bongtu.Indexer.HistoryValue

namespace Bongtu.Indexer

open Bongtu.Core Outcome

def openedEnvelope (a : Arbiter) (op : OpEnvelope) : Option ParsedEnvelope :=
  match kemGate a op with
  | .ok (.opened kemSs) =>
    a.primitives.parseEnvelope a.priv op.ecdhPublicKey op.nonce op.authorityCt op.kind a.B kemSs
  | _ => none

def Matches (p : Primitives) (leaves : List OutputLeaf) (i : ℕ) (o : EnvNote) : Prop :=
  ∃ leaf ∈ leaves[i]?, p.noteCommitment o = leaf.commitment

def Alarmed (p : Primitives) (leaves : List OutputLeaf) (i : ℕ) (o : EnvNote) : Prop :=
  ∃ leaf ∈ leaves[i]?, p.noteCommitment o ≠ leaf.commitment

def recordOf (p : Primitives) (known : OutputLeaf × EnvNote) : Option DerivedNote :=
  if p.noteCommitment known.2 = known.1.commitment then
    some (derivedNote known.1.leafIndex (p.noteCommitment known.2) known.2)
  else none

def recorded (p : Primitives) (leaves : List OutputLeaf) (outputs : List EnvNote) : List DerivedNote :=
  (leaves.zip outputs).filterMap (recordOf p)

def credits (history : List DerivedHistory) : List DerivedHistory :=
  history.filter fun h => h.kind = .received ∨ h.kind = .deposit

def sumOf (notes : List DerivedNote) : ℕ := (notes.map (·.value)).sum

-- Each credit has recorded notes of its owner of its own that sum to it.
def Backed (history : List DerivedHistory) (notes : List DerivedNote) : Prop :=
  ∃ groups : List (List DerivedNote),
    List.Forall₂ (fun h group => (∀ n ∈ group, n.owner = h.owner) ∧ sumOf group = h.amount) (credits history)
      groups ∧
    groups.flatten.Subperm notes

def zeroed (env : ParsedEnvelope) (i : ℕ) : ParsedEnvelope :=
  { env with outputs := env.outputs.modify i fun o => { o with value := 0 } }

-- Taking the value of an output with an alarm away changes no item; a batch with an alarm has none.
def Unaffected (a : Arbiter) (op : OpEnvelope) (env : ParsedEnvelope) (d : DerivedOp) : Prop :=
  match op.kind with
  | .disburse => d.alarms ≠ [] → d.history = []
  | _ => ∀ i o, env.outputs[i]? = some o → Alarmed a.primitives op.outputLeaves i o →
      deriveHistory op (zeroed env i) false = d.history

def HistoryBacked (a : Arbiter) (op : OpEnvelope) (d : DerivedOp) : Prop :=
  Backed d.history d.outputs ∧ ∀ env ∈ openedEnvelope a op, Unaffected a op env d

-- The payment slot of a transfer to oneself is the first funded output.
def SelfSendVerified (p : Primitives) (leaves : List OutputLeaf) (env : ParsedEnvelope) : Prop :=
  ∀ before first after, env.outputs = before ++ first :: after → (∀ o ∈ before, o.value = 0) →
    first.value ≠ 0 →
      Matches p leaves before.length first ∨
        Alarmed p leaves before.length first ∧ (∃ next ∈ after.find? (·.value ≠ 0), next.value = first.value) ∧
          ∃ notes, notes.Sublist (recorded p leaves env.outputs) ∧ (∀ n ∈ notes, n.owner = env.sender) ∧
            sumOf notes = first.value

def Verified (p : Primitives) (op : OpEnvelope) (env : ParsedEnvelope) : Prop :=
  match op.kind with
  | .deposit => ∀ i o, env.outputs[i]? = some o → o.value ≠ 0 → Matches p op.outputLeaves i o
  | .withdraw => ∀ i o, env.outputs[i]? = some o → o.value ≠ 0 → Alarmed p op.outputLeaves i o →
      total env.inputs = 0
  | .disburse => True
  | .transfer | .transfer10 | .transfer10x2 =>
    (SelfPaid env → SelfSendVerified p op.outputLeaves env) ∧
      (¬SelfPaid env → ∀ i o, env.outputs[i]? = some o → o.value ≠ 0 → o.owner ≠ env.sender →
        Matches p op.outputLeaves i o)

section Record

variable {a : Arbiter} {op : OpEnvelope} {env : ParsedEnvelope} {p : Primitives}

theorem recorded_match {leaf : OutputLeaf} {leaves : List OutputLeaf} {o : EnvNote} {outputs : List EnvNote}
    (h : p.noteCommitment o = leaf.commitment) : recorded p (leaf :: leaves) (o :: outputs) =
      derivedNote leaf.leafIndex (p.noteCommitment o) o :: recorded p leaves outputs :=
  List.filterMap_cons_some (if_pos h)

theorem recorded_mismatch {leaf : OutputLeaf} {leaves : List OutputLeaf} {o : EnvNote}
    {outputs : List EnvNote} (h : p.noteCommitment o ≠ leaf.commitment) :
    recorded p (leaf :: leaves) (o :: outputs) = recorded p leaves outputs :=
  List.filterMap_cons_none (if_neg h)

theorem recorded_nil {outputs : List EnvNote} : recorded p [] outputs = [] := by
  simp [recorded]

theorem crossCheckOutputs_recorded {leaves : List OutputLeaf} :
    ∀ {k : ℕ} {acc checked : CrossCheck},
      (leaves.zipIdx k).foldlM (crossCheckOutput a op env) acc = .ok checked →
      checked.outputs = acc.outputs ++ recorded a.primitives leaves (env.outputs.drop k) ∧
        checked.disburseCrossChecks = acc.disburseCrossChecks ∧ checked.batchFill = acc.batchFill := by
  induction leaves with
  | nil =>
    intro k acc checked h
    cases h
    simp [recorded]
  | cons leaf leaves ih =>
    intro k acc checked h
    rw [List.zipIdx_cons, List.foldlM_cons, bind_ok] at h
    obtain ⟨mid, hmid, h⟩ := h
    obtain ⟨houtputs, hchecks, hfill⟩ := ih h
    simp only [crossCheckOutput, bind_ok] at hmid
    obtain ⟨o, ho, hmid⟩ := hmid
    have hget : env.outputs[k]? = some o := by
      cases hk : env.outputs[k]? with
      | none => simp [hk] at ho
      | some o' => simpa [hk] using ho
    obtain ⟨hk, hok⟩ := List.getElem?_eq_some_iff.mp hget
    rw [List.drop_eq_getElem_cons hk, hok]
    split at hmid <;> cases hmid
    · next hne =>
      refine ⟨?_, hchecks, hfill⟩
      rw [houtputs, recorded_mismatch hne]
    · next heq =>
      refine ⟨?_, hchecks, hfill⟩
      have heq' : a.primitives.noteCommitment o = leaf.commitment := not_not.mp heq
      rw [houtputs, recorded_match heq', List.append_assoc]
      rfl

theorem crossCheck_recorded {checked : CrossCheck} (hkind : op.kind ≠ .disburse)
    (h : crossCheck a op env = .ok checked) :
    checked.outputs = recorded a.primitives op.outputLeaves env.outputs ∧
      checked.disburseCrossChecks = false := by
  have hfold : op.outputLeaves.zipIdx.foldlM (crossCheckOutput a op env) {} = .ok checked := by
    unfold crossCheck at h
    split at h
    · next hdisburse => exact absurd hdisburse hkind
    · exact h
  obtain ⟨houtputs, hchecks, -⟩ := crossCheckOutputs_recorded hfold
  exact ⟨houtputs, hchecks⟩

end Record

section Backing

variable {p : Primitives} {Q : Point → Prop} {kind : HistoryKind} {payer : Option Point}

def Covered (p : Primitives) (Q : Point → Prop) (leaves : List OutputLeaf) (outputs : List EnvNote) : Prop :=
  ∀ i o, outputs[i]? = some o → o.value ≠ 0 → Q o.owner → Matches p leaves i o

theorem covered_cons {leaf : OutputLeaf} {leaves : List OutputLeaf} {o : EnvNote} {outputs : List EnvNote} :
    Covered p Q (leaf :: leaves) (o :: outputs) ↔
      (o.value ≠ 0 → Q o.owner → p.noteCommitment o = leaf.commitment) ∧ Covered p Q leaves outputs := by
  constructor
  · intro h
    refine ⟨fun hvalue howner => ?_, fun i o' ho' => h (i + 1) o' ho'⟩
    obtain ⟨leaf', hleaf, heq⟩ := h 0 o rfl hvalue howner
    cases hleaf
    exact heq
  · rintro ⟨hhead, htail⟩ i o' ho' hvalue howner
    cases i with
    | zero =>
      cases ho'
      exact ⟨leaf, rfl, hhead hvalue howner⟩
    | succ i => exact htail i o' ho' hvalue howner

variable [DecidablePred Q]

def listed (Q : Point → Prop) [DecidablePred Q] (outputs : List EnvNote) : List EnvNote :=
  outputs.filter fun o => o.value ≠ 0 ∧ Q o.owner

def credited (kind : HistoryKind) (payer : Option Point) (notes : List EnvNote) : List DerivedHistory :=
  notes.map fun o => ⟨o.owner, kind, payer, o.value⟩

theorem listed_cons_pos {o : EnvNote} {outputs : List EnvNote} (h : o.value ≠ 0 ∧ Q o.owner) :
    listed Q (o :: outputs) = o :: listed Q outputs :=
  List.filter_cons_of_pos (by simpa using h)

theorem listed_cons_neg {o : EnvNote} {outputs : List EnvNote} (h : ¬(o.value ≠ 0 ∧ Q o.owner)) :
    listed Q (o :: outputs) = listed Q outputs :=
  List.filter_cons_of_neg (by simpa using h)

theorem covered_nil {outputs : List EnvNote} : Covered p Q [] outputs ↔ listed Q outputs = [] := by
  constructor
  · intro h
    refine List.filter_eq_nil_iff.mpr fun o ho hlisted => ?_
    obtain ⟨hvalue, howner⟩ := of_decide_eq_true hlisted
    obtain ⟨i, hi, hget⟩ := List.mem_iff_getElem.mp ho
    obtain ⟨_, hleaf, -⟩ := h i o (List.getElem?_eq_some_iff.mpr ⟨hi, hget⟩) hvalue howner
    cases hleaf
  · intro h i o ho hvalue howner
    have hmem : o ∈ listed Q outputs :=
      List.mem_filter.mpr ⟨List.mem_of_getElem? ho, by simpa using ⟨hvalue, howner⟩⟩
    rw [h] at hmem
    cases hmem

-- Every listed output matched, each credit is backed by the note of its own output.
theorem backed_of_covered {outputs : List EnvNote} :
    ∀ {leaves : List OutputLeaf}, Covered p Q leaves outputs →
      ∃ groups : List (List DerivedNote),
        List.Forall₂ (fun h group => (∀ n ∈ group, n.owner = h.owner) ∧ sumOf group = h.amount)
          (credited kind payer (listed Q outputs)) groups ∧
        groups.flatten.Subperm (recorded p leaves outputs) := by
  induction outputs with
  | nil => exact fun _ => ⟨[], .nil, List.nil_subperm⟩
  | cons o outputs ih =>
    intro leaves h
    cases leaves with
    | nil =>
      rw [covered_nil.mp h]
      exact ⟨[], .nil, List.nil_subperm⟩
    | cons leaf leaves =>
      obtain ⟨hhead, htail⟩ := covered_cons.mp h
      obtain ⟨groups, hgroups, hsub⟩ := ih htail
      by_cases hlisted : o.value ≠ 0 ∧ Q o.owner
      · rw [listed_cons_pos hlisted, recorded_match (hhead hlisted.1 hlisted.2)]
        refine ⟨[derivedNote leaf.leafIndex (p.noteCommitment o) o] :: groups, .cons ⟨?_, ?_⟩ hgroups, ?_⟩
        · simp [derivedNote]
        · simp [sumOf, derivedNote]
        · exact (List.subperm_cons _).mpr hsub
      · rw [listed_cons_neg hlisted]
        refine ⟨groups, hgroups, hsub.trans ?_⟩
        by_cases heq : p.noteCommitment o = leaf.commitment
        · rw [recorded_match heq]
          exact (List.sublist_cons_self _ _).subperm
        · rw [recorded_mismatch heq]

def sumHeld (Q : Point → Prop) [DecidablePred Q] (notes : List DerivedNote) : ℕ :=
  sumOf (notes.filter fun n => Q n.owner)

theorem sumHeld_cons {n : DerivedNote} {notes : List DerivedNote} :
    sumHeld Q (n :: notes) = (if Q n.owner then n.value else 0) + sumHeld Q notes := by
  by_cases hn : Q n.owner <;> simp [sumHeld, sumOf, hn]

theorem total_listed_cons {o : EnvNote} {outputs : List EnvNote} :
    total (listed Q (o :: outputs)) = (if Q o.owner then o.value else 0) + total (listed Q outputs) := by
  by_cases hlisted : o.value ≠ 0 ∧ Q o.owner
  · rw [listed_cons_pos hlisted, total_cons, if_pos hlisted.2]
  · rw [listed_cons_neg hlisted]
    split
    · next howner =>
      have hzero : o.value = 0 := by
        by_contra hvalue
        exact hlisted ⟨hvalue, howner⟩
      omega
    · omega

theorem sumHeld_recorded_le {outputs : List EnvNote} :
    ∀ {leaves : List OutputLeaf}, sumHeld Q (recorded p leaves outputs) ≤ total (listed Q outputs) := by
  induction outputs with
  | nil => simp [recorded, sumHeld, sumOf]
  | cons o outputs ih =>
    intro leaves
    cases leaves with
    | nil => simp [recorded_nil, sumHeld, sumOf]
    | cons leaf leaves =>
      rw [total_listed_cons]
      have hle : sumHeld Q (recorded p leaves outputs) ≤ total (listed Q outputs) := ih
      by_cases heq : p.noteCommitment o = leaf.commitment
      · rw [recorded_match heq, sumHeld_cons]
        exact Nat.add_le_add_left hle _
      · rw [recorded_mismatch heq]
        omega

theorem covered_of_sum {outputs : List EnvNote} :
    ∀ {leaves : List OutputLeaf}, total (listed Q outputs) ≤ sumHeld Q (recorded p leaves outputs) →
      Covered p Q leaves outputs := by
  induction outputs with
  | nil =>
    intro _ _ i o ho
    cases ho
  | cons o outputs ih =>
    intro leaves h
    cases leaves with
    | nil =>
      rw [recorded_nil] at h
      refine covered_nil.mpr (List.eq_nil_iff_forall_not_mem.mpr fun o' ho' => ?_)
      have hle := List.single_le_sum (fun _ _ => Nat.zero_le _) _ (List.mem_map_of_mem (f := (·.value)) ho')
      have hvalue := (of_decide_eq_true (List.mem_filter.mp ho').2).1
      exact hvalue (Nat.le_zero.mp (hle.trans h))
    | cons leaf leaves =>
      rw [total_listed_cons] at h
      have hle : sumHeld Q (recorded p leaves outputs) ≤ total (listed Q outputs) := sumHeld_recorded_le
      refine covered_cons.mpr ?_
      by_cases heq : p.noteCommitment o = leaf.commitment
      · rw [recorded_match heq, sumHeld_cons] at h
        exact ⟨fun _ _ => heq, ih (Nat.le_of_add_le_add_left h)⟩
      · rw [recorded_mismatch heq] at h
        refine ⟨fun hvalue howner => ?_, ih (by omega)⟩
        rw [if_pos howner] at h
        omega

theorem sumHeld_append {notes more : List DerivedNote} :
    sumHeld Q (notes ++ more) = sumHeld Q notes + sumHeld Q more := by
  simp [sumHeld, sumOf]

theorem sumHeld_subperm {notes notes' : List DerivedNote} (h : notes.Subperm notes') :
    sumHeld Q notes ≤ sumHeld Q notes' := by
  obtain ⟨mid, hperm, hsub⟩ := h
  have heq : sumHeld Q mid = sumHeld Q notes := ((hperm.filter _).map _).sum_eq
  rw [← heq]
  exact ((hsub.filter _).map _).sum_le_sum fun _ _ => Nat.zero_le _

theorem sumHeld_owned {holder : Point} {notes : List DerivedNote} (hQ : Q holder)
    (h : ∀ n ∈ notes, n.owner = holder) : sumHeld Q notes = sumOf notes := by
  rw [sumHeld, List.filter_eq_self.mpr fun n hn => by simpa [h n hn] using hQ]

theorem sumHeld_groups {notes : List EnvNote} (hQ : ∀ o ∈ notes, Q o.owner) {groups : List (List DerivedNote)}
    (h : List.Forall₂ (fun h group => (∀ n ∈ group, n.owner = h.owner) ∧ sumOf group = h.amount)
      (credited kind payer notes) groups) : sumHeld Q groups.flatten = total notes := by
  induction notes generalizing groups with
  | nil =>
    cases h
    rfl
  | cons o notes ih =>
    obtain ⟨hhead, htail⟩ := List.forall_mem_cons.mp hQ
    cases h with
    | cons hgroup hrest =>
      rw [List.flatten_cons, sumHeld_append, ih htail hrest, total_cons, sumHeld_owned hhead hgroup.1, hgroup.2]

theorem backed_iff_covered {history : List DerivedHistory} {leaves : List OutputLeaf} {outputs : List EnvNote}
    (hcredits : credits history = credited kind payer (listed Q outputs)) :
    Backed history (recorded p leaves outputs) ↔ Covered p Q leaves outputs := by
  rw [Backed, hcredits]
  constructor
  · rintro ⟨groups, hgroups, hsub⟩
    refine covered_of_sum ?_
    have howners : ∀ o ∈ listed Q outputs, Q o.owner := fun o ho =>
      (of_decide_eq_true (List.mem_filter.mp ho).2).2
    rw [← sumHeld_groups howners hgroups]
    exact sumHeld_subperm hsub
  · exact backed_of_covered

end Backing

section Kinds

variable {p : Primitives} {env : ParsedEnvelope} {leaves : List OutputLeaf}

theorem credits_deposit (outputs : List EnvNote) :
    credits ((outputs.filter (·.value ≠ 0)).map fun o => ⟨o.owner, .deposit, none, o.value⟩) =
      credited .deposit none (listed (fun _ => True) outputs) := by
  rw [credits, List.filter_eq_self.mpr]
  · simp [credited, listed]
  · intro h hh
    obtain ⟨o, -, rfl⟩ := List.mem_map.mp hh
    rfl

theorem credits_paid (sender : Point) (notes : List EnvNote) :
    credits (notes.flatMap fun o =>
      [⟨o.owner, .received, some sender, o.value⟩, ⟨sender, .sent, some o.owner, o.value⟩]) =
      credited .received (some sender) notes := by
  induction notes with
  | nil => rfl
  | cons o notes ih =>
    rw [List.flatMap_cons, credits, List.filter_append, ← credits, ← credits, ih]
    rfl

theorem credits_disburse (env : ParsedEnvelope) :
    credits (disburseHistory env) = credited .received (some env.sender) (paidOthers env) := by
  rw [disburseHistory, credits, List.filter_append, List.filter_eq_self.mpr, List.filter_eq_nil_iff.mpr,
    List.append_nil]
  · rfl
  · intro h hh
    split at hh
    · rw [List.mem_singleton.mp hh]
      simp
    · cases hh
  · intro h hh
    obtain ⟨o, -, rfl⟩ := List.mem_map.mp hh
    rfl

theorem zeroed_of_zero {i : ℕ} {o : EnvNote} (ho : env.outputs[i]? = some o) (hzero : o.value = 0) :
    zeroed env i = env := by
  have hsame : env.outputs.modify i (fun o => { o with value := 0 }) = env.outputs := by
    refine List.ext_getElem? fun j => ?_
    rw [List.getElem?_modify]
    rcases eq_or_ne i j with rfl | hne
    · cases o
      cases hzero
      simp [ho]
    · simp [hne]
  rw [zeroed, hsame]

theorem Matches.not_alarmed {i : ℕ} {o : EnvNote} (h : Matches p leaves i o) : ¬Alarmed p leaves i o := by
  rintro ⟨leaf, hleaf, hne⟩
  obtain ⟨leaf', hleaf', heq⟩ := h
  obtain rfl : leaf = leaf' := Option.some.inj (hleaf.symm.trans hleaf')
  exact hne heq

theorem filter_modify {f : EnvNote → EnvNote} {q : EnvNote → Bool} {outputs : List EnvNote} :
    ∀ {i : ℕ} {o : EnvNote}, outputs[i]? = some o → q o = false → q (f o) = false →
      (outputs.modify i f).filter q = outputs.filter q := by
  induction outputs with
  | nil => simp
  | cons o' outputs ih =>
    intro i o ho hq hf
    cases i with
    | zero =>
      cases ho
      rw [List.modify_zero_cons, List.filter_cons_of_neg (by simp [hf]), List.filter_cons_of_neg (by simp [hq])]
    | succ i =>
      rw [List.modify_succ_cons, List.filter_cons, List.filter_cons, ih ho hq hf]

-- The sender's own output is nobody else's payment.
theorem paidOthers_zeroed {i : ℕ} {o : EnvNote} (ho : env.outputs[i]? = some o) (howner : o.owner = env.sender) :
    paidOthers (zeroed env i) = paidOthers env :=
  filter_modify (q := fun o => o.value ≠ 0 ∧ o.owner ≠ env.sender) ho (by simp [howner]) (by simp)

theorem unaffected_paid (hself : ¬SelfPaid env)
    (hcovered : Covered p (· ≠ env.sender) leaves env.outputs) {i : ℕ} {o : EnvNote}
    (ho : env.outputs[i]? = some o) (halarm : Alarmed p leaves i o) :
    transferHistory (zeroed env i) = transferHistory env := by
  rcases Nat.eq_zero_or_pos o.value with hzero | hpos
  · rw [zeroed_of_zero ho hzero]
  · have howner : o.owner = env.sender := by
      by_contra hne
      exact (hcovered i o ho hpos.ne' hne).not_alarmed halarm
    have hpaid := paidOthers_zeroed ho howner
    have hself' : ¬SelfPaid (zeroed env i) := by
      rw [selfPaid_iff_nil] at hself ⊢
      rwa [hpaid]
    rw [transferHistory_paid hself, transferHistory_paid hself', hpaid]
    rfl

theorem first_funded (outputs : List EnvNote) : (∀ o ∈ outputs, o.value = 0) ∨
    ∃ before first after, outputs = before ++ first :: after ∧ (∀ o ∈ before, o.value = 0) ∧ first.value ≠ 0 := by
  induction outputs with
  | nil => exact .inl (by simp)
  | cons o outputs ih =>
    by_cases hvalue : o.value = 0
    · rcases ih with hall | ⟨before, first, after, rfl, hbefore, hfirst⟩
      · exact .inl (List.forall_mem_cons.mpr ⟨hvalue, hall⟩)
      · exact .inr ⟨o :: before, first, after, rfl, List.forall_mem_cons.mpr ⟨hvalue, hbefore⟩, hfirst⟩
    · exact .inr ⟨[], o, outputs, rfl, by simp, hvalue⟩

theorem find?_first {before after : List EnvNote} {first : EnvNote} (hbefore : ∀ o ∈ before, o.value = 0)
    (hfirst : first.value ≠ 0) : (before ++ first :: after).find? (·.value ≠ 0) = some first := by
  induction before with
  | nil => exact List.find?_cons_of_pos (by simpa using hfirst)
  | cons o before ih =>
    obtain ⟨ho, hbefore⟩ := List.forall_mem_cons.mp hbefore
    rw [List.cons_append, List.find?_cons_of_neg (by simp [ho]), ih hbefore]

-- Taking a value away moves the payment slot only when it is the slot's own.
theorem find?_modify {before after : List EnvNote} {first : EnvNote} (hfirst : first.value ≠ 0) :
    (∀ o ∈ before, o.value = 0) → ∀ i : ℕ,
      ((before ++ first :: after).modify i fun o => { o with value := 0 }).find? (·.value ≠ 0) =
        if i = before.length then after.find? (·.value ≠ 0) else some first := by
  induction before with
  | nil =>
    intro _ i
    cases i with
    | zero => exact List.find?_cons_of_neg (by simp)
    | succ i => exact List.find?_cons_of_pos (by simpa using hfirst)
  | cons o before ih =>
    intro hbefore i
    obtain ⟨ho, hbefore⟩ := List.forall_mem_cons.mp hbefore
    cases i with
    | zero =>
      rw [List.cons_append, List.modify_zero_cons, List.find?_cons_of_neg (by simp), find?_first hbefore hfirst]
      rfl
    | succ i =>
      rw [List.cons_append, List.modify_succ_cons, List.find?_cons_of_neg (by simp [ho]), ih hbefore]
      simp

theorem split_unique {before before' after after' : List EnvNote} {first first' : EnvNote}
    (hbefore : ∀ o ∈ before, o.value = 0) (hfirst : first.value ≠ 0) (hbefore' : ∀ o ∈ before', o.value = 0)
    (hfirst' : first'.value ≠ 0) (h : before ++ first :: after = before' ++ first' :: after') :
    before = before' ∧ first = first' ∧ after = after' := by
  induction before generalizing before' with
  | nil =>
    cases before' with
    | nil => exact ⟨rfl, List.cons.inj h⟩
    | cons o' before' =>
      obtain ⟨rfl, -⟩ := List.cons.inj h
      exact absurd (hbefore' first List.mem_cons_self) hfirst
  | cons o before ih =>
    cases before' with
    | nil =>
      obtain ⟨rfl, -⟩ := List.cons.inj h
      exact absurd (hbefore o List.mem_cons_self) hfirst'
    | cons o' before' =>
      obtain ⟨rfl, htail⟩ := List.cons.inj h
      obtain ⟨rfl, hrest⟩ := ih (List.forall_mem_cons.mp hbefore).2 (List.forall_mem_cons.mp hbefore').2 htail
      exact ⟨rfl, hrest⟩

theorem recorded_value {outputs : List EnvNote} {n : DerivedNote} (h : n ∈ recorded p leaves outputs) :
    ∃ i o, i < leaves.length ∧ outputs[i]? = some o ∧ n.value = o.value := by
  obtain ⟨⟨leaf, o⟩, hmem, hrecord⟩ := List.mem_filterMap.mp h
  obtain ⟨i, hi, hget⟩ := List.mem_iff_getElem.mp hmem
  obtain ⟨hleaf, ho⟩ := List.getElem?_zip_eq_some.mp (List.getElem?_eq_some_iff.mpr ⟨hi, hget⟩)
  refine ⟨i, o, (List.getElem?_eq_some_iff.mp hleaf).1, ho, ?_⟩
  unfold recordOf at hrecord
  split at hrecord <;> cases hrecord
  rfl

theorem Matches.recorded {outputs : List EnvNote} {i : ℕ} {o : EnvNote} (h : Matches p leaves i o)
    (ho : outputs[i]? = some o) :
    ∃ leafIndex, derivedNote leafIndex (p.noteCommitment o) o ∈ recorded p leaves outputs := by
  obtain ⟨leaf, hleaf, heq⟩ := h
  refine ⟨leaf.leafIndex, List.mem_filterMap.mpr ⟨(leaf, o), ?_, if_pos heq⟩⟩
  exact List.mem_of_getElem? (List.getElem?_zip_eq_some.mpr ⟨hleaf, ho⟩)

theorem backed_selfSend {sender : Point} {payment : EnvNote} {notes : List DerivedNote} :
    Backed (selfSend sender payment) notes ↔
      ∃ group, group.Sublist notes ∧ (∀ n ∈ group, n.owner = sender) ∧ sumOf group = payment.value := by
  have hcredits : credits (selfSend sender payment) = [⟨sender, .received, some sender, payment.value⟩] := rfl
  rw [Backed, hcredits]
  constructor
  · rintro ⟨groups, hgroups, hsub⟩
    cases hgroups with
    | cons hgroup hrest =>
      cases hrest
      rw [List.flatten_cons, List.flatten_nil, List.append_nil] at hsub
      obtain ⟨group, hperm, hsublist⟩ := hsub
      refine ⟨group, hsublist, fun n hn => hgroup.1 n (hperm.subset hn), ?_⟩
      exact (hperm.map _).sum_eq.trans hgroup.2
  · rintro ⟨group, hsublist, howners, hsum⟩
    refine ⟨[group], .cons ⟨howners, hsum⟩ .nil, ?_⟩
    rw [List.flatten_cons, List.flatten_nil, List.append_nil]
    exact hsublist.subperm

theorem selfPaid_zeroed (h : SelfPaid env) (i : ℕ) : SelfPaid (zeroed env i) := by
  intro o ho hvalue
  obtain ⟨j, hj⟩ := List.mem_iff_getElem?.mp ho
  rw [zeroed, List.getElem?_modify] at hj
  cases hget : env.outputs[j]? with
  | none => simp [hget] at hj
  | some o' =>
    rw [hget] at hj
    obtain rfl : (if i = j then { o' with value := 0 } else o') = o := Option.some.inj hj
    split at hvalue
    · exact absurd rfl hvalue
    · next hne =>
      rw [if_neg hne]
      exact h o' (List.mem_of_getElem? hget) hvalue

theorem selfSend_iff (hself : SelfPaid env) :
    (Backed (transferHistory env) (recorded p leaves env.outputs) ∧
      ∀ i o, env.outputs[i]? = some o → Alarmed p leaves i o →
        transferHistory (zeroed env i) = transferHistory env) ↔ SelfSendVerified p leaves env := by
  have hzeroed (i : ℕ) := transferHistory_self (selfPaid_zeroed hself i)
  rw [transferHistory_self hself, List.head?_filter]
  simp only [List.head?_filter] at hzeroed
  rcases first_funded env.outputs with hall | ⟨before, first, after, houtputs, hbefore, hfirst⟩
  · have hnone : env.outputs.find? (·.value ≠ 0) = none := by
      simpa using hall
    rw [hnone]
    refine iff_of_true ⟨⟨[], .nil, List.nil_subperm⟩, fun i o ho _ => ?_⟩ fun before first after hsplit _ hfirst => ?_
    · rw [zeroed_of_zero ho (hall o (List.mem_of_getElem? ho)), transferHistory_self hself, List.head?_filter, hnone]
    · exact absurd (hall first (by simp [hsplit])) hfirst
  · have hslot : env.outputs[before.length]? = some first := by simp [houtputs]
    have hfirst? : env.outputs.find? (·.value ≠ 0) = some first := houtputs ▸ find?_first hbefore hfirst
    have hmoved (i : ℕ) : (zeroed env i).outputs.find? (·.value ≠ 0) =
        if i = before.length then after.find? (·.value ≠ 0) else some first := by
      rw [zeroed, houtputs]
      exact find?_modify hfirst hbefore i
    have hverified : SelfSendVerified p leaves env ↔ (Matches p leaves before.length first ∨
        Alarmed p leaves before.length first ∧ (∃ next ∈ after.find? (·.value ≠ 0), next.value = first.value) ∧
          ∃ notes, notes.Sublist (recorded p leaves env.outputs) ∧ (∀ n ∈ notes, n.owner = env.sender) ∧
            sumOf notes = first.value) := by
      refine ⟨fun h => h before first after houtputs hbefore hfirst,
        fun h before' first' after' houtputs' hbefore' hfirst' => ?_⟩
      obtain ⟨rfl, rfl, rfl⟩ := split_unique hbefore hfirst hbefore' hfirst' (houtputs.symm.trans houtputs')
      exact h
    have hkept : (∀ i o, env.outputs[i]? = some o → Alarmed p leaves i o →
          transferHistory (zeroed env i) = selfSend env.sender first) ↔
        (Alarmed p leaves before.length first → ∃ next ∈ after.find? (·.value ≠ 0), next.value = first.value) := by
      constructor
      · intro h halarm
        have hsame := h before.length first hslot halarm
        rw [hzeroed, hmoved, if_pos rfl] at hsame
        cases hnext : after.find? (·.value ≠ 0) with
        | none =>
          rw [hnext] at hsame
          cases hsame
        | some next =>
          rw [hnext, Option.elim_some] at hsame
          exact ⟨next, rfl, congrArg DerivedHistory.amount (List.cons.inj hsame).1⟩
      · intro h i o ho halarm
        rw [hzeroed, hmoved]
        split
        · next heq =>
          subst heq
          obtain rfl : first = o := Option.some.inj (hslot.symm.trans ho)
          obtain ⟨next, hnext, hvalue⟩ := h halarm
          rw [Option.mem_def.mp hnext, Option.elim_some, selfSend, hvalue]
          rfl
        · rfl
    rw [hfirst?, Option.elim_some, backed_selfSend, hkept, hverified]
    constructor
    · rintro ⟨hgroup, hnext⟩
      cases hleaf : leaves[before.length]? with
      | none =>
        -- no output with a leaf is funded, so nothing recorded sums to the payment
        obtain ⟨group, hsub, -, hsum⟩ := hgroup
        have hzero : sumOf group = 0 := by
          refine List.sum_eq_zero fun v hv => ?_
          obtain ⟨n, hn, rfl⟩ := List.mem_map.mp hv
          obtain ⟨i, o, hi, ho, hvalue⟩ := recorded_value (hsub.subset hn)
          have hlt : i < before.length := hi.trans_le (List.getElem?_eq_none_iff.mp hleaf)
          rw [houtputs, List.getElem?_append_left hlt] at ho
          rw [hvalue, hbefore o (List.mem_of_getElem? ho)]
        exact absurd (hsum.symm.trans hzero) hfirst
      | some leaf =>
        by_cases heq : p.noteCommitment first = leaf.commitment
        · exact .inl ⟨leaf, hleaf, heq⟩
        · have halarm : Alarmed p leaves before.length first := ⟨leaf, hleaf, heq⟩
          exact .inr ⟨halarm, hnext halarm, hgroup⟩
    · rintro (hmatches | ⟨-, hnext, hgroup⟩)
      · obtain ⟨leafIndex, hmem⟩ := hmatches.recorded hslot
        refine ⟨⟨[_], List.singleton_sublist.mpr hmem, fun n hn => ?_, ?_⟩,
          fun halarm => absurd halarm hmatches.not_alarmed⟩
        · rw [List.mem_singleton.mp hn]
          exact hself first (List.mem_of_getElem? hslot) hfirst
        · simp [sumOf, derivedNote]
      · exact ⟨hgroup, fun _ => hnext⟩

end Kinds

section Derive

variable {a : Arbiter} {op : OpEnvelope} {env : ParsedEnvelope} {d : DerivedOp} {p : Primitives}
  {leaves : List OutputLeaf}

theorem backed_transfer : (Backed (transferHistory env) (recorded p leaves env.outputs) ∧
      ∀ i o, env.outputs[i]? = some o → Alarmed p leaves i o →
        transferHistory (zeroed env i) = transferHistory env) ↔
      (SelfPaid env → SelfSendVerified p leaves env) ∧
        (¬SelfPaid env → Covered p (· ≠ env.sender) leaves env.outputs) := by
  by_cases hself : SelfPaid env
  · rw [selfSend_iff hself]
    simp [hself]
  · have hcredits : credits (transferHistory env) =
        credited .received (some env.sender) (listed (· ≠ env.sender) env.outputs) := by
      rw [transferHistory_paid hself, credits_paid]
      rfl
    rw [backed_iff_covered hcredits]
    constructor
    · exact fun h => ⟨fun hpure => absurd hpure hself, fun _ => h.1⟩
    · exact fun h => ⟨h.2 hself, fun i o ho halarm => unaffected_paid hself (h.2 hself) ho halarm⟩

theorem backed_deposit : (Backed ((env.outputs.filter (·.value ≠ 0)).map fun o =>
        ⟨o.owner, .deposit, none, o.value⟩) (recorded p leaves env.outputs) ∧
      ∀ i o, env.outputs[i]? = some o → Alarmed p leaves i o →
        ((zeroed env i).outputs.filter (·.value ≠ 0)).map (fun o =>
            (⟨o.owner, .deposit, none, o.value⟩ : DerivedHistory)) =
          (env.outputs.filter (·.value ≠ 0)).map fun o => ⟨o.owner, .deposit, none, o.value⟩) ↔
      ∀ i o, env.outputs[i]? = some o → o.value ≠ 0 → Matches p leaves i o := by
  rw [backed_iff_covered (credits_deposit env.outputs)]
  constructor
  · exact fun h i o ho hvalue => h.1 i o ho hvalue trivial
  · refine fun h => ⟨fun i o ho hvalue _ => h i o ho hvalue, fun i o ho halarm => ?_⟩
    rcases Nat.eq_zero_or_pos o.value with hzero | hpos
    · rw [zeroed_of_zero ho hzero]
    · exact absurd halarm (h i o ho hpos.ne').not_alarmed

theorem withdrawHistory_zeroed {change : EnvNote} (houtputs : env.outputs = [change]) :
    withdrawHistory (zeroed env 0) = withdrawHistory env ↔ (change.value ≠ 0 → total env.inputs = 0) := by
  have hlist (e : ParsedEnvelope) (c : EnvNote) (h : e.outputs = [c]) : withdrawHistory e =
      if total e.inputs > c.value then [⟨e.sender, .withdraw, none, total e.inputs - c.value⟩] else [] := by
    simp [withdrawHistory, h, total]
  have hzeroed : (zeroed env 0).outputs = [{ change with value := 0 }] := by
    rw [zeroed, houtputs]
    rfl
  have hinputs : (zeroed env 0).inputs = env.inputs := rfl
  rw [hlist env change houtputs, hlist _ _ hzeroed, hinputs]
  generalize total env.inputs = t
  rcases Nat.eq_zero_or_pos t with rfl | hpos
  · simp
  · rw [if_pos hpos]
    split
    · have hsame (h : change.value = 0) : t = t - change.value := by omega
      refine ⟨fun h hvalue => ?_, fun h => ?_⟩
      · have hamount := congrArg DerivedHistory.amount (List.cons.inj h).1
        dsimp only at hamount
        omega
      · have hzero : change.value = 0 := by
          by_contra hvalue
          exact hpos.ne' (h hvalue)
        rw [hzero]
        rfl
    · refine iff_of_false (by simp) fun h => hpos.ne' (h (by omega))

theorem backed_withdraw {change : EnvNote} (houtputs : env.outputs = [change]) :
    (Backed (withdrawHistory env) (recorded p leaves env.outputs) ∧
      ∀ i o, env.outputs[i]? = some o → Alarmed p leaves i o →
        withdrawHistory (zeroed env i) = withdrawHistory env) ↔
      ∀ i o, env.outputs[i]? = some o → o.value ≠ 0 → Alarmed p leaves i o → total env.inputs = 0 := by
  have hbacked : Backed (withdrawHistory env) (recorded p leaves env.outputs) := by
    have hnone : credits (withdrawHistory env) = [] := by
      unfold withdrawHistory
      dsimp only
      split <;> rfl
    exact ⟨[], by rw [hnone]; exact .nil, List.nil_subperm⟩
  rw [and_iff_right hbacked]
  refine forall₂_congr fun i o => forall_congr' fun ho => ?_
  have hi : i = 0 := by
    have hlt := (List.getElem?_eq_some_iff.mp ho).1
    rw [houtputs] at hlt
    exact Nat.lt_one_iff.mp hlt
  subst hi
  rw [houtputs] at ho
  cases ho
  rw [withdrawHistory_zeroed houtputs]
  exact forall_comm

theorem openedEnvelope_ok (h : deriveOp a op = .ok d) :
    (openedEnvelope a op = none ∧ d.history = []) ∨
      ∃ env checked, openedEnvelope a op = some env ∧ crossCheck a op env = .ok checked ∧
        env.outputs.length = (opArity a.B op.kind).nOut ∧
        d = ⟨checked.outputs, env.inputs.map a.primitives.noteCommitment, checked.alarms, checked.batchFill,
          deriveHistory op env checked.disburseCrossChecks⟩ := by
  rw [deriveOp, bind_ok] at h
  obtain ⟨gate, hgate, h⟩ := h
  cases gate with
  | early early =>
    cases h
    obtain ⟨detail, recomputed, expected, rfl⟩ := kemGate_early hgate
    exact .inl ⟨by simp [openedEnvelope, hgate], rfl⟩
  | opened kemSs =>
    obtain ⟨env, checked, henv, hchecked, rfl⟩ := deriveOpened_ok h
    exact .inr ⟨env, checked, by simpa [openedEnvelope, hgate] using henv, hchecked,
      (parseEnvelope_shape henv).2, rfl⟩

def batchLeaves (p : Primitives) (start : ℕ) (outputs : List EnvNote) (k : ℕ) : List OutputLeaf :=
  (outputs.zipIdx k).map fun o => ⟨start + o.2, p.noteCommitment o.1⟩

theorem recorded_batch (start : ℕ) (outputs : List EnvNote) (k : ℕ) :
    recorded p (batchLeaves p start outputs k) outputs =
      (outputs.zipIdx k).map fun o => derivedNote (start + o.2) (p.noteCommitment o.1) o.1 := by
  induction outputs generalizing k with
  | nil => rfl
  | cons o outputs ih =>
    rw [batchLeaves, List.zipIdx_cons, List.map_cons, List.map_cons, recorded_match rfl, ← ih]
    rfl

theorem covered_batch (Q : Point → Prop) (start : ℕ) (outputs : List EnvNote) :
    Covered p Q (batchLeaves p start outputs 0) outputs := by
  intro i o ho _ _
  refine ⟨⟨start + i, p.noteCommitment o⟩, ?_, rfl⟩
  simp [batchLeaves, ho]

-- A batch that folds to its root records every output, at the leaves its commitments make.
theorem crossCheckBatch_backed {checked : CrossCheck} (h : crossCheckBatch a op env = .ok checked) :
    (checked.disburseCrossChecks = false ∧ checked.alarms ≠ []) ∨
      checked.disburseCrossChecks = true ∧ checked.alarms = [] ∧
        Backed (disburseHistory env) checked.outputs := by
  simp only [crossCheckBatch, bind_ok] at h
  obtain ⟨batch, -, tree, -, sub, -, h⟩ := h
  split at h <;> cases h
  · exact .inl ⟨rfl, by simp⟩
  · refine .inr ⟨rfl, rfl, ?_⟩
    rw [← recorded_batch batch.startLeafIndex env.outputs 0]
    have hcredits : credits (disburseHistory env) =
        credited .received (some env.sender) (listed (· ≠ env.sender) env.outputs) := credits_disburse env
    exact (backed_iff_covered hcredits).mpr (covered_batch _ _ _)

theorem history_backed (a : Arbiter) (op : OpEnvelope) (d : DerivedOp) (h : deriveOp a op = .ok d) :
    HistoryBacked a op d ↔ ∀ env ∈ openedEnvelope a op, Verified a.primitives op env := by
  rcases openedEnvelope_ok h with ⟨hnone, hempty⟩ | ⟨env, checked, henv, hchecked, hlen, rfl⟩
  · rw [HistoryBacked, hnone, hempty]
    exact iff_of_true ⟨⟨[], .nil, List.nil_subperm⟩, by simp⟩ (by simp)
  · have hsingle {P : ParsedEnvelope → Prop} : (∀ env' ∈ openedEnvelope a op, P env') ↔ P env := by
      simp [henv]
    rw [HistoryBacked, hsingle, hsingle]
    cases hkind : op.kind with
    | disburse =>
      simp only [crossCheck, hkind] at hchecked
      simp only [Unaffected, Verified, deriveHistory, hkind, iff_true]
      rcases crossCheckBatch_backed hchecked with ⟨hchecks, -⟩ | ⟨hchecks, halarms, hbacked⟩
      · rw [hchecks]
        exact ⟨⟨[], .nil, List.nil_subperm⟩, fun _ => rfl⟩
      · rw [hchecks, halarms]
        exact ⟨hbacked, fun hne => absurd rfl hne⟩
    | deposit =>
      obtain ⟨houtputs, hchecks⟩ := crossCheck_recorded (by simp [hkind]) hchecked
      simp only [Unaffected, Verified, deriveHistory, hkind, houtputs]
      exact backed_deposit
    | transfer | transfer10 | transfer10x2 =>
      obtain ⟨houtputs, hchecks⟩ := crossCheck_recorded (by simp [hkind]) hchecked
      simp only [Unaffected, Verified, deriveHistory, hkind, houtputs]
      exact backed_transfer
    | withdraw =>
      obtain ⟨houtputs, hchecks⟩ := crossCheck_recorded (by simp [hkind]) hchecked
      rw [hkind] at hlen
      obtain ⟨change, hchange⟩ := List.length_eq_one_iff.mp hlen
      simp only [Unaffected, Verified, deriveHistory, hkind, houtputs]
      exact backed_withdraw hchange

-- A transfer of 3 from `(5, 6)` to `(8, 9)`, with a change of 4.
def paidTransfer (leaf : ℕ) : OpEnvelope :=
  plainOp .transfer (1, 0) [5, 6, 7, 1, 0, 0, 8, 9, 5, 6, 3, 2, 4, 3]
    [⟨0, leaf⟩, ⟨1, plainPrimitives.commitment 4 3 (5, 6)⟩]

def plainDerived (op : OpEnvelope) : DerivedOp := (deriveOp plainArbiter op).toOption.getD {}

theorem history_backed_sample :
    HistoryBacked plainArbiter (paidTransfer (plainPrimitives.commitment 3 2 (8, 9)))
      (plainDerived (paidTransfer (plainPrimitives.commitment 3 2 (8, 9)))) := by
  refine (history_backed _ _ _ rfl).mpr fun env henv => ?_
  obtain rfl : sliceEnvelope 2 .transfer [5, 6, 7, 1, 0, 0, 8, 9, 5, 6, 3, 2, 4, 3] = env :=
    Option.some.inj henv
  refine ⟨fun hself => absurd hself (by decide +kernel), fun _ i o ho hvalue howner => ?_⟩
  match i with
  | 0 =>
    cases ho
    exact ⟨_, rfl, by decide +kernel⟩
  | 1 =>
    cases ho
    exact absurd rfl howner
  | _ + 2 => cases ho

theorem Backed.recorded {history : List DerivedHistory} {notes : List DerivedNote} (h : Backed history notes)
    {item : DerivedHistory} (hitem : item ∈ credits history) (hamount : item.amount ≠ 0) :
    ∃ n ∈ notes, n.owner = item.owner := by
  obtain ⟨groups, hgroups, hsub⟩ := h
  obtain ⟨group, hgroup, howners, hsum⟩ := forall₂_right (List.Forall₂.flip hgroups) hitem
  cases group with
  | nil => exact absurd hsum.symm hamount
  | cons n group =>
    exact ⟨n, hsub.subset (List.mem_flatten.mpr ⟨_, hgroup, List.mem_cons_self⟩), howners n List.mem_cons_self⟩

-- The payee's leaf holds another commitment: the note is not recorded, and its item stands.
theorem history_not_backed :
    deriveOp plainArbiter (paidTransfer 0) = .ok (plainDerived (paidTransfer 0)) ∧
      ¬HistoryBacked plainArbiter (paidTransfer 0) (plainDerived (paidTransfer 0)) := by
  have hitem : ⟨(8, 9), .received, some (5, 6), 3⟩ ∈ credits (plainDerived (paidTransfer 0)).history := by
    decide +kernel
  refine ⟨rfl, fun h => ?_⟩
  obtain ⟨n, hn, howner⟩ := h.1.recorded hitem (by decide)
  have hnone : ∀ n ∈ (plainDerived (paidTransfer 0)).outputs, n.owner ≠ (8, 9) := by decide +kernel
  exact hnone n hn howner

end Derive

end Bongtu.Indexer
