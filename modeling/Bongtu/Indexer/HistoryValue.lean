import Bongtu.Indexer.LedgerRun

namespace Bongtu.Indexer

open Bongtu.Core

-- What one item adds to its owner's balance.
def DerivedHistory.credit (h : DerivedHistory) : ℤ :=
  match h.kind with
  | .received | .deposit => h.amount
  | .sent | .withdraw => -h.amount

def netOf (owner : Point) (items : List DerivedHistory) : ℤ :=
  (items.map fun h => if h.owner = owner then h.credit else 0).sum

def heldBy (owner : Point) (notes : List EnvNote) : ℤ :=
  (notes.map fun n => if n.owner = owner then (n.value : ℤ) else 0).sum

def total (notes : List EnvNote) : ℕ := (notes.map (·.value)).sum

-- What the op's circuit proves of the values; what a withdraw leaves over goes out.
def Balanced (kind : Core.OpKind) (env : ParsedEnvelope) : Prop :=
  match kind with
  | .deposit => True
  | .withdraw => total env.outputs ≤ total env.inputs
  | .transfer | .transfer10 | .transfer10x2 | .disburse => total env.inputs = total env.outputs

instance (kind : Core.OpKind) (env : ParsedEnvelope) : Decidable (Balanced kind env) := by
  unfold Balanced
  cases kind <;> infer_instance

def SelfPaid (env : ParsedEnvelope) : Prop := ∀ o ∈ env.outputs, o.value ≠ 0 → o.owner = env.sender

instance (env : ParsedEnvelope) : Decidable (SelfPaid env) := by
  unfold SelfPaid
  infer_instance

section Sums

variable {owner : Point} {env : ParsedEnvelope}

theorem netOf_append (items more : List DerivedHistory) :
    netOf owner (items ++ more) = netOf owner items + netOf owner more := by
  simp [netOf]

theorem netOf_nil : netOf owner [] = 0 := rfl

theorem netOf_cons (h : DerivedHistory) (items : List DerivedHistory) :
    netOf owner (h :: items) = (if h.owner = owner then h.credit else 0) + netOf owner items := by
  simp [netOf]

theorem heldBy_cons (n : EnvNote) (notes : List EnvNote) :
    heldBy owner (n :: notes) = (if n.owner = owner then (n.value : ℤ) else 0) + heldBy owner notes := by
  simp [heldBy]

theorem total_cons (n : EnvNote) (notes : List EnvNote) : total (n :: notes) = n.value + total notes := by
  simp [total]

theorem heldBy_funded (notes : List EnvNote) : heldBy owner (notes.filter (·.value ≠ 0)) = heldBy owner notes := by
  induction notes with
  | nil => rfl
  | cons n notes ih =>
    rcases Nat.eq_zero_or_pos n.value with hzero | hpos
    · rw [List.filter_cons_of_neg (by simp [hzero]), ih, heldBy_cons, hzero]
      simp
    · rw [List.filter_cons_of_pos (by simpa using hpos.ne'), heldBy_cons, heldBy_cons, ih]

theorem heldBy_owned {notes : List EnvNote} {holder : Point} (h : ∀ n ∈ notes, n.owner = holder) :
    heldBy owner notes = if owner = holder then (total notes : ℤ) else 0 := by
  induction notes with
  | nil => simp [heldBy, total]
  | cons n notes ih =>
    obtain ⟨hn, hnotes⟩ := List.forall_mem_cons.mp h
    rw [heldBy_cons, ih hnotes, total_cons, hn]
    by_cases heq : owner = holder
    · simp [heq]
    · simp [heq, Ne.symm heq]

theorem heldBy_others (sender : Point) (notes : List EnvNote) :
    heldBy owner (notes.filter fun o => o.value ≠ 0 ∧ o.owner ≠ sender) =
      if owner = sender then 0 else heldBy owner notes := by
  induction notes with
  | nil => simp [heldBy]
  | cons n notes ih =>
    by_cases hother : n.value ≠ 0 ∧ n.owner ≠ sender
    · rw [List.filter_cons_of_pos (by simpa using hother), heldBy_cons, heldBy_cons, ih]
      by_cases heq : owner = sender
      · simp [heq, hother.2]
      · simp [heq]
    · rw [List.filter_cons_of_neg (by simpa using hother), heldBy_cons, ih]
      by_cases heq : owner = sender
      · simp [heq]
      · have hnone : (if n.owner = owner then (n.value : ℤ) else 0) = 0 := by
          split
          · next howner =>
            have hzero : n.value = 0 := by
              by_contra hvalue
              exact hother ⟨hvalue, howner ▸ heq⟩
            simp [hzero]
          · rfl
        simp [heq, hnone]

theorem total_split (sender : Point) (notes : List EnvNote) :
    (total (notes.filter fun o => o.value ≠ 0 ∧ o.owner ≠ sender) : ℤ) = total notes - heldBy sender notes := by
  induction notes with
  | nil => simp [heldBy, total]
  | cons n notes ih =>
    rw [heldBy_cons, total_cons]
    by_cases hother : n.value ≠ 0 ∧ n.owner ≠ sender
    · rw [List.filter_cons_of_pos (by simpa using hother), total_cons, if_neg hother.2]
      push_cast
      rw [ih]
      ring
    · rw [List.filter_cons_of_neg (by simpa using hother), ih]
      by_cases howner : n.owner = sender
      · rw [if_pos howner]
        push_cast
        ring
      · have hzero : n.value = 0 := by
          by_contra hvalue
          exact hother ⟨hvalue, howner⟩
        simp [howner, hzero]

end Sums

section Net

variable {owner : Point} {env : ParsedEnvelope}

-- The value the outputs carry to other owners, taken from the sender.
def paidNet (env : ParsedEnvelope) (owner : Point) : ℤ :=
  heldBy owner (paidOthers env) - if owner = env.sender then (total (paidOthers env) : ℤ) else 0

theorem netOf_received (notes : List EnvNote) (payer : Option Point) :
    netOf owner (notes.map fun o => ⟨o.owner, .received, payer, o.value⟩) = heldBy owner notes := by
  simp only [netOf, heldBy, List.map_map]
  rfl

theorem netOf_deposit (notes : List EnvNote) :
    netOf owner (notes.map fun o => ⟨o.owner, .deposit, none, o.value⟩) = heldBy owner notes := by
  simp only [netOf, heldBy, List.map_map]
  rfl

theorem netOf_disburse (env : ParsedEnvelope) : netOf owner (disburseHistory env) = paidNet env owner := by
  have hpaid : total (paidOthers env) = ((paidOthers env).map (·.value)).sum := rfl
  rw [disburseHistory, netOf_append, netOf_received, paidNet, ← hpaid, sub_eq_add_neg]
  congr 1
  split
  · rw [netOf_cons, netOf_nil]
    by_cases heq : owner = env.sender
    · simp [DerivedHistory.credit, heq]
    · simp [heq, Ne.symm heq]
  · next hzero => simp [netOf_nil, Nat.eq_zero_of_not_pos hzero]

theorem netOf_pairs (sender : Point) (notes : List EnvNote) :
    netOf owner (notes.flatMap fun o =>
      [⟨o.owner, .received, some sender, o.value⟩, ⟨sender, .sent, some o.owner, o.value⟩]) =
      heldBy owner notes - if owner = sender then (total notes : ℤ) else 0 := by
  induction notes with
  | nil => simp [netOf, heldBy, total]
  | cons n notes ih =>
    rw [List.flatMap_cons, netOf_append, ih, heldBy_cons, total_cons, netOf_cons, netOf_cons, netOf_nil]
    by_cases heq : owner = sender
    · simp only [DerivedHistory.credit, heq, if_true]
      push_cast
      ring
    · simp [DerivedHistory.credit, heq, Ne.symm heq]

theorem selfPaid_iff_nil : SelfPaid env ↔ paidOthers env = [] := by
  simp [SelfPaid, paidOthers, List.filter_eq_nil_iff]

-- The pair a transfer to oneself is listed as.
def selfSend (sender : Point) (payment : EnvNote) : List DerivedHistory :=
  [⟨sender, .sent, some sender, payment.value⟩, ⟨sender, .received, some sender, payment.value⟩]

theorem selfPaid_iff_funded :
    SelfPaid env ↔ (env.outputs.filter (·.value ≠ 0)).all (·.owner = env.sender) := by
  simp only [SelfPaid, List.all_eq_true, List.mem_filter, decide_eq_true_eq, and_imp]

theorem transferHistory_self (h : SelfPaid env) : transferHistory env =
    (env.outputs.filter (·.value ≠ 0)).head?.elim [] (selfSend env.sender) := by
  rw [selfPaid_iff_funded] at h
  unfold transferHistory
  split
  · next first rest hfunded =>
    rw [hfunded] at h ⊢
    rw [if_pos h]
    rfl
  · next hfunded =>
    rw [hfunded]
    rfl

theorem transferHistory_paid (h : ¬SelfPaid env) : transferHistory env = (paidOthers env).flatMap fun o =>
    [⟨o.owner, .received, some env.sender, o.value⟩, ⟨env.sender, .sent, some o.owner, o.value⟩] := by
  rw [selfPaid_iff_funded] at h
  unfold transferHistory
  split
  · next first rest hfunded =>
    rw [hfunded] at h
    rw [if_neg h]
  · next hfunded =>
    rw [hfunded] at h
    exact absurd rfl h

theorem netOf_transfer (env : ParsedEnvelope) : netOf owner (transferHistory env) = paidNet env owner := by
  by_cases hself : SelfPaid env
  · have hnil := selfPaid_iff_nil.mp hself
    rw [transferHistory_self hself, paidNet, hnil]
    cases (env.outputs.filter (·.value ≠ 0)).head? with
    | none => simp [netOf_nil, heldBy, total]
    | some payment =>
      rw [Option.elim_some, selfSend, netOf_cons, netOf_cons, netOf_nil]
      by_cases heq : env.sender = owner <;> simp [DerivedHistory.credit, heq, heldBy, total]
  · rw [transferHistory_paid hself]
    exact netOf_pairs env.sender (paidOthers env)

theorem netOf_withdraw (h : total env.outputs ≤ total env.inputs) : netOf owner (withdrawHistory env) =
    if owner = env.sender then (total env.outputs : ℤ) - total env.inputs else 0 := by
  have hin : (env.inputs.map (·.value)).sum = total env.inputs := rfl
  have hout : (env.outputs.map (·.value)).sum = total env.outputs := rfl
  rw [withdrawHistory, hin, hout]
  split
  · rw [netOf_cons, netOf_nil]
    by_cases heq : owner = env.sender
    · simp only [heq, if_true, DerivedHistory.credit]
      omega
    · simp [heq, Ne.symm heq]
  · have heven : total env.outputs = total env.inputs := by omega
    simp [netOf_nil, heven]

theorem paidNet_balanced (h : total env.inputs = total env.outputs)
    (hinputs : ∀ i ∈ env.inputs, i.owner = env.sender) :
    paidNet env owner = heldBy owner env.outputs - heldBy owner env.inputs := by
  rw [paidNet, paidOthers, heldBy_others, total_split, heldBy_owned hinputs, h]
  by_cases heq : owner = env.sender <;> simp [heq]

-- The others gain nothing exactly when every funded output is the sender's.
theorem selfPaid_iff : SelfPaid env ↔ ∀ owner, owner ≠ env.sender → heldBy owner env.outputs = 0 := by
  constructor
  · intro h owner hne
    have hnone : heldBy owner (paidOthers env) = if owner = env.sender then 0 else heldBy owner env.outputs :=
      heldBy_others env.sender env.outputs
    rw [if_neg hne, selfPaid_iff_nil.mp h] at hnone
    exact hnone.symm
  · intro h o ho hvalue
    by_contra hne
    have hmem : (o.value : ℤ) ∈ env.outputs.map fun n => if n.owner = o.owner then (n.value : ℤ) else 0 :=
      List.mem_map.mpr ⟨o, ho, if_pos rfl⟩
    have hle := List.single_le_sum (fun v hv => ?_) _ hmem
    · have hzero := h o.owner hne
      rw [heldBy] at hzero
      omega
    · obtain ⟨n, -, rfl⟩ := List.mem_map.mp hv
      split <;> omega

theorem heldBy_selfPaid (h : SelfPaid env) : heldBy env.sender env.outputs = total env.outputs := by
  have hsplit := total_split env.sender env.outputs
  rw [← paidOthers, selfPaid_iff_nil.mp h] at hsplit
  have hnil : (total [] : ℤ) = 0 := rfl
  omega

end Net

section Conserve

variable {op : OpEnvelope} {env : ParsedEnvelope} {disburseCrossChecks : Bool}

theorem sliced_inputs {B : ℕ} {kind : Core.OpKind} {m : List ℕ} :
    ∀ i ∈ (sliceEnvelope B kind m).inputs, i.owner = (sliceEnvelope B kind m).sender := by
  intro i hi
  obtain ⟨k, hk, rfl⟩ := List.mem_map.mp hi
  have hpos : 0 < (opArity B kind).nIn := Nat.zero_lt_of_lt (List.mem_range.mp hk)
  simp [ParsedEnvelope.sender, sliceEnvelope, List.head?_range, hpos.ne']

-- No item of the sender's covers what other owners gain.
theorem nothing_covered (hinputs : ∀ i ∈ env.inputs, i.owner = env.sender) :
    (∀ owner, (if owner = env.sender then (total env.outputs : ℤ) - total env.inputs else 0) =
      heldBy owner env.outputs - heldBy owner env.inputs) ↔ SelfPaid env := by
  constructor
  · intro h
    refine selfPaid_iff.mpr fun owner hne => ?_
    have hgain := h owner
    rw [heldBy_owned hinputs, if_neg hne, if_neg hne] at hgain
    omega
  · intro h owner
    rw [heldBy_owned hinputs]
    split
    · next heq => rw [heq, heldBy_selfPaid h]
    · next hne => rw [selfPaid_iff.mp h owner hne, sub_zero]

theorem conserves_iff (hbalanced : Balanced op.kind env) (hinputs : ∀ i ∈ env.inputs, i.owner = env.sender)
    (hdeposit : op.kind = .deposit → env.inputs = []) :
    (∀ owner, netOf owner (deriveHistory op env disburseCrossChecks) =
        heldBy owner env.outputs - heldBy owner env.inputs) ↔
      (op.kind = .withdraw → SelfPaid env) ∧
        (op.kind = .disburse → disburseCrossChecks = false → SelfPaid env) := by
  cases hkind : op.kind with
  | deposit =>
    have hnone : env.inputs = [] := hdeposit hkind
    simp only [deriveHistory, hkind, netOf_deposit, heldBy_funded, hnone]
    simp [heldBy]
  | transfer | transfer10 | transfer10x2 =>
    simp only [Balanced, hkind] at hbalanced
    simp only [deriveHistory, hkind, netOf_transfer, paidNet_balanced hbalanced hinputs]
    simp
  | withdraw =>
    simp only [Balanced, hkind] at hbalanced
    simp only [deriveHistory, hkind, netOf_withdraw hbalanced, nothing_covered hinputs]
    simp
  | disburse =>
    simp only [Balanced, hkind] at hbalanced
    cases disburseCrossChecks with
    | true =>
      simp only [deriveHistory, hkind, if_true, netOf_disburse, paidNet_balanced hbalanced hinputs]
      simp
    | false =>
      have hnone := nothing_covered hinputs
      simp only [hbalanced, sub_self, ite_self] at hnone
      simp only [deriveHistory, hkind, Bool.false_eq_true, if_false, netOf_nil, hnone]
      simp

theorem history_conserves (B : ℕ) (op : OpEnvelope) (m : List ℕ) (disburseCrossChecks : Bool)
    (hbalanced : Balanced op.kind (sliceEnvelope B op.kind m)) :
    let env := sliceEnvelope B op.kind m
    (∀ owner, netOf owner (deriveHistory op env disburseCrossChecks) =
        heldBy owner env.outputs - heldBy owner env.inputs) ↔
      (op.kind = .withdraw → SelfPaid env) ∧
        (op.kind = .disburse → disburseCrossChecks = false → SelfPaid env) := by
  refine conserves_iff hbalanced sliced_inputs fun hkind => ?_
  rw [hkind]
  rfl

-- A withdraw of 3 from a note of 7 whose change of 4 goes to another key.
theorem history_conserves_sample :
    let op := plainOp .withdraw (1, 0) [] []
    let env := sliceEnvelope 2 .withdraw [5, 6, 7, 1, 0, 0, 5, 6, 4, 2]
    ∀ owner, netOf owner (deriveHistory op env false) = heldBy owner env.outputs - heldBy owner env.inputs :=
  (history_conserves 2 (plainOp .withdraw (1, 0) [] []) [5, 6, 7, 1, 0, 0, 5, 6, 4, 2] false
    (by decide +kernel)).mpr ⟨fun _ => by decide +kernel, fun h => by cases h⟩

theorem history_not_conserved :
    let op := plainOp .withdraw (1, 0) [] []
    let env := sliceEnvelope 2 .withdraw [5, 6, 7, 1, 0, 0, 8, 9, 4, 2]
    Balanced op.kind env ∧
      netOf (8, 9) (deriveHistory op env false) ≠ heldBy (8, 9) env.outputs - heldBy (8, 9) env.inputs := by
  decide +kernel

end Conserve

end Bongtu.Indexer
