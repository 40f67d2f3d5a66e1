import Bongtu.Spend.Planned

namespace Bongtu.Spend

open Core

-- The bound the circuits check on each output.
def maxNoteWei : ℕ := 2 ^ 100

-- The values of the notes a leg creates: what it pays and its change.
def created (paid : ℕ) (inputs : List WalletInputNote) : List ℕ := [paid, totalValue inputs - paid]

def SpendLeg.created (amount : ℤ) : SpendLeg → List ℕ
  | .merge leg => Spend.created leg.mergedValue leg.inputs
  | .spend _ inputs => Spend.created amount.toNat inputs

def DisburseChainPlan.created (amount : ℤ) (plan : DisburseChainPlan) : List ℕ :=
  plan.merges.flatMap (fun leg => Spend.created leg.mergedValue leg.inputs) ++
    Spend.created amount.toNat plan.funding.toList

-- How many merges bring a cover of `count` notes within an arity.
def mergeCount (arity count : ℕ) : ℕ := (count - arity + 8) / 9

-- The merges fold the largest notes, the last one as many as the merges and the arity ask.
def LightMerges (arity : ℕ) (notes : List SelectableNote) (amount : ℤ) : Prop :=
  amount.toNat ≤ (unspentValues notes).sum → arity < coverCount notes amount →
    ((unspentValues notes).take (1 + 9 * mergeCount arity (coverCount notes amount))).sum < maxNoteWei

section Legs

variable {arity legIndex bound : ℕ} {amount : ℤ} {notes working : List SelectableNote} {legs : List MergeLeg}
  {inputs : List WalletInputNote}

theorem coverCount_folded (hworking : Working working) (hamount : 0 < amount)
    (htotal : amount.toNat ≤ (unspentValues working).sum) :
    coverCount (folded working legIndex) amount =
      max 1 (coverCount working amount + 1 - transfer10Arity) := by
  rw [coverCount, values_folded hworking (by omega), coverCount]
  exact Cover.count_fold (by omega) htotal

theorem mergeCount_folded {count : ℕ} (harity : 0 < arity) (hcount : arity < count) :
    mergeCount arity count = mergeCount arity (max 1 (count + 1 - transfer10Arity)) + 1 := by
  unfold mergeCount transfer10Arity
  omega

-- Each merge folds the note of the one before and the next nine.
theorem Planned.mergedValues (harity : 0 < arity) (hamount : 0 < amount)
    (h : Planned arity amount working legIndex legs inputs) :
    legs.map (·.mergedValue) = (List.range (mergeCount arity (coverCount working amount))).map
      fun j => ((unspentValues working).take (10 + 9 * j)).sum := by
  induction h with
  | @terminal working _ hworking htotal hcount =>
    have hnone : mergeCount arity (coverCount working amount) = 0 := by
      unfold mergeCount
      omega
    rw [hnone]
    rfl
  | @merge working legIndex legs inputs hworking htotal hcount hrest ih =>
    rw [List.map_cons, ih, mergeCount_folded harity hcount, coverCount_folded hworking hamount htotal,
      values_folded hworking (by omega), List.range_succ_eq_map, List.map_cons, List.map_map,
      hworking.totalValue_take]
    refine congrArg _ (List.map_congr_left fun j _ => ?_)
    have htake : 10 + 9 * (j + 1) = 10 + (9 + 9 * j) := by ring
    have hlater : 10 + 9 * j = 9 + 9 * j + 1 := by ring
    rw [Function.comp_apply, htake, hlater, List.take_succ_cons, List.sum_cons, ← List.sum_append,
      transfer10Arity, ← List.take_add]

theorem sum_take_mono (xs : List ℕ) {i j : ℕ} (hij : i ≤ j) : (xs.take i).sum ≤ (xs.take j).sum :=
  ((List.take_prefix_take_left hij).sublist).sum_le_sum fun _ _ => Nat.zero_le _

-- The last merge is the heaviest.
theorem Planned.merged_lt_iff (harity : 0 < arity) (hamount : 0 < amount)
    (h : Planned arity amount working legIndex legs inputs) :
    (∀ leg ∈ legs, leg.mergedValue < bound) ↔
      (arity < coverCount working amount →
        ((unspentValues working).take (1 + 9 * mergeCount arity (coverCount working amount))).sum < bound) := by
  have hvalues := h.mergedValues harity hamount
  have hleg : (∀ leg ∈ legs, leg.mergedValue < bound) ↔
      ∀ v ∈ legs.map (·.mergedValue), v < bound := by simp
  rw [hleg, hvalues]
  simp only [List.mem_map, List.mem_range, forall_exists_index, and_imp, forall_apply_eq_imp_iff₂]
  constructor
  · intro hall hcount
    have hlast := hall (mergeCount arity (coverCount working amount) - 1) (by unfold mergeCount; omega)
    convert hlast using 3
    unfold mergeCount
    omega
  · intro hlast j hj
    refine (sum_take_mono _ ?_).trans_lt (hlast ?_)
    · omega
    · unfold mergeCount at hj
      omega

-- The change is less than the last note taken.
theorem change_lt (hworking : Working working) (hamount : 0 < amount)
    (htotal : amount.toNat ≤ (unspentValues working).sum) (hbound : ∀ n ∈ working, n.value < bound) :
    totalValue ((working.take (coverCount working amount)).map pickNote) - amount.toNat < bound := by
  have hlen := coverCount_le_length htotal
  rw [hworking.eq] at hlen
  have htotal' : amount.toNat ≤ 0 + (unspentValues working).sum := by rwa [zero_add]
  have hcover : Cover.count amount.toNat 0 (unspentValues working) = coverCount working amount := rfl
  have hcount (k : ℕ) : coverCount working amount ≤ k ↔ amount.toNat ≤ ((unspentValues working).take k).sum := by
    have hiff := Cover.count_le_iff (k := k) htotal'
    rwa [zero_add, hcover] at hiff
  have hpos : 0 < coverCount working amount := by
    by_contra hzero
    have hnone := (hcount 0).mp (not_lt.mp hzero)
    simp at hnone
    omega
  obtain ⟨m, hm⟩ := Nat.exists_eq_add_of_lt hpos
  rw [zero_add] at hm
  have hshort : ((unspentValues working).take m).sum < amount.toNat := by
    by_contra hge
    have hle := (hcount m).mpr (not_lt.mp hge)
    omega
  have hlt : m < working.length := by omega
  have hlast := hbound working[m] (List.getElem_mem hlt)
  rw [← hworking.totalValue_take, totalValue_pickNote] at hshort
  rw [hm, totalValue_pickNote, List.take_succ_eq_append_getElem hlt, List.map_append, List.sum_append,
    List.map_singleton, List.sum_singleton]
  omega

theorem Planned.change_lt (hamount : 0 < amount) (h : Planned arity amount working legIndex legs inputs)
    (hbound : ∀ n ∈ working, n.value < bound) (hmerged : ∀ leg ∈ legs, leg.mergedValue < bound) :
    totalValue inputs - amount.toNat < bound := by
  induction h with
  | terminal hworking htotal hcount => exact Spend.change_lt hworking hamount htotal hbound
  | @merge working legIndex legs inputs hworking htotal hcount hrest ih =>
    refine ih (fun n hn => ?_) fun leg hleg => hmerged leg (List.mem_cons_of_mem _ hleg)
    rw [folded_eq hworking (by omega)] at hn
    rcases List.mem_cons.mp hn with rfl | hn
    · exact hmerged _ (List.mem_cons_self ..)
    · exact hbound n (List.mem_of_mem_drop hn)

theorem Planned.merged_total (h : Planned arity amount working legIndex legs inputs) :
    ∀ leg ∈ legs, leg.mergedValue = totalValue leg.inputs := by
  induction h with
  | terminal => simp
  | merge _ _ _ _ ih =>
    intro leg hleg
    rcases List.mem_cons.mp hleg with rfl | hleg
    · rfl
    · exact ih leg hleg

theorem Planned.length_inputs_le (h : Planned arity amount working legIndex legs inputs) :
    inputs.length ≤ arity := by
  induction h with
  | terminal _ _ hcount =>
    rw [List.length_map, List.length_take]
    exact (Nat.min_le_left _ _).trans hcount
  | merge _ _ _ _ ih => exact ih

theorem Planned.created_iff (harity : 0 < arity) (hamount : 0 < amount) (hbelow : amount.toNat < maxNoteWei)
    (hnotes : ∀ n ∈ notes, n.spent = false → n.value < maxNoteWei)
    (h : Planned arity amount (unspentLargestFirst notes) legIndex legs inputs)
    (htotal : amount.toNat ≤ (unspentValues notes).sum) :
    ((∀ leg ∈ legs, ∀ v ∈ created leg.mergedValue leg.inputs, v < maxNoteWei) ∧
        ∀ v ∈ created amount.toNat inputs, v < maxNoteWei) ↔
      LightMerges arity notes amount := by
  have hcount : coverCount (unspentLargestFirst notes) amount = coverCount notes amount := by
    rw [coverCount, unspentValues_unspent, coverCount]
  have hmerged : (∀ leg ∈ legs, leg.mergedValue < maxNoteWei) ↔ _ := h.merged_lt_iff harity hamount
  rw [hcount, unspentValues_unspent] at hmerged
  rw [LightMerges, imp_iff_right htotal, ← hmerged]
  have hpositive : 0 < maxNoteWei := Nat.two_pow_pos 100
  constructor
  · exact fun hall leg hleg => hall.1 leg hleg _ (List.mem_cons_self ..)
  · refine fun hall => ⟨fun leg hleg v hv => ?_, fun v hv => ?_⟩
    · rw [created, ← h.merged_total leg hleg, Nat.sub_self] at hv
      rcases List.mem_cons.mp hv with rfl | hv
      · exact hall leg hleg
      · rwa [List.mem_singleton.mp hv]
    · rcases List.mem_cons.mp hv with rfl | hv
      · exact hbelow
      · rw [List.mem_singleton.mp hv]
        refine h.change_lt hamount (fun n hn => ?_) hall
        have hmem := List.mem_filter.mp ((unspentLargestFirst_perm notes).mem_iff.mp hn)
        exact hnotes n hmem.1 (unspentLargestFirst_unspent hn)

theorem spendChain_iff (kind : SpendKind) (hamount : 0 < amount) (hbelow : amount.toNat < maxNoteWei)
    (hnotes : ∀ n ∈ notes, n.spent = false → n.value < maxNoteWei) :
    (∀ legs, planSpendChain kind notes amount = .ok legs →
        ∀ leg ∈ legs, ∀ v ∈ leg.created amount, v < maxNoteWei) ↔
      LightMerges (terminalArity kind) notes amount := by
  obtain ⟨hless, message, herr⟩ | ⟨htotal, legs, inputs, hok, hplanned⟩ :=
    planMerges_cases [] (terminalArity_pos kind) hamount (working_unspent notes)
  · rw [unspentValues_unspent] at hless
    rw [planSpendChain, herr]
    exact iff_of_true (fun _ h => by cases h) fun htotal => absurd hless (not_lt.mpr htotal)
  · rw [unspentValues_unspent] at htotal
    rw [planSpendChain, hok, ← hplanned.created_iff (terminalArity_pos kind) hamount hbelow hnotes htotal]
    simp [Except.map, SpendLeg.created, or_imp, forall_and]

theorem disburseChain_iff (hamount : 0 < amount) (hbelow : amount.toNat < maxNoteWei)
    (hnotes : ∀ n ∈ notes, n.spent = false → n.value < maxNoteWei) :
    (∀ plan, planDisburseChain notes amount = .ok plan → ∀ v ∈ plan.created amount, v < maxNoteWei) ↔
      LightMerges 1 notes amount := by
  obtain ⟨hless, message, herr⟩ | ⟨htotal, legs, inputs, hok, hplanned⟩ :=
    planMerges_cases [] Nat.zero_lt_one hamount (working_unspent notes)
  · rw [unspentValues_unspent] at hless
    rw [planDisburseChain, herr]
    exact iff_of_true (fun _ h => by cases h) fun htotal => absurd hless (not_lt.mpr htotal)
  · rw [unspentValues_unspent] at htotal
    have hfunding : inputs.head?.toList = inputs := by
      match inputs, hplanned.length_inputs_le with
      | [], _ => rfl
      | [_], _ => rfl
    rw [planDisburseChain, hok, ← hplanned.created_iff Nat.zero_lt_one hamount hbelow hnotes htotal]
    simp only [Except.map, List.nil_append, Except.ok.injEq, forall_eq', DisburseChainPlan.created, hfunding,
      List.forall_mem_append, List.forall_mem_flatMap]

-- Before the last merge of a transfer the largest notes are still short of the amount.
theorem lightMerges_transfer (hbelow : amount.toNat < maxNoteWei) :
    LightMerges (terminalArity .transfer) notes amount := by
  intro htotal hcount
  have harity : terminalArity .transfer = 10 := rfl
  have hshort : ¬coverCount notes amount ≤
      1 + 9 * mergeCount (terminalArity .transfer) (coverCount notes amount) := by
    rw [harity] at hcount ⊢
    unfold mergeCount
    omega
  rw [coverCount, Cover.count_le_iff (by rwa [zero_add]), zero_add, ← coverCount] at hshort
  exact (not_le.mp hshort).trans hbelow

end Legs

theorem plan_provable (notes : List SelectableNote)
    (hnotes : ∀ n ∈ notes, n.spent = false → n.value < maxNoteWei) (amount : ℤ) (hamount : 1 ≤ amount)
    (hbelow : amount ≤ 2 ^ 100 - 1) :
    (∀ legs, planSpendChain .transfer notes amount = .ok legs →
      ∀ leg ∈ legs, ∀ v ∈ leg.created amount, v < maxNoteWei) ∧
    ((∀ legs, planSpendChain .withdraw notes amount = .ok legs →
      ∀ leg ∈ legs, ∀ v ∈ leg.created amount, v < maxNoteWei) ↔ LightMerges 2 notes amount) ∧
    ((∀ plan, planDisburseChain notes amount = .ok plan → ∀ v ∈ plan.created amount, v < maxNoteWei) ↔
      LightMerges 1 notes amount) := by
  have hnat : amount.toNat < maxNoteWei := by
    unfold maxNoteWei
    omega
  exact ⟨(spendChain_iff .transfer hamount hnat hnotes).mpr (lightMerges_transfer hnat),
    spendChain_iff .withdraw hamount hnat hnotes, disburseChain_iff hamount hnat hnotes⟩

-- Twelve notes of an eighth of the bound each, and the largest amount.
def heavyNotes : List SelectableNote := (List.range 12).map fun i => ⟨2 ^ 97, "1", i, false⟩

theorem plan_provable_sample :
    (∀ legs, planSpendChain .withdraw heavyNotes (2 ^ 98) = .ok legs →
      ∀ leg ∈ legs, ∀ v ∈ leg.created (2 ^ 98), v < maxNoteWei) ∧
    ¬LightMerges 1 heavyNotes (2 ^ 98) := by
  have hprovable := plan_provable heavyNotes (by decide) (2 ^ 98) (by decide) (by decide)
  refine ⟨hprovable.2.1.mpr fun _ hcount => absurd hcount (by decide), fun hlight => ?_⟩
  exact absurd (hlight (by decide) (by decide)) (by decide)

theorem plan_not_provable :
    ¬∀ (notes : List SelectableNote) (amount : ℤ), (∀ n ∈ notes, n.spent = false ∧ n.value < maxNoteWei) →
      1 ≤ amount → amount ≤ 2 ^ 100 - 1 →
      ∀ kind legs, planSpendChain kind notes amount = .ok legs →
        ∀ leg ∈ legs, ∀ v ∈ leg.created amount, v < maxNoteWei := by
  intro hclaim
  have hlight := (spendChain_iff .withdraw (by decide) (by decide) (by decide)).mp
    (hclaim heavyNotes (2 ^ 100 - 1) (by decide) (by decide) (by decide) .withdraw)
  exact absurd (hlight (by decide) (by decide)) (by decide)

end Bongtu.Spend
