import Bongtu.Spend.Provable

namespace Bongtu.Spend

open Core

-- The note a leg leaves, under the index that stands for it in the plan.
def SpendLeg.minted (legIndex : ℕ) : SpendLeg → Multiset WalletInputNote
  | .merge leg => {⟨leg.mergedValue, "", pendingLeaf legIndex⟩}
  | .spend _ _ => 0

-- A wallet lands the legs in turn: each spends notes that the wallet holds by then, and leaves its own.
inductive Lands : ℕ → Multiset WalletInputNote → List SpendLeg → Multiset WalletInputNote → Prop
  | nil (legIndex : ℕ) (held : Multiset WalletInputNote) : Lands legIndex held [] held
  | cons {legIndex : ℕ} {held left : Multiset WalletInputNote} {leg : SpendLeg} {legs : List SpendLeg}
      (hheld : (leg.inputs : Multiset WalletInputNote) ≤ held)
      (hrest : Lands (legIndex + 1) (held - leg.inputs + leg.minted legIndex) legs left) :
      Lands legIndex held (leg :: legs) left

def walletNotes (notes : List SelectableNote) : Multiset WalletInputNote := (unspentLargestFirst notes).map pickNote

def worth (held : Multiset WalletInputNote) : ℕ := (held.map (·.value)).sum

section Landing

variable {legIndex : ℕ} {held mid left : Multiset WalletInputNote} {leg : SpendLeg} {legs legs' : List SpendLeg}

theorem worth_coe (inputs : List WalletInputNote) : worth inputs = totalValue inputs := by
  rw [worth, Multiset.map_coe, Multiset.sum_coe, totalValue]

theorem worth_add (a b : Multiset WalletInputNote) : worth (a + b) = worth a + worth b := by
  rw [worth, Multiset.map_add, Multiset.sum_add, worth, worth]

theorem worth_sub {a b : Multiset WalletInputNote} (h : b ≤ a) : worth (a - b) + worth b = worth a := by
  rw [← worth_add, Multiset.sub_add_cancel h]

theorem Lands.append (h : Lands legIndex held legs mid) (h' : Lands (legIndex + legs.length) mid legs' left) :
    Lands legIndex held (legs ++ legs') left := by
  induction h with
  | nil => exact h'
  | @cons legIndex held mid leg legs hheld hrest ih =>
    refine .cons hheld (ih ?_)
    rwa [List.length_cons, Nat.add_comm legs.length, ← Nat.add_assoc] at h'

-- What a leg spends was there at the start, or is the note of a merge before it.
theorem Lands.origin (h : Lands legIndex held legs left) {k : ℕ} (hleg : legs[k]? = some leg) {n : WalletInputNote}
    (hn : n ∈ leg.inputs) :
    n ∈ held ∨ ∃ j < k, ∃ m, legs[j]? = some (.merge m) ∧ n = ⟨m.mergedValue, "", pendingLeaf (legIndex + j)⟩ := by
  induction h generalizing k with
  | nil => simp at hleg
  | @cons legIndex held left first legs hheld hrest ih =>
    cases k with
    | zero =>
      obtain rfl : first = leg := by simpa using hleg
      exact .inl (Multiset.mem_of_le hheld (by simpa using hn))
    | succ k =>
      obtain hmem | ⟨j, hj, m, hm, hnote⟩ := ih (by simpa using hleg)
      · rcases Multiset.mem_add.mp hmem with hmem | hmem
        · exact .inl (Multiset.mem_of_le (Multiset.sub_le_self _ _) hmem)
        · cases first with
          | spend circuit inputs => exact absurd hmem (Multiset.notMem_zero n)
          | merge m => exact .inr ⟨0, by omega, m, rfl, Multiset.mem_singleton.mp hmem⟩
      · refine .inr ⟨j + 1, by omega, m, by simpa using hm, ?_⟩
        rw [hnote, Nat.add_assoc, Nat.add_comm 1 j]

-- All that the legs spend is what there was, and what they left.
theorem Lands.spent_le (h : Lands legIndex held legs left) :
    left + (legs.map fun leg => (leg.inputs : Multiset WalletInputNote)).sum =
      held + (legs.mapIdx fun k leg => leg.minted (legIndex + k)).sum := by
  induction h with
  | nil => simp
  | @cons legIndex held left leg legs hheld hrest ih =>
    have hshift : (legs.mapIdx fun k leg => leg.minted (legIndex + 1 + k)) =
        legs.mapIdx fun k leg => leg.minted (legIndex + (k + 1)) := by
      refine congrArg (List.mapIdx · legs) (funext fun k => funext fun leg => ?_)
      rw [Nat.add_assoc, Nat.add_comm 1 k]
    rw [hshift] at ih
    rw [List.map_cons, List.sum_cons, List.mapIdx_cons, List.sum_cons, Nat.add_zero, add_left_comm, ih,
      ← add_assoc, ← add_assoc, ← add_assoc, add_comm (leg.inputs : Multiset WalletInputNote),
      Multiset.sub_add_cancel hheld]

end Landing

section Plans

variable {arity legIndex : ℕ} {amount : ℤ} {notes working : List SelectableNote} {legs : List MergeLeg}
  {inputs : List WalletInputNote}

theorem pick_folded (hworking : Working working) (hpos : 0 < (unspentValues working).sum) (legIndex : ℕ) :
    ((folded working legIndex).map pickNote : Multiset WalletInputNote) =
      (working.map pickNote : Multiset WalletInputNote) - ((working.take transfer10Arity).map pickNote) +
        {⟨totalValue ((working.take transfer10Arity).map pickNote), "", pendingLeaf legIndex⟩} := by
  have hsplit : (working.map pickNote : Multiset WalletInputNote) =
      ((working.take transfer10Arity).map pickNote) + ((working.drop transfer10Arity).map pickNote) := by
    rw [Multiset.coe_add, ← List.map_append, List.take_append_drop]
  rw [folded_eq hworking hpos, hsplit, add_tsub_cancel_left, List.map_cons, ← Multiset.cons_coe,
    ← Multiset.singleton_add, add_comm]
  rfl

-- The merges land, and leave the inputs of the last leg.
theorem Planned.lands (hamount : 0 < amount) (h : Planned arity amount working legIndex legs inputs) :
    ∃ left, Lands legIndex (working.map pickNote) (legs.map .merge) left ∧ (inputs : Multiset _) ≤ left ∧
      worth left = (unspentValues working).sum := by
  induction h with
  | @terminal working legIndex hworking htotal hcount =>
    refine ⟨_, .nil _ _, Multiset.coe_le.mpr ((List.take_sublist _ _).map _).subperm, ?_⟩
    rw [worth_coe, totalValue_pickNote, hworking.values]
  | @merge working legIndex legs inputs hworking htotal hcount hrest ih =>
    have hpos : 0 < (unspentValues working).sum := by omega
    obtain ⟨left, hlands, hinputs, hworth⟩ := ih
    rw [pick_folded hworking hpos] at hlands
    refine ⟨left, .cons (Multiset.coe_le.mpr ((List.take_sublist _ _).map _).subperm) hlands, hinputs, ?_⟩
    rw [hworth, sum_folded hworking hpos]

theorem planMerges_refused {harity : 0 < arity} {e : SpendError} {merges : List MergeLeg}
    (h : selectInputNotes working amount arity = .error e) (hne : ∀ message, e ≠ .selection .needsMerge message) :
    planMerges arity harity amount working merges = .error e := by
  rw [planMerges]
  split <;> next heq => cases h.symm.trans heq <;> first | rfl | exact absurd rfl (hne _)

theorem Planned.length_merge_le (h : Planned arity amount working legIndex legs inputs) :
    ∀ leg ∈ legs, leg.inputs.length ≤ transfer10Arity := by
  induction h with
  | terminal => simp
  | merge _ _ _ _ ih =>
    intro leg hleg
    rcases List.mem_cons.mp hleg with rfl | hleg
    · rw [List.length_map, List.length_take]
      exact Nat.min_le_left _ _
    · exact ih leg hleg

theorem Planned.covers (h : Planned arity amount working legIndex legs inputs) :
    amount.toNat ≤ totalValue inputs := by
  induction h with
  | terminal hworking htotal hcount =>
    rw [hworking.totalValue_take]
    exact take_covers htotal
  | merge _ _ _ _ ih => exact ih

theorem Planned.length_merges (harity : 0 < arity) (hamount : 0 < amount)
    (h : Planned arity amount working legIndex legs inputs) :
    legs.length = mergeCount arity (coverCount working amount) := by
  have hlength := congrArg List.length (h.mergedValues harity hamount)
  rwa [List.length_map, List.length_map, List.length_range] at hlength

end Plans

-- What merges and the inputs of a last leg of some arity must be, for a payment from these notes.
structure MergesFor (arity : ℕ) (notes : List SelectableNote) (amount : ℤ) (merges : List MergeLeg)
    (inputs : List WalletInputNote) : Prop where
  lands : ∃ left, Lands 0 (walletNotes notes) (merges.map .merge) left ∧ (inputs : Multiset WalletInputNote) ≤ left ∧
    worth left = worth (walletNotes notes)
  merged : ∀ m ∈ merges, m.inputs.length ≤ transfer10Arity ∧ m.mergedValue = totalValue m.inputs
  fits : inputs.length ≤ arity
  covers : amount ≤ totalValue inputs

theorem worth_wallet (notes : List SelectableNote) : worth (walletNotes notes) = (unspentValues notes).sum := by
  rw [walletNotes, worth_coe, totalValue_pickNote, unspentValues]

theorem Planned.mergesFor {arity : ℕ} {notes : List SelectableNote} {amount : ℤ} {merges : List MergeLeg}
    {inputs : List WalletInputNote} (hamount : 0 < amount)
    (h : Planned arity amount (unspentLargestFirst notes) 0 merges inputs) :
    MergesFor arity notes amount merges inputs where
  lands := by
    obtain ⟨left, hlands, hinputs, hworth⟩ := h.lands hamount
    exact ⟨left, hlands, hinputs, by rw [hworth, unspentValues_unspent, worth_wallet]⟩
  merged := fun m hm => ⟨h.length_merge_le m hm, h.merged_total m hm⟩
  fits := h.length_inputs_le
  covers := by
    have hcovers := h.covers
    omega

-- The inputs that the builder of each circuit takes at most.
def circuitArity : SpendCircuit → ℕ
  | .transfer => 2
  | .transfer10x2 => transfer10Arity
  | .withdraw => 2

-- What a chain of legs for a payment from these notes must be.
structure SpendChain (kind : SpendKind) (notes : List SelectableNote) (amount : ℤ) (legs : List SpendLeg) : Prop where
  lands : ∃ left, Lands 0 (walletNotes notes) legs left
  fits : ∀ leg ∈ legs, leg.inputs ≠ [] ∧ leg.inputs.length ≤ circuitArity (legCircuit leg)
  merged : ∀ m, .merge m ∈ legs → m.mergedValue = totalValue m.inputs
  pays : ∃ merges circuit inputs, legs = List.map .merge merges ++ [.spend circuit inputs] ∧
    (circuit = .withdraw ↔ kind = .withdraw) ∧ amount ≤ totalValue inputs

section Chains

variable {arity : ℕ} {amount : ℤ} {notes : List SelectableNote} {merges : List MergeLeg} {inputs : List WalletInputNote}

theorem ne_nil_of_covers (hamount : 0 < amount) (hcovers : amount ≤ totalValue inputs) : inputs ≠ [] := by
  rintro rfl
  rw [totalValue, List.map_nil, List.sum_nil] at hcovers
  omega

theorem Planned.merge_ne_nil {working : List SelectableNote} {legIndex : ℕ}
    (h : Planned arity amount working legIndex merges inputs) : ∀ leg ∈ merges, leg.inputs ≠ [] := by
  induction h with
  | terminal => simp
  | @merge working legIndex legs inputs hworking htotal hcount hrest ih =>
    intro leg hleg
    rcases List.mem_cons.mp hleg with rfl | hleg
    · have hlen := coverCount_le_length htotal
      rw [hworking.eq] at hlen
      refine List.ne_nil_of_length_pos ?_
      rw [List.length_map, List.length_take, transfer10Arity]
      omega
    · exact ih leg hleg

def spendCircuit (kind : SpendKind) (inputs : List WalletInputNote) : SpendCircuit :=
  match kind with
  | .withdraw => .withdraw
  | .transfer => if 2 < inputs.length then .transfer10x2 else .transfer

theorem spendCircuit_withdraw (kind : SpendKind) (inputs : List WalletInputNote) :
    spendCircuit kind inputs = .withdraw ↔ kind = .withdraw := by
  cases kind with
  | withdraw => exact iff_of_true rfl rfl
  | transfer =>
    refine iff_of_false ?_ (by decide)
    rw [spendCircuit]
    split <;> decide

theorem spendCircuit_fits {kind : SpendKind} (h : inputs.length ≤ terminalArity kind) :
    inputs.length ≤ circuitArity (spendCircuit kind inputs) := by
  cases kind with
  | withdraw => exact h
  | transfer =>
    rw [spendCircuit]
    split
    · exact h
    · next hfew => exact not_lt.mp hfew

theorem MergesFor.spendChain {kind : SpendKind} (hamount : 0 < amount) (hempty : ∀ m ∈ merges, m.inputs ≠ [])
    (h : MergesFor (terminalArity kind) notes amount merges inputs) :
    SpendChain kind notes amount (merges.map .merge ++ [.spend (spendCircuit kind inputs) inputs]) where
  lands := by
    obtain ⟨left, hlands, hinputs, -⟩ := h.lands
    exact ⟨_, hlands.append (.cons hinputs (.nil _ _))⟩
  fits := by
    intro leg hleg
    rcases List.mem_append.mp hleg with hleg | hleg
    · obtain ⟨m, hm, rfl⟩ := List.mem_map.mp hleg
      exact ⟨hempty m hm, (h.merged m hm).1⟩
    · obtain rfl := List.mem_singleton.mp hleg
      exact ⟨ne_nil_of_covers hamount h.covers, spendCircuit_fits h.fits⟩
  merged := by
    intro m hm
    rcases List.mem_append.mp hm with hm | hm
    · obtain ⟨m', hm', heq⟩ := List.mem_map.mp hm
      obtain rfl := SpendLeg.merge.inj heq
      exact (h.merged _ hm').2
    · exact absurd (List.mem_singleton.mp hm) (by simp)
  pays := ⟨merges, _, inputs, rfl, spendCircuit_withdraw kind inputs, h.covers⟩

end Chains

section Cases

variable {notes : List SelectableNote} {amount : ℤ}

theorem planSpendChain_cases (kind : SpendKind) (hamount : 0 < amount) :
    (worth (walletNotes notes) < amount ∧
        ∃ message, planSpendChain kind notes amount = .error (.selection .insufficient message)) ∨
      (amount ≤ worth (walletNotes notes) ∧
        ∃ legs, planSpendChain kind notes amount = .ok legs ∧ SpendChain kind notes amount legs) := by
  obtain ⟨hless, message, herr⟩ | ⟨htotal, merges, inputs, hok, hplanned⟩ :=
    planMerges_cases [] (terminalArity_pos kind) hamount (working_unspent notes)
  · rw [unspentValues_unspent, ← worth_wallet] at hless
    refine .inl ⟨by omega, message, ?_⟩
    rw [planSpendChain, herr]
    rfl
  · rw [unspentValues_unspent, ← worth_wallet] at htotal
    refine .inr ⟨by omega, _, ?_, (hplanned.mergesFor hamount).spendChain hamount hplanned.merge_ne_nil⟩
    rw [planSpendChain, hok]
    rfl

theorem planSpendChain_ok {kind : SpendKind} {legs : List SpendLeg} (h : planSpendChain kind notes amount = .ok legs) :
    SpendChain kind notes amount legs := by
  have hamount : 0 < amount := by
    by_contra hle
    have hrefused : selectInputNotes (unspentLargestFirst notes) amount (terminalArity kind) =
        .error (.amount s!"amount must be a positive integer, got {amount}") := by
      rw [selectInputNotes, if_pos (not_lt.mp hle)]
    rw [planSpendChain, planMerges_refused hrefused (fun _ => by simp)] at h
    cases h
  obtain ⟨-, message, herr⟩ | ⟨-, legs', hok, hchain⟩ := planSpendChain_cases kind hamount
  · rw [herr] at h
    cases h
  · rw [hok] at h
    obtain rfl := Except.ok.inj h
    exact hchain

theorem planDisburseChain_cases (hamount : 0 < amount) :
    (worth (walletNotes notes) < amount ∧
        ∃ message, planDisburseChain notes amount = .error (.selection .insufficient message)) ∨
      (amount ≤ worth (walletNotes notes) ∧ ∃ merges funding,
        planDisburseChain notes amount = .ok ⟨merges, some funding⟩ ∧ MergesFor 1 notes amount merges [funding]) := by
  obtain ⟨hless, message, herr⟩ | ⟨htotal, merges, inputs, hok, hplanned⟩ :=
    planMerges_cases [] Nat.zero_lt_one hamount (working_unspent notes)
  · rw [unspentValues_unspent, ← worth_wallet] at hless
    refine .inl ⟨by omega, message, ?_⟩
    rw [planDisburseChain, herr]
    rfl
  · rw [unspentValues_unspent, ← worth_wallet] at htotal
    have hmerges := hplanned.mergesFor hamount
    rcases inputs with _ | ⟨funding, _ | ⟨other, rest⟩⟩
    · exact absurd rfl (ne_nil_of_covers hamount hmerges.covers)
    · refine .inr ⟨by omega, merges, funding, ?_, hmerges⟩
      rw [planDisburseChain, hok]
      rfl
    · exact absurd hmerges.fits (by simp)

end Cases

-- A plan is refused for the balance alone, and else the wallet can land it: no note is spent before it exists, and
-- none twice.
-- Twelve notes of four, and all of them paid out: one merge, and three notes left for two inputs, so one more.
def evenNotes : List SelectableNote := (List.range 12).map fun i => ⟨4, "1", i, false⟩

-- After `j` foldings of at most ten notes each, as few as `arity` notes can cover the amount.
def Folded (arity : ℕ) (notes : List SelectableNote) (amount : ℤ) (j : ℕ) : Prop :=
  ∃ kept t, Cover.Folds transfer10Arity j (unspentValues notes : Multiset ℕ) kept ∧ t ≤ kept ∧ t.card ≤ arity ∧
    amount.toNat ≤ t.sum

section Least

variable {arity m j : ℕ} {amount : ℤ} {notes : List SelectableNote} {merges : List MergeLeg}
  {inputs : List WalletInputNote}

theorem coverCount_least (hcovered : amount.toNat ≤ (unspentValues notes).sum) :
    IsLeast {k | amount.toNat ≤ ((unspentValues notes).take k).sum} (coverCount notes amount) := by
  refine ⟨take_covers hcovered, fun k hk => (Cover.count_le_iff (by rwa [zero_add])).mpr ?_⟩
  rw [zero_add]
  exact hk

theorem folded_ge (hfolded : Folded arity notes amount j) : mergeCount arity (coverCount notes amount) ≤ j := by
  obtain ⟨kept, t, hfolds, ht, hcard, hcovers⟩ := hfolded
  have hcount : coverCount notes amount ≤ arity + (transfer10Arity - 1) * j :=
    Cover.count_le_of_folds (by decide) (unspentValues_sorted notes) hfolds ht hcard hcovers
  unfold mergeCount
  rw [transfer10Arity] at hcount
  omega

-- The planned merges are such foldings.
theorem Planned.folds {working : List SelectableNote} {legIndex : ℕ} (hamount : 0 < amount)
    (h : Planned arity amount working legIndex merges inputs) : Folded arity working amount merges.length := by
  induction h with
  | @terminal working legIndex hworking htotal hcount =>
    refine ⟨_, ((unspentValues working).take (coverCount working amount) : List ℕ), .refl _, ?_, ?_, ?_⟩
    · exact Multiset.coe_le.mpr (List.take_sublist _ _).subperm
    · rw [Multiset.coe_card, List.length_take]
      exact (Nat.min_le_left _ _).trans hcount
    · exact take_covers htotal
  | @merge working legIndex legs inputs hworking htotal hcount hrest ih =>
    obtain ⟨kept, t, hfolds, ht, hcard, hcovers⟩ := ih
    refine ⟨kept, t, .fold (t := ((unspentValues working).take transfer10Arity : List ℕ)) ?_ ?_ ?_, ht, hcard, hcovers⟩
    · exact Multiset.coe_le.mpr (List.take_sublist _ _).subperm
    · rw [Multiset.coe_card, List.length_take]
      exact Nat.min_le_left _ _
    · have hsplit : (unspentValues working : Multiset ℕ) =
          ((unspentValues working).take transfer10Arity : List ℕ) +
            ((unspentValues working).drop transfer10Arity : List ℕ) := by
        rw [Multiset.coe_add, List.take_append_drop]
      rw [values_folded hworking (by omega), ← Multiset.cons_coe, ← Multiset.singleton_add, add_comm] at hfolds
      rw [hsplit, add_tsub_cancel_left]
      exact hfolds

theorem Planned.length_least (harity : 0 < arity) (hamount : 0 < amount)
    (h : Planned arity amount (unspentLargestFirst notes) 0 merges inputs)
    (htotal : amount.toNat ≤ (unspentValues notes).sum)
    (hm : IsLeast {k | amount.toNat ≤ ((unspentValues notes).take k).sum} m) :
    merges.length = (m - arity + 8) / 9 ∧ IsLeast {j | Folded arity notes amount j} merges.length := by
  have hlength := h.length_merges harity hamount
  have hcount : coverCount (unspentLargestFirst notes) amount = coverCount notes amount := by
    rw [coverCount, unspentValues_unspent, coverCount]
  rw [hcount] at hlength
  have hfolds := h.folds hamount
  rw [Folded, unspentValues_unspent] at hfolds
  refine ⟨?_, hfolds, fun j hj => hlength.trans_le (folded_ge hj)⟩
  rw [hlength, (coverCount_least htotal).unique hm, mergeCount]

end Least

-- As many merges as the excess of the cover over the last leg's inputs asks; no foldings do with fewer.
theorem plans_merge_least (notes : List SelectableNote) (amount : ℤ) (m : ℕ) (hamount : 0 < amount)
    (hm : IsLeast {k | amount.toNat ≤ ((unspentValues notes).take k).sum} m) :
    (∀ kind, ∃ merges circuit inputs,
      planSpendChain kind notes amount = .ok (List.map .merge merges ++ [.spend circuit inputs]) ∧
        merges.length = (m - terminalArity kind + 8) / 9 ∧
        IsLeast {j | Folded (terminalArity kind) notes amount j} merges.length) ∧
    ∃ plan, planDisburseChain notes amount = .ok plan ∧ plan.merges.length = (m - 1 + 8) / 9 ∧
      IsLeast {j | Folded 1 notes amount j} plan.merges.length := by
  have htotal : amount.toNat ≤ (unspentValues notes).sum :=
    hm.1.trans ((List.take_sublist _ _).sum_le_sum fun _ _ => Nat.zero_le _)
  refine ⟨fun kind => ?_, ?_⟩
  · obtain ⟨hless, -⟩ | ⟨-, merges, inputs, hok, hplanned⟩ :=
      planMerges_cases [] (terminalArity_pos kind) hamount (working_unspent notes)
    · rw [unspentValues_unspent] at hless
      omega
    · refine ⟨merges, spendCircuit kind inputs, inputs, ?_,
        hplanned.length_least (terminalArity_pos kind) hamount htotal hm⟩
      rw [planSpendChain, hok]
      rfl
  · obtain ⟨hless, -⟩ | ⟨-, merges, inputs, hok, hplanned⟩ :=
      planMerges_cases [] Nat.zero_lt_one hamount (working_unspent notes)
    · rw [unspentValues_unspent] at hless
      omega
    · refine ⟨⟨merges, inputs.head?⟩, ?_, hplanned.length_least Nat.zero_lt_one hamount htotal hm⟩
      rw [planDisburseChain, hok]
      rfl

theorem plans_merge_least_sample :
    ∃ plan, planDisburseChain evenNotes 7 = .ok plan ∧ plan.merges.length = 1 ∧
      IsLeast {j | Folded 1 evenNotes 7 j} plan.merges.length :=
  (plans_merge_least evenNotes 7 2 (by decide)
    ⟨by decide, fun k hk => by
      rcases k with _ | _ | k
      · exact absurd hk (by decide)
      · exact absurd hk (by decide)
      · omega⟩).2

end Bongtu.Spend
