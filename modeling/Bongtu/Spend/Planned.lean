import Bongtu.Spend.Plan

namespace Bongtu.Spend

open Core

variable {arity : ℕ} {amount : ℤ} {working : List SelectableNote} {legIndex : ℕ} {merges legs : List MergeLeg}
  {inputs : List WalletInputNote}

theorem lt_sum_take {xs : List ℕ} (hsorted : xs.Pairwise (· ≥ ·)) (hpos : 0 < xs.sum) {k v : ℕ} (hk : 1 < k)
    (hv : v ∈ xs.drop k) : v < (xs.take k).sum := by
  obtain ⟨k, rfl⟩ : ∃ j, k = j + 2 := ⟨k - 2, by omega⟩
  match xs with
  | [] => simp at hv
  | [x] => simp at hv
  | x :: y :: rest =>
    have hrest : v ∈ rest := List.mem_of_mem_drop (i := k) hv
    rw [List.pairwise_cons, List.pairwise_cons] at hsorted
    have hx : ∀ w ∈ y :: rest, w ≤ x := hsorted.1
    have hy : v ≤ y := hsorted.2.1 v hrest
    have hxy : y ≤ x := hx y (by simp)
    have hsum : x + y ≤ ((x :: y :: rest).take (k + 2)).sum := by
      rw [List.take_succ_cons, List.take_succ_cons, List.sum_cons,
        List.sum_cons]
      omega
    rcases Nat.eq_zero_or_pos x with rfl | hxpos
    · have hzero : (0 :: y :: rest).sum = 0 := by
        rw [List.sum_eq_zero_iff]
        intro w hw
        rcases List.mem_cons.mp hw with rfl | hw
        · rfl
        · exact Nat.le_zero.mp (hx w hw)
      omega
    · omega

-- A working set: unspent notes, largest first.
structure Working (working : List SelectableNote) : Prop where
  sorted : working.Pairwise LargestFirst
  unspent : ∀ n ∈ working, n.spent = false

theorem working_unspent (notes : List SelectableNote) : Working (unspentLargestFirst notes) :=
  ⟨unspentLargestFirst_sorted notes, fun _ hn => unspentLargestFirst_unspent hn⟩

theorem Working.eq (h : Working working) : unspentLargestFirst working = working :=
  unspentLargestFirst_of_sorted h.sorted h.unspent

theorem Working.values (h : Working working) : unspentValues working = working.map (·.value) := by
  rw [unspentValues, h.eq]

theorem Working.totalValue_take (h : Working working) (k : ℕ) :
    totalValue ((working.take k).map pickNote) = ((unspentValues working).take k).sum := by
  rw [totalValue_pickNote, h.values, List.map_take]

theorem unspentValues_unspent (notes : List SelectableNote) :
    unspentValues (unspentLargestFirst notes) = unspentValues notes := (working_unspent notes).values

-- The merged note is the largest of the next working set.
theorem folded_eq (h : Working working) (hpos : 0 < (unspentValues working).sum) (legIndex : ℕ) :
    folded working legIndex =
      ⟨totalValue ((working.take transfer10Arity).map pickNote), "", pendingLeaf legIndex, false⟩ ::
        working.drop transfer10Arity := by
  refine unspentLargestFirst_of_sorted (List.pairwise_cons.mpr ⟨fun b hb => ?_, ?_⟩) fun n hn => ?_
  · have hvalue : b.value ∈ (unspentValues working).drop transfer10Arity := by
      rw [h.values, ← List.map_drop]
      exact List.mem_map_of_mem hb
    have hlt := lt_sum_take (unspentValues_sorted working) hpos (by decide) hvalue
    rw [← h.totalValue_take] at hlt
    exact .inl hlt
  · exact h.sorted.sublist (List.drop_sublist _ _)
  · rcases List.mem_cons.mp hn with rfl | hn
    · rfl
    · exact h.unspent n (List.mem_of_mem_drop hn)

theorem working_folded (working : List SelectableNote) (legIndex : ℕ) : Working (folded working legIndex) :=
  working_unspent _

theorem values_folded (h : Working working) (hpos : 0 < (unspentValues working).sum) (legIndex : ℕ) :
    unspentValues (folded working legIndex) =
      ((unspentValues working).take transfer10Arity).sum :: (unspentValues working).drop transfer10Arity := by
  rw [(working_folded working legIndex).values, folded_eq h hpos, List.map_cons, h.totalValue_take, List.map_drop,
    ← h.values]

theorem sum_folded (h : Working working) (hpos : 0 < (unspentValues working).sum) (legIndex : ℕ) :
    (unspentValues (folded working legIndex)).sum = (unspentValues working).sum := by
  rw [values_folded h hpos, List.sum_cons, ← List.sum_append, List.take_append_drop]

-- What the recursion plans from a working set: the merge legs it adds and the inputs of the last leg.
inductive Planned (arity : ℕ) (amount : ℤ) :
    List SelectableNote → ℕ → List MergeLeg → List WalletInputNote → Prop
  | terminal {working : List SelectableNote} {legIndex : ℕ} (hworking : Working working)
      (htotal : amount.toNat ≤ (unspentValues working).sum) (hcount : coverCount working amount ≤ arity) :
      Planned arity amount working legIndex [] ((working.take (coverCount working amount)).map pickNote)
  | merge {working : List SelectableNote} {legIndex : ℕ} {legs : List MergeLeg} {inputs : List WalletInputNote}
      (hworking : Working working) (htotal : amount.toNat ≤ (unspentValues working).sum)
      (hcount : arity < coverCount working amount)
      (hrest : Planned arity amount (folded working legIndex) (legIndex + 1) legs inputs) :
      Planned arity amount working legIndex
        (⟨(working.take transfer10Arity).map pickNote,
          totalValue ((working.take transfer10Arity).map pickNote)⟩ :: legs) inputs

theorem planMerges_ok {harity : 0 < arity} (h : selectInputNotes working amount arity = .ok inputs) :
    planMerges arity harity amount working merges = .ok (merges, inputs) := by
  rw [planMerges]
  split <;> next heq => cases h.symm.trans heq <;> rfl

theorem planMerges_fold {harity : 0 < arity} {message : String}
    (h : selectInputNotes working amount arity = .error (.selection .needsMerge message)) :
    planMerges arity harity amount working merges =
      planMerges arity harity amount (folded working merges.length)
        (merges ++ [⟨(working.take transfer10Arity).map pickNote,
          totalValue ((working.take transfer10Arity).map pickNote)⟩]) := by
  rw [planMerges]
  split
  · next heq => cases h.symm.trans heq
  · rfl
  · next e hne heq =>
    cases h.symm.trans heq
    exact absurd rfl (hne message)

theorem planMerges_error {harity : 0 < arity} {message : String}
    (h : selectInputNotes working amount arity = .error (.selection .insufficient message)) :
    planMerges arity harity amount working merges = .error (.selection .insufficient message) := by
  rw [planMerges]
  split <;> next heq => cases h.symm.trans heq <;> rfl

-- A plan is refused for the balance alone, and else keeps to the recursion above.
theorem planMerges_cases (merges : List MergeLeg) (harity : 0 < arity) (hamount : 0 < amount) (hworking : Working working) :
    ((unspentValues working).sum < amount.toNat ∧
        ∃ message, planMerges arity harity amount working merges = .error (.selection .insufficient message)) ∨
      (amount.toNat ≤ (unspentValues working).sum ∧
        ∃ legs inputs, planMerges arity harity amount working merges = .ok (merges ++ legs, inputs) ∧
          Planned arity amount working merges.length legs inputs) := by
  induction hlen : working.length using Nat.strong_induction_on generalizing working merges with
  | _ n ih =>
    subst hlen
    obtain ⟨htotal, hcount, hok⟩ | ⟨hless, message, herr⟩ | ⟨htotal, hcount, message, herr⟩ :=
      selectInputNotes_cases working hamount arity
    · rw [hworking.eq] at hok
      refine .inr ⟨htotal, [], _, ?_, .terminal hworking htotal hcount⟩
      rw [planMerges_ok hok, List.append_nil]
    · exact .inl ⟨hless, message, planMerges_error herr⟩
    · have hlt := length_folded_lt merges.length (Nat.lt_of_le_of_lt harity (needsMerge_length herr))
      have hsum := sum_folded hworking (by omega) merges.length
      let leg : MergeLeg := ⟨(working.take transfer10Arity).map pickNote,
        totalValue ((working.take transfer10Arity).map pickNote)⟩
      rw [planMerges_fold herr]
      obtain ⟨hless, -⟩ | ⟨-, legs, inputs, hok, hrest⟩ :=
        ih _ hlt (merges ++ [leg]) (working_folded working merges.length) rfl
      · omega
      · rw [List.length_append, List.length_singleton] at hrest
        refine .inr ⟨htotal, _, inputs, ?_, .merge hworking htotal hcount hrest⟩
        rw [hok, List.append_assoc]
        rfl

end Bongtu.Spend
