import Bongtu.Core.Envelope
import Bongtu.Cover

namespace Bongtu.Spend

open Core

structure WalletInputNote where
  value : ℕ
  salt : String
  leafIndex : ℤ
deriving DecidableEq, Repr

structure SelectableNote where
  value : ℕ
  salt : String
  leafIndex : ℤ
  spent : Bool
deriving DecidableEq, Repr

inductive SpendBlocker where
  | insufficient
  | needsMerge
deriving DecidableEq, Repr

inductive SpendError where
  | amount (message : String)
  | selection (blocker : SpendBlocker) (message : String)
deriving DecidableEq, Repr

-- Where the comparison of the source's sort is at most zero.
def LargestFirst (a b : SelectableNote) : Prop :=
  b.value < a.value ∨ a.value = b.value ∧ a.leafIndex ≤ b.leafIndex

instance : DecidableRel LargestFirst := fun a b =>
  inferInstanceAs (Decidable (b.value < a.value ∨ a.value = b.value ∧ a.leafIndex ≤ b.leafIndex))

def unspentLargestFirst (notes : List SelectableNote) : List SelectableNote :=
  (notes.filter fun n => !n.spent).insertionSort LargestFirst

def pickNote (n : SelectableNote) : WalletInputNote := ⟨n.value, n.salt, n.leafIndex⟩

def totalValue (inputs : List WalletInputNote) : ℕ := (inputs.map (·.value)).sum

def coverStep (amt : ℕ) (acc : ℕ × List WalletInputNote) (n : SelectableNote) : ℕ × List WalletInputNote :=
  if amt ≤ acc.1 then acc else (acc.1 + n.value, acc.2 ++ [pickNote n])

def selectInputNotes (notes : List SelectableNote) (amount : ℤ) (maxArity : ℕ) :
    Except SpendError (List WalletInputNote) :=
  if amount ≤ 0 then .error (.amount s!"amount must be a positive integer, got {amount}")
  else
    let amt := amount.toNat
    let unspent := unspentLargestFirst notes
    if unspent = [] then
      .error (.selection .insufficient "no spendable notes. Load your balance first")
    else
      let covered := unspent.foldl (coverStep amt) (0, [])
      let total := totalValue (unspent.map pickNote)
      let bestCover := totalValue ((unspent.take maxArity).map pickNote)
      if amt ≤ covered.1 ∧ covered.2.length ≤ maxArity then .ok covered.2
      else if total < amt then
        .error (.selection .insufficient
          s!"insufficient balance: amount {amt} exceeds unspent total {total}")
      else
        .error (.selection .needsMerge
          (s!"amount {amt} needs more than {maxArity} notes (the largest {maxArity} cover {bestCover}); " ++
            s!"this spend takes at most {maxArity} input notes — merge your notes or split the payment first"))

inductive SpendKind where
  | transfer
  | withdraw
deriving DecidableEq, Repr

inductive SpendCircuit where
  | transfer
  | transfer10x2
  | withdraw
deriving DecidableEq, Repr

def terminalArity : SpendKind → ℕ
  | .withdraw => 2
  | .transfer => transfer10Arity

structure MergeLeg where
  inputs : List WalletInputNote
  mergedValue : ℕ
deriving DecidableEq, Repr

inductive SpendLeg where
  | merge (leg : MergeLeg)
  | spend (circuit : SpendCircuit) (inputs : List WalletInputNote)
deriving DecidableEq, Repr

def SpendLeg.inputs : SpendLeg → List WalletInputNote
  | .merge leg => leg.inputs
  | .spend _ inputs => inputs

def legCircuit : SpendLeg → SpendCircuit
  | .merge _ => .transfer10x2
  | .spend circuit _ => circuit

def pendingLeaf (legIndex : ℕ) : ℤ := -(legIndex + 1)

def pendingLegOf (leafIndex : ℤ) : Option ℕ :=
  if leafIndex < 0 then some (-leafIndex - 1).toNat else none

section Selection

variable {notes working : List SelectableNote} {amount : ℤ} {arity : ℕ}

theorem largestFirst_total (a b : SelectableNote) : LargestFirst a b ∨ LargestFirst b a := by
  unfold LargestFirst
  omega

theorem largestFirst_trans {a b c : SelectableNote} (hab : LargestFirst a b) (hbc : LargestFirst b c) :
    LargestFirst a c := by
  unfold LargestFirst at *
  omega

instance : Std.Total LargestFirst := ⟨largestFirst_total⟩

instance : IsTrans SelectableNote LargestFirst := ⟨fun _ _ _ => largestFirst_trans⟩

theorem unspentLargestFirst_sorted (notes : List SelectableNote) :
    (unspentLargestFirst notes).Pairwise LargestFirst :=
  List.pairwise_insertionSort LargestFirst _

theorem unspentLargestFirst_perm (notes : List SelectableNote) :
    (unspentLargestFirst notes).Perm (notes.filter fun n => !n.spent) :=
  List.perm_insertionSort LargestFirst _

theorem unspentLargestFirst_unspent {n : SelectableNote} (hn : n ∈ unspentLargestFirst notes) :
    n.spent = false := by
  simpa using (List.mem_filter.mp ((unspentLargestFirst_perm notes).mem_iff.mp hn)).2

theorem unspentLargestFirst_of_sorted (hsorted : working.Pairwise LargestFirst)
    (hunspent : ∀ n ∈ working, n.spent = false) : unspentLargestFirst working = working := by
  have hfilter : working.filter (fun n => !n.spent) = working :=
    List.filter_eq_self.mpr fun n hn => by simp [hunspent n hn]
  rw [unspentLargestFirst, hfilter]
  exact List.Pairwise.insertionSort_eq hsorted

theorem foldl_coverStep (amt : ℕ) (unspent : List SelectableNote) : ∀ (s : ℕ) (chosen : List WalletInputNote),
    unspent.foldl (coverStep amt) (s, chosen) =
      (s + ((unspent.map (·.value)).take (Cover.count amt s (unspent.map (·.value)))).sum,
        chosen ++ (unspent.take (Cover.count amt s (unspent.map (·.value)))).map pickNote) := by
  induction unspent with
  | nil =>
    intro s chosen
    simp
  | cons n unspent ih =>
    intro s chosen
    rw [List.foldl_cons, List.map_cons, Cover.count, coverStep]
    split
    · next hs =>
      have hstay : Cover.count amt s (unspent.map (·.value)) = 0 := by
        cases unspent with
        | nil => rfl
        | cons _ _ => simp [Cover.count, hs]
      rw [ih, hstay]
      simp
    · rw [ih, List.take_succ_cons, List.take_succ_cons, List.sum_cons, List.map_cons]
      simp [add_assoc]

-- The values of the unspent notes, largest first.
def unspentValues (notes : List SelectableNote) : List ℕ := (unspentLargestFirst notes).map (·.value)

-- How many of the largest unspent notes cover the amount.
def coverCount (notes : List SelectableNote) (amount : ℤ) : ℕ :=
  Cover.count amount.toNat 0 (unspentValues notes)

theorem totalValue_pickNote (notes : List SelectableNote) :
    totalValue (notes.map pickNote) = (notes.map (·.value)).sum := by
  rw [totalValue, List.map_map]
  rfl

theorem unspentValues_sorted (notes : List SelectableNote) : (unspentValues notes).Pairwise (· ≥ ·) := by
  rw [unspentValues, List.pairwise_map]
  refine (unspentLargestFirst_sorted notes).imp fun h => ?_
  unfold LargestFirst at h
  omega

theorem length_unspent_le (notes : List SelectableNote) :
    (unspentLargestFirst notes).length ≤ notes.length := by
  rw [(unspentLargestFirst_perm notes).length_eq]
  exact List.length_filter_le _ _

theorem coverCount_le_length (htotal : amount.toNat ≤ (unspentValues notes).sum) :
    coverCount notes amount ≤ (unspentLargestFirst notes).length := by
  have hcount : coverCount notes amount ≤ (unspentValues notes).length :=
    Cover.count_le_length (by rwa [zero_add])
  rwa [unspentValues, List.length_map] at hcount

theorem take_covers (htotal : amount.toNat ≤ (unspentValues notes).sum) :
    amount.toNat ≤ ((unspentValues notes).take (coverCount notes amount)).sum := by
  have hcovers := (Cover.count_le_iff (by rwa [zero_add])).mp (le_refl (coverCount notes amount))
  rwa [zero_add] at hcovers

theorem selectInputNotes_cases (notes : List SelectableNote) (hamount : 0 < amount) (arity : ℕ) :
    (amount.toNat ≤ (unspentValues notes).sum ∧ coverCount notes amount ≤ arity ∧
        selectInputNotes notes amount arity =
          .ok (((unspentLargestFirst notes).take (coverCount notes amount)).map pickNote)) ∨
      ((unspentValues notes).sum < amount.toNat ∧
        ∃ message, selectInputNotes notes amount arity = .error (.selection .insufficient message)) ∨
      (amount.toNat ≤ (unspentValues notes).sum ∧ arity < coverCount notes amount ∧
        ∃ message, selectInputNotes notes amount arity = .error (.selection .needsMerge message)) := by
  have hpos : 0 < amount.toNat := by omega
  have hfold := foldl_coverStep amount.toNat (unspentLargestFirst notes) 0 []
  rw [← unspentValues, ← coverCount, zero_add, List.nil_append] at hfold
  rw [selectInputNotes, if_neg (not_le.mpr hamount)]
  dsimp only
  rw [hfold, totalValue_pickNote, ← unspentValues]
  split_ifs with hempty hcover htotal
  · refine .inr (.inl ⟨?_, _, rfl⟩)
    rwa [unspentValues, hempty, List.map_nil, List.sum_nil]
  · have htotal := hcover.1.trans ((List.take_sublist _ _).sum_le_sum fun _ _ => Nat.zero_le _)
    have hlen := coverCount_le_length htotal
    refine .inl ⟨htotal, ?_, rfl⟩
    simpa [hlen] using hcover.2
  · exact .inr (.inl ⟨htotal, _, rfl⟩)
  · have htotal := not_lt.mp htotal
    have hlen := coverCount_le_length htotal
    refine .inr (.inr ⟨htotal, not_le.mp fun hle => hcover ⟨take_covers htotal, ?_⟩, _, rfl⟩)
    simpa [hlen] using hle

theorem needsMerge_length {message : String}
    (h : selectInputNotes notes amount arity = .error (.selection .needsMerge message)) :
    arity < notes.length := by
  have hamount : 0 < amount := by
    by_contra hle
    rw [selectInputNotes, if_pos (not_lt.mp hle)] at h
    cases h
  obtain ⟨-, -, hok⟩ | ⟨-, _, herr⟩ | ⟨htotal, harity, -⟩ := selectInputNotes_cases notes hamount arity
  · rw [hok] at h
    cases h
  · rw [herr] at h
    cases h
  · exact harity.trans_le ((coverCount_le_length htotal).trans (length_unspent_le notes))

end Selection

-- The working set after the ten largest notes give way to the note they fold into.
def folded (working : List SelectableNote) (legIndex : ℕ) : List SelectableNote :=
  unspentLargestFirst
    (⟨totalValue ((working.take transfer10Arity).map pickNote), "", pendingLeaf legIndex, false⟩ ::
      working.drop transfer10Arity)

theorem length_folded_lt {working : List SelectableNote} (legIndex : ℕ) (hlen : 1 < working.length) :
    (folded working legIndex).length < working.length := by
  refine (length_unspent_le _).trans_lt ?_
  rw [List.length_cons, List.length_drop, transfer10Arity]
  omega

-- The planner's recursion: merge legs until the terminal spend fits its arity.
def planMerges (arity : ℕ) (harity : 0 < arity) (amount : ℤ) (working : List SelectableNote)
    (merges : List MergeLeg) : Except SpendError (List MergeLeg × List WalletInputNote) :=
  match h : selectInputNotes working amount arity with
  | .ok inputs => .ok (merges, inputs)
  | .error (.selection .needsMerge _) =>
    let fold := (working.take transfer10Arity).map pickNote
    planMerges arity harity amount (folded working merges.length) (merges ++ [⟨fold, totalValue fold⟩])
  | .error e => .error e
termination_by working.length
decreasing_by exact length_folded_lt _ (Nat.lt_of_le_of_lt harity (needsMerge_length h))

theorem terminalArity_pos (kind : SpendKind) : 0 < terminalArity kind := by
  cases kind <;> decide

def planSpendChain (kind : SpendKind) (notes : List SelectableNote) (amount : ℤ) :
    Except SpendError (List SpendLeg) :=
  (planMerges (terminalArity kind) (terminalArity_pos kind) amount (unspentLargestFirst notes) []).map
    fun (merges, inputs) =>
      let circuit : SpendCircuit :=
        match kind with
        | .withdraw => .withdraw
        | .transfer => if 2 < inputs.length then .transfer10x2 else .transfer
      merges.map .merge ++ [.spend circuit inputs]

structure DisburseChainPlan where
  merges : List MergeLeg
  funding : Option WalletInputNote
deriving DecidableEq, Repr

def planDisburseChain (notes : List SelectableNote) (amount : ℤ) : Except SpendError DisburseChainPlan :=
  (planMerges 1 Nat.zero_lt_one amount (unspentLargestFirst notes) []).map
    fun (merges, inputs) => ⟨merges, inputs.head?⟩

end Bongtu.Spend
