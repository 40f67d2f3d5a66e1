import Mathlib.Tactic
import Mathlib.Algebra.BigOperators.Intervals

namespace Escrow

-- Notes in numbered places against a fund that each of them may draw on once.
structure Books (N : Type) where
  places : List N
  spent : List ℕ
  fund : ℕ
  once : spent.Nodup
  within : ∀ i ∈ spent, i < places.length

structure Move (N : Type) where
  consumed : List ℕ
  created : List N
  paidIn : ℕ
  paidOut : ℕ

variable {N : Type} (value : N → ℕ)

def worthAt (places : List N) (i : ℕ) : ℕ := places[i]?.elim 0 value

-- What the notes not spent yet may still draw.
def owed (places : List N) (spent : List ℕ) : ℕ := ∑ i ∈ Finset.range places.length with i ∉ spent, worthAt value places i

def Books.Solvent (b : Books N) : Prop := owed value b.places b.spent ≤ b.fund

-- A move spends notes that are there and unspent, and pays out and creates no more than it spends and takes in.
structure Move.Fair (m : Move N) (b : Books N) : Prop where
  once : (b.spent ++ m.consumed).Nodup
  within : ∀ i ∈ m.consumed, i < b.places.length
  balanced : (m.created.map value).sum + m.paidOut ≤ (m.consumed.map (worthAt value b.places)).sum + m.paidIn

variable {value} {m : Move N} {b : Books N}

-- The books after a fair move, the fund at whatever it has become.
def Move.Fair.after (h : m.Fair value b) (fund : ℕ) : Books N where
  places := b.places ++ m.created
  spent := b.spent ++ m.consumed
  fund := fund
  once := h.once
  within := by
    intro i hi
    rw [List.length_append]
    rcases List.mem_append.mp hi with hi | hi
    · exact Nat.lt_add_right _ (b.within i hi)
    · exact Nat.lt_add_right _ (h.within i hi)

theorem worthAt_left {places created : List N} {i : ℕ} (hi : i < places.length) :
    worthAt value (places ++ created) i = worthAt value places i := by
  rw [worthAt, List.getElem?_append_left hi, worthAt]

theorem worthAt_of_getElem? {places : List N} {i : ℕ} {note : N} (hi : places[i]? = some note) :
    worthAt value places i = value note := by
  rw [worthAt, hi, Option.elim_some]

theorem sum_worthAt_created (places created : List N) :
    ∑ i ∈ Finset.range created.length, worthAt value (places ++ created) (places.length + i) =
      (created.map value).sum := by
  induction created using List.reverseRecOn with
  | nil => simp
  | append_singleton created note ih =>
    rw [List.length_append, List.length_singleton, Finset.sum_range_succ, List.map_append, List.sum_append,
      ← List.append_assoc, List.map_singleton, List.sum_singleton]
    refine congrArg₂ (· + ·) ?_ ?_
    · rw [← ih]
      refine Finset.sum_congr rfl fun i hi => worthAt_left ?_
      rw [List.length_append]
      exact Nat.add_lt_add_left (Finset.mem_range.mp hi) _
    · rw [worthAt, ← List.length_append, List.getElem?_concat_length, Option.elim_some]

-- What is owed after a move, with what it spent, is what was owed before, with what it created.
theorem Move.Fair.owed_after (h : m.Fair value b) :
    owed value (b.places ++ m.created) (b.spent ++ m.consumed) + (m.consumed.map (worthAt value b.places)).sum =
      owed value b.places b.spent + (m.created.map value).sum := by
  obtain ⟨-, hconsumed, hdisjoint⟩ := List.nodup_append.mp h.once
  have hlate (i : ℕ) : b.places.length + i ∉ b.spent ++ m.consumed := by
    intro hi
    rcases List.mem_append.mp hi with hi | hi
    · exact absurd (b.within _ hi) (by omega)
    · exact absurd (h.within _ hi) (by omega)
  have hnew : ∑ i ∈ Finset.range m.created.length with b.places.length + i ∉ b.spent ++ m.consumed,
      worthAt value (b.places ++ m.created) (b.places.length + i) = (m.created.map value).sum := by
    rw [Finset.filter_true_of_mem fun i _ => hlate i, sum_worthAt_created]
  have hold : ∑ i ∈ Finset.range b.places.length with i ∉ b.spent ++ m.consumed,
      worthAt value (b.places ++ m.created) i =
        ∑ i ∈ Finset.range b.places.length with i ∉ b.spent ++ m.consumed, worthAt value b.places i :=
    Finset.sum_congr rfl fun i hi => worthAt_left (Finset.mem_range.mp (Finset.mem_filter.mp hi).1)
  have hspent : ∑ i ∈ m.consumed.toFinset, worthAt value b.places i =
      (m.consumed.map (worthAt value b.places)).sum := List.sum_toFinset _ hconsumed
  have hsplit : (Finset.range b.places.length).filter (· ∉ b.spent) =
      (Finset.range b.places.length).filter (· ∉ b.spent ++ m.consumed) ∪ m.consumed.toFinset := by
    ext i
    simp only [Finset.mem_filter, Finset.mem_range, Finset.mem_union, List.mem_toFinset, List.mem_append, not_or]
    constructor
    · rintro ⟨hi, hunspent⟩
      by_cases hmem : i ∈ m.consumed
      · exact .inr hmem
      · exact .inl ⟨hi, hunspent, hmem⟩
    · rintro (⟨hi, hunspent, -⟩ | hmem)
      · exact ⟨hi, hunspent⟩
      · exact ⟨h.within i hmem, fun hi => hdisjoint i hi i hmem rfl⟩
  have hapart : Disjoint ((Finset.range b.places.length).filter (· ∉ b.spent ++ m.consumed)) m.consumed.toFinset := by
    rw [Finset.disjoint_left]
    intro i hi hmem
    exact (Finset.mem_filter.mp hi).2 (List.mem_append_right _ (List.mem_toFinset.mp hmem))
  have howed : owed value (b.places ++ m.created) (b.spent ++ m.consumed) =
      ∑ i ∈ Finset.range b.places.length with i ∉ b.spent ++ m.consumed, worthAt value b.places i +
        (m.created.map value).sum := by
    rw [owed, List.length_append, Finset.sum_filter, Finset.sum_range_add, ← Finset.sum_filter, ← Finset.sum_filter,
      hold, hnew]
  rw [howed, owed, hsplit, Finset.sum_union hapart, hspent]
  omega

-- A fair move out of a solvent fund leaves it solvent, as long as the fund pays no more than the move says.
theorem Move.Fair.solvent (h : m.Fair value b) {fund : ℕ} (hfund : b.fund + m.paidIn ≤ fund + m.paidOut)
    (hb : b.Solvent value) : (h.after fund).Solvent value := by
  have howed := h.owed_after
  have hbalanced := h.balanced
  change owed value (b.places ++ m.created) (b.spent ++ m.consumed) ≤ fund
  unfold Books.Solvent at hb
  omega

end Escrow
