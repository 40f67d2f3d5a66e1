import Mathlib.Tactic

namespace Bongtu.Fifo

variable {α κ β : Type} [DecidableEq κ] (key : α → κ) (sel : α → Option β)

-- What the entries of one key put in line, in the order of the log.
def queue (log : List α) (k : κ) : List β := log.filterMap fun x => if key x = k then sel x else none

variable {key sel} {own rest : List α} {k : κ}

theorem queue_append (k : κ) :
    queue key sel (own ++ rest) k = queue key sel own k ++ queue key sel rest k :=
  List.filterMap_append

theorem queue_own (h : ∀ x ∈ own, key x = k) : queue key sel own k = own.filterMap sel :=
  List.filterMap_congr fun x hx => if_pos (h x hx)

theorem queue_other {k' : κ} (h : ∀ x ∈ own, key x = k) (hne : k' ≠ k) : queue key sel own k' = [] :=
  List.filterMap_eq_nil_iff.mpr fun x hx => if_neg fun heq => hne (heq.symm.trans (h x hx))

-- A block of one key stands at the head of that key's line, and in no other line.
theorem queue_block (h : ∀ x ∈ own, key x = k) :
    queue key sel (own ++ rest) k = own.filterMap sel ++ queue key sel rest k := by
  rw [queue_append, queue_own h]

theorem update_block (h : ∀ x ∈ own, key x = k) :
    Function.update (queue key sel (own ++ rest)) k (queue key sel rest k) = queue key sel rest := by
  funext k'
  rcases eq_or_ne k' k with rfl | hne
  · rw [Function.update_self]
  · rw [Function.update_of_ne hne, queue_append, queue_other h hne, List.nil_append]

theorem queue_idle (h : ∀ x ∈ own, sel x = none) : queue key sel (own ++ rest) = queue key sel rest := by
  funext k
  have hnone : queue key sel own k = [] := List.filterMap_eq_nil_iff.mpr fun x hx => by simp [h x hx]
  rw [queue_append, hnone, List.nil_append]

theorem queue_filter (p : α → Bool) (log : List α) (h : ∀ x ∈ log, p x = false → sel x = none) :
    queue key sel (log.filter p) = queue key sel log := by
  funext k
  rw [queue, queue, List.filterMap_filter]
  refine List.filterMap_congr fun x hx => ?_
  cases hp : p x with
  | true => rfl
  | false => simp [h x hx hp]

end Bongtu.Fifo
