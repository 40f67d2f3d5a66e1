import Bongtu.PublicVector
import Bongtu.TreeOp

namespace Bongtu

open Merkle

variable {W : Type} [Zero W]

-- When a pool takes an operation that spends `nullifiers` and appends `leaves`, whatever the rail.
structure Admissible (known used : W → Prop) (H : ℕ) (c : Content W) (root : W)
    (nullifiers leaves : List W) : Prop where
  claim : (nullifiers ≠ [] → known root) ∧ (nullifiers = [] → root = 0)
  nodup : nullifiers.Nodup
  fresh : ∀ nf ∈ nullifiers, nf ≠ 0 ∧ ¬used nf
  leaf_ne : ∀ leaf ∈ leaves, leaf ≠ 0
  room : c.next + leaves.length ≤ 2 ^ H

theorem Admissible.congr {known known' used used' : W → Prop} {H : ℕ} {c : Content W} {root : W}
    {nullifiers leaves : List W} (hknown : known root → known' root)
    (hused : ∀ nf ∈ nullifiers, used' nf → used nf)
    (h : Admissible known used H c root nullifiers leaves) :
    Admissible known' used' H c root nullifiers leaves where
  claim := ⟨fun hne => hknown (h.claim.1 hne), h.claim.2⟩
  nodup := h.nodup
  fresh := fun nf hnf => ⟨(h.fresh nf hnf).1, fun hu => (h.fresh nf hnf).2 (hused nf hnf hu)⟩
  leaf_ne := h.leaf_ne
  room := h.room

def appends (leaves : List W) : List (TreeOp W) := leaves.map .append

theorem next_appends (k : ℕ) (leaves : List W) : ∀ c : Content W,
    ((appends leaves).foldl (TreeOp.content k) c).next = c.next + leaves.length := by
  induction leaves with
  | nil => exact fun _ => rfl
  | cons leaf leaves ih =>
    intro c
    have hnext := ih (c.place 0 leaf)
    rw [Content.place_zero_next] at hnext
    rw [List.length_cons, Nat.add_comm leaves.length, ← Nat.add_assoc]
    exact hnext

theorem contentOf_append (k : ℕ) (ops ops' : List (TreeOp W)) :
    contentOf k (ops ++ ops') = ops'.foldl (TreeOp.content k) (contentOf k ops) :=
  List.foldl_append

end Bongtu
