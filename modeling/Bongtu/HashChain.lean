import Mathlib.Data.Set.Function

namespace HashChain

variable {W : Type*} {h : W → W → W}

-- The pairs a left fold hashes, in order.
def hashed (h : W → W → W) : W → List W → List (W × W)
  | _, [] => []
  | acc, x :: xs => (acc, x) :: hashed h (h acc x) xs

-- No two of the pairs meet in one value, as none do under an injective hash.
def CollisionFree (h : W → W → W) (pairs : List (W × W)) : Prop :=
  ∀ a ∈ pairs, ∀ b ∈ pairs, h a.1 a.2 = h b.1 b.2 → a = b

theorem CollisionFree.mono {pairs pairs' : List (W × W)} (hfree : CollisionFree h pairs)
    (hsub : pairs' ⊆ pairs) : CollisionFree h pairs' := fun a ha b hb =>
  hfree a (hsub ha) b (hsub hb)

-- Equal chains of one length start at one value and run over one list.
theorem foldl_injective {xs : List W} : ∀ {ys : List W} {z z' : W}, xs.length = ys.length →
    CollisionFree h (hashed h z xs ++ hashed h z' ys) → xs.foldl h z = ys.foldl h z' → z = z' ∧ xs = ys := by
  induction xs with
  | nil =>
    intro ys z z' hlen _ heq
    obtain rfl := List.length_eq_zero_iff.mp hlen.symm
    exact ⟨heq, rfl⟩
  | cons x xs ih =>
    intro ys z z' hlen hfree heq
    cases ys with
    | nil => cases hlen
    | cons y ys =>
      have hrest : CollisionFree h (hashed h (h z x) xs ++ hashed h (h z' y) ys) := by
        refine hfree.mono fun q hq => ?_
        rcases List.mem_append.mp hq with hq | hq <;> simp [hashed, hq]
      obtain ⟨hstep, rfl⟩ := ih (Nat.succ.inj hlen) hrest heq
      have hpair : (z, x) = (z', y) :=
        hfree (z, x) (by simp [hashed]) (z', y) (by simp [hashed]) hstep
      obtain ⟨rfl, rfl⟩ := Prod.mk.inj hpair
      exact ⟨rfl, rfl⟩

end HashChain
