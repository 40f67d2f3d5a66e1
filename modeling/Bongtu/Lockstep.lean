import Bongtu.Outcome

namespace Outcome

variable {ε α β γ δ : Type}

-- Two computations that fail with one error or return related values.
inductive Lockstep (R : α → β → Prop) : Except ε α → Except ε β → Prop
  | failed (e : ε) : Lockstep R (.error e) (.error e)
  | returned {a : α} {b : β} (h : R a b) : Lockstep R (.ok a) (.ok b)

namespace Lockstep

variable {R : α → β → Prop} {S : γ → δ → Prop} {x : Except ε α} {y : Except ε β}

theorem bind {f : α → Except ε γ} {g : β → Except ε δ} (h : Lockstep R x y)
    (hfg : ∀ a b, R a b → Lockstep S (f a) (g b)) : Lockstep S (x >>= f) (y >>= g) := by
  cases h with
  | failed e => exact .failed e
  | returned h => exact hfg _ _ h

-- A step that both computations share.
theorem same {z : Except ε α} {f : α → Except ε γ} {g : α → Except ε δ}
    (hfg : ∀ a, z = .ok a → Lockstep S (f a) (g a)) : Lockstep S (z >>= f) (z >>= g) := by
  cases z with
  | error e => exact .failed e
  | ok a => exact hfg a rfl

theorem require {c : Prop} [Decidable c] {e : ε} {f : Unit → Except ε γ} {g : Unit → Except ε δ}
    (hfg : c → Lockstep S (f ()) (g ())) : Lockstep S (require c e >>= f) (Outcome.require c e >>= g) :=
  same fun _ h => hfg (require_ok.mp h)

theorem mono {R' : α → β → Prop} (h : Lockstep R x y) (hR : ∀ a b, R a b → R' a b) : Lockstep R' x y := by
  cases h with
  | failed e => exact .failed e
  | returned h => exact .returned (hR _ _ h)

theorem ok_left {a : α} (h : Lockstep R x y) (hx : x = .ok a) : ∃ b, y = .ok b ∧ R a b := by
  cases h with
  | failed e => cases hx
  | returned h =>
    cases hx
    exact ⟨_, rfl, h⟩

theorem ok_right {b : β} (h : Lockstep R x y) (hy : y = .ok b) : ∃ a, x = .ok a ∧ R a b := by
  cases h with
  | failed e => cases hy
  | returned h =>
    cases hy
    exact ⟨_, rfl, h⟩

-- Two computations in step with a third are in step with each other.
theorem join {R' : γ → β → Prop} {z : Except ε γ} (h : Lockstep R x y) (h' : Lockstep R' z y) :
    Lockstep (fun a c => ∃ b, R a b ∧ R' c b) x z := by
  cases h with
  | failed e =>
    cases h'
    exact .failed e
  | returned h =>
    cases h' with
    | returned h' => exact .returned ⟨_, h, h'⟩

end Lockstep

end Outcome
