import Mathlib.Data.List.Basic

namespace Bongtu.Trace

variable {σ ε : Type*} (step : σ → ε → σ) (good : σ → ε → Prop)

-- Every event meets the condition in the state it finds.
def Throughout : σ → List ε → Prop
  | _, [] => True
  | s, e :: es => good s e ∧ Throughout (step s e) es

instance [∀ s e, Decidable (good s e)] : ∀ s es, Decidable (Throughout step good s es)
  | _, [] => inferInstanceAs (Decidable True)
  | s, e :: es =>
    have := instDecidableThroughout (step s e) es
    inferInstanceAs (Decidable (good s e ∧ Throughout step good (step s e) es))

variable {step good}

theorem throughout_append {s : σ} {es es' : List ε} :
    Throughout step good s (es ++ es') ↔
      Throughout step good s es ∧ Throughout step good (es.foldl step s) es' := by
  induction es generalizing s with
  | nil => simp [Throughout]
  | cons e es ih => simp [Throughout, ih, and_assoc]

theorem inv_run {Inv : σ → Prop} (hstep : ∀ s e, Inv s → good s e → Inv (step s e)) {s : σ}
    {es : List ε} (h0 : Inv s) (h : Throughout step good s es) : Inv (es.foldl step s) := by
  induction es generalizing s with
  | nil => exact h0
  | cons e es ih => exact ih (hstep s e h0 h.1) h.2

theorem throughout_run {Inv : σ → Prop} {safe : σ → ε → Prop} (hstep : ∀ s e, Inv s → good s e → Inv (step s e))
    (hsafe : ∀ s e, Inv s → good s e → safe s e) {s : σ} {es : List ε} (h0 : Inv s)
    (h : Throughout step good s es) : Throughout step safe s es := by
  induction es generalizing s with
  | nil => trivial
  | cons e es ih => exact ⟨hsafe s e h0 h.1, ih (hstep s e h0 h.1) h.2⟩

-- What each step only enlarges, a run only enlarges.
theorem grows_run {Inv : σ → Prop} {R : σ → σ → Prop} (hrefl : ∀ s, R s s)
    (htrans : ∀ {s t u}, R s t → R t u → R s u)
    (hinv : ∀ s e, Inv s → good s e → Inv (step s e))
    (hstep : ∀ s e, Inv s → good s e → R s (step s e)) {s : σ} {es : List ε} (h0 : Inv s)
    (h : Throughout step good s es) : R s (es.foldl step s) := by
  induction es generalizing s with
  | nil => exact hrefl s
  | cons e es ih => exact htrans (hstep s e h0 h.1) (ih (hinv s e h0 h.1) h.2)

end Bongtu.Trace
