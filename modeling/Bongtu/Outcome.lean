import Mathlib.Tactic

namespace Outcome

variable {ε α β γ : Type}

def require (c : Prop) [Decidable c] (e : ε) : Except ε Unit :=
  if c then .ok () else .error e

theorem require_ok {c : Prop} [Decidable c] {e : ε} {u : Unit} : require c e = .ok u ↔ c := by
  unfold require
  split <;> simp [*]

theorem bind_ok {x : Except ε α} {f : α → Except ε β} {b : β} :
    x >>= f = .ok b ↔ ∃ a, x = .ok a ∧ f a = .ok b := by
  cases x with
  | error e =>
    constructor
    · intro h
      cases h
    · rintro ⟨a, ha, -⟩
      cases ha
  | ok a =>
    constructor
    · exact fun h => ⟨a, rfl, h⟩
    · rintro ⟨a', ha, h⟩
      cases ha
      exact h

theorem mapError_ok {ε' : Type} {x : Except ε α} {f : ε → ε'} {a : α} :
    x.mapError f = .ok a ↔ x = .ok a := by
  cases x <;> simp [Except.mapError]

theorem bind_returns {x : Except ε α} {f : α → Except ε β} {a : α} (hx : x = .ok a)
    (hf : ∃ b, f a = .ok b) : ∃ b, x >>= f = .ok b := by
  obtain ⟨b, hb⟩ := hf
  exact ⟨b, bind_ok.mpr ⟨a, hx, hb⟩⟩

theorem require_returns {c : Prop} [Decidable c] {e : ε} {f : Unit → Except ε α} (hc : c)
    (hf : ∃ a, f () = .ok a) : ∃ a, require c e >>= f = .ok a :=
  bind_returns (require_ok.mpr hc) hf

theorem mapError_returns {ε' : Type} {x : Except ε α} {g : ε → ε'} {f : α → Except ε' β} {a : α} (hx : x = .ok a)
    (hf : ∃ b, f a = .ok b) : ∃ b, x.mapError g >>= f = .ok b :=
  bind_returns (mapError_ok.mpr hx) hf

theorem forM_ok {f : α → Except ε Unit} (xs : List α) {u : Unit} :
    xs.forM f = .ok u ↔ ∀ x ∈ xs, f x = .ok () := by
  induction xs with
  | nil => simp [pure, Except.pure]
  | cons x xs ih =>
    rw [List.forM_eq_forM] at ih ⊢
    rw [List.forM_cons, bind_ok, List.forall_mem_cons, ← ih]
    exact ⟨fun ⟨_, hx, h⟩ => ⟨hx, h⟩, fun ⟨hx, h⟩ => ⟨(), hx, h⟩⟩

theorem mapM_ok {f : α → Except ε β} {xs : List α} {ys : List β} (h : xs.mapM f = .ok ys) :
    List.Forall₂ (fun x y => f x = .ok y) xs ys := by
  induction xs generalizing ys with
  | nil =>
    cases h
    exact .nil
  | cons x xs ih =>
    simp only [List.mapM_cons, bind_ok] at h
    obtain ⟨y, hy, ys', hys, hcons⟩ := h
    cases hcons
    exact .cons hy (ih hys)

theorem mapM_returns {f : α → Except ε β} {g : α → β} {xs : List α} (h : ∀ x ∈ xs, f x = .ok (g x)) :
    xs.mapM f = .ok (xs.map g) := by
  induction xs with
  | nil => rfl
  | cons x xs ih =>
    have hrest := ih fun y hy => h y (List.mem_cons_of_mem x hy)
    simp only [List.mapM_cons, bind_ok]
    exact ⟨g x, h x List.mem_cons_self, xs.map g, hrest, rfl⟩

theorem forall₂_right {R : α → β → Prop} {xs : List α} {ys : List β} (h : List.Forall₂ R xs ys)
    {y : β} (hy : y ∈ ys) : ∃ x ∈ xs, R x y := by
  induction h with
  | nil => cases hy
  | cons hxy _ ih =>
    rcases List.mem_cons.mp hy with rfl | hy
    · exact ⟨_, List.mem_cons_self, hxy⟩
    · obtain ⟨x, hx, hR⟩ := ih hy
      exact ⟨x, List.mem_cons_of_mem _ hx, hR⟩

theorem of_map_some {x : Except ε α} {f : α → β} {b : β} (hx : x.toOption.map f = some b) :
    ∃ a, x = .ok a ∧ f a = b := by
  cases x with
  | error e => simp [Except.toOption] at hx
  | ok a => exact ⟨a, rfl, by simpa [Except.toOption] using hx⟩

theorem of_map_none {x : Except ε α} {f : α → β} (hx : x.toOption.map f = none) :
    ∃ e, x = .error e := by
  cases x with
  | error e => exact ⟨e, rfl⟩
  | ok a => simp [Except.toOption] at hx

theorem map_pure {x : Except ε α} {f : α → β} {u : β → γ} :
    (do let a ← x; return f a).toOption.map u = x.toOption.map fun a => u (f a) := by
  cases x <;> rfl

theorem map_bind {x : Except ε α} {f : α → Except ε β} {u : α → γ} {v : β → γ}
    {y : Option γ} {g : γ → Option γ} (hx : x.toOption.map u = y)
    (hf : ∀ a, x = .ok a → (f a).toOption.map v = g (u a)) :
    (x >>= f).toOption.map v = y.bind g := by
  subst hx
  cases x with
  | error e => rfl
  | ok a => exact hf a rfl

-- A call that may throw half way: unlike a revert, a throw keeps the state reached so far.
inductive Run (ε σ : Type) where
  | returned (s : σ)
  | threw (e : ε) (s : σ)
deriving DecidableEq

namespace Run

variable {σ τ : Type}

def bind : Run ε σ → (σ → Run ε σ) → Run ε σ
  | returned s, f => f s
  | threw e s, _ => threw e s

def state : Run ε σ → σ
  | returned s => s
  | threw _ s => s

def result : Run ε σ → Option σ
  | returned s => some s
  | threw _ _ => none

def forEach (f : α → σ → Run ε σ) : List α → σ → Run ε σ
  | [], s => returned s
  | x :: xs, s => (f x s).bind (forEach f xs)

def mapError {ε' : Type} (f : ε → ε') : Run ε σ → Run ε' σ
  | returned s => returned s
  | threw e s => threw (f e) s

@[simp] theorem state_returned (s : σ) : (returned s : Run ε σ).state = s := rfl

@[simp] theorem state_threw (e : ε) (s : σ) : (threw e s).state = s := rfl

@[simp] theorem state_mapError {ε' : Type} (f : ε → ε') (x : Run ε σ) :
    (x.mapError f).state = x.state := by
  cases x <;> rfl

@[simp] theorem bind_returned (s : σ) (f : σ → Run ε σ) : (returned s).bind f = f s := rfl

@[simp] theorem bind_threw (e : ε) (s : σ) (f : σ → Run ε σ) : (threw e s).bind f = threw e s := rfl

theorem bind_eq_returned {x : Run ε σ} {f : σ → Run ε σ} {t : σ} :
    x.bind f = returned t ↔ ∃ s, x = returned s ∧ f s = returned t := by
  cases x <;> simp

-- What every step keeps holds of the state a call leaves behind, also when it throws.
theorem bind_keeps {x : Run ε σ} {f : σ → Run ε σ} {P : σ → Prop} (hx : P x.state)
    (hf : ∀ s, x = returned s → P s → P (f s).state) : P (x.bind f).state := by
  cases x with
  | returned s => exact hf s rfl hx
  | threw e s => exact hx

theorem forEach_keeps {f : α → σ → Run ε σ} {P : σ → Prop} (xs : List α)
    (hf : ∀ x ∈ xs, ∀ s, P s → P (f x s).state) : ∀ {s : σ}, P s → P (forEach f xs s).state := by
  induction xs with
  | nil => exact id
  | cons x xs ih =>
    intro s hs
    exact bind_keeps (hf x (by simp) s hs) fun s' _ hs' =>
      ih (fun y hy => hf y (List.mem_cons_of_mem x hy)) hs'

theorem bind_assoc (x : Run ε σ) (f g : σ → Run ε σ) :
    (x.bind f).bind g = x.bind fun s => (f s).bind g := by
  cases x <;> rfl

theorem forEach_append {f : α → σ → Run ε σ} (xs ys : List α) : ∀ s : σ,
    forEach f (xs ++ ys) s = (forEach f xs s).bind (forEach f ys) := by
  induction xs with
  | nil => exact fun _ => rfl
  | cons x xs ih =>
    intro s
    rw [List.cons_append, forEach, forEach, bind_assoc]
    congr 1
    funext s'
    exact ih s'

theorem forEach_skip {f : α → σ → Run ε σ} (shown : α → Bool) (xs : List α)
    (hidle : ∀ x ∈ xs, shown x = false → ∀ s, f x s = returned s) : ∀ s : σ,
    forEach f (xs.filter shown) s = forEach f xs s := by
  induction xs with
  | nil => exact fun _ => rfl
  | cons x xs ih =>
    have hrest := ih fun y hy => hidle y (List.mem_cons_of_mem x hy)
    intro s
    cases hx : shown x with
    | true =>
      rw [List.filter_cons, if_pos hx, forEach, forEach]
      congr 1
      funext s'
      exact hrest s'
    | false =>
      rw [List.filter_cons, if_neg (by simp [hx]), forEach, hidle x List.mem_cons_self hx, bind_returned]
      exact hrest s

-- A loop keeps in step with a loop over the entries shown to it, when every other entry goes unnoticed.
theorem forEach_filter {f : α → σ → Run ε σ} {g : α → τ → Run ε τ} {R : σ → τ → Prop} (shown : α → Bool)
    (xs : List α)
    (hshown : ∀ x ∈ xs, shown x = true → ∀ s t s', R s t → f x s = returned s' → ∃ t', g x t = returned t' ∧ R s' t')
    (hhidden : ∀ x ∈ xs, shown x = false → ∀ s t, R s t → ∃ t', g x t = returned t' ∧ R s t') :
    ∀ {s s' : σ} {t : τ}, R s t → forEach f (xs.filter shown) s = returned s' →
      ∃ t', forEach g xs t = returned t' ∧ R s' t' := by
  induction xs with
  | nil =>
    intro s s' t hR h
    cases h
    exact ⟨t, rfl, hR⟩
  | cons x xs ih =>
    intro s s' t hR h
    have hrest : ∀ {s₁ s₂ : σ} {t₁ : τ}, R s₁ t₁ → forEach f (xs.filter shown) s₁ = returned s₂ →
        ∃ t', forEach g xs t₁ = returned t' ∧ R s₂ t' :=
      ih (fun y hy => hshown y (List.mem_cons_of_mem x hy)) fun y hy => hhidden y (List.mem_cons_of_mem x hy)
    cases hx : shown x with
    | true =>
      rw [List.filter_cons, if_pos hx] at h
      obtain ⟨s₁, hs₁, h⟩ := bind_eq_returned.mp h
      obtain ⟨t₁, ht₁, hR₁⟩ := hshown x List.mem_cons_self hx s t s₁ hR hs₁
      obtain ⟨t', ht', hR'⟩ := hrest hR₁ h
      exact ⟨t', bind_eq_returned.mpr ⟨t₁, ht₁, ht'⟩, hR'⟩
    | false =>
      rw [List.filter_cons, if_neg (by simp [hx])] at h
      obtain ⟨t₁, ht₁, hR₁⟩ := hhidden x List.mem_cons_self hx s t hR
      obtain ⟨t', ht', hR'⟩ := hrest hR₁ h
      exact ⟨t', bind_eq_returned.mpr ⟨t₁, ht₁, ht'⟩, hR'⟩

theorem of_result_some {x : Run ε σ} {f : σ → τ} {b : τ} (hx : x.result.map f = some b) :
    ∃ s, x = returned s ∧ f s = b := by
  cases x with
  | returned s => exact ⟨s, rfl, by simpa [result] using hx⟩
  | threw e s => simp [result] at hx

theorem of_result_none {x : Run ε σ} {f : σ → τ} (hx : x.result.map f = none) :
    ∃ e s, x = threw e s := by
  cases x with
  | returned s => simp [result] at hx
  | threw e s => exact ⟨e, s, rfl⟩

theorem result_bind {x : Run ε σ} {f : σ → Run ε σ} {u v : σ → τ} {y : Option τ}
    {g : τ → Option τ} (hx : x.result.map u = y)
    (hf : ∀ s, x = returned s → (f s).result.map v = g (u s)) :
    (x.bind f).result.map v = y.bind g := by
  subst hx
  cases x with
  | returned s => exact hf s rfl
  | threw e s => rfl

end Run

end Outcome
