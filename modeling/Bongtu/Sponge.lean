import Mathlib.Tactic

namespace Sponge

variable {A : Type}

structure State (A : Type) where
  capacity : A
  rate1 : A
  rate2 : A
  rate3 : A
deriving DecidableEq, Repr

def absorb (permute : State A → State A) (add : A → A → A) : List A → State A → List A × State A
  | a :: b :: c :: rest, s =>
    let p := permute s
    let q : State A := ⟨p.capacity, add a p.rate1, add b p.rate2, add c p.rate3⟩
    let r := absorb permute add rest q
    (q.rate1 :: q.rate2 :: q.rate3 :: r.1, r.2)
  | _, s => ([], s)

def encrypt (permute : State A → State A) (add : A → A → A) (message : List A) (s : State A) :
    List A :=
  let r := absorb permute add message s
  r.1 ++ [(permute r.2).rate1]

def decrypt (permute : State A → State A) (sub : A → A → A) : List A → State A → List A
  | a :: b :: c :: rest, s =>
    let p := permute s
    sub a p.rate1 :: sub b p.rate2 :: sub c p.rate3 ::
      decrypt permute sub rest ⟨p.capacity, a, b, c⟩
  | _, _ => []

variable {permute : State A → State A} {add sub : A → A → A} {norm : A → A}

theorem decrypt_absorb (hcancel : ∀ a b, sub (add a b) b = norm a) (tag : A) (blocks : ℕ) :
    ∀ (message : List A) (s : State A), message.length = 3 * blocks →
      decrypt permute sub ((absorb permute add message s).1 ++ [tag]) s = message.map norm := by
  induction blocks with
  | zero =>
    intro message s hlen
    obtain rfl : message = [] := List.length_eq_zero_iff.mp (by omega)
    simp [absorb, decrypt]
  | succ blocks ih =>
    intro message s hlen
    match message, hlen with
    | a :: b :: c :: rest, hlen =>
      have hrest : rest.length = 3 * blocks := by
        simp only [List.length_cons] at hlen
        omega
      simp [absorb, decrypt, hcancel, ih rest _ hrest]

theorem decrypt_encrypt (hcancel : ∀ a b, sub (add a b) b = norm a) {message : List A}
    (s : State A) (hlen : 3 ∣ message.length) :
    decrypt permute sub (encrypt permute add message s) s = message.map norm := by
  obtain ⟨blocks, hblocks⟩ := hlen
  exact decrypt_absorb hcancel _ blocks message s hblocks

theorem length_absorb (blocks : ℕ) : ∀ (message : List A) (s : State A),
    message.length = 3 * blocks → (absorb permute add message s).1.length = 3 * blocks := by
  induction blocks with
  | zero =>
    intro message s hlen
    obtain rfl : message = [] := List.length_eq_zero_iff.mp (by omega)
    simp [absorb]
  | succ blocks ih =>
    intro message s hlen
    match message, hlen with
    | a :: b :: c :: rest, hlen =>
      have hrest : rest.length = 3 * blocks := by
        simp only [List.length_cons] at hlen
        omega
      simp only [absorb, List.length_cons, ih rest _ hrest]
      omega

end Sponge
