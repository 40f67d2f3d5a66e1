import Mathlib.Tactic

namespace Monitor

variable {σ κ ω ε ε' α β : Type}

-- What a program over an outside world leaves: its calls, in their order, its answer, and the world after it.
structure Run (σ κ ε α : Type) where
  calls : List κ
  answer : Except ε α
  world : σ

def Program (σ κ ε α : Type) : Type := σ → Run σ κ ε α

def Run.andThen (r : Run σ κ ε α) (f : α → Program σ κ ε β) : Run σ κ ε β :=
  match r.answer with
  | .error e => ⟨r.calls, .error e, r.world⟩
  | .ok a => ⟨r.calls ++ (f a r.world).calls, (f a r.world).answer, (f a r.world).world⟩

instance : Monad (Program σ κ ε) where
  pure a s := ⟨[], .ok a, s⟩
  bind x f s := (x s).andThen f

def throwing (e : ε) : Program σ κ ε α := fun s => ⟨[], .error e, s⟩

def lift (x : Except ε α) : Program σ κ ε α := fun s => ⟨[], x, s⟩

def look (f : σ → α) : Program σ κ ε α := fun s => ⟨[], .ok (f s), s⟩

def emit (k : κ) : Program σ κ ε Unit := fun s => ⟨[k], .ok (), s⟩

-- An operation of the world, and the call that its answer leaves.
def perform (op : σ → Except ε α × σ) (call : Except ε α → κ) : Program σ κ ε α := fun s =>
  ⟨[call (op s).1], (op s).1, (op s).2⟩

-- The same calls, the failure in other words.
def rewording (f : ε → ε') (x : Program σ κ ε α) : Program σ κ ε' α := fun s =>
  ⟨(x s).calls, (x s).answer.mapError f, (x s).world⟩

-- A program that goes on where another one fails.
def attempting (x : Program σ κ ε α) : Program σ κ ε (Option α) := fun s =>
  ⟨(x s).calls, .ok (x s).answer.toOption, (x s).world⟩

-- It keeps a record of the calls, and says which of them the record allows.
structure Watch (ω κ : Type) where
  allows : ω → κ → Prop
  next : ω → κ → ω

variable {m : Watch ω κ}

def Watch.Accepts (m : Watch ω κ) : ω → List κ → Prop
  | _, [] => True
  | w, k :: ks => m.allows w k ∧ m.Accepts (m.next w k) ks

theorem Watch.accepts_append {w : ω} {ks ks' : List κ} :
    m.Accepts w (ks ++ ks') ↔ m.Accepts w ks ∧ m.Accepts (ks.foldl m.next w) ks' := by
  induction ks generalizing w with
  | nil => simp [Watch.Accepts]
  | cons k ks ih => rw [List.cons_append, Watch.Accepts, Watch.Accepts, ih, List.foldl_cons, and_assoc]

-- Each call of an accepted run is allowed by the record of the calls before it.
theorem Watch.Accepts.allows {w : ω} {ks ks' : List κ} {k : κ} (h : m.Accepts w (ks ++ k :: ks')) :
    m.allows (ks.foldl m.next w) k :=
  (Watch.accepts_append.1 h).2.1

-- From a record that meets `P` every call is allowed, and an answer leaves a record that meets `Q`.
def Meets (m : Watch ω κ) (P : ω → Prop) (x : Program σ κ ε α) (Q : α → ω → Prop) : Prop :=
  ∀ s w, P w → m.Accepts w (x s).calls ∧ ∀ a, (x s).answer = .ok a → Q a ((x s).calls.foldl m.next w)

variable {P P' : ω → Prop} {Q Q' : α → ω → Prop} {x : Program σ κ ε α}

theorem Meets.mono (h : Meets m P x Q) (hP : ∀ w, P' w → P w) (hQ : ∀ a w, Q a w → Q' a w) : Meets m P' x Q' :=
  fun s w hw => ⟨(h s w (hP w hw)).1, fun a ha => hQ a _ ((h s w (hP w hw)).2 a ha)⟩

theorem meets_pure {a : α} (h : ∀ w, P w → Q a w) : Meets m P (pure a : Program σ κ ε α) Q := by
  rintro s w hw
  refine ⟨trivial, fun b hb => ?_⟩
  obtain rfl := Except.ok.inj hb
  exact h w hw

theorem Meets.bind {R : β → ω → Prop} {f : α → Program σ κ ε β} (h : Meets m P x Q)
    (hf : ∀ a, Meets m (Q a) (f a) R) : Meets m P (x >>= f) R := by
  intro s w hw
  obtain ⟨haccepts, hanswer⟩ := h s w hw
  change m.Accepts w ((x s).andThen f).calls ∧ ∀ b, ((x s).andThen f).answer = .ok b →
    R b (((x s).andThen f).calls.foldl m.next w)
  unfold Run.andThen
  split
  · exact ⟨haccepts, fun b hb => absurd hb (by simp)⟩
  · next a ha =>
    obtain ⟨haccepts', hanswer'⟩ := hf a (x s).world _ (hanswer a ha)
    refine ⟨Watch.accepts_append.2 ⟨haccepts, haccepts'⟩, fun b hb => ?_⟩
    rw [List.foldl_append]
    exact hanswer' b hb

theorem meets_throwing {e : ε} : Meets m P (throwing e : Program σ κ ε α) Q :=
  fun _ _ _ => ⟨trivial, fun _ h => absurd h (by simp [throwing])⟩

theorem meets_lift {y : Except ε α} (h : ∀ a w, y = .ok a → P w → Q a w) : Meets m P (lift y : Program σ κ ε α) Q :=
  fun _ w hw => ⟨trivial, fun a ha => h a w ha hw⟩

theorem meets_look {f : σ → α} (h : ∀ a w, P w → Q a w) : Meets m P (look f : Program σ κ ε α) Q :=
  fun _ w hw => ⟨trivial, fun a _ => h a w hw⟩

theorem meets_emit {k : κ} {Q : Unit → ω → Prop} (hallows : ∀ w, P w → m.allows w k)
    (hnext : ∀ w, P w → Q () (m.next w k)) : Meets m P (emit k : Program σ κ ε Unit) Q :=
  fun _ w hw => ⟨⟨hallows w hw, trivial⟩, fun _ _ => hnext w hw⟩

theorem meets_perform {op : σ → Except ε α × σ} {call : Except ε α → κ}
    (hallows : ∀ s w, P w → m.allows w (call (op s).1))
    (hnext : ∀ s w a, P w → (op s).1 = .ok a → Q a (m.next w (call (.ok a)))) :
    Meets m P (perform op call) Q := by
  intro s w hw
  refine ⟨⟨hallows s w hw, trivial⟩, fun a ha => ?_⟩
  have hanswer : (op s).1 = .ok a := ha
  change Q a (m.next w (call (op s).1))
  rw [hanswer]
  exact hnext s w a hw hanswer

theorem Meets.rewording {f : ε → ε'} (h : Meets m P x Q) : Meets m P (rewording f x) Q := by
  intro s w hw
  refine ⟨(h s w hw).1, fun a ha => (h s w hw).2 a ?_⟩
  cases hanswer : (x s).answer with
  | error e => exact absurd ha (by simp [Monitor.rewording, hanswer, Except.mapError])
  | ok b => simpa [Monitor.rewording, hanswer, Except.mapError] using ha

-- An operation whose failure the program goes on from.
theorem meets_attempting_perform {op : σ → Except ε α × σ} {call : Except ε α → κ} {Q : Option α → ω → Prop}
    (hallows : ∀ s w, P w → m.allows w (call (op s).1))
    (hnext : ∀ s w, P w → Q (op s).1.toOption (m.next w (call (op s).1))) :
    Meets m P (attempting (perform op call)) Q := by
  intro s w hw
  refine ⟨⟨hallows s w hw, trivial⟩, fun a ha => ?_⟩
  obtain rfl := Except.ok.inj ha
  exact hnext s w hw

end Monitor
