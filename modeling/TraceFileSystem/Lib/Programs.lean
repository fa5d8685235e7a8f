import Mathlib.Tactic

/-!
# Programs that may stop

Programs over a state that either return a value or stop for a reason, and that leave the state
behind as it is in both cases.  `Returns` is the rule of their postconditions: the program returns
from a state, and what it returns and the state it leaves satisfy a property.  The simp lemmas push
it through the constructs of a program, so that a straight-line program becomes a statement about
its last state.
-/

namespace Programs

variable {ε σ α β : Type} {p : EStateM ε σ α} {f : α → EStateM ε σ β} {s : σ} {Q : α → σ → Prop}

/-- The program returns, and its value and its last state satisfy a property. -/
def Returns (p : EStateM ε σ α) (s : σ) (Q : α → σ → Prop) : Prop :=
  ∃ a s', p s = .ok a s' ∧ Q a s'

/-- A value is returned. -/
@[simp] theorem returns_pure (a : α) : Returns (pure a : EStateM ε σ α) s Q ↔ Q a s := by
  constructor
  · rintro ⟨a, s', h, hQ⟩
    cases h
    exact hQ
  · exact fun hQ => ⟨a, s, rfl, hQ⟩

/-- One program after the other. -/
@[simp] theorem returns_bind {Q : β → σ → Prop} :
    Returns (p >>= f) s Q ↔ Returns p s fun a s' => Returns (f a) s' Q := by
  change (∃ b t, EStateM.bind p f s = .ok b t ∧ Q b t) ↔ _
  unfold EStateM.bind
  cases h : p s with
  | ok a s' =>
    constructor
    · exact fun hQ => ⟨a, s', h, hQ⟩
    · rintro ⟨a', s'', h', hQ⟩
      rw [h] at h'
      cases h'
      exact hQ
  | error e s' =>
    constructor
    · rintro ⟨b, t, h', -⟩
      cases h'
    · rintro ⟨a, s'', h', -⟩
      rw [h] at h'
      cases h'

/-- A program whose value is mapped. -/
@[simp] theorem returns_map {g : α → β} {Q : β → σ → Prop} :
    Returns (g <$> p) s Q ↔ Returns p s fun a => Q (g a) := by
  rw [← bind_pure_comp, returns_bind]
  simp only [returns_pure]

/-- A program that branches. -/
@[simp] theorem returns_ite {c : Prop} [Decidable c] {q : EStateM ε σ α} :
    Returns (if c then p else q) s Q ↔ if c then Returns p s Q else Returns q s Q := by
  split <;> rfl

/-- The state is changed. -/
@[simp] theorem returns_modify {Q : Unit → σ → Prop} (g : σ → σ) :
    Returns (modify g : EStateM ε σ Unit) s Q ↔ Q () (g s) := by
  constructor
  · rintro ⟨a, s', h, hQ⟩
    cases h
    exact hQ
  · exact fun hQ => ⟨(), g s, rfl, hQ⟩

/-- The state is read. -/
@[simp] theorem returns_get {Q : σ → σ → Prop} : Returns (get : EStateM ε σ σ) s Q ↔ Q s s := by
  constructor
  · rintro ⟨a, s', h, hQ⟩
    cases h
    exact hQ
  · exact fun hQ => ⟨s, s, rfl, hQ⟩

/-- A program that stops does not return. -/
@[simp] theorem not_returns_throw (e : ε) : ¬Returns (throw e : EStateM ε σ α) s Q := by
  rintro ⟨a, s', h, -⟩
  cases h

/-- The last state of a program, whether it has returned or stopped. -/
def lastState (p : EStateM ε σ α) (s : σ) : σ :=
  match p s with
  | .ok _ s' => s'
  | .error _ s' => s'

/-- A program behind one that returns. -/
theorem bind_of_ok {a : α} {s' : σ} (h : p s = .ok a s') : (p >>= f) s = f a s' := by
  change EStateM.bind p f s = f a s'
  rw [EStateM.bind, h]

/-- A weaker postcondition. -/
theorem Returns.mono {Q' : α → σ → Prop} (h : Returns p s Q) (hQ : ∀ a s', Q a s' → Q' a s') :
    Returns p s Q' := by
  obtain ⟨a, s', hp, h⟩ := h
  exact ⟨a, s', hp, hQ a s' h⟩

/-- Two postconditions of one run. -/
theorem Returns.and {Q' : α → σ → Prop} (h : Returns p s Q) (h' : Returns p s Q') :
    Returns p s fun a s' => Q a s' ∧ Q' a s' := by
  obtain ⟨a, s', hp, hQ⟩ := h
  obtain ⟨a', s'', hp', hQ'⟩ := h'
  rw [hp] at hp'
  cases hp'
  exact ⟨a, s', hp, hQ, hQ'⟩

/-- A program that returns leaves its last state behind. -/
theorem Returns.lastState (h : Returns p s Q) : ∃ a, Q a (lastState p s) := by
  obtain ⟨a, s', hp, h⟩ := h
  rw [Programs.lastState, hp]
  exact ⟨a, h⟩

end Programs
