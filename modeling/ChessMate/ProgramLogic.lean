import Mathlib.Logic.Relation
import Mathlib.Tactic.Common

/-! # Programs with a state and assertions

A program reads and writes a state of type `σ` and may stop with a failed
assertion of type `ε`: it is a computation of `StateT σ (Except ε)`.
`Returns c s a s'` is one run that ends.

`Runs mayFail step P c Q` is correctness together with what happened on the way:
from every state that satisfies `P` the program runs to its end, the state has
changed by a sequence of `step`s, and `Q` holds of the result and of the last
state; only if `mayFail` holds may an assertion fail instead, so that
`Runs False` is total correctness (`Runs.total`).  The steps say once what a
program can do to the state.  A property that every step keeps is `Stable`; it
can be framed around any program (`Runs.frame`) and holds after the whole run
(`Stable.steps`).  A property of which nothing more is known than that a program ends
with it if it began with it is kept by the program (`Keeps`).

The rules follow the program text.
-/
namespace ProgramLogic
open Relation

universe u
variable {σ ε α β : Type u}

/-- A program over states `σ` whose assertions are named by `ε`. -/
abbrev Program (σ ε : Type u) : Type u → Type u := StateT σ (Except ε)

/-- The action that is a function of the state. -/
def act (f : σ → α × σ) : Program σ ε α := fun s => .ok (f s)

/-- A failed assertion. -/
def fail (e : ε) : Program σ ε α := fun _ => .error e

/-- The program runs from `s` to its end, returning `a` in state `s'`. -/
def Returns (c : Program σ ε α) (s : σ) (a : α) (s' : σ) : Prop := c s = .ok (a, s')

theorem Returns.unique {c : Program σ ε α} {s s₁ s₂ : σ} {a₁ a₂ : α}
    (h₁ : Returns c s a₁ s₁) (h₂ : Returns c s a₂ s₂) : a₁ = a₂ ∧ s₁ = s₂ := by
  have h := h₁.symm.trans h₂
  cases h
  exact ⟨rfl, rfl⟩

theorem returns_pure (a : α) (s : σ) : Returns (pure a : Program σ ε α) s a s := rfl

theorem returns_act (f : σ → α × σ) (s : σ) :
    Returns (act f : Program σ ε α) s (f s).1 (f s).2 := rfl

theorem returns_bind {c : Program σ ε α} {k : α → Program σ ε β} {s s' s'' : σ} {a : α} {b : β}
    (h : Returns c s a s') (hk : Returns (k a) s' b s'') : Returns (c >>= k) s b s'' := by
  show (c >>= k) s = _
  have hc : c s = .ok (a, s') := h
  simp only [bind, StateT.bind, Except.bind, hc]
  exact hk

theorem fails_left {c : Program σ ε α} {k : α → Program σ ε β} {s : σ} {e : ε}
    (h : c s = .error e) : (c >>= k) s = .error e := by
  simp only [bind, StateT.bind, Except.bind, h]

theorem fails_bind {c : Program σ ε α} {k : α → Program σ ε β} {s s' : σ} {a : α} {e : ε}
    (h : Returns c s a s') (hk : k a s' = .error e) : (c >>= k) s = .error e := by
  have hc : c s = .ok (a, s') := h
  simp only [bind, StateT.bind, Except.bind, hc]
  exact hk

/-- The program is run, and its result tested. -/
def test (c : Program σ ε α) (s : σ) (p : α → σ → Bool) : Bool :=
  match c s with
  | .ok (a, s') => p a s'
  | .error _ => false

theorem returns_of_test {c : Program σ ε α} {s : σ} {p : α → σ → Bool} (h : test c s p = true) :
    ∃ a s', Returns c s a s' ∧ p a s' = true := by
  unfold test at h
  split at h
  · exact ⟨_, _, by assumption, h⟩
  · cases h

/-! ## Stable properties -/

/-- Every step keeps the property. -/
def Stable (step : σ → σ → Prop) (F : σ → Prop) : Prop := ∀ s s', step s s' → F s → F s'

theorem Stable.steps {step : σ → σ → Prop} {F : σ → Prop} (h : Stable step F) {s s' : σ}
    (hs : ReflTransGen step s s') (hF : F s) : F s' := by
  induction hs with
  | refl => exact hF
  | tail _ hstep ih => exact h _ _ hstep ih

/-! ## Invariants -/

/-- A run that ends keeps the property. -/
def Keeps (I : σ → Prop) (c : Program σ ε α) : Prop := ∀ s a s', Returns c s a s' → I s → I s'

theorem returns_bind_iff {c : Program σ ε α} {k : α → Program σ ε β} {s s'' : σ} {b : β} :
    Returns (c >>= k) s b s'' ↔ ∃ a s', Returns c s a s' ∧ Returns (k a) s' b s'' := by
  constructor
  · intro h
    cases hc : c s with
    | error e =>
      have hfail : (c >>= k) s = .ok (b, s'') := h
      rw [fails_left hc] at hfail
      cases hfail
    | ok result =>
      obtain ⟨a, s'⟩ := result
      have hk : (c >>= k) s = .ok (b, s'') := h
      simp only [bind, StateT.bind, Except.bind, hc] at hk
      exact ⟨a, s', hc, hk⟩
  · rintro ⟨a, s', hc, hk⟩
    exact returns_bind hc hk

namespace Keeps
variable {I : σ → Prop}

theorem ret (a : α) : Keeps I (pure a : Program σ ε α) := by
  intro s a' s' h hI
  obtain ⟨-, rfl⟩ := h.unique (returns_pure a s)
  exact hI

theorem failed (e : ε) : Keeps I (fail e : Program σ ε α) := by
  intro s a s' h _
  cases h

theorem one {f : σ → α × σ} (h : ∀ s, I s → I (f s).2) : Keeps I (act f : Program σ ε α) := by
  intro s a s' hr hI
  obtain ⟨-, rfl⟩ := hr.unique (returns_act f s)
  exact h s hI

theorem seq {c : Program σ ε α} {k : α → Program σ ε β} (hc : Keeps I c) (hk : ∀ a, Keeps I (k a)) :
    Keeps I (c >>= k) := by
  intro s b s'' h hI
  obtain ⟨a, s', hr, hr'⟩ := returns_bind_iff.mp h
  exact hk a s' b s'' hr' (hc s a s' hr hI)

end Keeps

/-! ## Correctness -/

/-- The program runs from `s` to its end as `Q` says, or fails where it may. -/
def RunsFrom (mayFail : Prop) (step : σ → σ → Prop) (c : Program σ ε α) (Q : α → σ → Prop) (s : σ) :
    Prop :=
  (∃ a s', Returns c s a s' ∧ ReflTransGen step s s' ∧ Q a s') ∨ (mayFail ∧ ∃ e, c s = .error e)

/-- **Correctness**, along steps of the state. -/
def Runs (mayFail : Prop) (step : σ → σ → Prop) (P : σ → Prop) (c : Program σ ε α)
    (Q : α → σ → Prop) : Prop :=
  ∀ s, P s → RunsFrom mayFail step c Q s

theorem RunsFrom.imp {mayFail : Prop} {step : σ → σ → Prop} {Q Q' : α → σ → Prop}
    {c : Program σ ε α} {s : σ} (h : RunsFrom mayFail step c Q' s) (hQ : ∀ a s, Q' a s → Q a s) :
    RunsFrom mayFail step c Q s := by
  rcases h with ⟨a, s', hr, hst, hq⟩ | hf
  · exact Or.inl ⟨a, s', hr, hst, hQ a s' hq⟩
  · exact Or.inr hf

namespace Runs
variable {mayFail : Prop} {step : σ → σ → Prop} {P P' : σ → Prop} {Q Q' : α → σ → Prop}

/-- **Total correctness**: where nothing may fail, the program returns. -/
theorem total {c : Program σ ε α} (h : Runs False step P c Q) {s : σ} (hs : P s) :
    ∃ a s', Returns c s a s' ∧ ReflTransGen step s s' ∧ Q a s' :=
  (h s hs).resolve_right fun hf => hf.1

theorem of_returns {c : Program σ ε α} (h : Runs mayFail step P c Q) {s s' : σ} {a : α} (hs : P s)
    (hr : Returns c s a s') : ReflTransGen step s s' ∧ Q a s' := by
  rcases h s hs with ⟨a', s'', hr', hst, hq⟩ | ⟨-, e, he⟩
  · obtain ⟨rfl, rfl⟩ := hr.unique hr'
    exact ⟨hst, hq⟩
  · have hr' : c s = .ok (a, s') := hr
    rw [he] at hr'
    cases hr'

theorem conseq {c : Program σ ε α} (h : Runs mayFail step P' c Q') (hP : ∀ s, P s → P' s)
    (hQ : ∀ a s, Q' a s → Q a s) : Runs mayFail step P c Q :=
  fun s hs => (h s (hP s hs)).imp hQ

/-- More steps may be allowed. -/
theorem weaken {step' : σ → σ → Prop} {c : Program σ ε α} (h : Runs mayFail step P c Q)
    (hstep : ∀ s s', step s s' → step' s s') : Runs mayFail step' P c Q := by
  intro s hs
  rcases h s hs with ⟨a, s', hr, hst, hq⟩ | hf
  · exact Or.inl ⟨a, s', hr, ReflTransGen.mono hstep _ _ hst, hq⟩
  · exact Or.inr hf

theorem ret {a : α} (h : ∀ s, P s → Q a s) : Runs mayFail step P (pure a : Program σ ε α) Q :=
  fun s hs => Or.inl ⟨a, s, returns_pure a s, .refl, h s hs⟩

/-- An action that is one step. -/
theorem one {f : σ → α × σ} (h : ∀ s, P s → step s (f s).2 ∧ Q (f s).1 (f s).2) :
    Runs mayFail step P (act f : Program σ ε α) Q :=
  fun s hs => Or.inl ⟨(f s).1, (f s).2, returns_act f s, .single (h s hs).1, (h s hs).2⟩

/-- An action that leaves the state as it is. -/
theorem read {f : σ → α} (h : ∀ s, P s → Q (f s) s) :
    Runs mayFail step P (act fun s => (f s, s) : Program σ ε α) Q :=
  fun s hs => Or.inl ⟨f s, s, returns_act _ s, .refl, h s hs⟩

/-- **Sequencing.** -/
theorem seq {R : β → σ → Prop} {c : Program σ ε α} {k : α → Program σ ε β}
    (hc : Runs mayFail step P c Q) (hk : ∀ a, Runs mayFail step (Q a) (k a) R) :
    Runs mayFail step P (c >>= k) R := by
  intro s hs
  rcases hc s hs with ⟨a, s', hr, hst, hq⟩ | ⟨hf, e, he⟩
  · rcases hk a s' hq with ⟨b, s'', hr', hst', hR⟩ | ⟨hf, e, he⟩
    · exact Or.inl ⟨b, s'', returns_bind hr hr', hst.trans hst', hR⟩
    · exact Or.inr ⟨hf, e, fails_bind hr he⟩
  · exact Or.inr ⟨hf, e, fails_left he⟩

/-- **Framing**: what every step keeps holds afterwards if it held before. -/
theorem frame {F : σ → Prop} {c : Program σ ε α} (h : Runs mayFail step P c Q)
    (hF : Stable step F) :
    Runs mayFail step (fun s => P s ∧ F s) c fun a s => Q a s ∧ F s := by
  rintro s ⟨hs, hFs⟩
  rcases h s hs with ⟨a, s', hr, hst, hq⟩ | hf
  · exact Or.inl ⟨a, s', hr, hst, hq, hF.steps hst hFs⟩
  · exact Or.inr hf

end Runs
end ProgramLogic
