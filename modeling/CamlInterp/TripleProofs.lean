import Mathlib.Logic.Basic

/-! # Triples for state and errors

    Programs that read and write a state and may fail.  `Runs E P x Q` says that
    `x`, run in a state with `P`, either returns and leaves a state with `Q`, or
    fails with an error that `E` allows. -/

namespace Triples

variable {σ ε α β : Type} {E : ε → Prop} {P P' : σ → Prop} {Q Q' : α → σ → Prop}

/-- What a run may come to. -/
def Ends (E : ε → Prop) (Q : α → σ → Prop) : Except ε (α × σ) → Prop
  | .ok (a, s) => Q a s
  | .error e => E e

/-- From every state with `P` the run of `x` ends in `Q`, or with an error of `E`. -/
def Runs (E : ε → Prop) (P : σ → Prop) (x : StateT σ (Except ε) α) (Q : α → σ → Prop) : Prop :=
  ∀ s, P s → Ends E Q (x s)

theorem Runs.pure {a : α} (h : ∀ s, P s → Q a s) :
    Runs E P (pure a : StateT σ (Except ε) α) Q := h

theorem Runs.throw {e : ε} (h : E e) : Runs E P (throw e : StateT σ (Except ε) α) Q :=
  fun _ _ => h

theorem Runs.get (P : σ → Prop) :
    Runs E P (get : StateT σ (Except ε) σ) (fun t s => t = s ∧ P s) :=
  fun _ hs => ⟨rfl, hs⟩

theorem Runs.modify {f : σ → σ} {R : PUnit → σ → Prop} (h : ∀ s, P s → R ⟨⟩ (f s)) :
    Runs E P (modify f : StateT σ (Except ε) PUnit) R := h

/-- A value or an error that does not depend on the state. -/
theorem Runs.lift {x : Except ε α} (hok : ∀ a s, x = .ok a → P s → Q a s)
    (herror : ∀ e, x = .error e → E e) :
    Runs E P (monadLift x : StateT σ (Except ε) α) Q := by
  intro s hs
  cases x with
  | ok a => exact hok a s rfl hs
  | error e => exact herror e rfl

/-- One run after the other. -/
theorem Runs.bind {R : β → σ → Prop} {x : StateT σ (Except ε) β}
    {f : β → StateT σ (Except ε) α} (hx : Runs E P x R) (hf : ∀ b, Runs E (R b) (f b) Q) :
    Runs E P (x >>= f) Q := by
  intro s hs
  have h := hx s hs
  show Ends E Q (x s >>= fun p => f p.1 p.2)
  cases hr : x s with
  | ok p =>
      rw [hr] at h
      exact hf p.1 p.2 h
  | error e =>
      rw [hr] at h
      exact h

/-- Ask for less, or promise more. -/
theorem Runs.conseq {x : StateT σ (Except ε) α} (hP : ∀ s, P' s → P s) (h : Runs E P x Q)
    (hQ : ∀ a s, Q a s → Q' a s) : Runs E P' x Q' := by
  intro s hs
  have h1 := h s (hP s hs)
  cases hr : x s with
  | ok p =>
      rw [hr] at h1
      exact hQ p.1 p.2 h1
  | error e =>
      rw [hr] at h1
      exact h1

theorem Runs.pre {x : StateT σ (Except ε) α} (h : Runs E P x Q) (hP : ∀ s, P' s → P s) :
    Runs E P' x Q := h.conseq hP fun _ _ hq => hq

theorem Runs.post {x : StateT σ (Except ε) α} (h : Runs E P x Q)
    (hQ : ∀ a s, Q a s → Q' a s) : Runs E P x Q' := h.conseq (fun _ hs => hs) hQ

/-- A fact that does not depend on the state may be used. -/
theorem Runs.fact {φ : Prop} {x : StateT σ (Except ε) α} (h : φ → Runs E P x Q) :
    Runs E (fun s => φ ∧ P s) x Q := fun s hs => h hs.1 s hs.2

end Triples
