import CamlInterp.RunProofs

/-! # Related computations

    Two fallible computations are related when they fail alike or both succeed
    with related results.  The bind rule lets a relation be followed through two
    programs statement by statement; the run rule carries it along runs. -/

namespace Related

variable {ε α β γ δ : Type}

/-- Both fail with the same error, or both succeed with results in `R`. -/
inductive Both (R : α → β → Prop) : Except ε α → Except ε β → Prop where
  | error (e : ε) : Both R (.error e) (.error e)
  | ok {a : α} {b : β} : R a b → Both R (.ok a) (.ok b)

variable {R : α → β → Prop} {S : γ → δ → Prop} {x : Except ε α} {y : Except ε β}

/-- **BIND RULE**: related computations go on in related ways. -/
theorem Both.bind {f : α → Except ε γ} {g : β → Except ε δ} (h : Both R x y)
    (hfg : ∀ a b, R a b → Both S (f a) (g b)) : Both S (x >>= f) (y >>= g) := by
  cases h with
  | error e => exact Both.error e
  | ok hab => exact hfg _ _ hab

theorem Both.mono {R' : α → β → Prop} (h : Both R x y) (hR : ∀ a b, R a b → R' a b) :
    Both R' x y := by
  cases h with
  | error e => exact Both.error e
  | ok hab => exact Both.ok (hR _ _ hab)

/-- A computation is related to itself. -/
theorem Both.refl {R : α → α → Prop} (hR : ∀ a, R a a) (x : Except ε α) : Both R x x := by
  cases x with
  | error e => exact Both.error e
  | ok a => exact Both.ok (hR a)

theorem Both.same (x : Except ε α) : Both Eq x x := Both.refl (fun _ => rfl) x

/-- Two images of one computation. -/
theorem Both.map {f : γ → α} {g : γ → β} (hfg : ∀ c, R (f c) (g c)) (z : Except ε γ) :
    Both R (z.map f) (z.map g) := by
  cases z with
  | error e => exact Both.error e
  | ok c => exact Both.ok (hfg c)

/-- What one computation returns is matched by the other. -/
theorem Both.exists_right (h : Both R x y) {a : α} (hx : x = .ok a) : ∃ b, y = .ok b ∧ R a b := by
  cases h with
  | error e => exact nomatch hx
  | ok hab => exact ⟨_, rfl, by rw [← Except.ok.inj hx]; exact hab⟩

end Related
