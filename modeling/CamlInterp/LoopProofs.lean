import CamlInterp.RunProofs

/-! # Loops — `while` over a fallible body

    The rounds of a loop are a run of `round`.  A loop that has an invariant and a
    measure that goes down ends with the invariant and a false condition. -/

namespace Loops

open Runs

variable {ε σ : Type}

/-- `while (cond) body`, with at most `fuel` tests; `stuck` stands for a loop that
    is still running. -/
def loop (stuck : ε) (cond : σ → Except ε Bool) (body : σ → Except ε σ) :
    Nat → σ → Except ε σ
  | 0, _ => .error stuck
  | fuel + 1, s => do
      if ← cond s then loop stuck cond body fuel (← body s) else .ok s

/-- One round; `stuck` when the loop is over. -/
def round (stuck : ε) (cond : σ → Except ε Bool) (body : σ → Except ε σ) (s : σ) :
    Except ε σ := do
  if ← cond s then body s else .error stuck

variable {stuck : ε} {cond : σ → Except ε Bool} {body : σ → Except ε σ} {fuel : Nat}
  {s s' t : σ} {past : List σ}

theorem loop_of_false (h : cond s = .ok false) : loop stuck cond body (fuel + 1) s = .ok s := by
  unfold loop
  rw [h]
  rfl

theorem loop_of_true (h : cond s = .ok true) (hb : body s = .ok t) :
    loop stuck cond body (fuel + 1) s = loop stuck cond body fuel t := by
  conv => lhs; unfold loop
  rw [h]
  show (body s >>= _) = _
  rw [hb]
  rfl

/-- A loop that ends either was over or went through a round. -/
theorem loop_cases (h : loop stuck cond body fuel s = .ok s') :
    (cond s = .ok false ∧ s' = s) ∨
      ∃ f t, fuel = f + 1 ∧ cond s = .ok true ∧ body s = .ok t ∧
        loop stuck cond body f t = .ok s' := by
  cases fuel with
  | zero => exact nomatch h
  | succ f =>
      unfold loop at h
      cases hc : cond s with
      | error e => rw [hc] at h; exact nomatch h
      | ok b =>
          cases b with
          | false =>
              rw [hc] at h
              exact Or.inl ⟨rfl, (Except.ok.inj h).symm⟩
          | true =>
              rw [hc] at h
              cases hb : body s with
              | error e =>
                  simp only [bind, Except.bind, if_true, hb] at h
                  exact nomatch h
              | ok t =>
                  simp only [bind, Except.bind, if_true, hb] at h
                  exact Or.inr ⟨f, t, rfl, rfl, rfl, h⟩

/-- **TERMINATION RULE**: an invariant and a measure that goes down. -/
theorem loop_ends {I : σ → Prop} {μ : σ → Nat}
    (hstep : ∀ s, I s → cond s = .ok false ∨
      ∃ t, cond s = .ok true ∧ body s = .ok t ∧ I t ∧ μ t < μ s)
    (hI : I s) (hf : μ s < fuel) :
    ∃ s', loop stuck cond body fuel s = .ok s' ∧ I s' ∧ cond s' = .ok false := by
  induction fuel generalizing s with
  | zero => exact absurd hf (Nat.not_lt_zero _)
  | succ fuel ih =>
      rcases hstep s hI with hc | ⟨t, hc, hb, hIt, hμ⟩
      · exact ⟨s, loop_of_false hc, hI, hc⟩
      · obtain ⟨s', hs', hI', hc'⟩ := ih hIt (by omega)
        exact ⟨s', by rw [loop_of_true hc hb]; exact hs', hI', hc'⟩

/-- A round is taken when the condition holds, and does what the body does. -/
theorem round_eq_ok : round stuck cond body s = .ok t ↔ cond s = .ok true ∧ body s = .ok t := by
  unfold round
  cases hc : cond s with
  | error e =>
      constructor
      · intro h; exact nomatch h
      · intro h; exact nomatch h.1
  | ok b =>
      cases b with
      | false =>
          constructor
          · intro h; exact nomatch h
          · intro h; exact nomatch h.1
      | true =>
          constructor
          · intro h; exact ⟨rfl, h⟩
          · intro h; exact h.2

/-- A loop that ends is a run of rounds. -/
theorem run_of_loop (h : loop stuck cond body fuel s = .ok s') :
    ∃ past, Run (round stuck cond body) s past s' ∧ cond s' = .ok false := by
  induction fuel generalizing s with
  | zero => exact nomatch h
  | succ fuel ih =>
      rcases loop_cases h with ⟨hc, rfl⟩ | ⟨f, t, hf, hc, hb, ht⟩
      · exact ⟨[], Run.start, hc⟩
      · obtain rfl := Nat.succ.inj hf
        obtain ⟨past, hrun, hc'⟩ := ih ht
        exact ⟨_, Run.cons (round_eq_ok.mpr ⟨hc, hb⟩) hrun, hc'⟩

/-- From every state it passes a loop goes on to the same end. -/
theorem loop_from (h : loop stuck cond body fuel s = .ok s')
    (hrun : Run (round stuck cond body) s past t) :
    ∃ f, loop stuck cond body f t = .ok s' := by
  refine Run.invariant (G := fun _ => True)
    (P := fun _ t => ∃ f, loop stuck cond body f t = .ok s') ⟨fuel, h⟩ ?_ hrun (fun _ _ => trivial)
  rintro past t u ⟨f, hf⟩ - hu
  obtain ⟨hc, hb⟩ := round_eq_ok.mp hu
  rcases loop_cases hf with ⟨hc', -⟩ | ⟨f', t', -, -, hb', ht'⟩
  · exact nomatch hc.symm.trans hc'
  · obtain rfl := Except.ok.inj (hb.symm.trans hb')
    exact ⟨f', ht'⟩

end Loops
