/-! # Runs of a step function, with their past

    `Run step s past t`: starting at `s` the machine is now at `t`, and `past`
    lists the states it stepped from, the latest first.  Keeping the past in the
    index lets an invariant talk about what has happened so far. -/

namespace Runs

variable {ε σ : Type}

/-- Runs of a fallible step function. -/
inductive Run (step : σ → Except ε σ) (s : σ) : List σ → σ → Prop where
  | start : Run step s [] s
  | snoc {past : List σ} {t u : σ} : Run step s past t → step t = .ok u →
      Run step s (t :: past) u

variable {step : σ → Except ε σ} {s t u : σ} {past : List σ}

/-- **INVARIANT RULE**: what holds at the start and survives every step taken
    from a state that meets `G` holds after every run through such states. -/
theorem Run.invariant {G : σ → Prop} {P : List σ → σ → Prop} (h0 : P [] s)
    (hstep : ∀ past t u, P past t → G t → step t = .ok u → P (t :: past) u)
    (h : Run step s past t) (hG : ∀ c ∈ past, G c) : P past t := by
  induction h with
  | start => exact h0
  | snoc _ hs ih =>
      exact hstep _ _ _ (ih (fun c hc => hG c (List.mem_cons_of_mem _ hc)))
        (hG _ List.mem_cons_self) hs

/-- Runs compose. -/
theorem Run.trans {past' : List σ} (h : Run step s past t) (h' : Run step t past' u) :
    Run step s (past' ++ past) u := by
  induction h' with
  | start => exact h
  | snoc _ hs ih => exact Run.snoc ih hs

/-- A run that takes its first step apart. -/
theorem Run.cons {past' : List σ} (hs : step s = .ok t) (h' : Run step t past' u) :
    Run step s (past' ++ [s]) u :=
  Run.trans (Run.snoc Run.start hs) h'

/-- A run has taken no step, or a first one; the rest is a run of its own. -/
theorem Run.first (h : Run step s past t) :
    (past = [] ∧ t = s) ∨
      ∃ u past', past = past' ++ [s] ∧ step s = .ok u ∧ Run step u past' t := by
  induction h with
  | start => exact Or.inl ⟨rfl, rfl⟩
  | @snoc past t u _ hs ih =>
      rcases ih with ⟨rfl, rfl⟩ | ⟨v, past', rfl, hv, hrun⟩
      · exact Or.inr ⟨u, [], rfl, hs, Run.start⟩
      · exact Or.inr ⟨v, t :: past', rfl, hv, Run.snoc hrun hs⟩

theorem Run.head (h : Run step s past t) :
    (past = [] ∧ t = s) ∨ ∃ u past', step s = .ok u ∧ Run step u past' t := by
  rcases h.first with hnone | ⟨u, past', -, hu, hrun⟩
  · exact Or.inl hnone
  · exact Or.inr ⟨u, past', hu, hrun⟩

/-- A run passes through the state it starts in. -/
theorem Run.start_mem (h : Run step s past t) : s ∈ t :: past := by
  induction h with
  | start => exact List.mem_cons_self
  | snoc _ _ ih => exact List.mem_cons_of_mem _ ih

/-- What a state of the past steps to is in the run. -/
theorem Run.next_mem (h : Run step s past t) {a b : σ} (ha : a ∈ past) (hs : step a = .ok b) :
    b ∈ t :: past := by
  induction h with
  | start => exact nomatch ha
  | snoc _ hs' ih =>
      rcases List.mem_cons.mp ha with rfl | ha
      · rw [Except.ok.inj (hs.symm.trans hs')]
        exact List.mem_cons_self
      · exact List.mem_cons_of_mem _ (ih ha)

/-- Of two runs from one state the longer one has been through the end of the other. -/
theorem Run.linear {past' : List σ} (h : Run step s past t) (h' : Run step s past' u) :
    u ∈ t :: past ∨ t ∈ u :: past' := by
  induction h' with
  | start => exact Or.inl h.start_mem
  | snoc _ hs ih =>
      rcases ih with hmem | hmem
      · rcases List.mem_cons.mp hmem with rfl | hmem
        · exact Or.inr (List.mem_cons_of_mem _ List.mem_cons_self)
        · exact Or.inl (h.next_mem hmem hs)
      · exact Or.inr (List.mem_cons_of_mem _ hmem)

/-- A run that gets stuck has been through every state that can be reached. -/
theorem Run.mem_of_stuck {past' : List σ} {e : ε} (h : Run step s past t)
    (he : step t = .error e) (h' : Run step s past' u) : u ∈ t :: past := by
  induction h' with
  | start => exact h.start_mem
  | snoc _ hs ih =>
      rcases List.mem_cons.mp ih with rfl | hmem
      · exact nomatch he.symm.trans hs
      · exact h.next_mem hmem hs

/-- Follow a run for a given number of steps. -/
def follow (step : σ → Except ε σ) : Nat → σ → Except ε (List σ × σ)
  | 0, s => .ok ([], s)
  | n + 1, s =>
      match step s with
      | .error e => .error e
      | .ok t =>
          match follow step n t with
          | .error e => .error e
          | .ok (past, u) => .ok (past ++ [s], u)

/-- Steps that were followed make a run. -/
theorem run_of_follow {n : Nat} (h : follow step n s = .ok (past, u)) :
    Run step s past u := by
  induction n generalizing s past with
  | zero =>
      obtain ⟨rfl, rfl⟩ := Prod.mk.inj (Except.ok.inj h)
      exact Run.start
  | succ n ih =>
      unfold follow at h
      cases hs : step s with
      | error e => rw [hs] at h; exact nomatch h
      | ok t =>
          simp only [hs] at h
          cases hf : follow step n t with
          | error e => rw [hf] at h; exact nomatch h
          | ok r =>
              rw [hf] at h
              obtain ⟨rfl, rfl⟩ := Prod.mk.inj (Except.ok.inj h)
              exact Run.cons hs (ih hf)

/-- Whether the first `n` states of the run meet `P`. -/
def holdsFor (P : σ → Bool) (step : σ → Except ε σ) : Nat → σ → Bool
  | 0, _ => true
  | n + 1, s =>
      P s && match step s with
        | .ok t => holdsFor P step n t
        | .error _ => true

/-- What was checked for the first states holds in each of them. -/
theorem Run.of_holdsFor {P : σ → Bool} {n : Nat} (hP : holdsFor P step n s = true)
    (h : Run step s past t) (hn : past.length < n) : P t = true := by
  induction n generalizing s past with
  | zero => exact absurd hn (Nat.not_lt_zero _)
  | succ n ih =>
      unfold holdsFor at hP
      rw [Bool.and_eq_true] at hP
      rcases h.first with ⟨-, rfl⟩ | ⟨u, past', rfl, hu, hrun⟩
      · exact hP.1
      · have hrest := hP.2
        rw [hu] at hrest
        rw [List.length_append, List.length_singleton] at hn
        exact ih hrest hrun (by omega)

end Runs
