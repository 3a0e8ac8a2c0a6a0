import CamlInterp.AttributionProofs

/-! # Calls, returns and exceptions on the function stack

    A call pushes one function; `RETURN` pops one, whether it leaves the call or
    applies its result to surplus arguments; a `GRAB` with too few arguments
    leaves the call and pops nothing; an exception leaves any number of calls
    and pops nothing.  The first half follows the tree of calls inside a call,
    the second half counts calls and returns between `PUSHTRAP` and its
    handler. -/

namespace CamlBalance

open CamlValue CamlOpcode CamlMachine CamlControl CamlInterp CamlStep CamlProfiler CamlDebug
open CamlAttribution Runs

variable {ω : Type}

/-! ## The tree of calls -/

/-- The instructions that raise. -/
def isRaise : Opcode → Bool
  | .RAISE | .RERAISE | .RAISE_NOTRACE => true
  | _ => false

/-- The instructions that switch stacks. -/
def isEffect : Opcode → Bool
  | .PERFORM | .RESUME | .RESUMETERM | .REPERFORMTERM => true
  | _ => false

/-- A `GRAB` with fewer arguments than it requires. -/
def partialGrab (c : Ctl (Machine ω)) : Bool :=
  decide (executing c = some .GRAB) &&
    decide ((fetched c).extraArgs.toInt < (fetched c).operand.toInt)

/-- A label that neither enters nor leaves a call by the normal ways, raises,
    nor switches stacks.  Tail calls are among these. -/
def ordinary (c : Ctl (Machine ω)) : Bool :=
  match executing c with
  | some op =>
      !isApply op && !decide (op = .RETURN) && !isRaise op && !isEffect op && !partialGrab c
  | none =>
      match c with
      | .checkStacks _ => true
      | _ => false

/-- The return frame of a call that was just made, and the words under it. -/
def frameOf (c : Ctl (State ω Profile)) : List Value :=
  c.state.machine.sp.drop (c.state.machine.extraArgs.toNat + 1)

/-- Execution continues at the return address of the frame `fr`, with what the
    frame saved. -/
def Arrives (fr : List Value) (d : Ctl (State ω Profile)) : Prop :=
  ∃ s, d = .next s ∧ fr = ofCode s.machine.pc :: s.machine.env ::
    valLong s.machine.extraArgs :: s.machine.sp

/-- `Inside rt act fr g s c d`: from `c`, inside a call with return frame `fr`,
    execution comes back to that frame at `d`; on the way `g` calls were left by
    a `GRAB` with too few arguments and `s` results were applied to surplus
    arguments.  Every call made inside comes back to its own frame. -/
inductive Inside (rt : Runtime ω) (act : Activation) :
    List Value → Nat → Nat → Ctl (State ω Profile) → Ctl (State ω Profile) → Prop where
  | step {fr g s c c' d} : ordinary (machineOf c) = true →
      step debug rt act c = .ok c' → fr <:+ c'.state.machine.sp →
      Inside rt act fr g s c' d → Inside rt act fr g s c d
  | call {fr g s g' s' c c' e d f} : applied (machineOf c) = some f →
      (functions c).length < 1024 → CamlInterp.step debug rt act c = .ok c' →
      Inside rt act (frameOf c') g s c' e → fr <:+ e.state.machine.sp →
      Inside rt act fr g' s' e d → Inside rt act fr (g + g') (s + s') c d
  | surplus {fr g s c c' d} : ReturnsSurplus (machineOf c) →
      CamlInterp.step debug rt act c = .ok c' → fr <:+ c'.state.machine.sp →
      Inside rt act fr g s c' d → Inside rt act fr g (s + 1) c d
  | ret {fr c d} : executing (machineOf c) = some .RETURN → ¬ ReturnsSurplus (machineOf c) →
      CamlInterp.step debug rt act c = .ok d → Arrives fr d → Inside rt act fr 0 0 c d
  | grab {fr c d} : partialGrab (machineOf c) = true →
      CamlInterp.step debug rt act c = .ok d → Arrives fr d → Inside rt act fr 1 0 c d

variable {rt : Runtime ω} {act : Activation} {past : List (Ctl (State ω Profile))}
  {c c' d : Ctl (State ω Profile)} {fr : List Value} {g s : Nat} {f : CodePtr}

theorem shadow_ordinary {cm : Ctl (Machine ω)} (h : ordinary cm = true) (max : Nat)
    (l : List CodePtr) : shadow max cm l = l := by
  refine shadow_stay (fun op hop => ?_) max l
  unfold ordinary at h
  simp only [hop, Bool.and_eq_true, Bool.not_eq_true', decide_eq_false_iff_not] at h
  exact ⟨h.1.1.1.1, h.1.1.1.2⟩

theorem shadow_partialGrab {cm : Ctl (Machine ω)} (h : partialGrab cm = true) (max : Nat)
    (l : List CodePtr) : shadow max cm l = l := by
  refine shadow_stay (fun op hop => ?_) max l
  unfold partialGrab at h
  rw [Bool.and_eq_true, decide_eq_true_iff, hop] at h
  rw [Option.some.inj h.1]
  exact ⟨rfl, fun hr => nomatch hr⟩

/-- The end of a call tree is reached when its start is. -/
theorem Inside.reached (h : Inside rt act fr g s c d) (hr : Reached rt act past c) :
    ∃ past', Reached rt act past' d := by
  induction h generalizing past with
  | step _ hs _ _ ih => exact ih (hr.step hs)
  | call _ _ hs _ _ _ ih1 ih2 =>
      obtain ⟨past', hr'⟩ := ih1 (hr.step hs)
      exact ih2 hr'
  | surplus _ hs _ _ ih => exact ih (hr.step hs)
  | ret _ _ hs _ => exact ⟨_, hr.step hs⟩
  | grab _ hs _ => exact ⟨_, hr.step hs⟩

/-- Without surplus returns, each call left by `GRAB` leaves one function too
    many on the stack. -/
theorem Inside.functions_grab (h : Inside rt act fr g s c d) (hr : Reached rt act past c)
    (hs0 : s = 0) {v l : List CodePtr} (hv : v ≠ []) (hl : functions c = v ++ l) :
    ∃ w, w.length + 1 = v.length + g ∧ functions d = w ++ l := by
  induction h generalizing past v l with
  | step ho hs _ _ ih =>
      refine ih (hr.step hs) hs0 hv ?_
      rw [(hr.functions_step hs).1, shadow_ordinary ho]
      exact hl
  | @call _ _ _ _ _ _ _ _ _ f happ hroom hs hin _ _ ih1 ih2 =>
      have hpush := (hr.functions_step hs).1
      rw [shadow_applied happ, if_pos hroom, hl] at hpush
      obtain ⟨w1, hw1, he⟩ := ih1 (hr.step hs) (by omega) (v := [f]) (l := v ++ l)
        (List.cons_ne_nil _ _) hpush
      obtain ⟨past', hr'⟩ := hin.reached (hr.step hs)
      obtain ⟨w, hw, hd⟩ := ih2 hr' (by omega) (v := w1 ++ v) (l := l)
        (by simp [hv]) (by rw [he, List.append_assoc])
      refine ⟨w, ?_, hd⟩
      rw [List.length_append] at hw
      rw [List.length_singleton] at hw1
      omega
  | surplus => exact absurd hs0 (Nat.succ_ne_zero _)
  | ret hret _ hs _ =>
      refine ⟨v.tail, ?_, ?_⟩
      · have := List.length_pos_iff.mpr hv
        rw [List.length_tail]
        omega
      · rw [(hr.functions_step hs).1, shadow_return hret, hl, List.tail_append_of_ne_nil hv]
  | grab hg hs _ =>
      refine ⟨v, rfl, ?_⟩
      rw [(hr.functions_step hs).1, shadow_partialGrab hg, hl]

/-- Without calls left by `GRAB`, each surplus return takes one function too
    many off the stack. -/
theorem Inside.functions_surplus (h : Inside rt act fr g s c d) (hr : Reached rt act past c)
    (hg0 : g = 0) : functions d = (functions c).drop (s + 1) := by
  induction h generalizing past with
  | step ho hs _ _ ih =>
      rw [ih (hr.step hs) hg0, (hr.functions_step hs).1, shadow_ordinary ho]
  | call happ hroom hs hin _ _ ih1 ih2 =>
      obtain ⟨past', hr'⟩ := hin.reached (hr.step hs)
      rw [ih2 hr' (by omega), ih1 (hr.step hs) (by omega), (hr.functions_step hs).1,
        shadow_applied happ, if_pos hroom, List.drop_succ_cons, List.drop_drop]
      congr 1
  | surplus hsur hs _ _ ih =>
      rw [ih (hr.step hs) hg0, (hr.functions_step hs).1, shadow_return hsur.1, List.drop_tail]
  | ret hret _ hs _ =>
      rw [(hr.functions_step hs).1, shadow_return hret, List.drop_one]
  | grab => exact absurd hg0 (Nat.one_ne_zero)

/-- **CALL AND RETURN**: when a call comes back to its frame, the function stack
    is what it was exactly if no call inside was left by `GRAB` with too few
    arguments, provided no result was applied to surplus arguments; and exactly
    if no result was, provided no call was left by `GRAB`, apart from an empty
    stack, from which nothing is popped. -/
theorem call_balance (rt : Runtime ω) (act : Activation)
    (past : List (Ctl (State ω Profile))) (c c' d : Ctl (State ω Profile)) (f : CodePtr)
    (g s : Nat) (hr : Reached rt act past c) (happ : applied (machineOf c) = some f)
    (hroom : (functions c).length < 1024) (hs : step debug rt act c = .ok c')
    (hin : Inside rt act (frameOf c') g s c' d) :
    (s = 0 → (functions d = functions c ↔ g = 0)) ∧
    (g = 0 → (functions d = functions c ↔ s = 0 ∨ functions c = [])) := by
  have hpush : functions c' = f :: functions c := by
    rw [(hr.functions_step hs).1, shadow_applied happ, if_pos hroom]
  constructor
  · intro hs0
    obtain ⟨w, hw, hd⟩ := hin.functions_grab (hr.step hs) hs0 (v := [f])
      (l := functions c) (List.cons_ne_nil _ _) hpush
    rw [List.length_singleton] at hw
    constructor
    · intro heq
      have hlen : w.length + (functions c).length = (functions c).length := by
        rw [← List.length_append, ← hd, heq]
      omega
    · intro hg
      have hnil : w = [] := List.length_eq_zero_iff.mp (by omega)
      rw [hd, hnil]
      rfl
  · intro hg0
    have hd := hin.functions_surplus (hr.step hs) hg0
    rw [hpush, List.drop_succ_cons] at hd
    rw [hd]
    constructor
    · intro heq
      have hlen := congrArg List.length heq
      rw [List.length_drop] at hlen
      rcases Nat.eq_zero_or_pos s with h0 | hpos
      · exact Or.inl h0
      · exact Or.inr (List.length_eq_zero_iff.mp (by omega))
    · rintro (rfl | hnil)
      · rfl
      · rw [hnil, List.drop_nil]

/-- `APPLY1; STOP` at 0x1000, about to apply a closure to unit; `body` follows
    at 0x1008 and the closure's code is at `entry`. -/
def applying (body : List OpcodeWord) (entry : CodePtr) : Machine Unit where
  pc := 0x1000#64
  sp := [valUnit]
  accu := .ptr 0 0
  env := .atom 0
  extraArgs := 0#63
  mem :=
    { heap := ⟨[some ⟨closureTag, [ofCode entry, .word (makeClosinfo 0 2)]⟩]⟩
      code := assemble 0x1000#64 ([Opcode.APPLY1.code, Opcode.STOP.code] ++ body)
      globalData := valUnit
      raiseUnhandled := valUnit }
  dom := domainOf [mainStack] 0

/-- A function of one argument that returns at once. -/
def returning : Machine Unit := applying [Opcode.RETURN.code, 1#32] 0x1008#64

/-- A function of two arguments, `RESTART; GRAB 1; ...`. -/
def currying : Machine Unit :=
  applying [Opcode.RESTART.code, Opcode.GRAB.code, 1#32, Opcode.RETURN.code, 2#32] 0x100C#64

set_option maxRecDepth 8000 in
theorem returning_run : ∃ c' e d,
    step debug quiet soleActivation (start returning newProfile) = .ok c' ∧
    step debug quiet soleActivation c' = .ok e ∧ ordinary (machineOf c') = true ∧
    frameOf c' <:+ e.state.machine.sp ∧
    executing (machineOf e) = some .RETURN ∧ (machineOf e).state.extraArgs = 0#63 ∧
    step debug quiet soleActivation e = .ok d ∧ Arrives (frameOf c') d :=
  ⟨_, _, _, rfl, rfl, rfl, ⟨[valUnit], rfl⟩, rfl, rfl, rfl, _, rfl, rfl⟩

/-- The exact application of a function. -/
theorem call_balance_returning : ∃ d, functions d = functions (start returning newProfile) ∧
    ∃ past, Reached quiet soleActivation past d := by
  obtain ⟨c', e, d, hs, hs', ho, hfr, hret, hx, hs'', harr⟩ := returning_run
  have hin : Inside quiet soleActivation (frameOf c') 0 0 c' d := by
    refine Inside.step ho hs' hfr (Inside.ret hret ?_ hs'' harr)
    rintro ⟨-, hpos⟩
    rw [hx] at hpos
    exact absurd hpos (by decide)
  have hr : Reached quiet soleActivation [] (start returning newProfile) :=
    reached_of_follow (n := 0) rfl
  exact ⟨d, ((call_balance quiet soleActivation [] _ c' d 0x1008#64 0 0 hr rfl (by decide) hs
    hin).1 rfl).mpr rfl, hin.reached (hr.step hs)⟩

set_option maxRecDepth 8000 in
theorem currying_run : ∃ c' e d,
    step debug quiet soleActivation (start currying newProfile) = .ok c' ∧
    step debug quiet soleActivation c' = .ok e ∧ ordinary (machineOf c') = true ∧
    frameOf c' <:+ e.state.machine.sp ∧ partialGrab (machineOf e) = true ∧
    step debug quiet soleActivation e = .ok d ∧ Arrives (frameOf c') d ∧
    functions d = [0x100C#64] :=
  ⟨_, _, _, rfl, rfl, rfl, ⟨[valUnit], rfl⟩, rfl, rfl, ⟨_, rfl, rfl⟩, rfl⟩

/-- After a partial application the function is still on the stack. -/
theorem call_balance_currying : ¬ (∀ (past : List (Ctl (State Unit Profile)))
    (c c' d : Ctl (State Unit Profile)) (f : CodePtr) (g s : Nat),
    Reached quiet soleActivation past c → applied (machineOf c) = some f →
    (functions c).length < 1024 → step debug quiet soleActivation c = .ok c' →
    Inside quiet soleActivation (frameOf c') g s c' d → functions d = functions c) := by
  intro hall
  obtain ⟨c', e, d, hs, hs', ho, hfr, hg, hs'', harr, hfun⟩ := currying_run
  have hbad := hall [] (start currying newProfile) c' d 0x100C#64 1 0
    (reached_of_follow (n := 0) rfl) rfl (by decide) hs
    (Inside.step ho hs' hfr (Inside.grab hg hs'' harr))
  rw [hfun] at hbad
  exact absurd hbad (by decide)

/-! ## Exceptions -/

/-- The number of calls in `mid` that found room on the function stack. -/
def pushes (mid : List (Ctl (State ω Profile))) : Nat :=
  mid.countP (fun d => (applied (machineOf d)).isSome && decide ((functions d).length < 1024))

/-- The number of `RETURN`s in `mid`. -/
def returns (mid : List (Ctl (State ω Profile))) : Nat :=
  mid.countP (fun d => decide (executing (machineOf d) = some .RETURN))

/-- The words `PUSHTRAP` at `c` makes a trap frame of, and those under it. -/
def trapFrame (c : Ctl (Machine ω)) : List Value :=
  let m := fetched c
  ofCode (m.codeAt m.operand) :: valLong m.dom.trapSpOff :: m.env :: valLong m.extraArgs :: m.sp

/-- An exception at `r` goes to the trap frame that `PUSHTRAP` at `c` pushed. -/
def Delivers (c : Ctl (Machine ω)) (r : Machine ω) : Prop :=
  r.dom.trapSpOff = spOffset (trapFrame c) ∧ trapFrame c <:+ r.sp

/-- A run from a `PUSHTRAP` at `c` through `mid` to an exception that is
    delivered to its trap frame; `d` is where the handler starts. -/
structure Handled (rt : Runtime ω) (act : Activation) (c : Ctl (State ω Profile))
    (mid : List (Ctl (State ω Profile))) (d : Ctl (State ω Profile)) : Prop where
  pushtrap : executing (machineOf c) = some .PUSHTRAP
  raised : ∃ r, Run (step debug rt act) c mid (.raiseNotrace r) ∧
    Delivers (machineOf c) r.machine ∧ step debug rt act (.raiseNotrace r) = .ok d

/-- As long as no more is returned than was called, the functions pushed and
    not popped lie on top of the old ones. -/
theorem Reached.functions_above {mid : List (Ctl (State ω Profile))}
    (hr : Reached rt act past c) (hrun : Run (step debug rt act) c mid d)
    (habove : ∀ pre, pre <:+ mid → returns pre ≤ pushes pre) :
    ∃ w, w.length + returns mid = pushes mid ∧ functions d = w ++ functions c := by
  induction hrun with
  | start => exact ⟨[], rfl, rfl⟩
  | @snoc mid e e' hprev hs ih =>
      obtain ⟨w, hw, he⟩ := ih (fun pre hpre => habove pre (hpre.trans (List.suffix_cons _ _)))
      have hstep := ((hr.run hprev).functions_step hs).1
      have hlast := habove (e :: mid) (List.suffix_refl _)
      unfold pushes returns at hw hlast ⊢
      rw [hstep]
      cases happ : applied (machineOf e) with
      | some f =>
          obtain ⟨op, hop, hap, -⟩ := isApply_of_applied happ
          have hnr : ¬ executing (machineOf e) = some .RETURN := by
            intro hret
            rw [← Option.some.inj (hret.symm.trans hop)] at hap
            exact nomatch hap
          rw [shadow_applied happ, List.countP_cons_of_neg (by simp [hnr])]
          by_cases hroom : (functions e).length < 1024
          · rw [if_pos hroom, List.countP_cons_of_pos (by simp [happ, hroom])]
            exact ⟨f :: w, by rw [List.length_cons]; omega, by rw [he]; rfl⟩
          · rw [if_neg hroom, List.countP_cons_of_neg (by simp [hroom])]
            exact ⟨w, hw, he⟩
      | none =>
          rw [List.countP_cons_of_neg (a := e) (p := fun d => (applied (machineOf d)).isSome &&
            decide ((functions d).length < 1024)) (by simp [happ])] at hlast ⊢
          by_cases hret : executing (machineOf e) = some .RETURN
          · rw [List.countP_cons_of_pos (by simp [hret])] at hlast ⊢
            have hpos : w ≠ [] := by
              rintro rfl
              rw [List.length_nil] at hw
              omega
            refine ⟨w.tail, ?_, ?_⟩
            · have := List.length_pos_iff.mpr hpos
              rw [List.length_tail]
              omega
            · rw [shadow_return hret, he, List.tail_append_of_ne_nil hpos]
          · rw [List.countP_cons_of_neg (by simp [hret])]
            exact ⟨w, hw, by rw [shadow_of_not happ hret, he]⟩

/-- **EXCEPTIONS**: when an exception reaches the handler of a `PUSHTRAP`, and at no
    time since had there been more `RETURN`s than accepted pushes, the function stack
    is what it was there exactly if every function pushed since has been popped by a
    `RETURN`, that is, if no call is pending. -/
theorem raise_restores_iff (rt : Runtime ω) (act : Activation)
    (past mid : List (Ctl (State ω Profile))) (c d : Ctl (State ω Profile))
    (hr : Reached rt act past c) (hh : Handled rt act c mid d)
    (habove : ∀ pre, pre <:+ mid → returns pre ≤ pushes pre) :
    functions d = functions c ↔ pushes mid = returns mid := by
  obtain ⟨r, hrun, -, hd⟩ := hh.raised
  obtain ⟨w, hw, he⟩ := Reached.functions_above hr hrun habove
  have hsame : functions d = w ++ functions c := by
    rw [((hr.run hrun).functions_step hd).1, shadow_idle rfl, he]
  rw [hsame]
  constructor
  · intro heq
    have hlen := congrArg List.length heq
    rw [List.length_append] at hlen
    omega
  · intro heq
    have hnil : w = [] := List.length_eq_zero_iff.mp (by omega)
    rw [hnil]
    rfl

/-- `PUSHTRAP` at 0x1000 with its handler at 0x1014, then `body` at 0x1008; the
    closure in `accu` has code at 0x1018 that raises. -/
def trapping (body : List OpcodeWord) : Machine Unit where
  pc := 0x1000#64
  sp := []
  accu := .ptr 0 0
  env := .atom 0
  extraArgs := 0#63
  mem :=
    { heap := ⟨[some ⟨closureTag, [ofCode 0x1018#64, .word (makeClosinfo 0 2)]⟩]⟩
      code := assemble 0x1000#64 ([Opcode.PUSHTRAP.code, 4#32] ++ body ++
        [Opcode.STOP.code, Opcode.RAISE.code])
      globalData := valUnit
      raiseUnhandled := valUnit }
  dom := domainOf [mainStack] 0

/-- Raises without a call. -/
def raisingHere : Machine Unit :=
  trapping [Opcode.RAISE.code, Opcode.STOP.code, Opcode.STOP.code]

/-- Raises inside a call. -/
def raisingInside : Machine Unit :=
  trapping [Opcode.PUSH.code, Opcode.APPLY1.code, Opcode.STOP.code]

set_option maxRecDepth 8000 in
theorem raisingHere_run : ∃ mid r d,
    follow (step debug quiet soleActivation) 2 (start raisingHere newProfile)
      = .ok (mid, .raiseNotrace r) ∧
    Delivers (machineOf (start raisingHere newProfile)) r.machine ∧
    step debug quiet soleActivation (.raiseNotrace r) = .ok d ∧
    mid.all (fun e => decide (executing (machineOf e) ≠ some .RETURN)) = true ∧
    pushes mid = 0 :=
  ⟨_, _, _, rfl, ⟨rfl, [], rfl⟩, rfl, rfl, rfl⟩

theorem returns_eq_zero {mid : List (Ctl (State ω Profile))}
    (h : mid.all (fun e => decide (executing (machineOf e) ≠ some .RETURN)) = true)
    {pre : List (Ctl (State ω Profile))} (hpre : pre <:+ mid) : returns pre = 0 := by
  unfold returns
  rw [List.countP_eq_zero]
  intro e he hret
  have := List.all_eq_true.mp h e (hpre.subset he)
  rw [decide_eq_true_iff] at this hret
  exact this hret

/-- With no call pending the stack is restored. -/
theorem raise_restores_here : ∃ d, functions d = functions (start raisingHere newProfile) ∧
    ∃ past, Reached quiet soleActivation past d := by
  obtain ⟨mid, r, d, hf, hdel, hd, hret, hpush⟩ := raisingHere_run
  have hr : Reached quiet soleActivation [] (start raisingHere newProfile) :=
    reached_of_follow (n := 0) rfl
  have hrun := run_of_follow hf
  refine ⟨d, (raise_restores_iff quiet soleActivation [] mid _ d hr
    ⟨decode_code .PUSHTRAP, r, hrun, hdel, hd⟩ ?_).mpr ?_, _, (hr.run hrun).step hd⟩
  · intro pre hpre
    rw [returns_eq_zero hret hpre]
    exact Nat.zero_le _
  · rw [hpush, returns_eq_zero hret (List.suffix_refl _)]

set_option maxRecDepth 8000 in
theorem raisingInside_run : ∃ mid r d,
    follow (step debug quiet soleActivation) 5 (start raisingInside newProfile)
      = .ok (mid, .raiseNotrace r) ∧
    Delivers (machineOf (start raisingInside newProfile)) r.machine ∧
    step debug quiet soleActivation (.raiseNotrace r) = .ok d ∧
    functions d = [0x1018#64] :=
  ⟨_, _, _, rfl, ⟨rfl, [_, _, _, _], rfl⟩, rfl, rfl⟩

/-- A pending call is left on the stack. -/
theorem raise_restores_inside : ¬ (∀ (past mid : List (Ctl (State Unit Profile)))
    (c d : Ctl (State Unit Profile)),
    Reached quiet soleActivation past c → Handled quiet soleActivation c mid d →
    functions d = functions c) := by
  intro hall
  obtain ⟨mid, r, d, hf, hdel, hd, hfun⟩ := raisingInside_run
  have hbad := hall [] mid (start raisingInside newProfile) d (reached_of_follow (n := 0) rfl)
    ⟨decode_code .PUSHTRAP, r, run_of_follow hf, hdel, hd⟩
  rw [hfun] at hbad
  exact absurd hbad (by decide)

end CamlBalance
