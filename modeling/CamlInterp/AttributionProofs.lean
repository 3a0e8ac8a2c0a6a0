import CamlInterp.DebugRunProofs

/-! # Which function an entered closure is charged to

    Code is entered by nine instructions.  The four apply instructions push the
    code pointer they enter; the four tail calls leave `local_func_stack` alone
    and `RETURN` with surplus arguments pops it.  So the callee is on top at its
    first instruction exactly when it was applied, or happens to be where the
    stack ends up anyway. -/

namespace CamlAttribution

open CamlValue CamlOpcode CamlMachine CamlControl CamlInterp CamlStep CamlProfiler CamlDebug
open CamlHashTable Runs

variable {ω : Type}

/-- The four tail calls. -/
def isAppterm : Opcode → Bool
  | .APPTERM | .APPTERM1 | .APPTERM2 | .APPTERM3 => true
  | _ => false

/-- `RETURN` with `extra_args > 0`. -/
def ReturnsSurplus (c : Ctl (Machine ω)) : Prop :=
  executing c = some .RETURN ∧ (0#63).slt c.state.extraArgs = true

/-- The machine is about to enter the code `f` of the closure in `accu`, by one
    of the nine instructions that do so. -/
def Enters (c : Ctl (Machine ω)) (f : CodePtr) : Prop :=
  codeVal c.state.mem.heap c.state.accu = .ok f ∧
    ((∃ op, executing c = some op ∧ (isApply op = true ∨ isAppterm op = true)) ∨
      ReturnsSurplus c)

/-- The callee is applied, or is tail-called and already on top, or is what a
    result is applied to and lies under the top. -/
def Attributed (c : Ctl (State ω Profile)) (f : CodePtr) : Prop :=
  (∃ op, executing (machineOf c) = some op ∧ isApply op = true) ∨
  (∃ op, executing (machineOf c) = some op ∧ isAppterm op = true ∧
    (functions c).head? = some f) ∨
  (executing (machineOf c) = some .RETURN ∧ (functions c)[1]? = some f)

variable {rt : Runtime ω} {act : Activation} {past : List (Ctl (State ω Profile))}
  {c c' : Ctl (State ω Profile)} {f : CodePtr}

theorem not_isApply_of_isAppterm {op : Opcode} (h : isAppterm op = true) :
    isApply op = false ∧ op ≠ .RETURN := by
  cases op with
  | APPTERM => exact ⟨rfl, fun h => nomatch h⟩
  | APPTERM1 => exact ⟨rfl, fun h => nomatch h⟩
  | APPTERM2 => exact ⟨rfl, fun h => nomatch h⟩
  | APPTERM3 => exact ⟨rfl, fun h => nomatch h⟩
  | _ => exact nomatch h

/-- What entering code does to the function stack, for each kind of entry. -/
theorem shadow_of_enters {cm : Ctl (Machine ω)} (h : Enters cm f) {l : List CodePtr}
    (hroom : l.length < 1024) :
    ((∃ op, executing cm = some op ∧ isApply op = true) ∧ shadow 1024 cm l = f :: l) ∨
    ((∃ op, executing cm = some op ∧ isAppterm op = true) ∧ shadow 1024 cm l = l) ∨
    (executing cm = some .RETURN ∧ shadow 1024 cm l = l.tail) := by
  obtain ⟨hf, ⟨op, hop, hap | hat⟩ | ⟨hret, -⟩⟩ := h
  · refine Or.inl ⟨⟨op, hop, hap⟩, ?_⟩
    have happ : applied cm = some f := by
      unfold applied
      simp only [hop, hap, if_true, hf]
      rfl
    rw [shadow_applied happ, if_pos hroom]
  · obtain ⟨hna, hnr⟩ := not_isApply_of_isAppterm hat
    refine Or.inr (Or.inl ⟨⟨op, hop, hat⟩, shadow_stay (fun op' hop' => ?_) _ _⟩)
    rw [hop] at hop'
    rw [← Option.some.inj hop']
    exact ⟨hna, hnr⟩
  · exact Or.inr (Or.inr ⟨hret, shadow_return hret _ _⟩)

/-- After the entry the callee is on top exactly when it is attributed. -/
theorem head_iff_attributed (hent : Enters (machineOf c) f)
    (hroom : (functions c).length < 1024) :
    (shadow 1024 (machineOf c) (functions c)).head? = some f ↔ Attributed c f := by
  have hone : ∀ {op op'}, executing (machineOf c) = some op →
      executing (machineOf c) = some op' → op = op' :=
    fun h h' => Option.some.inj (h.symm.trans h')
  rcases shadow_of_enters hent hroom with ⟨hap, hsh⟩ | ⟨⟨op, hop, hat⟩, hsh⟩ | ⟨hret, hsh⟩
  · rw [hsh]
    exact ⟨fun _ => Or.inl hap, fun _ => rfl⟩
  · rw [hsh]
    constructor
    · intro hh
      exact Or.inr (Or.inl ⟨op, hop, hat, hh⟩)
    · rintro (⟨op', hop', hap⟩ | ⟨-, -, -, hh⟩ | ⟨hret, -⟩)
      · rw [← hone hop hop', (not_isApply_of_isAppterm hat).1] at hap
        exact nomatch hap
      · exact hh
      · exact absurd (hone hop hret) (not_isApply_of_isAppterm hat).2
  · rw [hsh, List.head?_tail]
    constructor
    · intro hh
      exact Or.inr (Or.inr ⟨hret, hh⟩)
    · rintro (⟨op', hop', hap⟩ | ⟨op', hop', hat, -⟩ | ⟨-, hh⟩)
      · rw [← hone hret hop'] at hap
        exact nomatch hap
      · rw [← hone hret hop'] at hat
        exact nomatch hat
      · exact hh

/-- **ENTRY ATTRIBUTION**: in every run, wherever code is entered with room on
    the function stack, the callee is on top of it and a key of the table at
    the next dispatched instruction if and only if the entry is attributed. -/
theorem entry_attribution_iff (rt : Runtime ω) (act : Activation)
    (past mid : List (Ctl (State ω Profile))) (c c' : Ctl (State ω Profile))
    (s : State ω Profile) (f : CodePtr) (hreach : Reached rt act past c)
    (hroom : (functions c).length < 1024) (hent : Enters (machineOf c) f)
    (hs : step debug rt act c = .ok c') (hmid : Run (step debug rt act) c' mid (.next s))
    (hidle : ∀ d ∈ mid, executing (machineOf d) = none)
    (hgr : ∀ d ∈ Ctl.next s :: (mid ++ c :: past), Granted d) :
    ((functions (.next s)).head? = some f ∧ IsKey (.next s) f) ↔ Attributed c f := by
  have hstep := (hreach.functions_step hs).1
  have hsame := (hreach.step hs).functions_idle hmid hidle
  rw [← head_iff_attributed hent hroom, hsame, hstep]
  constructor
  · exact fun h => h.1
  · intro hh
    refine ⟨hh, ((hreach.step hs).run hmid).isKey hgr (List.mem_of_mem_head? ?_)⟩
    rw [hsame, hstep]
    exact hh

/-! ## A tail call -/

/-- About to apply `f`, at 0x1008, which tail-calls `g`, at 0x1018. -/
def tailMachine : Machine Unit where
  pc := 0x1000#64
  sp := [valUnit]
  accu := .ptr 1 0
  env := .atom 0
  extraArgs := 0#63
  mem :=
    { heap := ⟨[some ⟨closureTag, [ofCode 0x1018#64, .word (makeClosinfo 0 2)]⟩,
        some ⟨closureTag, [ofCode 0x1008#64, .word (makeClosinfo 0 2), .ptr 0 0]⟩]⟩
      code := assemble 0x1000#64 [Opcode.APPLY1.code, Opcode.STOP.code, Opcode.ACC0.code,
        Opcode.PUSHENVACC2.code, Opcode.APPTERM1.code, 2#32, Opcode.RETURN.code, 1#32]
      globalData := valUnit
      raiseUnhandled := valUnit }
  dom := domainOf [mainStack] 0

/-- No refused request, as a test. -/
def granted (d : Ctl (State ω Profile)) : Bool := !d.state.prof.alloc.failed

theorem granted_of_all {l : List (Ctl (State ω Profile))} (h : l.all granted = true)
    {d : Ctl (State ω Profile)} (hd : d ∈ l) : Granted d := by
  have := List.all_eq_true.mp h d hd
  simpa [granted, Granted] using this

theorem reached_of_follow {n : Nat} {m : Machine ω}
    (h : follow (step debug rt act) n (start m newProfile) = .ok (past, c)) :
    Reached rt act past c :=
  ⟨m, granting, newProfile, rfl, run_of_follow h⟩

set_option maxRecDepth 8000 in
theorem tail_apply_run : ∃ c' s,
    step debug quiet soleActivation (start tailMachine newProfile) = .ok c' ∧
    step debug quiet soleActivation c' = .ok (.next s) ∧ executing (machineOf c') = none ∧
    [.next s, c', start tailMachine newProfile].all granted = true :=
  ⟨_, _, rfl, rfl, rfl, rfl⟩

/-- The application of `f`. -/
theorem entry_attribution_apply : ∃ s,
    (functions (.next s)).head? = some 0x1008#64 ∧ IsKey (ω := Unit) (.next s) 0x1008#64 := by
  obtain ⟨c', s, hs, hs', hidle, hall⟩ := tail_apply_run
  refine ⟨s, (entry_attribution_iff quiet soleActivation [] [c'] _ c' s 0x1008#64
    (reached_of_follow (n := 0) rfl) (by decide) ⟨rfl, Or.inl ⟨.APPLY1, rfl, Or.inl rfl⟩⟩ hs
    (Run.snoc Run.start hs') ?_ ?_).mpr (Or.inl ⟨.APPLY1, rfl, rfl⟩)⟩
  · intro d hd
    rw [List.mem_singleton.mp hd]
    exact hidle
  · exact fun d hd => granted_of_all hall hd

set_option maxRecDepth 8000 in
theorem tail_call_run : ∃ past c c' s,
    follow (step debug quiet soleActivation) 4 (start tailMachine newProfile) = .ok (past, c) ∧
    step debug quiet soleActivation c = .ok c' ∧
    step debug quiet soleActivation c' = .ok (.next s) ∧
    executing (machineOf c) = some .APPTERM1 ∧ executing (machineOf c') = none ∧
    codeVal c.state.machine.mem.heap c.state.machine.accu = .ok 0x1018#64 ∧
    functions c = [0x1008#64] ∧ functions (.next s) = [0x1008#64] ∧
    (.next s :: c' :: c :: past).all granted = true :=
  ⟨_, _, _, _, rfl, rfl, rfl, rfl, rfl, rfl, rfl, rfl, rfl⟩

/-- The instructions of `g` are charged to `f`. -/
theorem entry_attribution_tail_call : ¬ (∀ (past mid : List (Ctl (State Unit Profile)))
    (c c' : Ctl (State Unit Profile)) (s : State Unit Profile) (f : CodePtr),
    Reached quiet soleActivation past c → (functions c).length < 1024 →
    Enters (machineOf c) f → step debug quiet soleActivation c = .ok c' →
    Run (step debug quiet soleActivation) c' mid (.next s) →
    (∀ d ∈ mid, executing (machineOf d) = none) →
    (∀ d ∈ Ctl.next s :: (mid ++ c :: past), Granted d) →
    (functions (.next s)).head? = some f ∧ IsKey (.next s) f) := by
  intro hall
  obtain ⟨past, c, c', s, hf, hs, hs', hop, hidle, hcode, hfun, hfun', hgr⟩ := tail_call_run
  have hent : Enters (machineOf c) 0x1018#64 := by
    refine ⟨?_, Or.inl ⟨.APPTERM1, hop, Or.inr rfl⟩⟩
    rw [machineOf, Ctl.state_map]
    exact hcode
  have hbad := (hall past [c'] c c' s 0x1018#64 (reached_of_follow hf) (by rw [hfun]; decide)
    hent hs (Run.snoc Run.start hs')
    (fun d hd => by rw [List.mem_singleton.mp hd]; exact hidle)
    (fun d hd => granted_of_all hgr hd)).1
  rw [hfun'] at hbad
  exact absurd (Option.some.inj hbad) (by decide)

end CamlAttribution
