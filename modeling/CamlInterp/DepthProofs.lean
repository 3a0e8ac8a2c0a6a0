import CamlInterp.BalanceProofs

/-! # Deep recursion and the bound of the function stack

    `func_stack_push` refuses silently at 1024 functions, and `RETURN` pops all
    the same.  A nest of `n` exact calls and their returns therefore leaves the
    stack as it was, with the caller on top after each return, exactly when the
    stack has room for `n` more functions. -/

namespace CamlDepth

open CamlValue CamlOpcode CamlMachine CamlControl CamlInterp CamlStep CamlProfiler CamlDebug
open CamlAttribution CamlBalance Runs

variable {ω : Type}

/-- A run through ordinary labels only. -/
def OrdinaryRun (rt : Runtime ω) (act : Activation) (c d : Ctl (State ω Profile)) : Prop :=
  ∃ mid, Run (step debug rt act) c mid d ∧ ∀ e ∈ mid, ordinary (machineOf e) = true

/-- `Nest rt act maker rets c d`: from `c` to `d`, a call is made by `maker`,
    inside it another by the function called, and so on; then each returns to
    its own frame, with all its arguments used up.  `rets` lists, outermost
    first, who made each call and where it returned to. -/
inductive Nest (rt : Runtime ω) (act : Activation) : Option CodePtr →
    List (Option CodePtr × Ctl (State ω Profile)) →
    Ctl (State ω Profile) → Ctl (State ω Profile) → Prop where
  | done {maker c d} : OrdinaryRun rt act c d → Nest rt act maker [] c d
  | call {maker f rets c c₁ c₂ c₃ c₄ d} : OrdinaryRun rt act c c₁ →
      applied (machineOf c₁) = some f → step debug rt act c₁ = .ok c₂ →
      Nest rt act (some f) rets c₂ c₃ → executing (machineOf c₃) = some .RETURN →
      ¬ ReturnsSurplus (machineOf c₃) → step debug rt act c₃ = .ok c₄ →
      Arrives (frameOf c₂) c₄ → OrdinaryRun rt act c₄ d →
      Nest rt act maker ((maker, c₄) :: rets) c d

variable {rt : Runtime ω} {act : Activation} {past : List (Ctl (State ω Profile))}
  {c c' d : Ctl (State ω Profile)} {maker : Option CodePtr}
  {rets : List (Option CodePtr × Ctl (State ω Profile))}

theorem OrdinaryRun.functions_eq (h : OrdinaryRun rt act c d) (hr : Reached rt act past c) :
    functions d = functions c ∧ ∃ past', Reached rt act past' d := by
  obtain ⟨mid, hrun, hord⟩ := h
  refine ⟨?_, _, hr.run hrun⟩
  induction hrun with
  | start => rfl
  | snoc hprev hs ih =>
      rw [((hr.run hprev).functions_step hs).1, shadow_ordinary (hord _ List.mem_cons_self)]
      exact ih (fun e he => hord e (List.mem_cons_of_mem _ he))

/-- The function stack after a call, where it may have been refused. -/
theorem functions_call {f : CodePtr} (hr : Reached rt act past c)
    (happ : applied (machineOf c) = some f) (hs : step debug rt act c = .ok c') :
    functions c' = if (functions c).length < 1024 then f :: functions c else functions c := by
  rw [(hr.functions_step hs).1, shadow_applied happ]

/-- One more call and return on a stack from which `n` calls and returns drop
    what did not fit. -/
theorem drop_call {l l' : List CodePtr} {f : CodePtr} {n : Nat} (hl : l.length ≤ 1024)
    (hl' : l' = if l.length < 1024 then f :: l else l) :
    (l'.drop (l'.length + n - 1024)).tail = l.drop (l.length + (n + 1) - 1024) := by
  rw [List.tail_drop]
  by_cases hroom : l.length < 1024
  · rw [hl', if_pos hroom, List.length_cons, List.drop_succ_cons,
      show l.length + 1 + n - 1024 = l.length + (n + 1) - 1024 by omega]
  · rw [hl', if_neg hroom, show l.length + n - 1024 + 1 = l.length + (n + 1) - 1024 by omega]

/-- A nest drops as many functions as did not fit. -/
theorem Nest.functions_eq (h : Nest rt act maker rets c d) (hr : Reached rt act past c) :
    functions d = (functions c).drop ((functions c).length + rets.length - 1024) ∧
      ∃ past', Reached rt act past' d := by
  induction h generalizing past with
  | done ho =>
      obtain ⟨heq, hr'⟩ := ho.functions_eq hr
      refine ⟨?_, hr'⟩
      have hlen := hr.length_functions
      rw [heq, List.length_nil, show (functions _).length + 0 - 1024 = 0 by omega, List.drop_zero]
  | call ho happ hs _ hret _ hs' _ ho' ih =>
      obtain ⟨heq₁, past₁, hr₁⟩ := ho.functions_eq hr
      obtain ⟨heq₃, past₃, hr₃⟩ := ih (hr₁.step hs)
      obtain ⟨heq, hr'⟩ := ho'.functions_eq (hr₃.step hs')
      refine ⟨?_, hr'⟩
      have hcall := functions_call hr₁ happ hs
      rw [heq₁] at hcall
      rw [heq, (hr₃.functions_step hs').1, shadow_return hret, heq₃,
        drop_call hr.length_functions hcall, List.length_cons]

/-- Where there is room for every call, each return finds the caller on top. -/
theorem Nest.tops (h : Nest rt act maker rets c d) (hr : Reached rt act past c)
    (hmaker : (functions c).head? = maker)
    (hroom : (functions c).length + rets.length ≤ 1024) :
    ∀ q ∈ rets, (functions q.2).head? = q.1 := by
  induction h generalizing past with
  | done => exact fun q hq => nomatch hq
  | call ho happ hs hin hret _ hs' _ _ ih =>
      rw [List.length_cons] at hroom
      obtain ⟨heq₁, past₁, hr₁⟩ := ho.functions_eq hr
      obtain ⟨heq₃, past₃, hr₃⟩ := hin.functions_eq (hr₁.step hs)
      have hcall := functions_call hr₁ happ hs
      rw [heq₁, if_pos (by omega)] at hcall
      intro q hq
      rcases List.mem_cons.mp hq with rfl | hq
      · show (functions _).head? = _
        rw [(hr₃.functions_step hs').1, shadow_return hret, heq₃, hcall, List.length_cons,
          show (functions _).length + 1 + _ - 1024 = 0 by omega]
        exact hmaker
      · refine ih (hr₁.step hs) (by rw [hcall]; rfl) ?_ q hq
        rw [hcall, List.length_cons]
        omega

/-- The outermost return of a nest that does not fit leaves the callers' part
    of the stack shorter. -/
theorem Nest.first_return (h : Nest rt act maker rets c d) (hr : Reached rt act past c)
    {q : Option CodePtr × Ctl (State ω Profile)} (hq : rets.head? = some q) :
    q.1 = maker ∧
      functions q.2 = (functions c).drop ((functions c).length + rets.length - 1024) := by
  cases h with
  | done => exact nomatch hq
  | call ho happ hs hin hret _ hs' _ ho' =>
      obtain ⟨heq₁, past₁, hr₁⟩ := ho.functions_eq hr
      obtain ⟨heq₃, past₃, hr₃⟩ := hin.functions_eq (hr₁.step hs)
      have hcall := functions_call hr₁ happ hs
      rw [heq₁] at hcall
      rw [← Option.some.inj hq]
      refine ⟨rfl, ?_⟩
      show functions _ = _
      rw [(hr₃.functions_step hs').1, shadow_return hret, heq₃,
        drop_call hr.length_functions hcall, List.length_cons]

/-- On an empty stack a nest that is too deep runs out of functions below one
    of its own calls. -/
theorem Nest.runs_out (h : Nest rt act maker rets c d) (hr : Reached rt act past c)
    (hempty : functions c = []) (hdeep : 1024 < rets.length) :
    ∃ q ∈ rets, (functions q.2).head? ≠ q.1 := by
  cases h with
  | done => exact absurd hdeep (Nat.not_lt_zero _)
  | @call _ f rets _ _ c₂ _ _ _ ho happ hs hin _ _ _ _ _ =>
      obtain ⟨heq₁, past₁, hr₁⟩ := ho.functions_eq hr
      have hcall := functions_call hr₁ happ hs
      rw [heq₁, hempty, if_pos (by decide)] at hcall
      rw [List.length_cons] at hdeep
      cases hrets : rets with
      | nil =>
          rw [hrets, List.length_nil] at hdeep
          exact absurd hdeep (by decide)
      | cons q rest =>
          obtain ⟨hq, hfun⟩ := hin.first_return (hr₁.step hs) (q := q) (by rw [hrets]; rfl)
          refine ⟨q, List.mem_cons_of_mem _ List.mem_cons_self, ?_⟩
          rw [hfun, hq, hcall, List.length_singleton, List.drop_eq_nil_of_le
            (by rw [List.length_singleton]; omega)]
          exact fun hne => nomatch hne

/-- **DEEP RECURSION**: a nest of exact calls and their returns leaves the
    function stack as it was and puts the caller back on top after each return
    if and only if the stack has room for all of it. -/
theorem deep_recursion_iff (rt : Runtime ω) (act : Activation)
    (past : List (Ctl (State ω Profile)))
    (rets : List (Option CodePtr × Ctl (State ω Profile))) (c d : Ctl (State ω Profile))
    (hr : Reached rt act past c) (hnest : Nest rt act (functions c).head? rets c d) :
    (functions d = functions c ∧ ∀ q ∈ rets, (functions q.2).head? = q.1) ↔
      (functions c).length + rets.length ≤ 1024 := by
  obtain ⟨heq, -⟩ := hnest.functions_eq hr
  constructor
  · rintro ⟨hsame, htops⟩
    by_cases hfit : (functions c).length + rets.length ≤ 1024
    · exact hfit
    · exfalso
      cases hl : functions c with
      | nil =>
          rw [hl, List.length_nil] at hfit
          obtain ⟨q, hq, hne⟩ := hnest.runs_out hr hl (by omega)
          exact hne (htops q hq)
      | cons f rest =>
          have hlen := congrArg List.length (heq.symm.trans hsame)
          rw [List.length_drop, hl, List.length_cons] at hlen
          rw [hl, List.length_cons] at hfit
          omega
  · intro hfit
    refine ⟨?_, hnest.tops hr rfl hfit⟩
    rw [heq, show (functions c).length + rets.length - 1024 = 0 by omega, List.drop_zero]

/-- One call of a function that returns at once. -/
theorem deep_recursion_returning : ∃ q d,
    functions d = functions (start returning newProfile) ∧
      (functions q.2).head? = q.1 ∧ Nest quiet soleActivation
        (functions (start returning newProfile)).head? [q] (start returning newProfile) d := by
  obtain ⟨c', e, d, hs, hs', ho, -, hret, hx, hs'', harr⟩ := returning_run
  have hnest : Nest quiet soleActivation (functions (start returning newProfile)).head?
      [(none, d)] (start returning newProfile) d := by
    refine Nest.call ⟨[], Run.start, fun _ h => nomatch h⟩ rfl hs
      (Nest.done ⟨[c'], Run.snoc Run.start hs', ?_⟩) hret ?_ hs'' harr
      ⟨[], Run.start, fun _ h => nomatch h⟩
    · intro x hx'
      rw [List.mem_singleton.mp hx']
      exact ho
    · rintro ⟨-, hpos⟩
      rw [hx] at hpos
      exact absurd hpos (by decide)
  have hal := (deep_recursion_iff quiet soleActivation [] _ _ d
    (reached_of_follow (n := 0) rfl) hnest).mpr (by show 0 + 1 ≤ 1024; decide)
  exact ⟨_, d, hal.1, hal.2 _ List.mem_cons_self, hnest⟩

/-! ## A recursive function -/

variable {f : CodePtr}

/-- Memory has been granted so far, and `f` has counters. -/
def Known (f : CodePtr) (c : Ctl (State ω Profile)) : Prop :=
  Granted c ∧ ∃ L, Refines c.state.prof L ∧ (L.row f).isSome = true

theorem row_of_posts {cm : Ctl (Machine ω)} {L L' : Ledger} (h : Posts cm L L')
    (hrow : (L.row f).isSome = true) : (L'.row f).isSome = true := by
  cases h with
  | stay => exact hrow
  | apply hf _ =>
      show (if _ then some _ else L.row f).isSome = true
      split
      · rfl
      · exact hrow
  | refused => exact hrow
  | ret => exact hrow

theorem row_of_fetch (cm : Ctl (Machine ω)) {L : Ledger} (hrow : (L.row f).isSome = true) :
    ((fetch cm L).row f).isSome = true := by
  unfold fetch
  split
  · show (if _ then (L.row f).map _ else L.row f).isSome = true
    split
    · rw [Option.isSome_map]
      exact hrow
    · exact hrow
  · exact hrow

/-- Where the machine can step, so can the DEBUG build, as long as no other
    function than `f` is entered. -/
theorem Known.step (rt : Runtime ω) (act : Activation) {cm : Ctl (Machine ω)}
    (h : Known f c) (hf : f ≠ nullCode)
    (hsp : CamlUpstream.checkSp (machineOf c).state = .ok ())
    (hm : machineStep rt act (machineOf c) = .ok cm)
    (happ : ∀ g, applied (machineOf c) = some g → g = f) :
    ∃ c', CamlInterp.step debug rt act c = .ok c' ∧ machineOf c' = cm ∧ Known f c' := by
  obtain ⟨hgr, L, hL, hrow⟩ := h
  have htop : ∃ p, topBlock debug c = .ok p := by
    cases c with
    | next s =>
        cases hop : decode s.machine.operand with
        | none =>
            simp only [machineOf, Ctl.map, machineStep, CamlUpstream.execWord, hop] at hm
            cases hm
        | some op =>
            obtain ⟨p, hp, -⟩ := hL.onDispatch_spec hsp hop
            exact ⟨p, hp⟩
    | dispatch w s => exact ⟨_, rfl⟩
    | checkStacks s => exact ⟨_, rfl⟩
    | raiseNotrace s => exact ⟨_, rfl⟩
    | halted r s => exact ⟨_, rfl⟩
  obtain ⟨p, htop⟩ := htop
  obtain ⟨halloc, hp⟩ := topBlock_spec hL htop hm
  have hrow' := row_of_fetch (machineOf c) hrow
  have hmap : (CamlInterp.step debug rt act c).map machineOf = machineStep rt act (machineOf c) :=
    map_step htop
    (fun g hg => by
      rw [happ g hg]
      obtain ⟨s', hs'⟩ := hp.onApply_known hf hrow'
      exact ⟨_, hs'⟩)
    (fun _ => by
      obtain ⟨p', hp', -⟩ := hp.onReturn_spec
      exact ⟨p', hp'⟩)
  rw [hm] at hmap
  cases hs : CamlInterp.step debug rt act c with
  | error e => rw [hs] at hmap; cases hmap
  | ok c' =>
      rw [hs] at hmap
      obtain ⟨-, q, hq, hmv⟩ := step_ok hs
      have hqp : q = p := Except.ok.inj (hq.symm.trans htop)
      subst hqp
      have hgr' : Granted c' := by
        unfold Granted at hgr ⊢
        rw [← halloc] at hgr
        generalize c'.state.prof = p' at hmv ⊢
        cases hmv with
        | stay => exact hgr
        | apply hap hok =>
            rw [happ _ hap] at hok
            obtain ⟨s', hs'⟩ := hp.onApply_known hf hrow'
            rw [← Except.ok.inj (hs'.symm.trans hok)]
            exact hgr
        | ret _ hok =>
            obtain ⟨p'', hp'', -, ha, -⟩ := hp.onReturn_spec
            rw [← Except.ok.inj (hp''.symm.trans hok), ha]
            exact hgr
      obtain ⟨L', hpost, hL'⟩ := step_posts hL hs hgr'
      exact ⟨c', rfl, Except.ok.inj hmap, hgr', L', hL', row_of_posts hpost hrow'⟩

/-- The same along ordinary labels. -/
theorem Known.follow {n : Nat} {path : List (Ctl (Machine ω))} {cm : Ctl (Machine ω)}
    (h : Known f c) (hf : f ≠ nullCode)
    (hm : follow (machineStep rt act) n (machineOf c) = .ok (path, cm))
    (hpath : ∀ e ∈ path, ordinary e = true ∧ CamlUpstream.checkSp e.state = .ok ()) :
    ∃ d, OrdinaryRun rt act c d ∧ machineOf d = cm ∧ Known f d := by
  induction n generalizing c path with
  | zero =>
      obtain ⟨-, hcm⟩ := Prod.mk.inj (Except.ok.inj hm)
      exact ⟨c, ⟨[], Run.start, fun _ he => absurd he List.not_mem_nil⟩, hcm, h⟩
  | succ n ih =>
      unfold Runs.follow at hm
      cases hs : machineStep rt act (machineOf c) with
      | error e => rw [hs] at hm; cases hm
      | ok c1 =>
          simp only [hs] at hm
          cases hrest : Runs.follow (machineStep rt act) n c1 with
          | error e => rw [hrest] at hm; cases hm
          | ok res =>
              obtain ⟨path', cm'⟩ := res
              rw [hrest] at hm
              obtain ⟨rfl, rfl⟩ := Prod.mk.inj (Except.ok.inj hm)
              have hc := hpath (machineOf c) (List.mem_append_right _ List.mem_cons_self)
              obtain ⟨d1, hs1, hd1, hk1⟩ := h.step rt act hf hc.2 hs (fun g hg => by
                obtain ⟨op, hop, hap, -⟩ := isApply_of_applied hg
                have ho := hc.1
                unfold ordinary at ho
                simp [hop, hap] at ho)
              rw [← hd1] at hrest
              obtain ⟨d, ⟨mid, hrun, hord⟩, hd, hk⟩ := ih hk1 hrest
                (fun e he => hpath e (List.mem_append_left _ he))
              refine ⟨d, ⟨mid ++ [c], Run.cons hs1 hrun, ?_⟩, hd, hk⟩
              intro e he
              rcases List.mem_append.mp he with he | he
              · exact hord e he
              · rw [List.mem_singleton.mp he]
                exact hc.1

theorem machineStep_next {m : Machine ω} (op : Opcode) (h : m.operand = op.code) :
    machineStep rt act (.next m)
      = CamlUpstream.exec rt act op { m with toCore := m.toCore.advance } := by
  simp only [machineStep, CamlUpstream.execWord, h, decode_code]

/-- `APPLY1; STOP` at 0x1000; at 0x1008 a function that returns at once if its
    argument is 0 and else calls itself on the predecessor. -/
def countdownCode : List OpcodeWord :=
  [Opcode.APPLY1.code, Opcode.STOP.code, Opcode.ACC0.code, Opcode.BRANCHIFNOT.code, 5#32,
    Opcode.OFFSETINT.code, -1#32, Opcode.PUSHOFFSETCLOSURE0.code, Opcode.APPLY1.code,
    Opcode.RETURN.code, 1#32]

/-- That program, somewhere in its run. -/
def countdown (pc : CodePtr) (sp : List Value) (accu env : Value) : Machine Unit where
  pc := pc
  sp := sp
  accu := accu
  env := env
  extraArgs := 0#63
  mem :=
    { heap := ⟨[some ⟨closureTag, [ofCode 0x1008#64, .word (makeClosinfo 0 2)]⟩]⟩
      code := assemble 0x1000#64 countdownCode
      globalData := valUnit
      raiseUnhandled := valUnit }
  dom := domainOf [{ mainStack with size := 65536 }] 0

/-- The closure of the function. -/
def self : Value := .ptr 0 0

/-- The argument `n`, as a word. -/
def arg (n : Nat) : Value := .word (BitVec.ofNat 64 (2 * n + 1))

section

variable (sp : List Value) (v a e : Value) (pc : CodePtr)

/-- The countdown has room at `check_stacks`. -/
theorem countdown_check (h : sp.length + 16 ≤ 65536) :
    machineStep quiet soleActivation (.checkStacks (countdown pc sp a e))
      = .ok (.next (countdown pc sp a e)) := by
  have hs : (countdown pc sp a e).dom.stack (countdown pc sp a e).dom.currentStack
      = .ok { mainStack with size := 65536 } := rfl
  have hlt : ¬ 65536 < (countdown pc sp a e).sp.length + stackThresholdWords := by
    show ¬ 65536 < sp.length + 16
    omega
  show checkStacks quiet (countdown pc sp a e) = _
  unfold checkStacks
  rw [hs]
  simp only [bind, Except.bind]
  rw [if_neg hlt]
  rfl

theorem countdown_acc0 :
    machineStep quiet soleActivation (.next (countdown 0x1008#64 (v :: sp) a e))
      = .ok (.next (countdown 0x100C#64 (v :: sp) v e)) := by
  rw [machineStep_next .ACC0 rfl]
  rfl

theorem countdown_branch_zero :
    machineStep quiet soleActivation (.next (countdown 0x100C#64 sp (arg 0) e))
      = .ok (.next (countdown 0x1024#64 sp (arg 0) e)) := by
  rw [machineStep_next .BRANCHIFNOT rfl]
  rfl

/-- The countdown goes on while its argument is not zero. -/
theorem countdown_branch_succ {n : Nat} (hn : n < 2048) :
    machineStep quiet soleActivation (.next (countdown 0x100C#64 sp (arg (n + 1)) e))
      = .ok (.next (countdown 0x1014#64 sp (arg (n + 1)) e)) := by
  have hne : sameWord (arg (n + 1)) valFalse = .ok false := by
    have hw : arg (n + 1) ≠ valFalse := by
      intro heq
      have hword : BitVec.ofNat 64 (2 * (n + 1) + 1) = 1#64 := Value.word.inj heq
      have hnat := congrArg BitVec.toNat hword
      rw [BitVec.toNat_ofNat, Nat.mod_eq_of_lt (by omega)] at hnat
      exact absurd hnat (by show 2 * (n + 1) + 1 ≠ 1; omega)
    unfold sameWord
    rw [if_neg (by simp [arg, valFalse, valInt, valLong]), decide_eq_false hw]
  rw [machineStep_next .BRANCHIFNOT rfl]
  show thenNext CamlInstr.branchifnot _ = _
  unfold thenNext onCore CamlInstr.branchifnot
  show (((sameWord (arg (n + 1)) valFalse >>= _) >>= _) >>= _) = _
  rw [hne]
  rfl

theorem countdown_offset_word (w : BitVec 64) :
    machineStep quiet soleActivation (.next (countdown 0x1014#64 sp (.word w) e))
      = .ok (.next (countdown 0x101C#64 sp (.word (w + 0xFFFFFFFFFFFFFFFE#64)) e)) := by
  have htwice : CamlInstr.operandTwice (countdown 0x1014#64 sp (.word w) e).toCore.advance
      = 0xFFFFFFFFFFFFFFFE#64 := by
    have hop : (countdown 0x1014#64 sp (.word w) e).toCore.advance.operand = -1#32 := rfl
    rw [CamlInstr.operandTwice, hop]
    decide
  rw [machineStep_next .OFFSETINT rfl, ← htwice]
  rfl

theorem countdown_offset (n : Nat) :
    machineStep quiet soleActivation (.next (countdown 0x1014#64 sp (arg (n + 1)) e))
      = .ok (.next (countdown 0x101C#64 sp (arg n) e)) := by
  have hsub : BitVec.ofNat 64 (2 * (n + 1) + 1) + 0xFFFFFFFFFFFFFFFE#64
      = BitVec.ofNat 64 (2 * n + 1) := by
    rw [show 2 * (n + 1) + 1 = 2 * n + 1 + 2 by omega, BitVec.ofNat_add, BitVec.add_assoc,
      show BitVec.ofNat 64 2 + 0xFFFFFFFFFFFFFFFE#64 = 0#64 by decide, BitVec.add_zero]
  unfold arg
  rw [countdown_offset_word, hsub]

theorem countdown_push :
    machineStep quiet soleActivation (.next (countdown 0x101C#64 sp a e))
      = .ok (.next (countdown 0x1020#64 (a :: sp) e e)) := by
  rw [machineStep_next .PUSHOFFSETCLOSURE0 rfl]
  rfl

theorem countdown_apply :
    machineStep quiet soleActivation (.next (countdown 0x1020#64 (v :: sp) self e))
      = .ok (.checkStacks (countdown 0x1008#64
          (v :: ofCode 0x1024#64 :: e :: valLong 0#63 :: sp) self self)) := by
  rw [machineStep_next .APPLY1 rfl]
  rfl

theorem countdown_return :
    machineStep quiet soleActivation (.next (countdown 0x1024#64
        (v :: ofCode pc :: e :: valLong 0#63 :: sp) a self))
      = .ok (.next (countdown pc sp a e)) := by
  rw [machineStep_next .RETURN rfl]
  rfl

theorem countdown_checkSp (h : sp.length ≤ 65536) :
    CamlUpstream.checkSp (countdown pc sp a e) = .ok () := by
  show camlAssert (decide (sp.length ≤ 65536)) = _
  rw [decide_eq_true h]
  rfl

end

theorem next_of_machineOf {m : Machine ω} (h : machineOf c = .next m) :
    ∃ s, c = .next s ∧ s.machine = m := by
  cases c with
  | next s => exact ⟨s, rfl, Ctl.next.inj h⟩
  | dispatch w s => exact nomatch h
  | checkStacks s => exact nomatch h
  | raiseNotrace s => exact nomatch h
  | halted r s => exact nomatch h

theorem machine_of_machineOf (c : Ctl (State ω Profile)) :
    c.state.machine = (machineOf c).state := by
  rw [machineOf, Ctl.state_map]

/-- From its entry the function comes to its `RETURN`, through `n` nested calls. -/
theorem countdown_nest (n : Nat) (rest : List Value)
    (hlen : rest.length + 4 * n + 64 ≤ 8192) (c : Ctl (State Unit Profile))
    (hc : machineOf c = .checkStacks (countdown 0x1008#64 (arg n :: rest) self self))
    (hk : Known 0x1008#64 c) :
    ∃ rets d a, Nest quiet soleActivation (some 0x1008#64) rets c d ∧ rets.length = n ∧
      machineOf d = .next (countdown 0x1024#64 (arg n :: rest) a self) ∧
      Known 0x1008#64 d := by
  have hcheck := countdown_check (arg n :: rest) self self 0x1008#64
    (by rw [List.length_cons]; omega)
  have hsp := fun a pc => countdown_checkSp (arg n :: rest) a self pc
    (by rw [List.length_cons]; omega)
  induction n generalizing rest c with
  | zero =>
      have hf : follow (machineStep quiet soleActivation) 3 (machineOf c) = .ok
          ([.next (countdown 0x100C#64 (arg 0 :: rest) (arg 0) self),
            .next (countdown 0x1008#64 (arg 0 :: rest) self self),
            .checkStacks (countdown 0x1008#64 (arg 0 :: rest) self self)],
          .next (countdown 0x1024#64 (arg 0 :: rest) (arg 0) self)) := by
        rw [hc]
        simp only [Runs.follow, hcheck, countdown_acc0, countdown_branch_zero]
        rfl
      obtain ⟨d, hrun, hd, hk'⟩ := hk.follow (by decide) hf (fun e he => by
        simp only [List.mem_cons, List.not_mem_nil, or_false] at he
        rcases he with rfl | rfl | rfl
        · exact ⟨rfl, hsp _ _⟩
        · exact ⟨rfl, hsp _ _⟩
        · exact ⟨rfl, hsp _ _⟩)
      exact ⟨[], d, _, Nest.done hrun, rfl, hd, hk'⟩
  | succ n ih =>
      have hf : follow (machineStep quiet soleActivation) 5 (machineOf c) = .ok
          ([.next (countdown 0x101C#64 (arg (n + 1) :: rest) (arg n) self),
            .next (countdown 0x1014#64 (arg (n + 1) :: rest) (arg (n + 1)) self),
            .next (countdown 0x100C#64 (arg (n + 1) :: rest) (arg (n + 1)) self),
            .next (countdown 0x1008#64 (arg (n + 1) :: rest) self self),
            .checkStacks (countdown 0x1008#64 (arg (n + 1) :: rest) self self)],
          .next (countdown 0x1020#64 (arg n :: arg (n + 1) :: rest) self self)) := by
        rw [hc]
        simp only [Runs.follow, hcheck, countdown_acc0, countdown_branch_succ _ _
          (show n < 2048 by omega), countdown_offset, countdown_push]
        rfl
      obtain ⟨c₁, hrun, hc₁, hk₁⟩ := hk.follow (by decide) hf (fun e he => by
        simp only [List.mem_cons, List.not_mem_nil, or_false] at he
        rcases he with rfl | rfl | rfl | rfl | rfl
        · exact ⟨rfl, hsp _ _⟩
        · exact ⟨rfl, hsp _ _⟩
        · exact ⟨rfl, hsp _ _⟩
        · exact ⟨rfl, hsp _ _⟩
        · exact ⟨rfl, hsp _ _⟩)
      -- the nested call
      have happ : applied (machineOf c₁) = some 0x1008#64 := by rw [hc₁]; rfl
      obtain ⟨c₂, hs₂, hc₂, hk₂⟩ := hk₁.step quiet soleActivation (by decide)
        (by rw [hc₁]; exact countdown_checkSp _ _ _ _ (by simp; omega))
        (by rw [hc₁]; exact countdown_apply _ _ _)
        (fun g hg => Option.some.inj (hg.symm.trans happ))
      have hlen' : (ofCode 0x1024#64 :: self :: valLong 0#63 :: arg (n + 1) :: rest).length
          + 4 * n + 64 ≤ 8192 := by simp only [List.length_cons]; omega
      obtain ⟨rets, c₃, a, hnest, hrets, hc₃, hk₃⟩ := ih _ hlen' c₂ hc₂ hk₂
        (countdown_check _ _ _ _ (by simp only [List.length_cons]; omega))
        (fun a pc => countdown_checkSp _ a self pc (by simp only [List.length_cons]; omega))
      -- and its return
      have hret : executing (machineOf c₃) = some .RETURN := by rw [hc₃]; rfl
      obtain ⟨c₄, hs₄, hc₄, hk₄⟩ := hk₃.step quiet soleActivation (by decide)
        (by rw [hc₃]; exact countdown_checkSp _ _ _ _ (by simp only [List.length_cons]; omega))
        (by rw [hc₃]; exact countdown_return _ _ _ _ _)
        (fun g hg => by
          obtain ⟨op, hop, hap, -⟩ := isApply_of_applied hg
          rw [← Option.some.inj (hret.symm.trans hop)] at hap
          exact nomatch hap)
      obtain ⟨s₄, rfl, hs₄m⟩ := next_of_machineOf hc₄
      refine ⟨_, .next s₄, a, Nest.call hrun happ hs₂ hnest hret ?_ hs₄ ⟨s₄, rfl, ?_⟩
        ⟨[], Run.start, fun _ he => nomatch he⟩, ?_, hc₄, hk₄⟩
      · rintro ⟨-, hpos⟩
        rw [hc₃] at hpos
        have hzero : (0#63).slt 0#63 = true := hpos
        exact absurd hzero (by decide)
      · rw [frameOf, machine_of_machineOf c₂, hc₂, hs₄m]
        rfl
      · rw [List.length_cons, hrets]

set_option maxRecDepth 8000 in
theorem countdown_start : ∃ c₁,
    step debug quiet soleActivation
      (start (countdown 0x1000#64 [arg 1024] self (.atom 0)) newProfile) = .ok c₁ ∧
    machineOf c₁ = .checkStacks (countdown 0x1008#64
      (arg 1024 :: ofCode 0x1004#64 :: .atom 0 :: valLong 0#63 :: []) self self) ∧
    c₁.state.prof.alloc.failed = false ∧ functions c₁ = [0x1008#64] :=
  ⟨_, rfl, rfl, rfl, rfl⟩

/-- On a new profile, 1025 nested calls of one function lose track of it. -/
theorem deep_recursion_countdown : ¬ (∀ (past : List (Ctl (State Unit Profile)))
    (rets : List (Option CodePtr × Ctl (State Unit Profile)))
    (c d : Ctl (State Unit Profile)), Reached quiet soleActivation past c →
    Nest quiet soleActivation (functions c).head? rets c d →
    functions d = functions c ∧ ∀ q ∈ rets, (functions q.2).head? = q.1) := by
  intro hall
  obtain ⟨c₁, hs, hc₁, hfail, hfun⟩ := countdown_start
  have hr : Reached quiet soleActivation []
      (start (countdown 0x1000#64 [arg 1024] self (.atom 0)) newProfile) :=
    reached_of_follow (n := 0) rfl
  have hk : Known 0x1008#64 c₁ := by
    obtain ⟨L, hL, -⟩ := ledger_of_run (P := fun _ _ _ => True) (a := granting) rfl
      (fun _ => trivial) (fun _ _ _ _ _ _ _ _ _ _ => trivial) (Run.snoc Run.start hs)
      (fun d hd => by
        rcases List.mem_cons.mp hd with rfl | hd
        · exact hfail
        · rw [List.mem_singleton.mp hd]; rfl)
    refine ⟨hfail, L, hL, (L.known _ ?_).2⟩
    rw [← hL.stack.contents_eq, show CamlFuncStack.contents c₁.state.prof.localFuncStack
      = [0x1008#64] from hfun]
    exact List.mem_cons_self
  obtain ⟨rets, c₃, a, hnest, hrets, hc₃, hk₃⟩ := countdown_nest 1024 _ (by decide) c₁ hc₁ hk
  have hret : executing (machineOf c₃) = some .RETURN := by rw [hc₃]; rfl
  obtain ⟨c₄, hs₄, hc₄, -⟩ := hk₃.step quiet soleActivation (by decide)
    (by rw [hc₃]; exact countdown_checkSp _ _ _ _ (by decide))
    (by rw [hc₃]; exact countdown_return _ _ _ _ _)
    (fun g hg => by
      obtain ⟨op, hop, hap, -⟩ := isApply_of_applied hg
      rw [← Option.some.inj (hret.symm.trans hop)] at hap
      exact nomatch hap)
  obtain ⟨s₄, rfl, hs₄m⟩ := next_of_machineOf hc₄
  have hall' : Nest quiet soleActivation none ((none, .next s₄) :: rets)
      (start (countdown 0x1000#64 [arg 1024] self (.atom 0)) newProfile) (.next s₄) := by
    refine Nest.call ⟨[], Run.start, fun _ he => nomatch he⟩ rfl hs hnest hret ?_ hs₄
      ⟨s₄, rfl, ?_⟩ ⟨[], Run.start, fun _ he => nomatch he⟩
    · rintro ⟨-, hpos⟩
      rw [hc₃] at hpos
      have hzero : (0#63).slt 0#63 = true := hpos
      exact absurd hzero (by decide)
    · rw [frameOf, machine_of_machineOf c₁, hc₁, hs₄m]
      rfl
  obtain ⟨q, hq, hne⟩ := hall'.runs_out hr rfl (by rw [List.length_cons, hrets]; decide)
  exact hne ((hall [] _ _ _ hr hall').2 q hq)

end CamlDepth
