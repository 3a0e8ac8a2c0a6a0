import CamlInterp.HandlerCallProofs

/-! # Trap frames — what an exception handler finds

    `PUSHTRAP` puts four words on the stack and notes their distance from
    `Stack_high` in `trap_sp_off`; the old value goes into the second word, so
    that the open frames form a list threaded through the stack.  The list is
    remembered here beside the run.  As long as nothing but `POPTRAP` and a
    raise takes a frame away, `trap_sp_off` is the distance of the innermost
    open one, wherever the stack has been moved to. -/

namespace CamlTrap

open CellStore CamlValue CamlOpcode CamlMachine CamlControl CamlStep CamlFiber CamlEffect
  CamlUnhandled CamlPassage CamlHandlerCall Runs

variable {ω : Type}

/-- C code comes back with the `trap_sp_off` it was called with. -/
structure KeepsTrap (rt : Runtime ω) : Prop where
  pending : ∀ {mem dom r}, rt.processPendingActions mem dom = .ok r →
    (domOf r).trapSpOff = dom.trapSpOff
  primitive : ∀ {w args mem dom r}, rt.primitive w args mem dom = .ok r →
    (domOf r).trapSpOff = dom.trapSpOff
  raising : ∀ e mem dom, (rt.signalsAtRaise e mem dom).2.2.trapSpOff = dom.trapSpOff
  debugger : ∀ ev mem dom, (rt.debugger ev mem dom).2.trapSpOff = dom.trapSpOff

/-- The call instructions. -/
def isCall : Opcode → Bool
  | .APPLY | .APPLY1 | .APPLY2 | .APPLY3 | .APPTERM | .APPTERM1 | .APPTERM2 | .APPTERM3 => true
  | _ => false

/-- The step from `c` to `c'` stays on its stack: a fiber is left or resumed by a
    step that ends at `check_stacks` and is not a call. -/
structure StaysOn (c c' : Ctl (Machine ω)) : Prop where
  fiber : ∀ {m'}, c' = .checkStacks m' → ∃ op, executing c = some op ∧ isCall op = true
  running : ∀ {r m'}, c' ≠ .halted r m'

variable {rt : Runtime ω} {act : Activation} {m : Machine ω} {c c' : Ctl (Machine ω)}

/-! ## Steps that leave the trap frames alone -/

/-- C code that keeps `trap_sp_off` is within that relation. -/
theorem KeepsTrap.survives (hk : KeepsTrap rt) :
    Survives rt (fun d d' => d'.trapSpOff = d.trapSpOff) where
  refl := fun _ => rfl
  trans := fun h h' => h'.trans h
  saved := by
    intro d d' sp h
    obtain ⟨i, -, -, -, -, htrap⟩ := saveSp_get h
    exact htrap
  returned := by
    intro d d' n sp h
    obtain ⟨i, -, hd⟩ := bind_eq_ok.mp h
    obtain rfl := Except.ok.inj hd
    rfl
  grown := by
    intro d d' n h
    obtain ⟨old, size, -, rfl⟩ := realloc_eq h
    rfl
  world := fun _ _ => rfl
  pending := hk.pending
  primitive := hk.primitive
  raising := hk.raising
  debugger := hk.debugger

theorem leaveFor_label {p : Nat} {h : Value} (hs : leaveFor m p h = .ok c') :
    ∃ m', c' = .checkStacks m' := by
  obtain ⟨⟨m1, sp⟩, -, hs⟩ := bind_eq_ok.mp hs
  obtain ⟨w0, -, hs⟩ := bind_eq_ok.mp hs
  obtain ⟨trap, -, hs⟩ := bind_eq_ok.mp hs
  obtain ⟨w1, -, hs⟩ := bind_eq_ok.mp hs
  obtain ⟨extra, -, hs⟩ := bind_eq_ok.mp hs
  obtain ⟨rest, -, hs⟩ := bind_eq_ok.mp hs
  obtain ⟨pc, -, hs⟩ := bind_eq_ok.mp hs
  exact ⟨_, (Except.ok.inj hs).symm⟩

theorem finishPerform_label {s p : Nat} {cont : Value}
    (h : CamlPerform.finishPerform s p cont m = .ok c') : ∃ m', c' = .checkStacks m' := by
  obtain ⟨dom1, -, h⟩ := bind_eq_ok.mp h
  obtain ⟨sp, -, h⟩ := bind_eq_ok.mp h
  obtain ⟨dom2, -, h⟩ := bind_eq_ok.mp h
  obtain ⟨m2, -, h⟩ := bind_eq_ok.mp h
  obtain ⟨j, -, h⟩ := bind_eq_ok.mp h
  exact (enterEffectHandler_sp h).1

/-- A call leaves the domain alone. -/
theorem call_dom {op : Opcode} (hop : isCall op = true)
    (h : CamlUpstream.exec rt act op m = .ok c') : c'.state.dom = m.dom := by
  cases op with
  | APPLY => exact enter_dom h
  | APPLY1 => exact enter_dom h
  | APPLY2 => exact enter_dom h
  | APPLY3 => exact enter_dom h
  | APPTERM => exact enter_dom h
  | APPTERM1 => exact enter_dom h
  | APPTERM2 => exact enter_dom h
  | APPTERM3 => exact enter_dom h
  | _ => cases hop

/-- An effect instruction that stays on its stack raises. -/
theorem effect_within {R : Domain ω → Domain ω → Prop} (hR : Survives rt R) {op : Opcode}
    (hop : isEffect op = true) (hlabel : ∀ m', c' ≠ .checkStacks m')
    (h : CamlUpstream.exec rt act op m = .ok c') : R m.dom c'.state.dom := by
  have hno : ∀ {Q : Prop}, (∃ m', c' = .checkStacks m') → Q :=
    fun ⟨m', hm'⟩ => absurd hm' (hlabel m')
  cases op with
  | PERFORM =>
      rcases perform_passes hR h with ⟨-, hr⟩ | ⟨i, p, cont, m1, -, -, -, hfin⟩
      · exact hr
      · exact hno (finishPerform_label hfin)
  | RESUME =>
      rcases resume_passes hR h with ⟨-, hr⟩ | ⟨s, w0, w1, parked, -, hd⟩
      · exact hr
      · exact hno hd.label
  | RESUMETERM =>
      rcases resumeterm_passes hR h with ⟨-, hr⟩ | ⟨s, w0, w1, parked, -, hd⟩
      · exact hr
      · exact hno hd.label
  | REPERFORMTERM =>
      rcases reperformterm_passes hR h with ⟨-, hr⟩ | hcl | ⟨-, s, w0, w1, parked, hd⟩
      · exact hr
      · exact hno hcl.label
      · exact hno hd.label
  | _ => cases hop

/-- **A STEP THAT IS NO TRAP INSTRUCTION** and stays on its stack stays within
    every relation that survives. -/
theorem step_within {R : Domain ω → Domain ω → Prop} (hR : Survives rt R)
    (hst : StaysOn c c') (hpush : executing c ≠ some .PUSHTRAP)
    (hpop : executing c ≠ some .POPTRAP) (hraise : ∀ m, c ≠ .raiseNotrace m)
    (h : machineStep rt act c = .ok c') : R c.state.dom c'.state.dom := by
  by_cases hcall : ∃ op, executing c = some op ∧ isCall op = true
  · obtain ⟨op, hex, hop⟩ := hcall
    rw [machineStep_executing hex] at h
    rw [call_dom hop h, fetched_dom]
    exact hR.refl _
  · have hlabel : ∀ m', c' ≠ .checkStacks m' := fun m' e => hcall (hst.fiber e)
    by_cases heff : ∃ op, executing c = some op ∧ isEffect op = true
    · obtain ⟨op, hex, hop⟩ := heff
      rw [machineStep_executing hex] at h
      rw [← fetched_dom]
      exact effect_within hR hop hlabel h
    · have hop : ∀ op, executing c = some op → isEffect op = false := by
        intro op hex
        cases hb : isEffect op with
        | false => rfl
        | true => exact absurd ⟨op, hex, hb⟩ heff
      cases step_passes hR hop h with
      | within hr => exact hr
      | retraps hor _ =>
          rcases hor with hex | hex | ⟨m, hm⟩
          · exact absurd hex hpush
          · exact absurd hex hpop
          · exact absurd hm (hraise m)
      | halts _ _ hc => exact absurd hc hst.running
      | leaves _ _ _ hl =>
          obtain ⟨m', hm'⟩ := leaveFor_label hl
          exact absurd hm' (hlabel m')

/-! ## Open frames -/

/-- A trap frame: its four words, and how many words are under it. -/
structure Trap where
  handler : CodePtr
  link : Long
  env : Value
  extraArgs : Long
  depth : Nat

/-- The four words, on top of others. -/
def Trap.words (t : Trap) (below : List Value) : List Value :=
  ofCode t.handler :: valLong t.link :: t.env :: valLong t.extraArgs :: below

/-- The distance of the frame from `Stack_high`. -/
def Trap.offset (t : Trap) : Long := BitVec.ofInt 63 (-((t.depth + 4 : Nat) : Int))

/-- The frame `PUSHTRAP` pushes. -/
def trapOf (m : Machine ω) : Trap where
  handler := m.codeAt m.operand
  link := m.dom.trapSpOff
  env := m.env
  extraArgs := m.extraArgs
  depth := m.sp.length

/-- The frames that are open after the step from `c`, the innermost first. -/
def opens (rt : Runtime ω) (c : Ctl (Machine ω)) (traps : List Trap) : List Trap :=
  match c with
  | .raiseNotrace _ => traps.tail
  | c =>
      match executing c with
      | some .PUSHTRAP => trapOf (fetched c) :: traps
      | some .POPTRAP =>
          -- with a pending action `POPTRAP` is only restarted
          if rt.checkPending c.state.mem c.state.dom then traps else traps.tail
      | _ => traps

/-- A step, with the open frames remembered. -/
def trapStep (rt : Runtime ω) (act : Activation) (s : Ctl (Machine ω) × List Trap) :
    C (Ctl (Machine ω) × List Trap) := do
  .ok (← machineStep rt act s.1, opens rt s.1 s.2)

/-- The innermost open frame is in its place, on top at a `POPTRAP`, and the words
    `older`, the outermost frame and all under it, are as they were; the stack lies
    in the address space. -/
structure Intact (rt : Runtime ω) (older : List Value)
    (s : Ctl (Machine ω) × List Trap) : Prop where
  frame : ∃ t traps above below, s.2 = t :: traps ∧ s.1.state.sp = above ++ t.words below ∧
    below.length = t.depth ∧
    (executing s.1 = some .POPTRAP → rt.checkPending s.1.state.mem s.1.state.dom = false →
      above = [])
  older : ∃ above, s.1.state.sp = above ++ older
  fits : 8 * s.1.state.sp.length < 2 ^ 64

/-- The step of the machine stays on its stack. -/
def Stays (rt : Runtime ω) (act : Activation) (s : Ctl (Machine ω) × List Trap) : Prop :=
  ∀ c', machineStep rt act s.1 = .ok c' → StaysOn s.1 c'

/-- `trap_sp_off` is the distance of the innermost frame, its second word that of
    the next one, and so on; the last one holds `trap0`. -/
def Chained (trap0 : Long) : List Trap → Long → Prop
  | [], trap => trap = trap0
  | t :: traps, trap => trap = t.offset ∧ 8 * (t.depth + 4) < 2 ^ 64 ∧
      Chained trap0 traps t.link

variable {t : Trap} {traps : List Trap} {trap0 trap : Long}

theorem Trap.toInt_offset (h : 8 * (t.depth + 4) < 2 ^ 64) :
    t.offset.toInt = -((t.depth : Int) + 4) := by
  unfold Trap.offset
  rw [BitVec.toInt_ofInt, Int.bmod_eq_of_le]
  · omega
  · omega
  · omega

/-- `raise_notrace` with an open frame under `above`. -/
theorem raise_caught {above below : List Value} (htrap : m.dom.trapSpOff = t.offset)
    (hfits : 8 * (t.depth + 4) < 2 ^ 64) (hsp : m.sp = above ++ t.words below)
    (hlen : below.length = t.depth) :
    raiseNotrace act m = .ok (.next { m with
      pc := t.handler, env := t.env, extraArgs := t.extraArgs, sp := below,
      dom := { m.dom with trapSpOff := t.link } }) := by
  refine raiseNotrace_frame hsp ?_
  rw [htrap, Trap.toInt_offset hfits, hlen]

/-- `POPTRAP` with a pending action. -/
theorem poptrap_pending (hpend : rt.checkPending m.mem m.dom = true) :
    poptrap rt m = processSignal rt { m with pc := m.pc - 4#64 } := by
  unfold poptrap
  rw [if_pos hpend]

/-- `POPTRAP` with the frame on top. -/
theorem poptrap_on_top {below : List Value} (hpend : rt.checkPending m.mem m.dom = false)
    (hsp : m.sp = t.words below) :
    poptrap rt m = .ok (.next { m with
      sp := below, dom := { m.dom with trapSpOff := t.link } }) := by
  have h1 : spAt (t.words below) 1 = .ok (valLong t.link) := rfl
  have h4 : spDrop (t.words below) 4 = .ok below := rfl
  unfold poptrap
  rw [hpend, hsp]
  simp only [h1, h4, longVal_valLong, bind, Except.bind]
  rfl

/-! ## The invariant -/

theorem opens_push (h : executing c = some .PUSHTRAP) :
    opens rt c traps = trapOf (fetched c) :: traps := by
  unfold opens
  split
  · cases h
  · rw [h]

theorem opens_pop (h : executing c = some .POPTRAP) :
    opens rt c traps =
      if rt.checkPending c.state.mem c.state.dom then traps else traps.tail := by
  unfold opens
  split
  · cases h
  · rw [h]

theorem opens_other (hpush : executing c ≠ some .PUSHTRAP) (hpop : executing c ≠ some .POPTRAP)
    (hraise : ∀ m, c ≠ .raiseNotrace m) : opens rt c traps = traps := by
  unfold opens
  split
  · next m => exact absurd rfl (hraise m)
  · split
    · next h => exact absurd h hpush
    · next h => exact absurd h hpop
    · rfl

/-- What is known of the frames that are open since the `PUSHTRAP` at `c0`. -/
structure Nested (c0 : Ctl (Machine ω)) (s : Ctl (Machine ω) × List Trap) : Prop where
  chained : Chained c0.state.dom.trapSpOff s.2 s.1.state.dom.trapSpOff
  outermost : s.2 ≠ [] → s.2.getLast? = some (trapOf (fetched c0))

theorem getLast?_tail_cons {t : Trap} {x : Trap} (h : (t :: traps).getLast? = some x)
    (hne : traps ≠ []) : traps.getLast? = some x := by
  obtain ⟨t', traps', rfl⟩ := List.exists_cons_of_ne_nil hne
  rw [List.getLast?_cons_cons] at h
  exact h

/-- One step keeps the chain. -/
theorem Nested.step (hk : KeepsTrap rt) {c0 : Ctl (Machine ω)}
    {s s' : Ctl (Machine ω) × List Trap} {older : List Value} (h : Nested c0 s)
    (hi : Intact rt older s) (hstays : Stays rt act s) (hi' : Intact rt older s')
    (hs : trapStep rt act s = .ok s') : Nested c0 s' := by
  obtain ⟨c, traps'⟩ := s
  obtain ⟨c', hc', hs⟩ := bind_eq_ok.mp hs
  obtain rfl := Except.ok.inj hs
  obtain ⟨t, traps, above, below, rfl, hsp, hlen, htop⟩ := hi.frame
  obtain ⟨htrap, hfits, hchain⟩ := h.chained
  have houter := h.outermost (List.cons_ne_nil _ _)
  by_cases hraise : ∃ m, c = .raiseNotrace m
  · -- the innermost frame catches
    obtain ⟨m, rfl⟩ := hraise
    obtain rfl := Except.ok.inj (hc'.symm.trans (raise_caught htrap hfits hsp hlen))
    exact ⟨hchain, fun hne => getLast?_tail_cons houter hne⟩
  · have hraise' : ∀ m, c ≠ .raiseNotrace m := fun m e => hraise ⟨m, e⟩
    by_cases hpush : executing c = some .PUSHTRAP
    · have hfits' := hi'.fits
      rw [machineStep_executing hpush] at hc'
      obtain rfl := Except.ok.inj hc'
      have hopens : opens rt c (t :: traps) = trapOf (fetched c) :: t :: traps := opens_push hpush
      refine ⟨?_, fun _ => ?_⟩
      · show Chained _ (opens rt c (t :: traps)) _
        rw [hopens]
        refine ⟨rfl, hfits', ?_, hfits, hchain⟩
        show (fetched c).dom.trapSpOff = _
        rw [fetched_dom]
        exact htrap
      · show (opens rt c (t :: traps)).getLast? = _
        rw [hopens, List.getLast?_cons_cons]
        exact houter
    · by_cases hpop : executing c = some .POPTRAP
      · have hopens : opens rt c (t :: traps) = _ := opens_pop hpop
        rw [machineStep_executing hpop] at hc'
        cases hpend : rt.checkPending c.state.mem c.state.dom with
        | true =>
            -- restarted after the pending actions
            have hpend' : rt.checkPending (fetched c).mem (fetched c).dom = true := by
              rw [fetched_mem, fetched_dom]
              exact hpend
            have hsame := processSignal_within hk.survives ((poptrap_pending hpend').symm.trans hc')
            rw [hpend, if_pos rfl] at hopens
            refine ⟨?_, fun _ => by rw [hopens]; exact houter⟩
            rw [hopens, hsame]
            refine ⟨?_, hfits, hchain⟩
            show (fetched c).dom.trapSpOff = _
            rw [fetched_dom]
            exact htrap
        | false =>
            have hpend' : rt.checkPending (fetched c).mem (fetched c).dom = false := by
              rw [fetched_mem, fetched_dom]
              exact hpend
            have hsp' : (fetched c).sp = t.words below := by
              rw [fetched_sp]
              refine hsp.trans ?_
              rw [htop hpop hpend]
              rfl
            obtain rfl := Except.ok.inj (hc'.symm.trans (poptrap_on_top hpend' hsp'))
            rw [hpend] at hopens
            refine ⟨?_, fun hne => ?_⟩
            · rw [hopens]
              exact hchain
            · rw [hopens] at hne ⊢
              exact getLast?_tail_cons houter hne
      · have hopens : opens rt c (t :: traps) = t :: traps := opens_other hpush hpop hraise'
        have hsame := step_within hk.survives (hstays _ hc') hpush hpop hraise' hc'
        refine ⟨?_, fun _ => by rw [hopens]; exact houter⟩
        rw [hopens, hsame]
        exact ⟨htrap, hfits, hchain⟩

/-- **ALL RUNS** in which the frames stay intact. -/
theorem Nested.run (hk : KeepsTrap rt) {c0 : Ctl (Machine ω)}
    {s0 s : Ctl (Machine ω) × List Trap} {past : List (Ctl (Machine ω) × List Trap)}
    {older : List Value} (h0 : Nested c0 s0) (hrun : Run (trapStep rt act) s0 past s)
    (hi : ∀ x ∈ s :: past, Intact rt older x) (hstays : ∀ x ∈ past, Stays rt act x) :
    Nested c0 s := by
  have hinv : Intact rt older s → Nested c0 s := by
    refine Run.invariant (G := fun x => Intact rt older x ∧ Stays rt act x)
      (P := fun _ x => Intact rt older x → Nested c0 x)
      (fun _ => h0) (fun _ t u ht hG hs hu => (ht hG.1).step hk hG.1 hG.2 hu hs) hrun
      (fun x hx => ⟨hi x (List.mem_cons_of_mem _ hx), hstays x hx⟩)
  exact hinv (hi s List.mem_cons_self)

/-! ## Without a trap frame -/

/-- A raise with `trap_sp_off` at its initial value goes to the parent's side,
    whatever is on the stack, or returns an exception result. -/
structure LeavesByRaise (act : Activation) (m : Machine ω) : Prop where
  parent : ∀ {i p}, m.dom.pool.get m.dom.currentStack = some i → i.parent = some p →
    p ≠ m.dom.currentStack → ∀ sp, raiseNotrace act { m with sp := sp } =
      leaveFor m p i.handleExn
  caller : ∀ {i}, m.dom.pool.get m.dom.currentStack = some i → i.parent = none →
    ∃ words dom, raiseNotrace act m = .ok (.halted (.exception m.accu) { m with
      sp := words, dom := dom })

/-- What is saved in a fiber that is left does not matter. -/
theorem leaveFor_sp {i : StackInfo} {p : Nat} (hi : m.dom.pool.get m.dom.currentStack = some i)
    (hne : p ≠ m.dom.currentStack) (sp : List Value) (h : Value) :
    leaveFor { m with
      sp := sp
      dom := { m.dom with
        pool := m.dom.pool.put m.dom.currentStack { i with words := sp } } } p h
      = leaveFor m p h := by
  have hget : (m.dom.pool.put m.dom.currentStack { i with words := sp }).get p
      = m.dom.pool.get p := Store.get_put_of_ne _ _ hne
  unfold leaveFor
  cases hp : m.dom.pool.get p with
  | none =>
      -- the parent has been freed: undefined on both sides
      unfold leaveStack Domain.loadSp Domain.stack
      dsimp only
      rw [hget, hp]
      rfl
  | some j =>
      rw [leaveStack_of_get hp hi, leaveStack_of_get (hget.trans hp) (Store.get_put_self _ hi)]
      dsimp only
      rw [Store.free_put]
      rfl

/-- `raise_notrace` with neither a trap frame nor a parent returns. -/
theorem raiseNotrace_returns {i : StackInfo} (htrap : 0 < m.dom.trapSpOff.toInt)
    (hi : m.dom.pool.get m.dom.currentStack = some i) (hp : i.parent = none) :
    raiseNotrace act m = .ok (.halted (.exception m.accu) { m with
      sp := wordsFrom m.sp act.initialStackWords.toInt.toNat,
      dom := { m.dom with
        pool := m.dom.pool.put m.dom.currentStack
          { i with
            words := wordsFrom m.sp act.initialStackWords.toInt.toNat
            above := (-act.initialStackWords.toInt).toNat },
        externalRaise := act.initialExternalRaise, trapSpOff := act.initialTrapSpOff } }) := by
  obtain ⟨w, hval, hexn, heff, pa, sz, ab⟩ := i
  obtain rfl : pa = none := hp
  unfold raiseNotrace
  rw [if_pos (slt_of_pos htrap)]
  exact bind_eq_ok.mpr ⟨_, orUndefined_eq_ok.mpr hi,
    bind_eq_ok.mpr ⟨_, bind_eq_ok.mpr ⟨_, orUndefined_eq_ok.mpr hi, rfl⟩, rfl⟩⟩

theorem leavesByRaise (act : Activation) (htrap : m.dom.trapSpOff = 1#63) :
    LeavesByRaise act m := by
  have hpos : 0 < m.dom.trapSpOff.toInt := by
    rw [htrap]
    decide
  constructor
  · intro i p hi hp hne sp
    rw [raiseNotrace_leaves (m := { m with sp := sp }) hpos hi hp]
    exact leaveFor_sp hi hne sp _
  · intro i hi hp
    exact ⟨_, _, raiseNotrace_returns hpos hi hp⟩

/-! ## Handlers restore the state of their `PUSHTRAP` -/

/-- **EXCEPTION HANDLERS RESTORE**: after a run that starts at the `PUSHTRAP` in
    `c0`, stays on its stack and keeps its frame, with every frame pushed since closed
    again, a raise enters the handler in the state of the `PUSHTRAP`, and `POPTRAP` restores its
    `sp` and `trap_sp_off`.  With `trap_sp_off` at 1 there is no frame to read. -/
theorem trap_restores (rt : Runtime ω) (act : Activation) (hk : KeepsTrap rt)
    (c0 c1 c : Ctl (Machine ω)) (past : List (Ctl (Machine ω) × List Trap)) (traps : List Trap)
    (hop : executing c0 = some .PUSHTRAP) (hs : machineStep rt act c0 = .ok c1)
    (hrun : Run (trapStep rt act) (c1, [trapOf (fetched c0)]) past (c, traps))
    (hi : ∀ x ∈ (c, traps) :: past,
      Intact rt ((trapOf (fetched c0)).words (fetched c0).sp) x)
    (hstays : ∀ x ∈ past, Stays rt act x) (hcurrent : traps.tail = []) :
    (∀ m, c = .raiseNotrace m → machineStep rt act c = .ok (.next { m with
      pc := (fetched c0).codeAt (fetched c0).operand, env := (fetched c0).env,
      extraArgs := (fetched c0).extraArgs, sp := (fetched c0).sp,
      dom := { m.dom with trapSpOff := c0.state.dom.trapSpOff } })) ∧
    (executing c = some .POPTRAP → rt.checkPending c.state.mem c.state.dom = false →
      machineStep rt act c = .ok (.next { fetched c with
        sp := (fetched c0).sp,
        dom := { (fetched c).dom with trapSpOff := c0.state.dom.trapSpOff } })) ∧
    ∀ m : Machine ω, m.dom.trapSpOff = 1#63 → LeavesByRaise act m := by
  have hfin := hi _ List.mem_cons_self
  have h0 : Nested c0 (c1, [trapOf (fetched c0)]) := by
    have hfits := (hi _ hrun.start_mem).fits
    rw [machineStep_executing hop] at hs
    obtain rfl := Except.ok.inj hs
    refine ⟨⟨rfl, hfits, ?_⟩, fun _ => rfl⟩
    show (fetched c0).dom.trapSpOff = _
    rw [fetched_dom]
  have hnested := h0.run hk hrun hi hstays
  obtain ⟨t, traps', above, below, rfl, hsp, hlen, htop⟩ := hfin.frame
  obtain rfl : traps' = [] := hcurrent
  obtain rfl : t = trapOf (fetched c0) := Option.some.inj (hnested.outermost (List.cons_ne_nil _ _))
  obtain ⟨htrap, hfits, -⟩ := hnested.chained
  -- the words under the frame are those of the `PUSHTRAP`
  obtain ⟨above', hsp'⟩ := hfin.older
  obtain rfl : below = (fetched c0).sp := by
    have hall := (List.append_inj' (hsp.symm.trans hsp') (congrArg (· + 4) hlen)).2
    simp only [Trap.words, List.cons.injEq, true_and] at hall
    exact hall
  refine ⟨?_, fun hpop hpend => ?_, fun m h1 => leavesByRaise act h1⟩
  · rintro m rfl
    refine (raise_caught htrap hfits hsp rfl).trans ?_
    rw [← fetched_dom c0]
    rfl
  · have hpend' : rt.checkPending (fetched c).mem (fetched c).dom = false := by
      rw [fetched_mem, fetched_dom]
      exact hpend
    have hsp' : (fetched c).sp = (trapOf (fetched c0)).words (fetched c0).sp := by
      rw [fetched_sp]
      refine hsp.trans ?_
      rw [htop hpop hpend]
      rfl
    rw [machineStep_executing hpop]
    refine (poptrap_on_top hpend' hsp').trans ?_
    rw [← fetched_dom c0]
    rfl

theorem keepsTrap_quiet : KeepsTrap quiet := by
  constructor
  · intro mem dom r h
    obtain rfl := Except.ok.inj h
    rfl
  · intro w args mem dom r h
    obtain rfl := Except.ok.inj h
    rfl
  · exact fun _ _ _ => rfl
  · exact fun _ _ _ => rfl

/-- `PUSHTRAP; RAISE` at 0x1000, with the handler at 0x100C. -/
def catching : Ctl (Machine Unit) :=
  .next {
    pc := 0x1000#64
    sp := [valInt 7]
    accu := valInt 3
    env := .atom 0
    extraArgs := 2#63
    mem := {
      heap := ⟨[]⟩
      code := assemble 0x1000#64
        [Opcode.PUSHTRAP.code, 2#32, Opcode.RAISE.code, Opcode.STOP.code]
      globalData := valUnit
      raiseUnhandled := valUnit }
    dom := domainOf [mainStack] 0 }

/-- Where that machine is after `n` steps. -/
def catchingAt (n : Nat) : Ctl (Machine Unit) :=
  match follow (machineStep quiet soleActivation) n catching with
  | .ok (_, c) => c
  | .error _ => catching

/-- A raise restores the state of the `PUSHTRAP`. -/
theorem trap_restores_catching :
    machineStep quiet soleActivation (catchingAt 2) = .ok (.next { (catchingAt 2).state with
      pc := 0x100C#64, env := .atom 0, extraArgs := 2#63, sp := [valInt 7],
      dom := domainOf [mainStack] 0 }) := by
  have hone : Intact quiet ((trapOf (fetched catching)).words [valInt 7])
      (catchingAt 1, [trapOf (fetched catching)]) :=
    ⟨⟨_, [], [], [valInt 7], rfl, rfl, rfl, fun h => by cases h⟩, ⟨[], rfl⟩, by decide⟩
  have htwo : Intact quiet ((trapOf (fetched catching)).words [valInt 7])
      (catchingAt 2, [trapOf (fetched catching)]) :=
    ⟨⟨_, [], [], [valInt 7], rfl, rfl, rfl, fun h => by cases h⟩, ⟨[], rfl⟩, by decide⟩
  have hstays : ∀ x ∈ [(catchingAt 1, [trapOf (fetched catching)])],
      Stays quiet soleActivation x := by
    intro x hx c' h
    obtain rfl := List.mem_singleton.mp hx
    obtain rfl : c' = catchingAt 2 := Except.ok.inj (h.symm.trans rfl)
    exact ⟨(fun h => nomatch h), (fun h => nomatch h)⟩
  have hall : ∀ x ∈ [(catchingAt 2, [trapOf (fetched catching)]),
      (catchingAt 1, [trapOf (fetched catching)])],
      Intact quiet ((trapOf (fetched catching)).words [valInt 7]) x := by
    intro x hx
    rcases List.mem_cons.mp hx with rfl | hx
    · exact htwo
    · obtain rfl := List.mem_singleton.mp hx
      exact hone
  exact (trap_restores quiet soleActivation keepsTrap_quiet catching (catchingAt 1) (catchingAt 2)
    _ _ rfl rfl (run_of_follow (n := 1) rfl) hall hstays rfl).1 _ rfl

end CamlTrap
