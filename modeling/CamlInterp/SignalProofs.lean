import CamlInterp.TrapProofs
import CamlInterp.RelocationProofs
import CamlInterp.CallProofs

/-! # Signals at `POPTRAP`

    `POPTRAP` looks for pending actions before it takes its frame away, and is
    restarted after each round of them.  Nothing but the memory is different after
    a round, apart from where blocks and the stack lie; so the frame is still the
    current one, an exception of any round is caught by it, and `POPTRAP` at last
    does what it would have done without them. -/

namespace CamlSignal

open CellStore CamlValue CamlOpcode CamlMachine CamlControl CamlStep CamlFiber CamlEffect
  CamlUnhandled CamlPassage CamlTrap CamlRelocation CamlCall

variable {ω : Type}

/-! ## Pending actions that may raise -/

/-- Pending actions, seen from the instruction at `pc`: they may do anything to the
    heap, but move the words of the running stack only as the collector does,
    keep `trap_sp_off` and do not overwrite the instruction.  When they raise,
    words may have been left on top. -/
structure Interrupts (rt : Runtime ω) (pc : CodePtr) : Prop where
  returns : ∀ {mem dom words v mem' dom'}, dom.loadSp = .ok words →
    rt.processPendingActions mem dom = .ok (.value v mem' dom') →
    dom'.trapSpOff = dom.trapSpOff ∧ mem'.code pc = mem.code pc ∧
      ∃ f, dom'.loadSp = .ok (words.map (moveVal f))
  raises : ∀ {mem dom words e mem' dom'}, dom.loadSp = .ok words →
    rt.processPendingActions mem dom = .ok (.raised e mem' dom') →
    dom'.trapSpOff = dom.trapSpOff ∧ ∃ f above, dom'.loadSp = .ok (above ++ words.map (moveVal f))
  debugger : ∀ ev mem dom, (rt.debugger ev mem dom).2.trapSpOff = dom.trapSpOff

/-- The machine is at a `POPTRAP`, and `sp` points at the current trap frame. -/
structure AtPoptrap (m : Machine ω) (t : Trap) (below : List Value) : Prop where
  instr : m.mem.code m.pc = Opcode.POPTRAP.code
  frame : m.sp = t.words below
  depth : below.length = t.depth
  current : m.dom.trapSpOff.toInt = -((t.depth : Int) + 4)
  running : ∃ i, m.dom.pool.get m.dom.currentStack = some i

/-- The registers, the stack and `trap_sp_off` are the same, with the blocks moved
    along `f`. -/
structure Kept (f : Nat → Nat) (m m' : Machine ω) : Prop where
  pc : m'.pc = m.pc
  sp : m'.sp = m.sp.map (moveVal f)
  accu : m'.accu = moveVal f m.accu
  env : m'.env = moveVal f m.env
  extraArgs : m'.extraArgs = m.extraArgs
  trapSpOff : m'.dom.trapSpOff = m.dom.trapSpOff

/-- Rounds of pending actions from `m` to `m'`, none of which raises. -/
inductive Rounds (rt : Runtime ω) (act : Activation) (m : Machine ω) : Machine ω → Prop
  | none : Rounds rt act m m
  | round {m1 m2 : Machine ω} : Rounds rt act m m1 → rt.checkPending m1.mem m1.dom = true →
      machineStep rt act (.next m1) = .ok (.next m2) → Rounds rt act m m2

/-- The frame with the blocks moved. -/
def moveTrap (f : Nat → Nat) (t : Trap) : Trap := { t with env := moveVal f t.env }

variable {rt : Runtime ω} {act : Activation} {m m' m'' : Machine ω} {f g : Nat → Nat}
  {t : Trap} {below : List Value}

theorem map_words (f : Nat → Nat) (t : Trap) (below : List Value) :
    (t.words below).map (moveVal f) = (moveTrap f t).words (below.map (moveVal f)) := rfl

theorem Kept.refl (m : Machine ω) : Kept id m m :=
  ⟨rfl, (map_moveVal_id _).symm, (moveVal_id _).symm, (moveVal_id _).symm, rfl, rfl⟩

theorem Kept.trans (hf : Kept f m m') (hg : Kept g m' m'') : Kept (g ∘ f) m m'' where
  pc := hg.pc.trans hf.pc
  sp := by rw [hg.sp, hf.sp, map_moveVal_comp]
  accu := by rw [hg.accu, hf.accu, moveVal_comp]
  env := by rw [hg.env, hf.env, moveVal_comp]
  extraArgs := hg.extraArgs.trans hf.extraArgs
  trapSpOff := hg.trapSpOff.trans hf.trapSpOff

/-- A machine that has been kept is still at its `POPTRAP`. -/
theorem AtPoptrap.kept (h : AtPoptrap m t below) (hk : Kept f m m')
    (hcode : m'.mem.code m.pc = m.mem.code m.pc)
    (hrun : ∃ i, m'.dom.pool.get m'.dom.currentStack = some i) :
    AtPoptrap m' (moveTrap f t) (below.map (moveVal f)) where
  instr := by rw [hk.pc, hcode, h.instr]
  frame := by rw [hk.sp, h.frame, map_words]
  depth := by rw [List.length_map, h.depth]; rfl
  current := by rw [hk.trapSpOff, h.current]; rfl
  running := hrun

/-! ## One round -/

/-- With something pending, the step at `POPTRAP` is `process_signal` with the
    registers as they were. -/
theorem step_pending (h : AtPoptrap m t below) (hpend : rt.checkPending m.mem m.dom = true) :
    machineStep rt act (.next m) = processSignal rt m := by
  have hpc : m.pc + 4#64 - 4#64 = m.pc := BitVec.add_sub_cancel _ _
  rw [step_at h.instr]
  refine (poptrap_pending (m := { m with pc := m.pc + 4#64 }) hpend).trans ?_
  show processSignal rt { m with pc := m.pc + 4#64 - 4#64 } = _
  rw [hpc]

/-- With nothing pending it takes the frame away. -/
theorem step_quiet (h : AtPoptrap m t below) (hpend : rt.checkPending m.mem m.dom = false) :
    machineStep rt act (.next m) = .ok (.next { m with
      pc := m.pc + 4#64, sp := below, dom := { m.dom with trapSpOff := t.link } }) := by
  rw [step_at h.instr]
  exact poptrap_on_top hpend h.frame

theorem running_of_load {d : Domain ω} {words : List Value} (h : d.loadSp = .ok words) :
    ∃ i, d.pool.get d.currentStack = some i := by
  obtain ⟨i, hi, -⟩ := bind_eq_ok.mp h
  exact ⟨i, stack_ok hi⟩

/-- `Setup_for_event` on a running stack. -/
theorem saved_event (h : AtPoptrap m t below) :
    ∃ d, m.dom.saveSp (eventWords m) = .ok d ∧ d.loadSp = .ok (eventWords m) ∧
      d.trapSpOff = m.dom.trapSpOff := by
  obtain ⟨i, hi⟩ := h.running
  refine ⟨_, saveSp_of_get _ hi, ?_, rfl⟩
  unfold Domain.loadSp Domain.stack
  rw [Store.get_put_self _ hi]
  rfl

/-- A round that returns: the machine is at its `POPTRAP` again. -/
theorem round_returns (h : AtPoptrap m t below) (hi : Interrupts rt m.pc)
    (hpend : rt.checkPending m.mem m.dom = true) {d dom' : Domain ω} {v : Value} {mem' : Mem}
    (hsave : m.dom.saveSp (eventWords m) = .ok d)
    (hact : rt.processPendingActions m.mem d = .ok (.value v mem' dom')) :
    ∃ f m', machineStep rt act (.next m) = .ok (.next m') ∧ Kept f m m' ∧
      AtPoptrap m' (moveTrap f t) (below.map (moveVal f)) := by
  obtain ⟨d', hsave', hload, htrap⟩ := saved_event h
  obtain rfl := Except.ok.inj (hsave.symm.trans hsave')
  obtain ⟨htrap', hcode, f, hload'⟩ := hi.returns hload hact
  have hk : Kept f m { m with
      accu := moveVal f m.accu, env := moveVal f m.env, sp := m.sp.map (moveVal f),
      mem := mem', dom := dom' } := ⟨rfl, rfl, rfl, rfl, rfl, htrap'.trans htrap⟩
  refine ⟨f, _, ?_, hk, h.kept hk hcode (running_of_load hload')⟩
  rw [step_pending h hpend]
  exact processSignal_returns hsave hact hload'

/-- The exception of C code arrives, with `trap_sp_off` as the C code has left it. -/
theorem reenter_trap (hdbg : ∀ ev mem dom, (rt.debugger ev mem dom).2.trapSpOff = dom.trapSpOff)
    (m : Machine ω) (e : Value) (mem : Mem) {d : Domain ω} {sp : List Value}
    (h : d.loadSp = .ok sp) : ∃ m1, reenter rt m e mem d = .ok (.raiseNotrace m1) ∧
      m1.accu = e ∧ m1.sp = sp ∧ m1.dom.trapSpOff = d.trapSpOff := by
  have hregs : ∀ m0 : Machine ω, (checkTrapBarrier rt m0).accu = m0.accu ∧
      (checkTrapBarrier rt m0).sp = m0.sp ∧
      (checkTrapBarrier rt m0).dom.trapSpOff = m0.dom.trapSpOff := by
    intro m0
    unfold checkTrapBarrier
    split
    · exact ⟨rfl, rfl, hdbg _ _ _⟩
    · exact ⟨rfl, rfl, rfl⟩
  unfold reenter
  rw [h]
  simp only [bind, Except.bind]
  split
  · exact ⟨_, rfl, hregs _⟩
  · exact ⟨_, rfl, hregs _⟩

/-- A round that raises: the frame on top is the one that catches it. -/
theorem round_raises (h : AtPoptrap m t below) (hi : Interrupts rt m.pc)
    (hpend : rt.checkPending m.mem m.dom = true) {d dom' : Domain ω} {e : Value} {mem' : Mem}
    (hsave : m.dom.saveSp (eventWords m) = .ok d)
    (hact : rt.processPendingActions m.mem d = .ok (.raised e mem' dom')) :
    ∃ f m1 m2, machineStep rt act (.next m) = .ok (.raiseNotrace m1) ∧
      machineStep rt act (.raiseNotrace m1) = .ok (.next m2) ∧
      m2.accu = e ∧ m2.pc = t.handler ∧ m2.sp = below.map (moveVal f) ∧
      m2.env = moveVal f t.env ∧ m2.extraArgs = t.extraArgs ∧ m2.dom.trapSpOff = t.link := by
  obtain ⟨d', hsave', hload, htrap⟩ := saved_event h
  obtain rfl := Except.ok.inj (hsave.symm.trans hsave')
  obtain ⟨htrap', f, above, hload'⟩ := hi.raises hload hact
  obtain ⟨m1, hm1, haccu, hsp, htrap1⟩ := reenter_trap hi.debugger m e mem' hload'
  -- the frame is under the six words of the event and what was left above them
  have hframe : m1.sp = (above ++ [moveVal f m.accu, valUnit, valUnit, ofCode m.pc,
      moveVal f m.env, valLong m.extraArgs]) ++ (moveTrap f t).words (below.map (moveVal f)) := by
    rw [hsp, List.append_assoc, ← map_words, ← h.frame]
    rfl
  have hoff : m1.dom.trapSpOff.toInt = -(((below.map (moveVal f)).length : Int) + 4) := by
    rw [htrap1, htrap', htrap, h.current, List.length_map, h.depth]
  refine ⟨f, m1, _, ?_, raiseNotrace_frame hframe hoff, haccu, rfl, rfl, rfl, rfl, rfl⟩
  rw [step_pending h hpend]
  unfold processSignal
  show (m.dom.saveSp (eventWords m) >>= _) = _
  rw [hsave]
  show (rt.processPendingActions _ _ >>= _) = _
  rw [hact]
  exact hm1

/-! ## Any number of rounds -/

/-- C code that raises leads to `raise_notrace`. -/
theorem reenter_ne_next {e : Value} {mem : Mem} {d : Domain ω} :
    reenter rt m e mem d ≠ .ok (.next m') := by
  intro h
  obtain ⟨sp, -, h⟩ := bind_eq_ok.mp h
  dsimp only at h
  split at h
  · cases h
  · cases h

/-- A step that ends at the top of the loop with something pending was a round. -/
theorem round_inv (h : AtPoptrap m t below) (hpend : rt.checkPending m.mem m.dom = true)
    (hstep : machineStep rt act (.next m) = .ok (.next m')) :
    ∃ d v mem' dom', m.dom.saveSp (eventWords m) = .ok d ∧
      rt.processPendingActions m.mem d = .ok (.value v mem' dom') := by
  rw [step_pending h hpend] at hstep
  obtain ⟨d, hsave, hstep⟩ := bind_eq_ok.mp hstep
  obtain ⟨r, hact, hstep⟩ := bind_eq_ok.mp hstep
  cases r with
  | value v mem' dom' => exact ⟨d, v, mem', dom', hsave, hact⟩
  | raised e mem' dom' => exact absurd hstep reenter_ne_next

theorem moveTrap_comp (f g : Nat → Nat) (t : Trap) :
    moveTrap g (moveTrap f t) = moveTrap (g ∘ f) t := by
  unfold moveTrap
  rw [moveVal_comp]

/-- After any rounds the machine is at its `POPTRAP` again. -/
theorem Rounds.kept (h : AtPoptrap m t below) (hi : Interrupts rt m.pc)
    (hr : Rounds rt act m m') :
    ∃ f, Kept f m m' ∧ AtPoptrap m' (moveTrap f t) (below.map (moveVal f)) := by
  induction hr with
  | none => exact ⟨id, Kept.refl m, h.kept (Kept.refl m) rfl h.running⟩
  | round _ hpend hstep ih =>
      obtain ⟨f, hf, hat⟩ := ih
      obtain ⟨d, v, mem', dom', hsave, hact⟩ := round_inv hat hpend hstep
      rw [← hf.pc] at hi
      obtain ⟨g, m2, hstep', hg, hat'⟩ := round_returns hat hi hpend hsave hact
      obtain rfl := Ctl.next.inj (Except.ok.inj (hstep.symm.trans hstep'))
      rw [moveTrap_comp, map_moveVal_comp] at hat'
      exact ⟨g ∘ f, hf.trans hg, hat'⟩

/-- **SIGNALS AT `POPTRAP`**: after any number of rounds of pending actions the
    machine is at its `POPTRAP` with the same registers and stack.  If nothing is
    pending then, the frame is popped as it would have been at once.  Otherwise
    there is another round: if it returns, the same holds again, and if it raises
    `e`, the frame catches it. -/
theorem signals_at_poptrap (rt : Runtime ω) (act : Activation) (m m' : Machine ω) (t : Trap)
    (below : List Value) (h : AtPoptrap m t below) (hi : Interrupts rt m.pc)
    (hr : Rounds rt act m m') :
    ∃ f, Kept f m m' ∧
      (rt.checkPending m'.mem m'.dom = false →
        ∃ q, machineStep (idle rt) act (.next m) = .ok (.next q) ∧
          machineStep rt act (.next m') = .ok (.next { q with
            accu := moveVal f q.accu, env := moveVal f q.env, sp := q.sp.map (moveVal f),
            mem := m'.mem, dom := { m'.dom with trapSpOff := q.dom.trapSpOff } })) ∧
      (rt.checkPending m'.mem m'.dom = true →
        ∃ d, m'.dom.saveSp (eventWords m') = .ok d ∧
          (∀ v mem dom, rt.processPendingActions m'.mem d = .ok (.value v mem dom) →
            ∃ m'', machineStep rt act (.next m') = .ok (.next m'') ∧ Rounds rt act m m'') ∧
          (∀ e mem dom, rt.processPendingActions m'.mem d = .ok (.raised e mem dom) →
            ∃ g m1 m2, machineStep rt act (.next m') = .ok (.raiseNotrace m1) ∧
              machineStep rt act (.raiseNotrace m1) = .ok (.next m2) ∧
              m2.accu = e ∧ m2.pc = t.handler ∧ m2.sp = below.map (moveVal g) ∧
              m2.env = moveVal g t.env ∧ m2.extraArgs = t.extraArgs ∧
              m2.dom.trapSpOff = t.link)) := by
  obtain ⟨f, hk, hat⟩ := hr.kept h hi
  have hi' : Interrupts rt m'.pc := by
    rw [hk.pc]
    exact hi
  refine ⟨f, hk, fun hpend => ?_, fun hpend => ?_⟩
  · refine ⟨_, step_quiet h rfl, ?_⟩
    rw [step_quiet hat hpend, hk.pc, hk.accu, hk.env, hk.extraArgs]
    rfl
  · obtain ⟨d, hsave, -⟩ := saved_event hat
    refine ⟨d, hsave, fun v mem dom hact => ?_, fun e mem dom hact => ?_⟩
    · obtain ⟨-, m'', hstep, -⟩ := round_returns hat hi' hpend hsave hact
      exact ⟨m'', hstep, hr.round hpend hstep⟩
    · obtain ⟨g, m1, m2, hraise, hcatch, haccu, hpc, hsp, henv, hextra, htrap⟩ :=
        round_raises hat hi' hpend hsave hact
      rw [map_moveVal_comp] at hsp
      rw [show (moveTrap f t).env = moveVal f t.env from rfl, moveVal_comp] at henv
      exact ⟨g ∘ f, m1, m2, hraise, hcatch, haccu, hpc, hsp, henv, hextra, htrap⟩

/-! ## Two rounds and a raise -/

/-- The stacks moved, and one more action done. -/
def onceMore (dom : Domain Nat) : Domain Nat :=
  { dom with
    pool := ⟨dom.pool.cells.map (Option.map shiftStack)⟩, world := dom.world + 1 }

/-- Three pending actions: two return, with every block moved up by one, and the
    third raises. -/
def thrice : Runtime Nat where
  gcRounds := fun _ _ => 0
  checkPending := fun _ dom => decide (dom.world < 3)
  processPendingActions := fun mem dom =>
    if dom.world < 2 then .ok (.value valUnit mem (onceMore dom))
    else .ok (.raised (valInt 5) mem (onceMore dom))
  primitive := fun _ _ mem dom => .ok (.value valUnit mem dom)
  signalsAtRaise := fun e mem dom => (e, mem, dom)
  stackAllocOk := fun _ _ => true
  stashBacktrace := fun _ _ _ dom => dom.world
  debugger := fun _ mem dom => (mem, dom)
  eventCountHit := fun dom => (false, dom.world)
  savedInstruction := fun _ _ => 0#32

theorem loadSp_onceMore {d : Domain Nat} {words : List Value} (h : d.loadSp = .ok words) :
    (onceMore d).loadSp = .ok (words.map (moveVal shift)) := by
  obtain ⟨i, hi, hw⟩ := bind_eq_ok.mp h
  obtain rfl := Except.ok.inj hw
  have hget : (onceMore d).pool.get (onceMore d).currentStack = some (shiftStack i) :=
    get_mapped shiftStack (stack_ok hi)
  unfold Domain.loadSp Domain.stack
  rw [hget]
  rfl

/-- Three rounds of interrupts, each of which moves the heap. -/
theorem thrice_interrupts (pc : CodePtr) : Interrupts thrice pc := by
  constructor
  · intro mem dom words v mem' dom' hload h
    unfold thrice at h
    dsimp only at h
    split at h
    · cases h
      exact ⟨rfl, rfl, shift, loadSp_onceMore hload⟩
    · cases h
  · intro mem dom words e mem' dom' hload h
    unfold thrice at h
    dsimp only at h
    split at h
    · cases h
    · cases h
      exact ⟨rfl, shift, [], loadSp_onceMore hload⟩
  · exact fun _ _ _ => rfl

/-- A `POPTRAP` at 0x1000 whose frame has its handler at 0x1008. -/
def leaving : Machine Nat where
  pc := 0x1000#64
  sp := [ofCode 0x1008#64, valLong 1#63, .ptr 0 0, valLong 2#63, valInt 7]
  accu := valInt 3
  env := .ptr 1 0
  extraArgs := 0#63
  mem := {
    heap := ⟨[]⟩
    code := assemble 0x1000#64 [Opcode.POPTRAP.code, Opcode.STOP.code, Opcode.STOP.code]
    globalData := valUnit
    raiseUnhandled := valUnit }
  dom := {
    pool := ⟨[some mainStack]⟩
    currentStack := 0
    trapSpOff := -5#63
    trapBarrierOff := 2#63
    externalRaise := 0
    backtraceActive := false
    maxStackSize := 1048576
    fiberWsz := 4096
    world := 0 }

/-- Three rounds, and then an exception that the frame catches. -/
theorem signals_at_poptrap_thrice :
    ∃ m', Rounds thrice soleActivation leaving m' ∧
      ∃ g m1 m2, machineStep thrice soleActivation (.next m') = .ok (.raiseNotrace m1) ∧
        machineStep thrice soleActivation (.raiseNotrace m1) = .ok (.next m2) ∧
        m2.accu = valInt 5 ∧ m2.pc = 0x1008#64 ∧ m2.sp = [valInt 7].map (moveVal g) ∧
        m2.env = moveVal g (.ptr 0 0) ∧ m2.extraArgs = 2#63 ∧ m2.dom.trapSpOff = 1#63 := by
  have hrounds : ∃ m', Rounds thrice soleActivation leaving m' ∧
      thrice.checkPending m'.mem m'.dom = true ∧ ∃ d, m'.dom.saveSp (eventWords m') = .ok d ∧
        ∃ mem dom, thrice.processPendingActions m'.mem d = .ok (.raised (valInt 5) mem dom) :=
    ⟨_, .round (.round .none rfl rfl) rfl rfl, rfl, _, rfl, _, _, rfl⟩
  obtain ⟨m', hr, hpend, d, hsave, mem, dom, hact⟩ := hrounds
  have hat : AtPoptrap leaving ⟨0x1008#64, 1#63, .ptr 0 0, 2#63, 1⟩ [valInt 7] :=
    ⟨by decide, rfl, rfl, by decide, _, rfl⟩
  obtain ⟨-, -, -, hround⟩ := signals_at_poptrap thrice soleActivation leaving m' _ _ hat
    (thrice_interrupts _) hr
  obtain ⟨d', hsave', -, hraise⟩ := hround hpend
  obtain rfl := Except.ok.inj (hsave.symm.trans hsave')
  exact ⟨m', hr, hraise _ _ _ hact⟩

end CamlSignal
