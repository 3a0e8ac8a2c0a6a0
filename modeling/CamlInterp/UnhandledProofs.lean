import CamlInterp.RoundTripProofs

/-! # Unhandled effects — raised where they were performed

    In a fiber without parent `PERFORM` raises on the spot.  Otherwise every
    handler passes the effect on until one runs on a fiber without parent, whose
    `REPERFORMTERM` takes the continuation and resumes it with
    `raise_unhandled`, a closure that raises its argument.  Both ways end at
    `raise_notrace` in the performing fiber, with its own trap frames and the
    fibers around it as they were at the `PERFORM`.  On the way back in there is
    one check of the performing stack, and a stack that is full raises
    `Stack_overflow` there. -/

namespace CamlUnhandled

open CellStore ParentChain CamlValue CamlOpcode CamlMachine CamlControl CamlStep CamlFiber
  CamlEffect CamlRoundTrip Runs

variable {ω : Type}

/-- `raise_unhandled_code`: the closure `raise_unhandled` runs `ACC 0; RAISE`. -/
def RaiseUnhandledReady (mem : Mem) (pc : CodePtr) : Prop :=
  codeVal mem.heap mem.raiseUnhandled = .ok pc ∧ mem.code pc = Opcode.ACC.code ∧
    mem.code (pc + 4#64) = 0#32 ∧ mem.code (pc + 4#64 + 4#64) = Opcode.RAISE.code

variable {rt : Runtime ω} {act : Activation} {m m' m0 d : Machine ω} {dom dom' dom'' : Domain ω}
  {l fs : List Nat} {c c' : Ctl (Machine ω)}

/-! ## Raising -/

/-- Where `raise_notrace` delivers an exception raised in the performing fiber:
    to its innermost trap frame, else to its own exception handler, else, for a
    fiber without parent, to the caller of the interpreter. -/
structure Delivers (rt : Runtime ω) (act : Activation) (m0 : Machine ω) (fs : List Nat)
    (m : Machine ω) : Prop where
  trapFrame : ∀ {above rest h link env extra},
    m0.sp = above ++ ofCode h :: valLong link :: env :: valLong extra :: rest →
    m0.dom.trapSpOff.toInt = -((rest.length : Int) + 4) →
    machineStep rt act (.raiseNotrace m) = .ok (.next { m with
      pc := h, env := env, extraArgs := extra, sp := rest,
      dom := { m.dom with trapSpOff := link } })
  ownHandler : ∀ {p fs' i0 pc t e rest}, fs = p :: fs' → 0 < m0.dom.trapSpOff.toInt →
    m0.dom.pool.get m0.dom.currentStack = some i0 →
    codeVal m.mem.heap i0.handleExn = .ok pc →
    (heldBy m0.dom p).map Prod.fst = some (valLong t :: valLong e :: rest) →
    ∃ m', machineStep rt act (.raiseNotrace m) = .ok (.checkStacks m') ∧
      m'.accu = i0.handleExn ∧ m'.env = i0.handleExn ∧ m'.pc = pc ∧
      m'.sp = m.accu :: rest ∧ m'.extraArgs = e ∧ m'.dom.trapSpOff = t ∧
      linksOf m.dom.pool m.dom.currentStack = some (some m'.dom.currentStack)
  caller : fs = [] → 0 < m0.dom.trapSpOff.toInt →
    ∃ m', machineStep rt act (.raiseNotrace m) = .ok (.halted (.exception m.accu) m')

/-- `raise_notrace` delivers to the trap frame `trap_sp_off` designates. -/
theorem raiseNotrace_frame {above rest : List Value} {code : CodePtr} {link extra : Long}
    {env : Value}
    (hsp : m.sp = above ++ ofCode code :: valLong link :: env :: valLong extra :: rest)
    (htrap : m.dom.trapSpOff.toInt = -((rest.length : Int) + 4)) :
    raiseNotrace act m = .ok (.next { m with
      pc := code, env := env, extraArgs := extra, sp := rest,
      dom := { m.dom with trapSpOff := link } }) := by
  have hnot : ¬ (0#63).slt m.dom.trapSpOff = true := by
    rw [BitVec.slt_iff_toInt_lt, htrap]
    simp only [BitVec.toInt_zero]
    omega
  unfold raiseNotrace
  rw [if_neg hnot]
  have hlen : (m.sp.length : Int) - -m.dom.trapSpOff.toInt = above.length := by
    rw [hsp, htrap]
    simp only [List.length_append, List.length_cons]
    omega
  have hdrop : spDrop m.sp (m.sp.length - -m.dom.trapSpOff.toInt)
      = .ok (ofCode code :: valLong link :: env :: valLong extra :: rest) := by
    rw [hlen, hsp]
    exact spDrop_append
  dsimp only
  rw [hdrop]
  simp only [bind, Except.bind, codeOf_ofCode, longVal_valLong]

theorem leaveStack_of_get {q : Nat} {i iq : StackInfo} (hq : m.dom.pool.get q = some iq)
    (hi : m.dom.pool.get m.dom.currentStack = some i) :
    leaveStack m q = .ok ({ m with dom := { m.dom with
      pool := m.dom.pool.free m.dom.currentStack, currentStack := q } }, iq.words) := by
  unfold leaveStack Domain.loadSp Domain.freeStack Domain.stack
  dsimp only
  rw [hq, hi]
  rfl

/-- The two words on top of a parked stack are `trap_sp_off` and `extra_args`. -/
theorem enterParent_parked (m : Machine ω) (h : Value) (t e : Long) (rest : List Value) :
    enterParent m h (valLong t :: valLong e :: rest) = (do
      let pc ← codeVal m.mem.heap h
      .ok (.checkStacks { m with
        sp := m.accu :: rest, extraArgs := e, accu := h, pc := pc, env := h,
        dom := { m.dom with trapSpOff := t } })) := by
  have h0 : spAt (valLong t :: valLong e :: rest) 0 = .ok (valLong t) := rfl
  have h1 : spAt (valLong t :: valLong e :: rest) 1 = .ok (valLong e) := rfl
  have h2 : spDrop (valLong t :: valLong e :: rest) 2 = .ok rest := rfl
  unfold enterParent
  simp only [h0, h1, h2, longVal_valLong, bind, Except.bind]

/-- The effect performed at `c0` is handled by none of the fibers around it: the
    machine has raised, or re-entered the performing fiber, at `c`, and `mem` is the
    memory the exception is read from. -/
inductive Unhandled (rt : Runtime ω) (act : Activation) (c0 : Ctl (Machine ω)) :
    List Nat → Mem → Ctl (Machine ω) → Prop where
  /-- there is no fiber around -/
  | alone {c : Ctl (Machine ω)} : machineStep rt act c0 = .ok c →
      Unhandled rt act c0 [] c0.state.mem c
  /-- all handlers pass on, the last one on a fiber without parent -/
  | passed {b tail tail' x : Nat} {gs : List Nat} {m1 mn m : Machine ω}
      {past : List (Ctl (Machine ω))} {c : Ctl (Machine ω)} :
      machineStep rt act c0 = .ok (.checkStacks m1) →
      handlerPair (.checkStacks m1) = some (b, tail) → PassedOn rt act b gs.length m1 mn →
      handlerPair (.checkStacks mn) = some (b, tail') →
      Run (machineStep rt act) (.checkStacks mn) past c → executing c = some .REPERFORMTERM →
      Passes b tail' mn (fetched c) → machineStep rt act c = .ok (.checkStacks m) →
      Unhandled rt act c0 (gs ++ [x]) m.mem (.checkStacks m)

/-- `PERFORM; STOP` at 0x1000, a handler that passes on at 0x100C, and
    `raise_unhandled_code` at 0x1028; field 12 of the global data is `Unhandled`. -/
def unhandledMem : Mem where
  heap := ⟨[some ⟨closureTag, [ofCode 0x100C#64, .word (makeClosinfo 0 2)]⟩,
    some ⟨closureTag, [ofCode 0x1028#64, .word (makeClosinfo 0 2)]⟩,
    some ⟨0, (List.range 14).map (fun n : Nat => valInt n)⟩]⟩
  code := assemble 0x1000#64
    [Opcode.PERFORM.code, Opcode.STOP.code, Opcode.RESTART.code, Opcode.GRAB.code, 2#32,
      Opcode.ACC2.code, Opcode.PUSHACC2.code, Opcode.PUSHACC2.code, Opcode.REPERFORMTERM.code,
      5#32, Opcode.ACC.code, 0#32, Opcode.RAISE.code]
  globalData := .ptr 2 0
  raiseUnhandled := .ptr 1 0

/-- A fiber about to perform, with a trap frame if there are words for one. -/
def performer (pool : List StackInfo) (cur : Nat) (sp : List Value) (trap : Long) :
    Ctl (Machine Unit) :=
  .next {
    pc := 0x1000#64
    sp := sp
    accu := valUnit
    env := .atom 0
    extraArgs := 0#63
    mem := unhandledMem
    dom := { domainOf pool cur with trapSpOff := trap } }

/-- A fiber alone, without a trap frame. -/
def alone : Ctl (Machine Unit) := performer [mainStack] 0 [] 1#63

/-- What follows a `PERFORM` that no fiber around handles, in a quiet environment. -/
def Ends (raises : Mem → Machine Unit → StackInfo → Prop) : Prop :=
  ∀ (c0 c : Ctl (Machine Unit)) (fs : List Nat) (mem : Mem) (pc : CodePtr),
    executing c0 = some .PERFORM →
    Linked (linksOf c0.state.dom.pool) (c0.state.dom.currentStack :: fs) →
    (∀ x ∈ fs, Parked c0.state.dom x) → RaiseUnhandledReady mem pc →
    Unhandled quiet soleActivation c0 fs mem c →
    ∃ past m i, Run (machineStep quiet soleActivation) c past (.raiseNotrace m) ∧
      c0.state.dom.pool.get c0.state.dom.currentStack = some i ∧ raises mem m i

end CamlUnhandled
