import CamlInterp.ControlProofs

/-! # The interpreter of `interp-ali.c`

    The generation before fibers.  There is one stack, and the innermost trap
    frame is an absolute pointer into it, `Caml_state->trapsp`; each trap frame
    stores the distance to the next one.  A pointer into the stack is given by
    the number of words between it and `stack_high`, so that `trapsp >= p` is a
    comparison the other way round.  The counter at the head of the `switch` is
    code that no case label reaches. -/

namespace CamlAli

open CellStore CamlValue CamlOpcode CamlMachine CamlInstr CamlControl

/-- What the interpreter uses of `Caml_state`, and `caml_callback_depth`. -/
structure CamlState (ω : Type) where
  /-- the words from `extern_sp` to `stack_high` -/
  externSp : List Value
  /-- `stack_high - trapsp` -/
  trapsp : Int
  /-- `stack_high - trap_barrier` -/
  trapBarrier : Int
  /-- `stack_high - stack_threshold` -/
  stackThreshold : Nat
  externalRaise : Nat
  callbackDepth : Nat
  backtraceActive : Bool
  /-- state of the C code outside the interpreter -/
  world : ω

/-- The state of one activation of `caml_interprete` between two labels. -/
structure AliMachine (ω : Type) extends Core where
  state : CamlState ω

/-- How a C function called by the interpreter came back. -/
inductive AliResult (ω : Type) where
  | value (v : Value) (mem : Mem) (state : CamlState ω)
  /-- `caml_raise`: `siglongjmp` to the interpreter's `raise_buf` -/
  | raised (e : Value) (mem : Mem) (state : CamlState ω)

/-- C code outside `interp-ali.c`. -/
structure AliRuntime (ω : Type) where
  /-- whether `Alloc_small` finds `young_ptr < young_limit` -/
  youngExhausted : Mem → CamlState ω → Bool
  /-- `caml_alloc_small_dispatch` -/
  allocSmallDispatch : Mem → CamlState ω → C (AliResult ω)
  /-- `caml_something_to_do` -/
  somethingToDo : Mem → CamlState ω → Bool
  /-- `caml_process_pending_actions` -/
  processPendingActions : Mem → CamlState ω → C (AliResult ω)
  /-- `caml_realloc_stack` -/
  reallocStack : Mem → CamlState ω → C (AliResult ω)
  /-- `Primitive(n)` applied to its arguments -/
  primitive : OpcodeWord → List Value → Mem → CamlState ω → C (AliResult ω)
  /-- the pending actions `caml_raise` runs -/
  pendingAtRaise : Value → Mem → CamlState ω → Value × Mem × CamlState ω
  /-- `caml_stash_backtrace` -/
  stashBacktrace : Value → List Value → Bool → CamlState ω → ω
  /-- `caml_debugger` -/
  debugger : DebuggerEvent → Mem → CamlState ω → Mem × CamlState ω
  /-- `--caml_event_count == 0` -/
  eventCountHit : CamlState ω → Bool × ω
  /-- `caml_debugger_saved_instruction` -/
  savedInstruction : CodePtr → CamlState ω → OpcodeWord

/-- The locals `caml_interprete` sets on entry and reads on exit. -/
structure AliActivation where
  /-- `initial_sp_offset`, in words -/
  initialSpOffset : Int
  initialExternalRaise : Nat

variable {ω : Type}

/-- A core body followed by `Next`. -/
def next (f : Core → C Core) (m : AliMachine ω) : C (Ctl (AliMachine ω)) := do
  .ok (.next { m with toCore := ← f m.toCore })

/-- A body that enters a closure, and `goto check_stacks`. -/
def enter (f : Core → C Core) (m : AliMachine ω) : C (Ctl (AliMachine ω)) := do
  .ok (.checkStacks { m with toCore := ← f m.toCore })

/-! ## Raising -/

/-- `Check_trap_barrier`. -/
def checkTrapBarrier (rt : AliRuntime ω) (m : AliMachine ω) : AliMachine ω :=
  if m.state.trapsp ≤ m.state.trapBarrier then
    let (mem, state) := rt.debugger .trapBarrier m.mem m.state
    { m with mem := mem, state := state }
  else m

/-- `caml_stash_backtrace(accu, sp, reraise)`. -/
def stashBacktrace (rt : AliRuntime ω) (reraise : Bool) (m : AliMachine ω) : AliMachine ω :=
  { m with state := { m.state with world := rt.stashBacktrace m.accu m.sp reraise m.state } }

/-- The second return of `sigsetjmp`, with the exception `e`. -/
def reenter (rt : AliRuntime ω) (m : AliMachine ω) (e : Value) (mem : Mem)
    (state : CamlState ω) : Ctl (AliMachine ω) :=
  let m := checkTrapBarrier rt
    { m with sp := state.externSp, accu := e, mem := mem, state := state }
  if m.state.backtraceActive then .raiseNotrace (stashBacktrace rt false m)
  else .raiseNotrace m

/-- `caml_raise(e)` called from the interpreter. -/
def camlRaise (rt : AliRuntime ω) (m : AliMachine ω) (e : Value) : Ctl (AliMachine ω) :=
  let (e, mem, state) := rt.pendingAtRaise e m.mem m.state
  reenter rt m e mem state

/-- `RAISE`; `RERAISE` differs in the flag. -/
def raise (rt : AliRuntime ω) (reraise : Bool) (m : AliMachine ω) : Ctl (AliMachine ω) :=
  let m := checkTrapBarrier rt m
  if m.state.backtraceActive then
    .raiseNotrace (stashBacktrace rt reraise { m with sp := ofCode (m.pc - 4#64) :: m.sp })
  else .raiseNotrace m

/-- `raise_notrace`. -/
def raiseNotrace (act : AliActivation) (m : AliMachine ω) : C (Ctl (AliMachine ω)) := do
  if m.state.trapsp ≤ act.initialSpOffset then
    let words := wordsFrom m.sp act.initialSpOffset.toNat
    .ok (.halted (.exception m.accu) { m with
      sp := words,
      state := { m.state with
        externalRaise := act.initialExternalRaise, externSp := words,
        callbackDepth := m.state.callbackDepth - 1 } })
  else
    match ← spDrop m.sp (m.sp.length - m.state.trapsp) with
    | w0 :: w1 :: w2 :: w3 :: rest =>
        .ok (.next { m with
          pc := ← codeOf w0, env := w2, extraArgs := ← longVal w3, sp := rest,
          state := { m.state with trapsp := m.state.trapsp - (← longVal w1).toInt } })
    | _ => .error .undefined

/-! ## Returning -/

/-- `pc = sp[0]; env = sp[1]; extra_args = Long_val(sp[2]); sp += 3`. -/
def popFrame (c : Core) : C Core :=
  match c.sp with
  | w0 :: w1 :: w2 :: rest => do
      .ok { c with pc := ← codeOf w0, env := w1, extraArgs := ← longVal w2, sp := rest }
  | _ => .error .undefined

/-- `RETURN`. -/
def ret (c : Core) : C Core := do
  let c ← pop c
  if (0#63).slt c.extraArgs then returnSurplus c else popFrame c

/-! ## Allocation -/

/-- The block just allocated is filled and the instruction finished by `fill`. -/
def allocated (wosize tag : Nat) (fill : Value → Core → C Core) (c : Core) : C Core :=
  let (v, heap) := allocBlock c.mem.heap tag (List.replicate wosize .undef)
  fill v { c with mem := { c.mem with heap := heap } }

/-- `Alloc_small(result, wosize, tag)`, then `fill`. -/
def allocSmall (rt : AliRuntime ω) (wosize tag : Nat) (fill : Value → Core → C Core)
    (m : AliMachine ω) : C (Ctl (AliMachine ω)) := do
  camlAssert (1 ≤ wosize)
  camlAssert (tag < 256)
  camlAssert (wosize ≤ maxYoungWosize)
  if rt.youngExhausted m.mem m.state then
    match ← rt.allocSmallDispatch m.mem
        { m.state with externSp := m.accu :: m.env :: ofCode m.pc :: m.sp } with
    | .raised e mem state => .ok (reenter rt m e mem state)
    | .value _ mem state =>
        next (allocated wosize tag fill) { m with
          accu := ← spAt state.externSp 0, env := ← spAt state.externSp 1,
          sp := ← spDrop state.externSp 3, mem := mem, state := state }
  else next (allocated wosize tag fill) m

/-- In the minor heap when `small`, else with `caml_alloc_shr`. -/
def allocEither (rt : AliRuntime ω) (small : Bool) (wosize tag : Nat)
    (fill : Value → Core → C Core) (m : AliMachine ω) : C (Ctl (AliMachine ω)) :=
  if small then allocSmall rt wosize tag fill m
  else if maxWosize < wosize then .error .undefined
  else next (allocated wosize tag fill) m

/-- Initialise every field of a block that was just allocated. -/
def initBlock (c : Core) (v : Value) (tag : Nat) (fields : List Value) : C Core :=
  match v with
  | .ptr b _ => .ok { c with mem := { c.mem with heap := c.mem.heap.put b ⟨tag, fields⟩ } }
  | _ => .error .undefined

/-- `GRAB` after its allocation. -/
def fillPartial (numArgs : Nat) (v : Value) (c : Core) : C Core := do
  let args ← spTake c.sp numArgs
  let c ← initBlock c v closureTag
    (ofCode (c.pc - 12#64) :: .word (makeClosinfo 0 2) :: c.env :: args)
  popFrame { c with accu := v, sp := c.sp.drop numArgs }

/-- `GRAB`. -/
def grab (rt : AliRuntime ω) (m : AliMachine ω) : C (Ctl (AliMachine ω)) :=
  let required := m.operand.toInt
  let m := { m with toCore := m.toCore.advance }
  if required ≤ m.extraArgs.toInt then
    .ok (.next { m with extraArgs := m.extraArgs - BitVec.ofInt 63 required })
  else
    let numArgs := (1 + m.extraArgs).toNat
    allocSmall rt (numArgs + 3) closureTag (fillPartial numArgs) m

/-- `CLOSURE` after its allocation. -/
def fillClosure (nvars : OpcodeWord) (v : Value) (c : Core) : C Core := do
  let n := nvars.toInt.toNat
  withinBlock (mlsize (2#32 + nvars) = 2 + n)
  let vars ← spTake c.sp n
  let c ← initBlock c v closureTag
    (ofCode (c.codeAt c.operand) :: .word (makeClosinfo 0 2) :: vars)
  .ok { c with accu := v, sp := c.sp.drop n, pc := c.pc + 4#64 }

/-- `CLOSURE`. -/
def closure (rt : AliRuntime ω) (m : AliMachine ω) : C (Ctl (AliMachine ω)) :=
  let nvars := m.operand
  let m := { m with toCore := m.toCore.advance }
  let m := if 0 < nvars.toInt then { m with sp := m.accu :: m.sp } else m
  allocEither rt (nvars.toInt ≤ maxYoungWosize - 2) (mlsize (2#32 + nvars)) closureTag
    (fillClosure nvars) m

/-- `CLOSUREREC` after its allocation. -/
def fillClosures (nfuncs nvars : OpcodeWord) (v : Value) (c : Core) : C Core := do
  let f := nfuncs.toInt.toNat
  let n := nvars.toInt.toNat
  withinBlock (roomForRec nfuncs nvars)
  let vars ← spTake c.sp n
  let c ← initBlock c v closureTag (recFields c f (envOffset nfuncs) vars)
  match v with
  | .ptr b _ =>
      .ok { c with
        accu := v, sp := infixClosures b (f - 1) 1 (v :: c.sp.drop n),
        pc := c.pc + BitVec.ofInt 64 (4 * nfuncs.toInt) }
  | _ => .error .undefined

/-- `CLOSUREREC`. -/
def closurerec (rt : AliRuntime ω) (m : AliMachine ω) : C (Ctl (AliMachine ω)) :=
  let nfuncs := m.operand
  let m := { m with toCore := m.toCore.advance }
  let nvars := m.operand
  let m := { m with toCore := m.toCore.advance }
  let m := if 0 < nvars.toInt then { m with sp := m.accu :: m.sp } else m
  allocEither rt (blockSize nfuncs nvars ≤ maxYoungWosize) (blockSize nfuncs nvars) closureTag
    (fillClosures nfuncs nvars) m

/-- `MAKEBLOCK` after its allocation. -/
def fillBlock (wosize tag : Nat) (v : Value) (c : Core) : C Core := do
  let rest ← spTake c.sp (wosize - 1)
  let c ← initBlock c v tag (c.accu :: rest)
  .ok { c with accu := v, sp := c.sp.drop (wosize - 1) }

/-- `MAKEBLOCK`. -/
def makeblock (rt : AliRuntime ω) (m : AliMachine ω) : C (Ctl (AliMachine ω)) :=
  let wosize := mlsize m.operand
  let m := { m with toCore := m.toCore.advance }
  let tag := m.operand.toNat
  allocEither rt (wosize ≤ maxYoungWosize) wosize tag (fillBlock wosize tag)
    { m with toCore := m.toCore.advance }

/-- `MAKEBLOCK1`, `MAKEBLOCK2` and `MAKEBLOCK3`. -/
def makeblockN (rt : AliRuntime ω) (n : Nat) (m : AliMachine ω) : C (Ctl (AliMachine ω)) :=
  allocSmall rt n m.operand.toNat (fillBlock n m.operand.toNat)
    { m with toCore := m.toCore.advance }

/-- `MAKEFLOATBLOCK` after its allocation. -/
def fillFloats (size : Nat) (v : Value) (c : Core) : C Core := do
  let rest ← spTake c.sp (size - 1)
  let c ← initBlock c v doubleArrayTag (← doubleVals c.mem.heap (c.accu :: rest))
  .ok { c with accu := v, sp := c.sp.drop (size - 1) }

/-- `MAKEFLOATBLOCK`. -/
def makefloatblock (rt : AliRuntime ω) (m : AliMachine ω) : C (Ctl (AliMachine ω)) :=
  let size := mlsize m.operand
  allocEither rt (size ≤ maxYoungWosize) size doubleArrayTag (fillFloats size)
    { m with toCore := m.toCore.advance }

/-- `GETFLOATFIELD` after its allocation. -/
def fillFloat (d : Value) (v : Value) (c : Core) : C Core := do
  let c ← initBlock c v doubleTag [d]
  .ok { c with accu := v }

/-- `GETFLOATFIELD`. -/
def getfloatfield (rt : AliRuntime ω) (m : AliMachine ω) : C (Ctl (AliMachine ω)) := do
  let d ← field m.mem.heap m.accu m.operand.toInt
  allocSmall rt 1 doubleTag (fillFloat d) { m with toCore := m.toCore.advance }

/-! ## Trap frames -/

/-- `PUSHTRAP`: the link is the distance from the frame to the next one. -/
def pushtrap (m : AliMachine ω) : C (Ctl (AliMachine ω)) :=
  let frame : Int := m.sp.length + 4
  let sp := ofCode (m.codeAt m.operand) ::
    valLong (BitVec.ofInt 63 (frame - m.state.trapsp)) :: m.env :: valLong m.extraArgs :: m.sp
  .ok (.next { m with
    sp := sp, pc := m.pc + 4#64, state := { m.state with trapsp := frame } })

/-! ## Events -/

/-- `process_actions`. -/
def processActions (rt : AliRuntime ω) (m : AliMachine ω) : C (Ctl (AliMachine ω)) := do
  match ← rt.processPendingActions m.mem { m.state with
      externSp := m.accu :: valUnit :: valUnit :: ofCode m.pc :: m.env ::
        valLong m.extraArgs :: m.sp } with
  | .raised e mem state => .ok (reenter rt m e mem state)
  | .value _ mem state =>
      let sp := state.externSp
      .ok (.next { m with
        accu := ← spAt sp 0, pc := ← codeOf (← spAt sp 3), env := ← spAt sp 4,
        extraArgs := ← longVal (← spAt sp 5), sp := ← spDrop sp 6,
        mem := mem, state := state })

/-- `POPTRAP`. -/
def poptrap (rt : AliRuntime ω) (m : AliMachine ω) : C (Ctl (AliMachine ω)) := do
  if rt.somethingToDo m.mem m.state then processActions rt { m with pc := m.pc - 4#64 }
  else
    let link ← longVal (← spAt m.sp 1)
    .ok (.next { m with
      sp := ← spDrop m.sp 4,
      state := { m.state with trapsp := m.sp.length - link.toInt } })

/-- `CHECK_SIGNALS`. -/
def checkSignals (rt : AliRuntime ω) (m : AliMachine ω) : C (Ctl (AliMachine ω)) :=
  if rt.somethingToDo m.mem m.state then processActions rt m else .ok (.next m)

/-- `check_stacks`, falling through to `CHECK_SIGNALS`. -/
def checkStacks (rt : AliRuntime ω) (m : AliMachine ω) : C (Ctl (AliMachine ω)) := do
  if m.state.stackThreshold < m.sp.length then
    match ← rt.reallocStack m.mem { m.state with externSp := m.sp } with
    | .raised e mem state => .ok (reenter rt m e mem state)
    | .value _ mem state =>
        checkSignals rt { m with sp := state.externSp, mem := mem, state := state }
  else checkSignals rt m

/-! ## C calls and division -/

/-- `Setup_for_c_call`. -/
def setupForCCall (m : AliMachine ω) : AliMachine ω :=
  let sp := m.env :: ofCode (m.pc + 4#64) :: m.sp
  { m with sp := sp, state := { m.state with externSp := sp } }

/-- Call a C function after `Setup_for_c_call`, then `Restore_after_c_call`,
    drop the stack arguments and step over the operand. -/
def cCall (rt : AliRuntime ω) (args : List Value → C (List Value)) (popped : Int)
    (m : AliMachine ω) : C (Ctl (AliMachine ω)) := do
  let m := setupForCCall m
  match ← rt.primitive m.operand (← args m.sp) m.mem m.state with
  | .raised e mem state => .ok (reenter rt m e mem state)
  | .value v mem state =>
      let sp := state.externSp
      .ok (.next { m with
        accu := v, env := ← spAt sp 0, sp := ← spDrop sp (2 + popped),
        pc := m.pc + 4#64, mem := mem, state := state })

/-- `C_CALL1` to `C_CALL5`. -/
def cCallN (rt : AliRuntime ω) (n : Nat) (m : AliMachine ω) : C (Ctl (AliMachine ω)) :=
  cCall rt (fun sp => do .ok (m.accu :: (← spTake (sp.drop 2) (n - 1)))) (n - 1) m

/-- `C_CALLN`. -/
def cCalln (rt : AliRuntime ω) (m : AliMachine ω) : C (Ctl (AliMachine ω)) :=
  let nargs := m.operand.toInt
  cCall rt (fun sp => if 0 ≤ nargs then spTake (sp.drop 2) nargs.toNat
      else .error .undefined) nargs
    { m with toCore := { m.toCore.advance with sp := m.accu :: m.sp } }

/-- `DIVINT` and `MODINT`. -/
def divide (rt : AliRuntime ω) (f : BitVec 64 → BitVec 64 → BitVec 64) (m : AliMachine ω) :
    C (Ctl (AliMachine ω)) := do
  let divisor := longVal64 (← wordOf (← spAt m.sp 0))
  let m := { m with sp := ← spDrop m.sp 1 }
  if divisor = 0#64 then
    let m := setupForCCall m
    .ok (camlRaise rt m (← field m.mem.heap m.mem.globalData zeroDivideExn))
  else
    let a ← wordOf m.accu
    .ok (.next { m with accu := .word (valLong64 (f (longVal64 a) divisor)) })

/-! ## Machine control -/

/-- `STOP`. -/
def stop (act : AliActivation) (m : AliMachine ω) : C (Ctl (AliMachine ω)) :=
  .ok (.halted (.value m.accu) { m with
    state := { m.state with
      externalRaise := act.initialExternalRaise, externSp := m.sp,
      callbackDepth := m.state.callbackDepth - 1 } })

/-- `Setup_for_debugger; caml_debugger(ev, Val_unit); Restore_after_debugger`. -/
def callDebugger (rt : AliRuntime ω) (ev : DebuggerEvent) (m : AliMachine ω) :
    C (AliMachine ω) := do
  let sp := m.accu :: ofCode (m.pc - 4#64) :: m.env :: valLong m.extraArgs :: m.sp
  let (mem, state) := rt.debugger ev m.mem { m.state with externSp := sp }
  camlAssert (state.externSp = sp)
  .ok { m with mem := mem, state := state }

/-- `Restart_curr_instr`. -/
def restartCurrInstr (rt : AliRuntime ω) (m : AliMachine ω) : Ctl (AliMachine ω) :=
  .dispatch (rt.savedInstruction (m.pc - 4#64) m.state) m

/-- `EVENT`. -/
def event (rt : AliRuntime ω) (m : AliMachine ω) : C (Ctl (AliMachine ω)) := do
  let (hit, world) := rt.eventCountHit m.state
  let m := { m with state := { m.state with world := world } }
  if hit then .ok (restartCurrInstr rt (← callDebugger rt .eventCount m))
  else .ok (restartCurrInstr rt m)

/-- `BREAK`. -/
def breakInstr (rt : AliRuntime ω) (m : AliMachine ω) : C (Ctl (AliMachine ω)) := do
  .ok (restartCurrInstr rt (← callDebugger rt .breakpoint m))

/-- The `switch` of `interp-ali.c`; the instructions for effects, which came
    later, are cases it does not have. -/
def exec (rt : AliRuntime ω) (act : AliActivation) (op : Opcode) (m : AliMachine ω) :
    C (Ctl (AliMachine ω)) :=
  match op with
  | .ACC0 => next (acc 0) m
  | .ACC1 => next (acc 1) m
  | .ACC2 => next (acc 2) m
  | .ACC3 => next (acc 3) m
  | .ACC4 => next (acc 4) m
  | .ACC5 => next (acc 5) m
  | .ACC6 => next (acc 6) m
  | .ACC7 => next (acc 7) m
  | .ACC => next accOperand m
  | .PUSH => next push m
  | .PUSHACC0 => next push m
  | .PUSHACC1 => next (pushThen (acc 1)) m
  | .PUSHACC2 => next (pushThen (acc 2)) m
  | .PUSHACC3 => next (pushThen (acc 3)) m
  | .PUSHACC4 => next (pushThen (acc 4)) m
  | .PUSHACC5 => next (pushThen (acc 5)) m
  | .PUSHACC6 => next (pushThen (acc 6)) m
  | .PUSHACC7 => next (pushThen (acc 7)) m
  | .PUSHACC => next (pushThen accOperand) m
  | .POP => next pop m
  | .ASSIGN => next assign m
  | .ENVACC1 => next (envacc 1) m
  | .ENVACC2 => next (envacc 2) m
  | .ENVACC3 => next (envacc 3) m
  | .ENVACC4 => next (envacc 4) m
  | .ENVACC => next envaccOperand m
  | .PUSHENVACC1 => next (pushThen (envacc 1)) m
  | .PUSHENVACC2 => next (pushThen (envacc 2)) m
  | .PUSHENVACC3 => next (pushThen (envacc 3)) m
  | .PUSHENVACC4 => next (pushThen (envacc 4)) m
  | .PUSHENVACC => next (pushThen envaccOperand) m
  | .PUSH_RETADDR => next pushRetaddr m
  | .APPLY => enter apply m
  | .APPLY1 => enter apply1 m
  | .APPLY2 => enter apply2 m
  | .APPLY3 => enter apply3 m
  | .APPTERM => enter appterm m
  | .APPTERM1 => enter appterm1 m
  | .APPTERM2 => enter appterm2 m
  | .APPTERM3 => enter appterm3 m
  | .RETURN => next ret m
  | .RESTART => next restart m
  | .GRAB => grab rt m
  | .CLOSURE => closure rt m
  | .CLOSUREREC => closurerec rt m
  | .OFFSETCLOSUREM3 => next (offsetclosure (-3)) m
  | .OFFSETCLOSURE0 => next offsetclosure0 m
  | .OFFSETCLOSURE3 => next (offsetclosure 3) m
  | .OFFSETCLOSURE => next offsetclosureOperand m
  | .PUSHOFFSETCLOSUREM3 => next (pushThen (offsetclosure (-3))) m
  | .PUSHOFFSETCLOSURE0 => next (pushThen offsetclosure0) m
  | .PUSHOFFSETCLOSURE3 => next (pushThen (offsetclosure 3)) m
  | .PUSHOFFSETCLOSURE => next (pushThen offsetclosureOperand) m
  | .GETGLOBAL => next getglobal m
  | .PUSHGETGLOBAL => next (pushThen getglobal) m
  | .GETGLOBALFIELD => next getglobalfield m
  | .PUSHGETGLOBALFIELD => next (pushThen getglobalfield) m
  | .SETGLOBAL => next setglobal m
  | .ATOM0 => next (atom 0) m
  | .ATOM => next atomOperand m
  | .PUSHATOM0 => next (pushThen (atom 0)) m
  | .PUSHATOM => next (pushThen atomOperand) m
  | .MAKEBLOCK => makeblock rt m
  | .MAKEBLOCK1 => makeblockN rt 1 m
  | .MAKEBLOCK2 => makeblockN rt 2 m
  | .MAKEBLOCK3 => makeblockN rt 3 m
  | .MAKEFLOATBLOCK => makefloatblock rt m
  | .GETFIELD0 => next (getfield 0) m
  | .GETFIELD1 => next (getfield 1) m
  | .GETFIELD2 => next (getfield 2) m
  | .GETFIELD3 => next (getfield 3) m
  | .GETFIELD => next getfieldOperand m
  | .GETFLOATFIELD => getfloatfield rt m
  | .SETFIELD0 => next (setfield 0) m
  | .SETFIELD1 => next (setfield 1) m
  | .SETFIELD2 => next (setfield 2) m
  | .SETFIELD3 => next (setfield 3) m
  | .SETFIELD => next setfieldOperand m
  | .SETFLOATFIELD => next setfloatfield m
  | .VECTLENGTH => next vectlength m
  | .GETVECTITEM => next getvectitem m
  | .SETVECTITEM => next setvectitem m
  | .GETBYTESCHAR => next getbyteschar m
  | .SETBYTESCHAR => next setbyteschar m
  | .BRANCH => next branch m
  | .BRANCHIF => next branchif m
  | .BRANCHIFNOT => next branchifnot m
  | .SWITCH => next switch m
  | .BOOLNOT => next boolnot m
  | .PUSHTRAP => pushtrap m
  | .POPTRAP => poptrap rt m
  | .RAISE => .ok (raise rt false m)
  | .CHECK_SIGNALS => checkSignals rt m
  | .C_CALL1 => cCallN rt 1 m
  | .C_CALL2 => cCallN rt 2 m
  | .C_CALL3 => cCallN rt 3 m
  | .C_CALL4 => cCallN rt 4 m
  | .C_CALL5 => cCallN rt 5 m
  | .C_CALLN => cCalln rt m
  | .CONST0 => next (const 0) m
  | .CONST1 => next (const 1) m
  | .CONST2 => next (const 2) m
  | .CONST3 => next (const 3) m
  | .CONSTINT => next constint m
  | .PUSHCONST0 => next (pushThen (const 0)) m
  | .PUSHCONST1 => next (pushThen (const 1)) m
  | .PUSHCONST2 => next (pushThen (const 2)) m
  | .PUSHCONST3 => next (pushThen (const 3)) m
  | .PUSHCONSTINT => next (pushThen constint) m
  | .NEGINT => next negint m
  | .ADDINT => next addint m
  | .SUBINT => next subint m
  | .MULINT => next mulint m
  | .DIVINT => divide rt BitVec.sdiv m
  | .MODINT => divide rt BitVec.srem m
  | .ANDINT => next andint m
  | .ORINT => next orint m
  | .XORINT => next xorint m
  | .LSLINT => next lslint m
  | .LSRINT => next lsrint m
  | .ASRINT => next asrint m
  | .EQ => next (equality false) m
  | .NEQ => next (equality true) m
  | .LTINT => next (comparison BitVec.slt) m
  | .LEINT => next (comparison BitVec.sle) m
  | .GTINT => next (comparison (fun a b => b.slt a)) m
  | .GEINT => next (comparison (fun a b => b.sle a)) m
  | .OFFSETINT => next offsetint m
  | .OFFSETREF => next offsetref m
  | .ISINT => next isint m
  | .GETMETHOD => next getmethod m
  | .BEQ => next (branchComparison (fun a b => a == b)) m
  | .BNEQ => next (branchComparison (fun a b => a != b)) m
  | .BLTINT => next (branchComparison BitVec.slt) m
  | .BLEINT => next (branchComparison BitVec.sle) m
  | .BGTINT => next (branchComparison (fun a b => b.slt a)) m
  | .BGEINT => next (branchComparison (fun a b => b.sle a)) m
  | .ULTINT => next (comparison BitVec.ult) m
  | .UGEINT => next (comparison (fun a b => b.ule a)) m
  | .BULTINT => next (branchComparison BitVec.ult) m
  | .BUGEINT => next (branchComparison (fun a b => b.ule a)) m
  | .GETPUBMET => next getpubmet m
  | .GETDYNMET => next getdynmet m
  | .STOP => stop act m
  | .EVENT => event rt m
  | .BREAK => breakInstr rt m
  | .RERAISE => .ok (raise rt true m)
  | .RAISE_NOTRACE => .ok (.raiseNotrace (checkTrapBarrier rt m))
  | .GETSTRINGCHAR => next getbyteschar m
  | .PERFORM => .error .fatalError
  | .RESUME => .error .fatalError
  | .RESUMETERM => .error .fatalError
  | .REPERFORMTERM => .error .fatalError

/-- `dispatch_instr`: the `switch` with its default case. -/
def execWord (rt : AliRuntime ω) (act : AliActivation) (w : OpcodeWord) (m : AliMachine ω) :
    C (Ctl (AliMachine ω)) :=
  match decode w with
  | some op => exec rt act op m
  | none => .error .fatalError

/-- Run from one label to the next. -/
def step (rt : AliRuntime ω) (act : AliActivation) :
    Ctl (AliMachine ω) → C (Ctl (AliMachine ω))
  | .next m => execWord rt act m.operand { m with toCore := m.toCore.advance }
  | .dispatch w m => execWord rt act w m
  | .checkStacks m => checkStacks rt m
  | .raiseNotrace m => raiseNotrace act m
  | .halted _ _ => .error .returned

/-! ## Entry -/

/-- What `caml_interprete(prog, _)` notes on entry. -/
def activation (state : CamlState ω) : AliActivation where
  initialSpOffset := state.externSp.length
  initialExternalRaise := state.externalRaise

/-- The registers with which `caml_interprete(prog, _)` reaches its loop; `buf`
    is the address of its `raise_buf`. -/
def entry (prog : CodePtr) (buf : Nat) (mem : Mem) (state : CamlState ω) : AliMachine ω where
  pc := prog
  sp := state.externSp
  accu := valInt 0
  env := .atom 0
  extraArgs := 0#63
  mem := mem
  state := { state with externalRaise := buf, callbackDepth := state.callbackDepth + 1 }

end CamlAli
