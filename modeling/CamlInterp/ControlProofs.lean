import CamlInterp.InstrProofs

/-! # Instruction bodies — calls, allocation, exceptions and effects

    The cases that enter code, allocate, call C, or touch the trap chain and
    the stacks.  The bodies of the call instructions stop before the profiling
    code that `interp.c` adds to them, and hand over the registers they leave;
    every other body runs to the next label. -/

namespace CamlControl

open CellStore CamlValue CamlOpcode CamlMachine CamlInstr

variable {ω : Type}

/-- Run a body that only touches the core registers. -/
def onCore (f : Core → C Core) (m : Machine ω) : C (Machine ω) := do
  .ok { m with toCore := ← f m.toCore }

/-- A core body followed by `Next`. -/
def thenNext (f : Core → C Core) (m : Machine ω) : C (Ctl (Machine ω)) := do
  .ok (.next (← onCore f m))

/-! ## Application -/

/-- `pc = Code_val(accu); env = accu`. -/
def enterClosure (c : Core) : C Core := do
  .ok { c with pc := ← codeVal c.mem.heap c.accu, env := c.accu }

/-- `APPLY`. -/
def apply (c : Core) : C Core :=
  enterClosure { c with extraArgs := BitVec.ofInt 63 (c.operand.toInt - 1) }

/-- `APPLY1`, `APPLY2` and `APPLY3`: the return frame goes under the `n`
    arguments. -/
def applyArgs (n : Nat) (c : Core) : C Core := do
  let args ← spTake c.sp n
  let rest := c.sp.drop n
  enterClosure { c with
    sp := args ++ ofCode c.pc :: c.env :: valLong c.extraArgs :: rest,
    extraArgs := BitVec.ofNat 63 (n - 1) }

def apply1 : Core → C Core := applyArgs 1
def apply2 : Core → C Core := applyArgs 2
def apply3 : Core → C Core := applyArgs 3

/-- `for (i = nargs - 1; i >= 0; i--) newsp[i] = sp[i]`, in place; `newsp` is
    `d` words above `sp`. -/
def slide (d : Nat) : Nat → List Value → C (List Value)
  | 0, sp => .ok sp
  | i + 1, sp => do
      slide d i (← spSet sp (d + i) (← spAt sp i))

/-- `APPTERM`. -/
def appterm (c : Core) : C Core := do
  let nargs := c.operand.toInt
  let c := c.advance
  let slotsize := c.operand.toInt
  if 0 ≤ nargs ∧ nargs ≤ slotsize then
    let sp ← slide (slotsize - nargs).toNat nargs.toNat c.sp
    enterClosure { c with
      sp := ← spDrop sp (slotsize - nargs),
      extraArgs := c.extraArgs + BitVec.ofInt 63 (nargs - 1) }
  else .error .undefined

/-- `APPTERM1`, `APPTERM2` and `APPTERM3`. -/
def apptermArgs (n : Nat) (c : Core) : C Core := do
  let args ← spTake c.sp n
  let below ← spDrop c.sp (c.operand.toInt - n)
  let rest ← spDrop below n
  enterClosure { c with
    sp := args ++ rest, extraArgs := c.extraArgs + BitVec.ofNat 63 (n - 1) }

def appterm1 : Core → C Core := apptermArgs 1
def appterm2 : Core → C Core := apptermArgs 2
def appterm3 : Core → C Core := apptermArgs 3

/-- `RETURN` with surplus arguments: apply the result to them. -/
def returnSurplus (c : Core) : C Core :=
  enterClosure { c with extraArgs := c.extraArgs - 1#63 }

/-! ## Allocation -/

/-- Initialise every field of a block that was just allocated. -/
def initFields (m : Machine ω) (v : Value) (tag : Nat) (fields : List Value) :
    C (Machine ω) :=
  match v with
  | .ptr b _ =>
      .ok { m with mem := { m.mem with heap := m.mem.heap.put b ⟨tag, fields⟩ } }
  | _ => .error .undefined

/-- `GRAB`. -/
def grab (rt : Runtime ω) (m : Machine ω) : C (Ctl (Machine ω)) :=
  let required := m.operand.toInt
  let m := { m with toCore := m.toCore.advance }
  if required ≤ m.extraArgs.toInt then
    .ok (.next { m with extraArgs := m.extraArgs - BitVec.ofInt 63 required })
  else
    let numArgs := (1 + m.extraArgs).toNat
    allocSmall rt m (numArgs + 3) closureTag fun v m => do
      let args ← spTake m.sp numArgs
      let m ← initFields m v closureTag
        (ofCode (m.pc - 12#64) :: .word (makeClosinfo 0 2) :: m.env :: args)
      doReturn { m with accu := v, sp := m.sp.drop numArgs }

/-- Allocate in the minor heap when `small`, else in the major heap. -/
def allocEither (rt : Runtime ω) (m : Machine ω) (small : Bool) (wosize tag : Nat)
    (k : Value → Machine ω → C (Ctl (Machine ω))) : C (Ctl (Machine ω)) :=
  if small then allocSmall rt m wosize tag k else camlAllocShr m wosize tag k

/-- Fields written behind the end of a block are undefined. -/
def withinBlock (b : Bool) : C Unit := if b then .ok () else .error .undefined

/-- `CLOSURE`. -/
def closure (rt : Runtime ω) (m : Machine ω) : C (Ctl (Machine ω)) :=
  let nvars := m.operand
  let m := { m with toCore := m.toCore.advance }
  let m := if 0 < nvars.toInt then { m with sp := m.accu :: m.sp } else m
  let n := nvars.toInt.toNat
  let wosize := mlsize (2#32 + nvars)
  allocEither rt m (nvars.toInt ≤ maxYoungWosize - 2) wosize closureTag fun v m => do
    -- a negative `nvars` leaves no room for the two words of the closure
    withinBlock (wosize = 2 + n)
    let vars ← spTake m.sp n
    let m ← initFields m v closureTag
      (ofCode (m.codeAt m.operand) :: .word (makeClosinfo 0 2) :: vars)
    .ok (.next { m with accu := v, sp := m.sp.drop n, pc := m.pc + 4#64 })

/-- The loop of `CLOSUREREC` over functions `i`, `i + 1`, ...: three words for
    each, and the environment offset three less. -/
def infixFields (c : Core) : Nat → Nat → Nat → List Value
  | 0, _, _ => []
  | n + 1, i, envofs =>
      .word (makeHeader (i * 3) infixTag) :: ofCode (c.codeAt (c.operandAt i)) ::
        .word (makeClosinfo 0 (envofs - 3)) :: infixFields c n (i + 1) (envofs - 3)

/-- The closures that loop pushes, the last one on top. -/
def infixClosures (b : Nat) : Nat → Nat → List Value → List Value
  | 0, _, sp => sp
  | n + 1, i, sp => infixClosures b n (i + 1) (.ptr b (3 * i) :: sp)

/-- The block `CLOSUREREC` fills: the variables from `envofs` on, then from the
    start the functions; `c` is at the first code offset. -/
def recFields (c : Core) (f envofs : Nat) (vars : List Value) : List Value :=
  let funcs := ofCode (c.codeAt (c.operandAt 0)) :: .word (makeClosinfo 0 envofs) ::
    infixFields c (f - 1) 1 envofs
  funcs ++ (List.replicate envofs Value.undef ++ vars).drop funcs.length

/-- `envofs`: the product is one of `int`s. -/
def envOffset (nfuncs : OpcodeWord) : Nat := mlsize (nfuncs * 3#32 - 1#32)

theorem toInt_envOffset (n : OpcodeWord) :
    (n * 3#32 - 1#32).toInt = (n.toInt * 3 - 1).bmod 4294967296 := by
  rw [BitVec.toInt_sub, BitVec.toInt_mul]
  show ((n.toInt * 3).bmod 4294967296 - 1).bmod 4294967296 = _
  rw [Int.bmod_sub_bmod]

/-- `blksize` -/
def blockSize (nfuncs nvars : OpcodeWord) : Nat :=
  (envOffset nfuncs + mlsize nvars) % 18446744073709551616

/-- `CLOSUREREC` has room for what it writes: the functions, of which there always is
    a first one, and the variables lie in its block. -/
def roomForRec (nfuncs nvars : OpcodeWord) : Bool :=
  0 ≤ nvars.toInt && 2 + 3 * (nfuncs.toInt.toNat - 1) ≤ blockSize nfuncs nvars &&
    envOffset nfuncs + nvars.toInt.toNat ≤ blockSize nfuncs nvars

/-- The end of `CLOSUREREC`, once its block is allocated. -/
def finishRec (nfuncs nvars : OpcodeWord) (v : Value) (m : Machine ω) :
    C (Ctl (Machine ω)) := do
  let f := nfuncs.toInt.toNat
  let n := nvars.toInt.toNat
  withinBlock (roomForRec nfuncs nvars)
  let vars ← spTake m.sp n
  let m ← initFields m v closureTag (recFields m.toCore f (envOffset nfuncs) vars)
  match v with
  | .ptr b _ =>
      .ok (.next { m with
        accu := v, sp := infixClosures b (f - 1) 1 (v :: m.sp.drop n),
        pc := m.pc + BitVec.ofInt 64 (4 * nfuncs.toInt) })
  | _ => .error .undefined

/-- `CLOSUREREC`. -/
def closurerec (rt : Runtime ω) (m : Machine ω) : C (Ctl (Machine ω)) :=
  let nfuncs := m.operand
  let m := { m with toCore := m.toCore.advance }
  let nvars := m.operand
  let m := { m with toCore := m.toCore.advance }
  let m := if 0 < nvars.toInt then { m with sp := m.accu :: m.sp } else m
  allocEither rt m (blockSize nfuncs nvars ≤ maxYoungWosize) (blockSize nfuncs nvars)
    closureTag (finishRec nfuncs nvars)

/-- `MAKEBLOCK`, and `MAKEBLOCK1` to `MAKEBLOCK3` with `pc` past the tag. -/
def makeblockOf (rt : Runtime ω) (small : Bool) (wosize tag : Nat) (m : Machine ω) :
    C (Ctl (Machine ω)) :=
  allocEither rt m small wosize tag fun v m => do
    let rest ← spTake m.sp (wosize - 1)
    let m ← initFields m v tag (m.accu :: rest)
    .ok (.next { m with accu := v, sp := m.sp.drop (wosize - 1) })

/-- `MAKEBLOCK`. -/
def makeblock (rt : Runtime ω) (m : Machine ω) : C (Ctl (Machine ω)) :=
  let wosize := mlsize m.operand
  let m := { m with toCore := m.toCore.advance }
  let tag := m.operand.toNat
  makeblockOf rt (wosize ≤ maxYoungWosize) wosize tag { m with toCore := m.toCore.advance }

/-- `MAKEBLOCK1`, `MAKEBLOCK2` and `MAKEBLOCK3`. -/
def makeblockN (rt : Runtime ω) (n : Nat) (m : Machine ω) : C (Ctl (Machine ω)) :=
  makeblockOf rt true n m.operand.toNat { m with toCore := m.toCore.advance }

/-- The doubles of a list of boxed floats. -/
def doubleVals (h : Heap) : List Value → C (List Value)
  | [] => .ok []
  | v :: vs => do
      let d ← field h v 0
      .ok (d :: (← doubleVals h vs))

/-- `MAKEFLOATBLOCK`. -/
def makefloatblock (rt : Runtime ω) (m : Machine ω) : C (Ctl (Machine ω)) :=
  let size := mlsize m.operand
  allocEither rt { m with toCore := m.toCore.advance } (size ≤ maxYoungWosize) size
      doubleArrayTag fun v m => do
    let rest ← spTake m.sp (size - 1)
    let m ← initFields m v doubleArrayTag (← doubleVals m.mem.heap (m.accu :: rest))
    .ok (.next { m with accu := v, sp := m.sp.drop (size - 1) })

/-- `GETFLOATFIELD`. -/
def getfloatfield (rt : Runtime ω) (m : Machine ω) : C (Ctl (Machine ω)) := do
  let d ← field m.mem.heap m.accu m.operand.toInt
  allocSmall rt { m with toCore := m.toCore.advance } 1 doubleTag fun v m => do
    let m ← initFields m v doubleTag [d]
    .ok (.next { m with accu := v })

/-! ## Exceptions -/

/-- `PUSHTRAP`. -/
def pushtrap (m : Machine ω) : C (Ctl (Machine ω)) :=
  let sp := ofCode (m.codeAt m.operand) :: valLong m.dom.trapSpOff :: m.env ::
    valLong m.extraArgs :: m.sp
  .ok (.next { m with
    sp := sp, pc := m.pc + 4#64, dom := { m.dom with trapSpOff := spOffset sp } })

/-- `POPTRAP`. -/
def poptrap (rt : Runtime ω) (m : Machine ω) : C (Ctl (Machine ω)) := do
  if rt.checkPending m.mem m.dom then processSignal rt { m with pc := m.pc - 4#64 }
  else
    let trap ← longVal (← spAt m.sp 1)
    .ok (.next { m with
      sp := ← spDrop m.sp 4, dom := { m.dom with trapSpOff := trap } })

/-- `RAISE_NOTRACE`. -/
def raiseNotraceInstr (rt : Runtime ω) (m : Machine ω) : C (Ctl (Machine ω)) :=
  .ok (.raiseNotrace (checkTrapBarrier rt m))

/-! ## C calls and division -/

/-- `C_CALL1` to `C_CALL5`: the arguments are `accu` and the words above the
    saved frame. -/
def cCallN (rt : Runtime ω) (n : Nat) (m : Machine ω) : C (Ctl (Machine ω)) :=
  cCall rt (fun sp => do .ok (m.accu :: (← spTake (sp.drop 2) (n - 1)))) (n - 1) m

/-- `C_CALLN`. -/
def cCalln (rt : Runtime ω) (m : Machine ω) : C (Ctl (Machine ω)) :=
  let nargs := m.operand.toInt
  cCall rt (fun sp => if 0 ≤ nargs then spTake (sp.drop 2) nargs.toNat
      else .error .undefined) nargs
    { m with toCore := { m.toCore.advance with sp := m.accu :: m.sp } }

/-- `DIVINT` and `MODINT`. -/
def divide (rt : Runtime ω) (f : BitVec 64 → BitVec 64 → BitVec 64) (m : Machine ω) :
    C (Ctl (Machine ω)) := do
  let divisor := longVal64 (← wordOf (← spAt m.sp 0))
  let m := { m with sp := ← spDrop m.sp 1 }
  if divisor = 0#64 then
    let m ← setupForCCall m
    camlRaise rt m (← field m.mem.heap m.mem.globalData zeroDivideExn)
  else
    let a ← wordOf m.accu
    .ok (.next { m with accu := .word (valLong64 (f (longVal64 a) divisor)) })

/-! ## Machine control -/

/-- `STOP`. -/
def stop (act : Activation) (m : Machine ω) : C (Ctl (Machine ω)) := do
  let dom ← m.dom.saveSp m.sp
  .ok (.halted (.value m.accu) { m with
    dom := { dom with
      externalRaise := act.initialExternalRaise,
      trapSpOff := act.initialTrapSpOff } })

/-- `Setup_for_debugger; caml_debugger(ev, Val_unit); Restore_after_debugger`. -/
def callDebugger (rt : Runtime ω) (ev : DebuggerEvent) (m : Machine ω) :
    C (Machine ω) := do
  let sp := m.accu :: ofCode (m.pc - 4#64) :: m.env :: valLong m.extraArgs :: m.sp
  let (mem, dom) := rt.debugger ev m.mem (← m.dom.saveSp sp)
  camlAssert ((← dom.loadSp) = sp)
  .ok { m with mem := mem, dom := dom }

/-- `Restart_curr_instr`. -/
def restartCurrInstr (rt : Runtime ω) (m : Machine ω) : Ctl (Machine ω) :=
  .dispatch (rt.savedInstruction (m.pc - 4#64) m.dom) m

/-- `EVENT`. -/
def event (rt : Runtime ω) (m : Machine ω) : C (Ctl (Machine ω)) := do
  let (hit, world) := rt.eventCountHit m.dom
  let m := { m with dom := { m.dom with world := world } }
  if hit then .ok (restartCurrInstr rt (← callDebugger rt .eventCount m))
  else .ok (restartCurrInstr rt m)

/-- `BREAK`. -/
def breakInstr (rt : Runtime ω) (m : Machine ω) : C (Ctl (Machine ω)) := do
  .ok (restartCurrInstr rt (← callDebugger rt .breakpoint m))

/-! ## Effects -/

/-- `do_resume`, with `resume_fn` and `resume_arg`. -/
def doResume (rt : Runtime ω) (fn arg : Value) (m : Machine ω) :
    C (Ctl (Machine ω)) := do
  match ← ptrVal m.accu with
  | none =>
      let e ← field m.mem.heap m.mem.globalData continuationAlreadyTakenExn
      raiseException rt false { m with accu := e }
  | some stk =>
      let last ← lastParent m.dom.pool m.dom.pool.fresh stk
      let dom ← m.dom.setParent last (some m.dom.currentStack)
      let dom ← dom.saveSp m.sp
      let dom := { dom with currentStack := stk }
      let sp ← dom.loadSp
      let trap ← longVal (← spAt sp 0)
      .ok (.checkStacks { m with
        sp := ← spSet sp 0 arg, accu := fn, pc := ← codeVal m.mem.heap fn, env := fn,
        extraArgs := 0#63, dom := { dom with trapSpOff := trap } })

/-- `RESUME`. -/
def resume (rt : Runtime ω) (m : Machine ω) : C (Ctl (Machine ω)) := do
  let fn ← spAt m.sp 0
  let arg ← spAt m.sp 1
  let rest ← spDrop m.sp 2
  doResume rt fn arg { m with
    sp := valLong m.dom.trapSpOff :: valLong 0#63 :: ofCode m.pc :: m.env ::
      valLong m.extraArgs :: rest }

/-- `RESUMETERM`. -/
def resumeterm (rt : Runtime ω) (m : Machine ω) : C (Ctl (Machine ω)) := do
  let fn ← spAt m.sp 0
  let arg ← spAt m.sp 1
  let below ← spDrop m.sp (m.operand.toInt - 2)
  let rest ← spDrop below 2
  doResume rt fn arg { m with
    sp := valLong m.dom.trapSpOff :: valLong m.extraArgs :: rest }

/-- The end of `PERFORM` and `REPERFORMTERM`: the words parked on the parent
    make room for the handler's three arguments. -/
def enterEffectHandler (m : Machine ω) (eff cont : Value) (child : Nat)
    (handler : Value) (sp : List Value) : C (Ctl (Machine ω)) := do
  let trap ← longVal (← spAt sp 0)
  let extra ← longVal (← spAt sp 1)
  let rest ← spDrop sp 2
  .ok (.checkStacks { m with
    sp := eff :: cont :: valPtr (some child) :: rest, accu := handler,
    pc := ← codeVal m.mem.heap handler, env := handler, extraArgs := extra + 2#63,
    dom := { m.dom with trapSpOff := trap } })

/-- `PERFORM`. -/
def perform (rt : Runtime ω) (m : Machine ω) : C (Ctl (Machine ω)) := do
  let oldStack := m.dom.currentStack
  match (← m.dom.stack oldStack).parent with
  | none =>
      let e ← field m.mem.heap m.mem.globalData unhandledExn
      raiseException rt false { m with accu := e }
  | some parentStack =>
      allocSmall rt m 1 contTag fun cont m => do
        let sp := valLong m.dom.trapSpOff :: ofCode m.pc :: m.env ::
          valLong m.extraArgs :: m.sp
        let dom ← m.dom.setWords oldStack sp
        let dom := { dom with currentStack := parentStack }
        let sp ← dom.loadSp
        let dom ← dom.setParent oldStack none
        let m ← initFields { m with dom := dom } cont contTag [valPtr (some oldStack)]
        enterEffectHandler m m.accu cont oldStack (← dom.stack oldStack).handleEffect sp

/-- `REPERFORMTERM`. -/
def reperformterm (rt : Runtime ω) (m : Machine ω) : C (Ctl (Machine ω)) := do
  let eff := m.accu
  let cont ← spAt m.sp 0
  let contTail ← ptrVal (← spAt m.sp 1)
  let self := m.dom.currentStack
  let parent := (← m.dom.stack self).parent
  let below ← spDrop m.sp (m.operand.toInt - 2)
  let rest ← spDrop below 2
  let m := { m with sp := valLong m.dom.trapSpOff :: valLong m.extraArgs :: rest }
  match parent with
  | none =>
      let (v, mem) ← camlContinuationUseNoexc cont m.mem
      let m := { m with mem := mem }
      if v = valPtr none then
        camlRaise rt m (← field m.mem.heap m.mem.globalData continuationAlreadyTakenExn)
      else
        let e ← field m.mem.heap m.mem.globalData unhandledExn
        doResume rt m.mem.raiseUnhandled e { m with accu := v }
  | some parent =>
      let dom ← m.dom.setWords self m.sp
      let dom := { dom with currentStack := parent }
      let sp ← dom.loadSp
      let tail ← orUndefined contTail
      camlAssert ((← dom.stack tail).parent = none)
      let dom ← dom.setParent self none
      let dom ← dom.setParent tail (some self)
      enterEffectHandler { m with dom := dom } eff cont self
        (← dom.stack self).handleEffect sp

end CamlControl
