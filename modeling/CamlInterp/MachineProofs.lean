import CamlInterp.OpcodeProofs

/-! # The machine — registers, stacks, and the runtime around them

    The state `caml_interprete` works on: its registers, the memory it shares
    with C code, the stacks of `fiber.h`, and the fields of
    `caml_domain_state` it reads.  A stack is the list of its words from `sp`
    up to `Stack_high`, so the distance of `sp` from `Stack_high` is a length.
    C code outside the interpreter (primitives, pending actions, debugger) is a
    parameter, `Runtime`; it may carry any state of its own, `ω`. -/

namespace CamlMachine

open CellStore CamlValue CamlOpcode

/-- Memory that is neither a register nor a stack. -/
structure Mem where
  heap : Heap
  code : CodePtr → OpcodeWord
  /-- `caml_global_data` -/
  globalData : Value
  /-- the closure `raise_unhandled` -/
  raiseUnhandled : Value

/-- The registers of the abstract machine and the memory instructions use. -/
structure Core where
  pc : CodePtr
  sp : List Value
  accu : Value
  env : Value
  extraArgs : Long
  mem : Mem

/-- `struct stack_info` with its `struct stack_handler`. -/
structure StackInfo where
  /-- the words from the saved `sp` to `Stack_high` -/
  words : List Value
  handleValue : Value
  handleExn : Value
  handleEffect : Value
  parent : Option Nat
  /-- `Stack_high - Stack_base` -/
  size : Nat
  /-- by how many words the saved `sp` is above `Stack_high`, which it never should be -/
  above : Nat := 0

/-- What the interpreter uses of `caml_domain_state`, with the stack pool. -/
structure Domain (ω : Type) where
  pool : Store StackInfo
  currentStack : Nat
  trapSpOff : Long
  trapBarrierOff : Long
  externalRaise : Nat
  backtraceActive : Bool
  /-- `caml_max_stack_size` -/
  maxStackSize : Nat
  /-- `caml_fiber_wsz` -/
  fiberWsz : Nat
  /-- state of the C code outside the interpreter -/
  world : ω

/-- The state of one activation of `caml_interprete` between two labels. -/
structure Machine (ω : Type) extends Core where
  dom : Domain ω

/-- How a C function called by the interpreter came back. -/
inductive CResult (ω : Type) where
  | value (v : Value) (mem : Mem) (dom : Domain ω)
  /-- `caml_raise`: `siglongjmp` to the interpreter's `raise_buf` -/
  | raised (e : Value) (mem : Mem) (dom : Domain ω)

/-- The events `caml_debugger` is called with. -/
inductive DebuggerEvent where
  | eventCount
  | breakpoint
  | trapBarrier
deriving DecidableEq, Repr

/-- C code outside `interp.c`. -/
structure Runtime (ω : Type) where
  /-- how often the loop of `Alloc_small` finds a GC interrupt -/
  gcRounds : Mem → Domain ω → Nat
  /-- `Caml_check_gc_interrupt(dom) || caml_check_for_pending_signals()` -/
  checkPending : Mem → Domain ω → Bool
  /-- `caml_process_pending_actions` -/
  processPendingActions : Mem → Domain ω → C (CResult ω)
  /-- `Primitive(n)` applied to its arguments -/
  primitive : OpcodeWord → List Value → Mem → Domain ω → C (CResult ω)
  /-- `caml_process_pending_signals_with_root_exn`, run by `caml_raise` -/
  signalsAtRaise : Value → Mem → Domain ω → Value × Mem × Domain ω
  /-- whether `alloc_stack_noexc` finds memory -/
  stackAllocOk : Nat → Domain ω → Bool
  /-- `caml_stash_backtrace` -/
  stashBacktrace : Value → List Value → Bool → Domain ω → ω
  /-- `caml_debugger` -/
  debugger : DebuggerEvent → Mem → Domain ω → Mem × Domain ω
  /-- `--caml_event_count == 0` -/
  eventCountHit : Domain ω → Bool × ω
  /-- `caml_debugger_saved_instruction` -/
  savedInstruction : CodePtr → Domain ω → OpcodeWord

/-- The locals `caml_interprete` sets on entry and reads on exit. -/
structure Activation where
  initialTrapSpOff : Long
  /-- an `int` -/
  initialStackWords : BitVec 32
  initialExternalRaise : Nat

/-- What `caml_interprete` returns: `accu`, or `Make_exception_result(accu)`. -/
inductive Result where
  | value (v : Value)
  | exception (e : Value)
deriving DecidableEq, Repr

/-- The labels of `caml_interprete` between which a step runs. -/
inductive Ctl (σ : Type) where
  /-- the top of the loop -/
  | next (s : σ)
  /-- `dispatch_instr`, with `curr_instr` already loaded -/
  | dispatch (w : OpcodeWord) (s : σ)
  /-- `check_stacks` -/
  | checkStacks (s : σ)
  /-- `raise_notrace` -/
  | raiseNotrace (s : σ)
  /-- returned from `caml_interprete` -/
  | halted (r : Result) (s : σ)

namespace Ctl

/-- Change the state a label is reached with. -/
def map {σ τ : Type} (f : σ → τ) : Ctl σ → Ctl τ
  | next s => next (f s)
  | dispatch w s => dispatch w (f s)
  | checkStacks s => checkStacks (f s)
  | raiseNotrace s => raiseNotrace (f s)
  | halted r s => halted r (f s)

/-- The state at the label. -/
def state {σ : Type} : Ctl σ → σ
  | next s => s
  | dispatch _ s => s
  | checkStacks s => s
  | raiseNotrace s => s
  | halted _ s => s

variable {σ τ υ : Type}

@[simp] theorem state_map (f : σ → τ) (c : Ctl σ) : (c.map f).state = f c.state := by
  cases c <;> rfl

@[simp] theorem map_map (f : σ → τ) (g : τ → υ) (c : Ctl σ) :
    (c.map f).map g = c.map (fun s => g (f s)) := by
  cases c <;> rfl

@[simp] theorem map_id (c : Ctl σ) : c.map (fun s => s) = c := by
  cases c <;> rfl

end Ctl

variable {ω : Type}

/-! ## The stack pointer -/

/-- `sp[i]`. -/
def spAt (sp : List Value) (i : Int) : C Value :=
  if 0 ≤ i then orUndefined sp[i.toNat]? else .error .undefined

/-- `sp += n`. -/
def spDrop (sp : List Value) (n : Int) : C (List Value) :=
  if 0 ≤ n ∧ n.toNat ≤ sp.length then .ok (sp.drop n.toNat) else .error .undefined

/-- `sp[i] = v`. -/
def spSet (sp : List Value) (i : Int) (v : Value) : C (List Value) :=
  if 0 ≤ i ∧ i.toNat < sp.length then .ok (sp.set i.toNat v) else .error .undefined

/-- `n` words from the top of the stack. -/
def spTake (sp : List Value) (n : Nat) : C (List Value) :=
  if n ≤ sp.length then .ok (sp.take n) else .error .undefined

/-- `sp - Stack_high(current_stack)`. -/
def spOffset (sp : List Value) : Long := BitVec.ofInt 63 (-(sp.length : Int))

/-! ## The program counter -/

namespace Core

/-- `*pc`. -/
def operand (c : Core) : OpcodeWord := c.mem.code c.pc

/-- `pc[i]`. -/
def operandAt (c : Core) (i : Int) : OpcodeWord :=
  c.mem.code (c.pc + BitVec.ofInt 64 (4 * i))

/-- `pc++`. -/
def advance (c : Core) : Core := { c with pc := c.pc + 4#64 }

/-- `pc + n`, in units of `opcode_t`. -/
def codeAt (c : Core) (n : OpcodeWord) : CodePtr := c.pc + BitVec.ofInt 64 (4 * n.toInt)

end Core

/-! ## Sizes -/

/-- An `int` converted to `mlsize_t` or `asize_t`. -/
def mlsize (n : OpcodeWord) : Nat := (n.signExtend 64).toNat

theorem mlsize_of_nonneg {n : OpcodeWord} (h : 0 ≤ n.toInt) : mlsize n = n.toInt.toNat := by
  have hmsb : n.msb = false := by
    rw [BitVec.msb_eq_toInt]
    exact decide_eq_false (Int.not_lt.mpr h)
  unfold mlsize
  rw [BitVec.toNat_signExtend, hmsb, BitVec.toNat_setWidth, BitVec.toInt_eq_toNat_of_msb hmsb]
  have := n.isLt
  simp only [Bool.false_eq_true, if_false, Nat.add_zero, Int.toNat_natCast]
  omega

/-- A negative operand is a huge size. -/
theorem mlsize_eq_of_neg {n : OpcodeWord} (h : n.toInt < 0) :
    (mlsize n : Int) = 18446744073709551616 + n.toInt := by
  have hmsb : n.msb = true := by
    rw [BitVec.msb_eq_toInt]
    exact decide_eq_true h
  unfold mlsize
  rw [BitVec.toInt_eq_toNat_cond] at h ⊢
  rw [BitVec.toNat_signExtend, hmsb, BitVec.toNat_setWidth]
  have := n.isLt
  simp only [if_true]
  split at h
  · omega
  · rw [if_neg (by assumption)]
    omega

/-! ## Stacks of `fiber.h` -/

namespace Domain

/-- The descriptor of a stack that has not been freed. -/
def stack (d : Domain ω) (s : Nat) : C StackInfo := orUndefined (d.pool.get s)

/-- `current_stack->sp = sp`. -/
def saveSp (d : Domain ω) (sp : List Value) : C (Domain ω) := do
  let s ← d.stack d.currentStack
  .ok { d with pool := d.pool.put d.currentStack { s with words := sp } }

/-- `current_stack->sp = Stack_high(current_stack) - n`, where `sp` are the words this
    leaves: none for an `n` below 0, which puts the pointer above `Stack_high`. -/
def setSp (d : Domain ω) (n : Int) (sp : List Value) : C (Domain ω) := do
  let s ← d.stack d.currentStack
  .ok { d with pool := d.pool.put d.currentStack { s with words := sp, above := (-n).toNat } }

/-- `current_stack->sp`. -/
def loadSp (d : Domain ω) : C (List Value) := do
  .ok (← d.stack d.currentStack).words

/-- `Stack_parent(s) = p`. -/
def setParent (d : Domain ω) (s : Nat) (p : Option Nat) : C (Domain ω) := do
  let i ← d.stack s
  .ok { d with pool := d.pool.put s { i with parent := p } }

/-- `stk->sp = sp`. -/
def setWords (d : Domain ω) (s : Nat) (sp : List Value) : C (Domain ω) := do
  let i ← d.stack s
  .ok { d with pool := d.pool.put s { i with words := sp } }

/-- `caml_free_stack(s)`. -/
def freeStack (d : Domain ω) (s : Nat) : C (Domain ω) := do
  let _ ← d.stack s
  .ok { d with pool := d.pool.free s }

end Domain

/-- `Stack_threshold_words`. -/
def stackThresholdWords : Nat := 16

/-- The doubling loop of `caml_try_realloc_stack`. -/
def growSize (maxSize need : Nat) : Nat → Nat → C (Option Nat)
  | 0, _ => .error .diverged
  | fuel + 1, size =>
      if maxSize ≤ size then .ok none
      else if size * 2 < need then growSize maxSize need fuel (size * 2)
      else .ok (some (size * 2))

/-- `caml_try_realloc_stack(required_space)`: the current stack is replaced by
    a larger copy, or `none` when it cannot grow.  `stack_used` is an `int`: from
    2^31 words on it is negative, which as an `asize_t` no stack has room for, and
    where it is not the number of words the copy is not one of the stack. -/
def camlTryReallocStack (rt : Runtime ω) (required : Nat) (d : Domain ω) :
    C (Option (Domain ω)) := do
  let old ← d.stack d.currentStack
  let stackUsed := BitVec.ofNat 32 old.words.length
  let need := (mlsize stackUsed + required) % 18446744073709551616
  match ← growSize d.maxStackSize need (need + 1) old.size with
  | none => .ok none
  | some size =>
      if rt.stackAllocOk size d then
        if stackUsed.toInt = old.words.length then
          let d1 := { d with pool := d.pool.alloc { old with size := size } }
          let d2 ← d1.freeStack d.currentStack
          .ok (some { d2 with currentStack := d.pool.fresh })
        else .error .undefined
      else .ok none

/-- `caml_alloc_stack(hval, hexn, heff)`, when memory is found. -/
def camlAllocStack (hval hexn heff : Value) (d : Domain ω) : Value × Domain ω :=
  (valPtr (some d.pool.fresh),
    { d with
      pool := d.pool.alloc
        { words := [valLong 1], handleValue := hval, handleExn := hexn,
          handleEffect := heff, parent := none, size := d.fiberWsz } })

/-- `caml_continuation_use_noexc(cont)`. -/
def camlContinuationUseNoexc (cont : Value) (mem : Mem) : C (Value × Mem) := do
  camlAssert (← isBlock cont)
  camlAssert ((← tagVal mem.heap cont) = contTag)
  let v ← field mem.heap cont 0
  let heap ← setField mem.heap cont 0 (valPtr none)
  .ok (v, { mem with heap := heap })

/-- `while (Stack_parent(stk) != NULL) stk = Stack_parent(stk)`.  A walk longer
    than the pool revisits a stack and never ends. -/
def lastParent (pool : Store StackInfo) : Nat → Nat → C Nat
  | 0, _ => .error .diverged
  | fuel + 1, s => do
      match (← orUndefined (pool.get s)).parent with
      | none => .ok s
      | some p => lastParent pool fuel p

/-! ## Exceptions of the runtime -/

def zeroDivideExn : Int := 5
def stackOverflowExn : Int := 8
def unhandledExn : Int := 12
def continuationAlreadyTakenExn : Int := 13

/-- `Check_trap_barrier`. -/
def checkTrapBarrier (rt : Runtime ω) (m : Machine ω) : Machine ω :=
  if m.dom.trapBarrierOff.sle m.dom.trapSpOff then
    let (mem, dom) := rt.debugger .trapBarrier m.mem m.dom
    { m with mem := mem, dom := dom }
  else m

/-- `caml_stash_backtrace(accu, sp, reraise)`. -/
def stashBacktrace (rt : Runtime ω) (reraise : Bool) (m : Machine ω) : Machine ω :=
  { m with dom := { m.dom with world := rt.stashBacktrace m.accu m.sp reraise m.dom } }

/-- The second return of `sigsetjmp`, with the exception `e`. -/
def reenter (rt : Runtime ω) (m : Machine ω) (e : Value) (mem : Mem)
    (dom : Domain ω) : C (Ctl (Machine ω)) := do
  let sp ← dom.loadSp
  let m := checkTrapBarrier rt { m with sp := sp, accu := e, mem := mem, dom := dom }
  if m.dom.backtraceActive then .ok (.raiseNotrace (stashBacktrace rt false m))
  else .ok (.raiseNotrace m)

/-- `caml_raise(e)` called from the interpreter. -/
def camlRaise (rt : Runtime ω) (m : Machine ω) (e : Value) : C (Ctl (Machine ω)) :=
  let (e, mem, dom) := rt.signalsAtRaise e m.mem m.dom
  reenter rt m e mem dom

/-- `raise_exception`; `RERAISE` differs in the flag. -/
def raiseException (rt : Runtime ω) (reraise : Bool) (m : Machine ω) : C (Ctl (Machine ω)) :=
  let m := checkTrapBarrier rt m
  if m.dom.backtraceActive then
    .ok (.raiseNotrace (stashBacktrace rt reraise
      { m with sp := ofCode (m.pc - 4#64) :: m.sp }))
  else .ok (.raiseNotrace m)

/-! ## Saving and restoring registers around C code -/

/-- `Setup_for_gc; caml_process_pending_actions(); Restore_after_gc`. -/
def enterGc (rt : Runtime ω) (m : Machine ω) : C (Machine ω ⊕ Value × Mem × Domain ω) := do
  let dom ← m.dom.saveSp (m.accu :: m.env :: ofCode m.pc :: m.sp)
  match ← rt.processPendingActions m.mem dom with
  | .raised e mem dom => .ok (.inr (e, mem, dom))
  | .value _ mem dom =>
      let sp ← dom.loadSp
      .ok (.inl { m with
        accu := ← spAt sp 0, env := ← spAt sp 1, sp := ← spDrop sp 3,
        mem := mem, dom := dom })

/-- The loop of `Alloc_small`. -/
def gcLoop (rt : Runtime ω) :
    Nat → Machine ω → C (Machine ω ⊕ Value × Mem × Domain ω)
  | 0, m => .ok (.inl m)
  | n + 1, m => do
      match ← enterGc rt m with
      | .inr e => .ok (.inr e)
      | .inl m => gcLoop rt n m

/-- `Max_young_wosize`. -/
def maxYoungWosize : Nat := 256

/-- `Alloc_small(result, wosize, tag, Enter_gc)`, then `k result`. -/
def allocSmall (rt : Runtime ω) (m : Machine ω) (wosize tag : Nat)
    (k : Value → Machine ω → C (Ctl (Machine ω))) : C (Ctl (Machine ω)) := do
  camlAssert (1 ≤ wosize)
  camlAssert (tag < 256)
  camlAssert (wosize ≤ maxYoungWosize)
  match ← gcLoop rt (rt.gcRounds m.mem m.dom) m with
  | .inr (e, mem, dom) => reenter rt m e mem dom
  | .inl m =>
      let (v, heap) := allocBlock m.mem.heap tag (List.replicate wosize .undef)
      k v { m with mem := { m.mem with heap := heap } }

/-- `Max_wosize`. -/
def maxWosize : Nat := 18014398509481983

/-- A negative size is next to 2^64. -/
theorem mlsize_of_neg {n : OpcodeWord} (h : n.toInt < 0) : maxWosize < mlsize n := by
  have heq := mlsize_eq_of_neg h
  have hle := BitVec.le_toInt n
  unfold maxWosize
  omega

/-- `caml_alloc_shr(wosize, tag)`, then `k result`; it never runs a GC.  There is no
    block of more than `Max_wosize` words: the `Out_of_memory` raised for one, with
    registers that have not been saved, is not followed. -/
def camlAllocShr (m : Machine ω) (wosize tag : Nat)
    (k : Value → Machine ω → C (Ctl (Machine ω))) : C (Ctl (Machine ω)) :=
  if maxWosize < wosize then .error .undefined
  else
    let (v, heap) := allocBlock m.mem.heap tag (List.replicate wosize .undef)
    k v { m with mem := { m.mem with heap := heap } }

/-- `Setup_for_c_call`. -/
def setupForCCall (m : Machine ω) : C (Machine ω) := do
  let sp := m.env :: ofCode (m.pc + 4#64) :: m.sp
  .ok { m with sp := sp, dom := ← m.dom.saveSp sp }

/-- Call a C function after `Setup_for_c_call`, then `Restore_after_c_call`,
    drop the stack arguments and step over the operand. -/
def cCall (rt : Runtime ω) (args : List Value → C (List Value)) (popped : Int)
    (m : Machine ω) : C (Ctl (Machine ω)) := do
  let m ← setupForCCall m
  match ← rt.primitive m.operand (← args m.sp) m.mem m.dom with
  | .raised e mem dom => reenter rt m e mem dom
  | .value v mem dom =>
      let sp ← dom.loadSp
      .ok (.next { m with
        accu := v, env := ← spAt sp 0, sp := ← spDrop sp (2 + popped),
        pc := m.pc + 4#64, mem := mem, dom := dom })

/-- `process_signal`. -/
def processSignal (rt : Runtime ω) (m : Machine ω) : C (Ctl (Machine ω)) := do
  let dom ← m.dom.saveSp
    (m.accu :: valUnit :: valUnit :: ofCode m.pc :: m.env :: valLong m.extraArgs :: m.sp)
  match ← rt.processPendingActions m.mem dom with
  | .raised e mem dom => reenter rt m e mem dom
  | .value _ mem dom =>
      let sp ← dom.loadSp
      .ok (.next { m with
        accu := ← spAt sp 0, pc := ← codeOf (← spAt sp 3), env := ← spAt sp 4,
        extraArgs := ← longVal (← spAt sp 5), sp := ← spDrop sp 6,
        mem := mem, dom := dom })

/-- `CHECK_SIGNALS`. -/
def checkSignals (rt : Runtime ω) (m : Machine ω) : C (Ctl (Machine ω)) :=
  if rt.checkPending m.mem m.dom then processSignal rt m else .ok (.next m)

/-- `check_stacks`, falling through to `CHECK_SIGNALS`. -/
def checkStacks (rt : Runtime ω) (m : Machine ω) : C (Ctl (Machine ω)) := do
  let cur ← m.dom.stack m.dom.currentStack
  if cur.size < m.sp.length + stackThresholdWords then
    let dom ← m.dom.saveSp m.sp
    match ← camlTryReallocStack rt stackThresholdWords dom with
    | some dom => checkSignals rt { m with sp := ← dom.loadSp, dom := dom }
    | none =>
        let m ← setupForCCall { m with dom := dom }
        camlRaise rt m (← field m.mem.heap m.mem.globalData stackOverflowExn)
  else checkSignals rt m

/-! ## Leaving a stack -/

/-- The parked words of a parent stack: pop `trap_sp_off` and `extra_args`, put
    `accu` in their place, and enter the handler `h`. -/
def enterParent (m : Machine ω) (h : Value) (sp : List Value) : C (Ctl (Machine ω)) := do
  let trap ← longVal (← spAt sp 0)
  let extra ← longVal (← spAt sp 1)
  let rest ← spDrop sp 2
  .ok (.checkStacks { m with
    sp := m.accu :: rest, extraArgs := extra, accu := h,
    pc := ← codeVal m.mem.heap h, env := h,
    dom := { m.dom with trapSpOff := trap } })

/-- Leave the current stack for `parent` and free it. -/
def leaveStack (m : Machine ω) (parent : Nat) : C (Machine ω × List Value) := do
  let dom := { m.dom with currentStack := parent }
  let sp ← dom.loadSp
  let dom ← dom.freeStack m.dom.currentStack
  .ok ({ m with dom := dom }, sp)

/-- `do_return`. -/
def doReturn (m : Machine ω) : C (Ctl (Machine ω)) :=
  match m.sp with
  | [] => do
      let old ← m.dom.stack m.dom.currentStack
      camlAssert old.parent.isSome
      let parent ← orUndefined old.parent
      let (m, sp) ← leaveStack m parent
      enterParent m old.handleValue sp
  | w0 :: w1 :: w2 :: rest => do
      .ok (.next { m with
        pc := ← codeOf w0, env := w1, extraArgs := ← longVal w2, sp := rest })
  | _ => .error .undefined

/-- The words from a lower `sp` on: those still on the stack, under words that
    no longer hold anything. -/
def wordsFrom (sp : List Value) (n : Nat) : List Value :=
  List.replicate (n - sp.length) .undef ++ sp.drop (sp.length - n)

/-- `raise_notrace`. -/
def raiseNotrace (act : Activation) (m : Machine ω) : C (Ctl (Machine ω)) := do
  if (0#63).slt m.dom.trapSpOff then
    let old ← m.dom.stack m.dom.currentStack
    match old.parent with
    | none =>
        let words := wordsFrom m.sp act.initialStackWords.toInt.toNat
        let dom ← m.dom.setSp act.initialStackWords.toInt words
        .ok (.halted (.exception m.accu) { m with
          sp := words,
          dom := { dom with
            externalRaise := act.initialExternalRaise,
            trapSpOff := act.initialTrapSpOff } })
    | some parent =>
        let m := { m with dom := ← m.dom.saveSp m.sp }
        let (m, sp) ← leaveStack m parent
        enterParent m old.handleExn sp
  else
    let depth := -m.dom.trapSpOff.toInt
    match ← spDrop m.sp (m.sp.length - depth) with
    | w0 :: w1 :: w2 :: w3 :: rest =>
        .ok (.next { m with
          pc := ← codeOf w0, env := w2, extraArgs := ← longVal w3, sp := rest,
          dom := { m.dom with trapSpOff := ← longVal w1 } })
    | _ => .error .undefined

/-! ## A quiet environment -/

/-- C code that never interferes: nothing is pending and every primitive
    returns unit. -/
def quiet : Runtime Unit where
  gcRounds := fun _ _ => 0
  checkPending := fun _ _ => false
  processPendingActions := fun mem dom => .ok (.value valUnit mem dom)
  primitive := fun _ _ mem dom => .ok (.value valUnit mem dom)
  signalsAtRaise := fun e mem dom => (e, mem, dom)
  stackAllocOk := fun _ _ => true
  stashBacktrace := fun _ _ _ _ => ()
  debugger := fun _ mem dom => (mem, dom)
  eventCountHit := fun _ => (false, ())
  savedInstruction := fun _ _ => 0#32

/-- Code words laid out from `base`. -/
def assemble : CodePtr → List OpcodeWord → CodePtr → OpcodeWord
  | _, [], _ => -1#32
  | base, w :: words, pc => if pc = base then w else assemble (base + 4#64) words pc

/-- A domain with these stacks and no trap frame on the current one. -/
def domainOf (pool : List StackInfo) (currentStack : Nat) : Domain Unit where
  pool := ⟨pool.map some⟩
  currentStack := currentStack
  trapSpOff := 1#63
  trapBarrierOff := 2#63
  externalRaise := 0
  backtraceActive := false
  maxStackSize := 1048576
  fiberWsz := 4096
  world := ()

/-- A main stack, which has neither handlers nor a parent. -/
def mainStack : StackInfo where
  words := []
  handleValue := valUnit
  handleExn := valUnit
  handleEffect := valUnit
  parent := none
  size := 4096

/-- The locals of an activation entered on an empty main stack. -/
def soleActivation : Activation where
  initialTrapSpOff := 1#63
  initialStackWords := 0#32
  initialExternalRaise := 0

end CamlMachine
