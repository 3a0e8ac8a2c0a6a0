import CamlInterp.ControlProofs

/-! # The interpreter of `ocaml/runtime/interp.c`

    The interpreter the profiler was added to, in its DEBUG build: it counts
    opcodes, and has no function stack and no hash table. -/

namespace CamlUpstream

open CellStore CamlValue CamlOpcode CamlMachine CamlInstr CamlControl

/-- `op_counts` and `total_op_count`, both of `unsigned long`s. -/
structure OpCounts where
  opCounts : Opcode → BitVec 64
  totalOpCount : BitVec 64

/-- `op_counts[op]++; total_op_count++`. -/
def OpCounts.bump (n : OpCounts) (op : Opcode) : OpCounts where
  opCounts := fun o => if o = op then n.opCounts o + 1#64 else n.opCounts o
  totalOpCount := n.totalOpCount + 1#64

/-- After `memset`. -/
def OpCounts.zero : OpCounts := ⟨fun _ => 0#64, 0#64⟩

/-- `if (*pc < FIRST_UNIMPLEMENTED_OP)`: a signed test, so that a negative word
    indexes in front of the array; a word past the last opcode is reported on
    `stderr` and counted nowhere. -/
def OpCounts.count (n : OpCounts) (w : OpcodeWord) : C OpCounts :=
  match decode w with
  | some op => .ok (n.bump op)
  | none => if w.toInt < 0 then .error .undefined else .ok n

variable {ω : Type}

/-- `CAMLassert(Stack_base(current_stack) <= sp)`; `sp <= Stack_high` holds of
    a list of words. -/
def checkSp (m : Machine ω) : C Unit := do
  let cur ← m.dom.stack m.dom.currentStack
  camlAssert (m.sp.length ≤ cur.size)

/-- The machine and its counters. -/
structure State (ω : Type) where
  machine : Machine ω
  counts : OpCounts

/-- A body that enters a closure, and `goto check_stacks`. -/
def enter (f : Core → C Core) (m : Machine ω) : C (Ctl (Machine ω)) := do
  .ok (.checkStacks (← onCore f m))

/-- `RETURN`. -/
def ret (m : Machine ω) : C (Ctl (Machine ω)) := do
  let m ← onCore pop m
  if (0#63).slt m.extraArgs then thenNext returnSurplus m
  else doReturn m

/-- The `switch` of `ocaml/runtime/interp.c`. -/
def exec (rt : Runtime ω) (act : Activation) (op : Opcode) (m : Machine ω) :
    C (Ctl (Machine ω)) :=
  match op with
  | .ACC0 => thenNext (acc 0) m
  | .ACC1 => thenNext (acc 1) m
  | .ACC2 => thenNext (acc 2) m
  | .ACC3 => thenNext (acc 3) m
  | .ACC4 => thenNext (acc 4) m
  | .ACC5 => thenNext (acc 5) m
  | .ACC6 => thenNext (acc 6) m
  | .ACC7 => thenNext (acc 7) m
  | .ACC => thenNext accOperand m
  | .PUSH => thenNext push m
  | .PUSHACC0 => thenNext push m
  | .PUSHACC1 => thenNext (pushThen (acc 1)) m
  | .PUSHACC2 => thenNext (pushThen (acc 2)) m
  | .PUSHACC3 => thenNext (pushThen (acc 3)) m
  | .PUSHACC4 => thenNext (pushThen (acc 4)) m
  | .PUSHACC5 => thenNext (pushThen (acc 5)) m
  | .PUSHACC6 => thenNext (pushThen (acc 6)) m
  | .PUSHACC7 => thenNext (pushThen (acc 7)) m
  | .PUSHACC => thenNext (pushThen accOperand) m
  | .POP => thenNext pop m
  | .ASSIGN => thenNext assign m
  | .ENVACC1 => thenNext (envacc 1) m
  | .ENVACC2 => thenNext (envacc 2) m
  | .ENVACC3 => thenNext (envacc 3) m
  | .ENVACC4 => thenNext (envacc 4) m
  | .ENVACC => thenNext envaccOperand m
  | .PUSHENVACC1 => thenNext (pushThen (envacc 1)) m
  | .PUSHENVACC2 => thenNext (pushThen (envacc 2)) m
  | .PUSHENVACC3 => thenNext (pushThen (envacc 3)) m
  | .PUSHENVACC4 => thenNext (pushThen (envacc 4)) m
  | .PUSHENVACC => thenNext (pushThen envaccOperand) m
  | .PUSH_RETADDR => thenNext pushRetaddr m
  | .APPLY => enter apply m
  | .APPLY1 => enter apply1 m
  | .APPLY2 => enter apply2 m
  | .APPLY3 => enter apply3 m
  | .APPTERM => enter appterm m
  | .APPTERM1 => enter appterm1 m
  | .APPTERM2 => enter appterm2 m
  | .APPTERM3 => enter appterm3 m
  | .RETURN => ret m
  | .RESTART => thenNext restart m
  | .GRAB => grab rt m
  | .CLOSURE => closure rt m
  | .CLOSUREREC => closurerec rt m
  | .OFFSETCLOSUREM3 => thenNext (offsetclosure (-3)) m
  | .OFFSETCLOSURE0 => thenNext offsetclosure0 m
  | .OFFSETCLOSURE3 => thenNext (offsetclosure 3) m
  | .OFFSETCLOSURE => thenNext offsetclosureOperand m
  | .PUSHOFFSETCLOSUREM3 => thenNext (pushThen (offsetclosure (-3))) m
  | .PUSHOFFSETCLOSURE0 => thenNext (pushThen offsetclosure0) m
  | .PUSHOFFSETCLOSURE3 => thenNext (pushThen (offsetclosure 3)) m
  | .PUSHOFFSETCLOSURE => thenNext (pushThen offsetclosureOperand) m
  | .GETGLOBAL => thenNext getglobal m
  | .PUSHGETGLOBAL => thenNext (pushThen getglobal) m
  | .GETGLOBALFIELD => thenNext getglobalfield m
  | .PUSHGETGLOBALFIELD => thenNext (pushThen getglobalfield) m
  | .SETGLOBAL => thenNext setglobal m
  | .ATOM0 => thenNext (atom 0) m
  | .ATOM => thenNext atomOperand m
  | .PUSHATOM0 => thenNext (pushThen (atom 0)) m
  | .PUSHATOM => thenNext (pushThen atomOperand) m
  | .MAKEBLOCK => makeblock rt m
  | .MAKEBLOCK1 => makeblockN rt 1 m
  | .MAKEBLOCK2 => makeblockN rt 2 m
  | .MAKEBLOCK3 => makeblockN rt 3 m
  | .MAKEFLOATBLOCK => makefloatblock rt m
  | .GETFIELD0 => thenNext (getfield 0) m
  | .GETFIELD1 => thenNext (getfield 1) m
  | .GETFIELD2 => thenNext (getfield 2) m
  | .GETFIELD3 => thenNext (getfield 3) m
  | .GETFIELD => thenNext getfieldOperand m
  | .GETFLOATFIELD => getfloatfield rt m
  | .SETFIELD0 => thenNext (setfield 0) m
  | .SETFIELD1 => thenNext (setfield 1) m
  | .SETFIELD2 => thenNext (setfield 2) m
  | .SETFIELD3 => thenNext (setfield 3) m
  | .SETFIELD => thenNext setfieldOperand m
  | .SETFLOATFIELD => thenNext setfloatfield m
  | .VECTLENGTH => thenNext vectlength m
  | .GETVECTITEM => thenNext getvectitem m
  | .SETVECTITEM => thenNext setvectitem m
  | .GETBYTESCHAR => thenNext getbyteschar m
  | .SETBYTESCHAR => thenNext setbyteschar m
  | .BRANCH => thenNext branch m
  | .BRANCHIF => thenNext branchif m
  | .BRANCHIFNOT => thenNext branchifnot m
  | .SWITCH => thenNext switch m
  | .BOOLNOT => thenNext boolnot m
  | .PUSHTRAP => pushtrap m
  | .POPTRAP => poptrap rt m
  | .RAISE => raiseException rt false m
  | .CHECK_SIGNALS => checkSignals rt m
  | .C_CALL1 => cCallN rt 1 m
  | .C_CALL2 => cCallN rt 2 m
  | .C_CALL3 => cCallN rt 3 m
  | .C_CALL4 => cCallN rt 4 m
  | .C_CALL5 => cCallN rt 5 m
  | .C_CALLN => cCalln rt m
  | .CONST0 => thenNext (const 0) m
  | .CONST1 => thenNext (const 1) m
  | .CONST2 => thenNext (const 2) m
  | .CONST3 => thenNext (const 3) m
  | .CONSTINT => thenNext constint m
  | .PUSHCONST0 => thenNext (pushThen (const 0)) m
  | .PUSHCONST1 => thenNext (pushThen (const 1)) m
  | .PUSHCONST2 => thenNext (pushThen (const 2)) m
  | .PUSHCONST3 => thenNext (pushThen (const 3)) m
  | .PUSHCONSTINT => thenNext (pushThen constint) m
  | .NEGINT => thenNext negint m
  | .ADDINT => thenNext addint m
  | .SUBINT => thenNext subint m
  | .MULINT => thenNext mulint m
  | .DIVINT => divide rt BitVec.sdiv m
  | .MODINT => divide rt BitVec.srem m
  | .ANDINT => thenNext andint m
  | .ORINT => thenNext orint m
  | .XORINT => thenNext xorint m
  | .LSLINT => thenNext lslint m
  | .LSRINT => thenNext lsrint m
  | .ASRINT => thenNext asrint m
  | .EQ => thenNext (equality false) m
  | .NEQ => thenNext (equality true) m
  | .LTINT => thenNext (comparison BitVec.slt) m
  | .LEINT => thenNext (comparison BitVec.sle) m
  | .GTINT => thenNext (comparison (fun a b => b.slt a)) m
  | .GEINT => thenNext (comparison (fun a b => b.sle a)) m
  | .OFFSETINT => thenNext offsetint m
  | .OFFSETREF => thenNext offsetref m
  | .ISINT => thenNext isint m
  | .GETMETHOD => thenNext getmethod m
  | .BEQ => thenNext (branchComparison (fun a b => a == b)) m
  | .BNEQ => thenNext (branchComparison (fun a b => a != b)) m
  | .BLTINT => thenNext (branchComparison BitVec.slt) m
  | .BLEINT => thenNext (branchComparison BitVec.sle) m
  | .BGTINT => thenNext (branchComparison (fun a b => b.slt a)) m
  | .BGEINT => thenNext (branchComparison (fun a b => b.sle a)) m
  | .ULTINT => thenNext (comparison BitVec.ult) m
  | .UGEINT => thenNext (comparison (fun a b => b.ule a)) m
  | .BULTINT => thenNext (branchComparison BitVec.ult) m
  | .BUGEINT => thenNext (branchComparison (fun a b => b.ule a)) m
  | .GETPUBMET => thenNext getpubmet m
  | .GETDYNMET => thenNext getdynmet m
  | .STOP => stop act m
  | .EVENT => event rt m
  | .BREAK => breakInstr rt m
  | .RERAISE => raiseException rt true m
  | .RAISE_NOTRACE => raiseNotraceInstr rt m
  | .GETSTRINGCHAR => thenNext getbyteschar m
  | .PERFORM => perform rt m
  | .RESUME => resume rt m
  | .RESUMETERM => resumeterm rt m
  | .REPERFORMTERM => reperformterm rt m

/-- `dispatch_instr`: the `switch` with its default case. -/
def execWord (rt : Runtime ω) (act : Activation) (w : OpcodeWord) (m : Machine ω) :
    C (Ctl (Machine ω)) :=
  match decode w with
  | some op => exec rt act op m
  | none => .error .fatalError

/-- Code that leaves the counters alone. -/
def keep (counts : OpCounts) (x : C (Ctl (Machine ω))) : C (Ctl (State ω)) := do
  .ok ((← x).map (fun m => ⟨m, counts⟩))

/-- Run from one label to the next. -/
def step (rt : Runtime ω) (act : Activation) : Ctl (State ω) → C (Ctl (State ω))
  | .next s => do
      checkSp s.machine
      let counts ← s.counts.count s.machine.operand
      keep counts (execWord rt act s.machine.operand
        { s.machine with toCore := s.machine.toCore.advance })
  | .dispatch w s => keep s.counts (execWord rt act w s.machine)
  | .checkStacks s => keep s.counts (checkStacks rt s.machine)
  | .raiseNotrace s => keep s.counts (raiseNotrace act s.machine)
  | .halted _ _ => .error .returned

end CamlUpstream
