import CamlInterp.ControlProofs

/-! # The interpreter of `interp.c`

    One `switch`, two builds.  The blocks under `#ifdef DEBUG` are the three
    hooks of `Hooks`: at the top of the loop, after the code pointer of an
    applied closure is known, and in `RETURN`.  `released` is the build without
    them; the DEBUG build instantiates them with the profiler. -/

namespace CamlInterp

open CellStore CamlValue CamlOpcode CamlMachine CamlInstr CamlControl

/-- The code `#ifdef DEBUG` compiles into `caml_interprete`, acting on its own
    state `π`. -/
structure Hooks (ω π : Type) where
  /-- the block before `curr_instr = *pc++` -/
  onDispatch : Machine ω → π → C π
  /-- the blocks of `APPLY`, `APPLY1`, `APPLY2` and `APPLY3` -/
  onApply : CodePtr → π → C π
  /-- the blocks of `RETURN` -/
  onReturn : π → C π

/-- The machine together with the state of the hooks. -/
structure State (ω π : Type) where
  machine : Machine ω
  prof : π

variable {ω π : Type}

/-- Code that leaves the hooks' state alone. -/
def keep (prof : π) (x : C (Ctl (Machine ω))) : C (Ctl (State ω π)) := do
  .ok ((← x).map (fun m => ⟨m, prof⟩))

/-- A case that is a core body and `Next`. -/
def core (f : Core → C Core) (s : State ω π) : C (Ctl (State ω π)) :=
  keep s.prof (thenNext f s.machine)

/-- A case without profiling code. -/
def plain (f : Machine ω → C (Ctl (Machine ω))) (s : State ω π) :
    C (Ctl (State ω π)) :=
  keep s.prof (f s.machine)

/-- A tail call: `goto check_stacks` with no profiling code. -/
def tail (f : Core → C Core) (s : State ω π) : C (Ctl (State ω π)) := do
  .ok (.checkStacks { s with machine := ← onCore f s.machine })

/-- A call: the profiling block, then `goto check_stacks`. -/
def call (hk : Hooks ω π) (f : Core → C Core) (s : State ω π) :
    C (Ctl (State ω π)) := do
  let m ← onCore f s.machine
  let prof ← hk.onApply m.pc s.prof
  .ok (.checkStacks ⟨m, prof⟩)

/-- `RETURN`. -/
def ret (hk : Hooks ω π) (s : State ω π) : C (Ctl (State ω π)) := do
  let m ← onCore pop s.machine
  if (0#63).slt m.extraArgs then
    let m ← onCore returnSurplus m
    let prof ← hk.onReturn s.prof
    .ok (.next ⟨m, prof⟩)
  else
    let prof ← hk.onReturn s.prof
    keep prof (doReturn m)

/-- The `switch` of `interp.c`. -/
def exec (hk : Hooks ω π) (rt : Runtime ω) (act : Activation) (op : Opcode)
    (s : State ω π) : C (Ctl (State ω π)) :=
  match op with
  | .ACC0 => core (acc 0) s
  | .ACC1 => core (acc 1) s
  | .ACC2 => core (acc 2) s
  | .ACC3 => core (acc 3) s
  | .ACC4 => core (acc 4) s
  | .ACC5 => core (acc 5) s
  | .ACC6 => core (acc 6) s
  | .ACC7 => core (acc 7) s
  | .ACC => core accOperand s
  | .PUSH => core push s
  | .PUSHACC0 => core push s
  | .PUSHACC1 => core (pushThen (acc 1)) s
  | .PUSHACC2 => core (pushThen (acc 2)) s
  | .PUSHACC3 => core (pushThen (acc 3)) s
  | .PUSHACC4 => core (pushThen (acc 4)) s
  | .PUSHACC5 => core (pushThen (acc 5)) s
  | .PUSHACC6 => core (pushThen (acc 6)) s
  | .PUSHACC7 => core (pushThen (acc 7)) s
  | .PUSHACC => core (pushThen accOperand) s
  | .POP => core pop s
  | .ASSIGN => core assign s
  | .ENVACC1 => core (envacc 1) s
  | .ENVACC2 => core (envacc 2) s
  | .ENVACC3 => core (envacc 3) s
  | .ENVACC4 => core (envacc 4) s
  | .ENVACC => core envaccOperand s
  | .PUSHENVACC1 => core (pushThen (envacc 1)) s
  | .PUSHENVACC2 => core (pushThen (envacc 2)) s
  | .PUSHENVACC3 => core (pushThen (envacc 3)) s
  | .PUSHENVACC4 => core (pushThen (envacc 4)) s
  | .PUSHENVACC => core (pushThen envaccOperand) s
  | .PUSH_RETADDR => core pushRetaddr s
  | .APPLY => call hk apply s
  | .APPLY1 => call hk apply1 s
  | .APPLY2 => call hk apply2 s
  | .APPLY3 => call hk apply3 s
  | .APPTERM => tail appterm s
  | .APPTERM1 => tail appterm1 s
  | .APPTERM2 => tail appterm2 s
  | .APPTERM3 => tail appterm3 s
  | .RETURN => ret hk s
  | .RESTART => core restart s
  | .GRAB => plain (grab rt) s
  | .CLOSURE => plain (closure rt) s
  | .CLOSUREREC => plain (closurerec rt) s
  | .OFFSETCLOSUREM3 => core (offsetclosure (-3)) s
  | .OFFSETCLOSURE0 => core offsetclosure0 s
  | .OFFSETCLOSURE3 => core (offsetclosure 3) s
  | .OFFSETCLOSURE => core offsetclosureOperand s
  | .PUSHOFFSETCLOSUREM3 => core (pushThen (offsetclosure (-3))) s
  | .PUSHOFFSETCLOSURE0 => core (pushThen offsetclosure0) s
  | .PUSHOFFSETCLOSURE3 => core (pushThen (offsetclosure 3)) s
  | .PUSHOFFSETCLOSURE => core (pushThen offsetclosureOperand) s
  | .GETGLOBAL => core getglobal s
  | .PUSHGETGLOBAL => core (pushThen getglobal) s
  | .GETGLOBALFIELD => core getglobalfield s
  | .PUSHGETGLOBALFIELD => core (pushThen getglobalfield) s
  | .SETGLOBAL => core setglobal s
  | .ATOM0 => core (atom 0) s
  | .ATOM => core atomOperand s
  | .PUSHATOM0 => core (pushThen (atom 0)) s
  | .PUSHATOM => core (pushThen atomOperand) s
  | .MAKEBLOCK => plain (makeblock rt) s
  | .MAKEBLOCK1 => plain (makeblockN rt 1) s
  | .MAKEBLOCK2 => plain (makeblockN rt 2) s
  | .MAKEBLOCK3 => plain (makeblockN rt 3) s
  | .MAKEFLOATBLOCK => plain (makefloatblock rt) s
  | .GETFIELD0 => core (getfield 0) s
  | .GETFIELD1 => core (getfield 1) s
  | .GETFIELD2 => core (getfield 2) s
  | .GETFIELD3 => core (getfield 3) s
  | .GETFIELD => core getfieldOperand s
  | .GETFLOATFIELD => plain (getfloatfield rt) s
  | .SETFIELD0 => core (setfield 0) s
  | .SETFIELD1 => core (setfield 1) s
  | .SETFIELD2 => core (setfield 2) s
  | .SETFIELD3 => core (setfield 3) s
  | .SETFIELD => core setfieldOperand s
  | .SETFLOATFIELD => core setfloatfield s
  | .VECTLENGTH => core vectlength s
  | .GETVECTITEM => core getvectitem s
  | .SETVECTITEM => core setvectitem s
  | .GETBYTESCHAR => core getbyteschar s
  | .SETBYTESCHAR => core setbyteschar s
  | .BRANCH => core branch s
  | .BRANCHIF => core branchif s
  | .BRANCHIFNOT => core branchifnot s
  | .SWITCH => core switch s
  | .BOOLNOT => core boolnot s
  | .PUSHTRAP => plain pushtrap s
  | .POPTRAP => plain (poptrap rt) s
  | .RAISE => plain (raiseException rt false) s
  | .CHECK_SIGNALS => plain (checkSignals rt) s
  | .C_CALL1 => plain (cCallN rt 1) s
  | .C_CALL2 => plain (cCallN rt 2) s
  | .C_CALL3 => plain (cCallN rt 3) s
  | .C_CALL4 => plain (cCallN rt 4) s
  | .C_CALL5 => plain (cCallN rt 5) s
  | .C_CALLN => plain (cCalln rt) s
  | .CONST0 => core (const 0) s
  | .CONST1 => core (const 1) s
  | .CONST2 => core (const 2) s
  | .CONST3 => core (const 3) s
  | .CONSTINT => core constint s
  | .PUSHCONST0 => core (pushThen (const 0)) s
  | .PUSHCONST1 => core (pushThen (const 1)) s
  | .PUSHCONST2 => core (pushThen (const 2)) s
  | .PUSHCONST3 => core (pushThen (const 3)) s
  | .PUSHCONSTINT => core (pushThen constint) s
  | .NEGINT => core negint s
  | .ADDINT => core addint s
  | .SUBINT => core subint s
  | .MULINT => core mulint s
  | .DIVINT => plain (divide rt BitVec.sdiv) s
  | .MODINT => plain (divide rt BitVec.srem) s
  | .ANDINT => core andint s
  | .ORINT => core orint s
  | .XORINT => core xorint s
  | .LSLINT => core lslint s
  | .LSRINT => core lsrint s
  | .ASRINT => core asrint s
  | .EQ => core (equality false) s
  | .NEQ => core (equality true) s
  | .LTINT => core (comparison BitVec.slt) s
  | .LEINT => core (comparison BitVec.sle) s
  | .GTINT => core (comparison (fun a b => b.slt a)) s
  | .GEINT => core (comparison (fun a b => b.sle a)) s
  | .OFFSETINT => core offsetint s
  | .OFFSETREF => core offsetref s
  | .ISINT => core isint s
  | .GETMETHOD => core getmethod s
  | .BEQ => core (branchComparison (fun a b => a == b)) s
  | .BNEQ => core (branchComparison (fun a b => a != b)) s
  | .BLTINT => core (branchComparison BitVec.slt) s
  | .BLEINT => core (branchComparison BitVec.sle) s
  | .BGTINT => core (branchComparison (fun a b => b.slt a)) s
  | .BGEINT => core (branchComparison (fun a b => b.sle a)) s
  | .ULTINT => core (comparison BitVec.ult) s
  | .UGEINT => core (comparison (fun a b => b.ule a)) s
  | .BULTINT => core (branchComparison BitVec.ult) s
  | .BUGEINT => core (branchComparison (fun a b => b.ule a)) s
  | .GETPUBMET => core getpubmet s
  | .GETDYNMET => core getdynmet s
  | .STOP => plain (stop act) s
  | .EVENT => plain (event rt) s
  | .BREAK => plain (breakInstr rt) s
  | .RERAISE => plain (raiseException rt true) s
  | .RAISE_NOTRACE => plain (raiseNotraceInstr rt) s
  | .GETSTRINGCHAR => core getbyteschar s
  | .PERFORM => plain (perform rt) s
  | .RESUME => plain (resume rt) s
  | .RESUMETERM => plain (resumeterm rt) s
  | .REPERFORMTERM => plain (reperformterm rt) s

/-- `dispatch_instr`: the `switch` with its default case. -/
def execWord (hk : Hooks ω π) (rt : Runtime ω) (act : Activation) (w : OpcodeWord)
    (s : State ω π) : C (Ctl (State ω π)) :=
  match decode w with
  | some op => exec hk rt act op s
  | none => .error .fatalError

/-- Run from one label to the next. -/
def step (hk : Hooks ω π) (rt : Runtime ω) (act : Activation) :
    Ctl (State ω π) → C (Ctl (State ω π))
  | .next s => do
      let prof ← hk.onDispatch s.machine s.prof
      execWord hk rt act s.machine.operand
        ⟨{ s.machine with toCore := s.machine.toCore.advance }, prof⟩
  | .dispatch w s => execWord hk rt act w s
  | .checkStacks s => plain (checkStacks rt) s
  | .raiseNotrace s => plain (raiseNotrace act) s
  | .halted _ _ => .error .returned

/-- The build without DEBUG. -/
def released : Hooks ω Unit where
  onDispatch := fun _ _ => .ok ()
  onApply := fun _ _ => .ok ()
  onReturn := fun _ => .ok ()

/-! ## Entry -/

/-- What `caml_interprete(prog, _)` notes on entry. -/
def activation (dom : Domain ω) (words : List Value) : Activation where
  initialTrapSpOff := dom.trapSpOff
  initialStackWords := BitVec.ofNat 32 words.length
  initialExternalRaise := dom.externalRaise

/-- The registers with which `caml_interprete(prog, _)` reaches its loop;
    `ctx` is the address of its `exception_ctx`. -/
def entry (prog : CodePtr) (ctx : Nat) (mem : Mem) (dom : Domain ω)
    (words : List Value) : Machine ω where
  pc := prog
  sp := words
  accu := valInt 0
  env := .atom 0
  extraArgs := 0#63
  mem := mem
  dom := { dom with externalRaise := ctx, trapSpOff := 1#63 }

end CamlInterp
