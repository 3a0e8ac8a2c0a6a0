import CamlInterp.MachineProofs

/-! # Instruction bodies — registers, stack words and heap only

    The cases of the interpreter's `switch` that read and write nothing but
    `pc`, `sp`, `accu`, `env`, `extra_args`, the heap and the code array.  On
    entry `pc` points just past the opcode.  `interp.c` and
    `ocaml/runtime/interp.c` spell these cases alike; the two `switch`
    statements are given separately, over these bodies. -/

namespace CamlInstr

open CellStore CamlValue CamlOpcode CamlMachine

/-! ## Stack and environment -/

/-- `accu = sp[n]`. -/
def acc (n : Int) (c : Core) : C Core := do
  .ok { c with accu := ← spAt c.sp n }

/-- `*--sp = accu`. -/
def push (c : Core) : C Core := .ok { c with sp := c.accu :: c.sp }

/-- `*--sp = accu`, then fall through to `f`. -/
def pushThen (f : Core → C Core) (c : Core) : C Core := do f (← push c)

/-- `accu = sp[*pc++]`. -/
def accOperand (c : Core) : C Core := acc c.operand.toInt c.advance

/-- `sp += *pc++`. -/
def pop (c : Core) : C Core := do
  .ok { c.advance with sp := ← spDrop c.sp c.operand.toInt }

/-- `sp[*pc++] = accu; accu = Val_unit`. -/
def assign (c : Core) : C Core := do
  .ok { c.advance with sp := ← spSet c.sp c.operand.toInt c.accu, accu := valUnit }

/-- `accu = Field(env, n)`. -/
def envacc (n : Int) (c : Core) : C Core := do
  .ok { c with accu := ← field c.mem.heap c.env n }

/-- `accu = Field(env, *pc++)`. -/
def envaccOperand (c : Core) : C Core := envacc c.operand.toInt c.advance

/-- `PUSH_RETADDR`. -/
def pushRetaddr (c : Core) : C Core :=
  .ok { c.advance with
    sp := ofCode (c.codeAt c.operand) :: c.env :: valLong c.extraArgs :: c.sp }

/-! ## Closures -/

/-- The loop `for (i = 0; i < n; i++)` reading `Field(v, start + i)`. -/
def fieldsFrom (h : Heap) (v : Value) (start : Int) : Nat → C (List Value)
  | 0 => .ok []
  | n + 1 => do
      let x ← field h v start
      .ok (x :: (← fieldsFrom h v (start + 1) n))

/-- `RESTART`. -/
def restart (c : Core) : C Core := do
  let numArgs : Int := (← wosizeVal c.mem.heap c.env) - 3
  let sp ←
    if 0 ≤ numArgs then do
      .ok ((← fieldsFrom c.mem.heap c.env 3 numArgs.toNat) ++ c.sp)
    else spDrop c.sp (-numArgs)
  .ok { c with
    sp := sp, env := ← field c.mem.heap c.env 2,
    extraArgs := c.extraArgs + BitVec.ofInt 63 numArgs }

/-- `v + n * sizeof(value)`. -/
def ptrAdd (v : Value) (n : Int) : C Value :=
  match v with
  | .ptr b ofs => .ok (.ptr b (ofs + n))
  | .word w => .ok (.word (w + BitVec.ofInt 64 (8 * n)))
  | v => if n = 0 then .ok v else .error .undefined

/-- `accu = env + n * sizeof(value)`. -/
def offsetclosure (n : Int) (c : Core) : C Core := do
  .ok { c with accu := ← ptrAdd c.env n }

/-- `accu = env`. -/
def offsetclosure0 (c : Core) : C Core := .ok { c with accu := c.env }

/-- `accu = env + *pc++ * sizeof(value)`. -/
def offsetclosureOperand (c : Core) : C Core := offsetclosure c.operand.toInt c.advance

/-! ## Globals, atoms and fields -/

/-- `GETGLOBAL`. -/
def getglobal (c : Core) : C Core := do
  .ok { c.advance with accu := ← field c.mem.heap c.mem.globalData c.operand.toInt }

/-- `GETFIELD`. -/
def getfieldOperand (c : Core) : C Core := do
  .ok { c.advance with accu := ← field c.mem.heap c.accu c.operand.toInt }

/-- `GETGLOBALFIELD`. -/
def getglobalfield (c : Core) : C Core := do getfieldOperand (← getglobal c)

/-- `SETGLOBAL`. -/
def setglobal (c : Core) : C Core := do
  let heap ← setField c.mem.heap c.mem.globalData c.operand.toInt c.accu
  .ok { c.advance with accu := valUnit, mem := { c.mem with heap := heap } }

/-- `accu = Atom(tag)`. -/
def atom (tag : Int) (c : Core) : C Core :=
  .ok { c with accu := .atom (BitVec.ofInt 8 tag) }

/-- `accu = Atom(*pc++)`. -/
def atomOperand (c : Core) : C Core := atom c.operand.toInt c.advance

/-- `accu = Field(accu, n)`. -/
def getfield (n : Int) (c : Core) : C Core := do
  .ok { c with accu := ← field c.mem.heap c.accu n }

/-- `caml_modify(&Field(accu, n), *sp++); accu = Val_unit`. -/
def setfield (n : Int) (c : Core) : C Core := do
  let heap ← setField c.mem.heap c.accu n (← spAt c.sp 0)
  .ok { c with
    sp := ← spDrop c.sp 1, accu := valUnit, mem := { c.mem with heap := heap } }

/-- `SETFIELD`. -/
def setfieldOperand (c : Core) : C Core := do
  .ok (← setfield c.operand.toInt c).advance

/-- `SETFLOATFIELD`; a double is the one word of its block. -/
def setfloatfield (c : Core) : C Core := do
  let d ← field c.mem.heap (← spAt c.sp 0) 0
  let heap ← setField c.mem.heap c.accu c.operand.toInt d
  .ok { c.advance with
    sp := ← spDrop c.sp 1, accu := valUnit, mem := { c.mem with heap := heap } }

/-! ## Arrays and strings -/

/-- `VECTLENGTH`; `Double_wosize` is 1. -/
def vectlength (c : Core) : C Core := do
  let size ← wosizeVal c.mem.heap c.accu
  let _ ← tagVal c.mem.heap c.accu
  .ok { c with accu := valLong (BitVec.ofNat 63 size) }

/-- `GETVECTITEM`. -/
def getvectitem (c : Core) : C Core := do
  let i ← longVal (← spAt c.sp 0)
  .ok { c with
    accu := ← field c.mem.heap c.accu i.toInt, sp := ← spDrop c.sp 1 }

/-- `SETVECTITEM`. -/
def setvectitem (c : Core) : C Core := do
  let i ← longVal (← spAt c.sp 0)
  let heap ← setField c.mem.heap c.accu i.toInt (← spAt c.sp 1)
  .ok { c with
    accu := valUnit, sp := ← spDrop c.sp 2, mem := { c.mem with heap := heap } }

/-- `GETSTRINGCHAR` and `GETBYTESCHAR`. -/
def getbyteschar (c : Core) : C Core := do
  let i ← longVal (← spAt c.sp 0)
  let b ← byteU c.mem.heap c.accu i.toInt
  .ok { c with accu := valInt b.toNat, sp := ← spDrop c.sp 1 }

/-- `SETBYTESCHAR`. -/
def setbyteschar (c : Core) : C Core := do
  let i ← longVal (← spAt c.sp 0)
  let x ← longVal (← spAt c.sp 1)
  let heap ← setByteU c.mem.heap c.accu i.toInt (BitVec.ofInt 8 x.toInt)
  .ok { c with
    accu := valUnit, sp := ← spDrop c.sp 2, mem := { c.mem with heap := heap } }

/-! ## Branches -/

/-- `pc += *pc` when `b`, `pc++` otherwise. -/
def branchWhen (b : Bool) (c : Core) : C Core :=
  .ok (if b then { c with pc := c.codeAt c.operand } else c.advance)

/-- `BRANCH`. -/
def branch (c : Core) : C Core := branchWhen true c

/-- `BRANCHIF`. -/
def branchif (c : Core) : C Core := do
  branchWhen (!(← sameWord c.accu valFalse)) c

/-- `BRANCHIFNOT`. -/
def branchifnot (c : Core) : C Core := do
  branchWhen (← sameWord c.accu valFalse) c

/-- `SWITCH`. -/
def switch (c : Core) : C Core := do
  let sizes := c.operand
  let c := c.advance
  if ← isBlock c.accu then
    let index ← tagVal c.mem.heap c.accu
    camlAssert (index < (sizes >>> 16).toNat)
    .ok { c with pc := c.codeAt (c.operandAt ((sizes &&& 0xFFFF#32).toNat + index)) }
  else
    let index ← longVal c.accu
    camlAssert ((index.signExtend 64).ult ((sizes &&& 0xFFFF#32).zeroExtend 64))
    .ok { c with pc := c.codeAt (c.operandAt index.toInt) }

/-- `accu = Val_not(accu)`. -/
def boolnot (c : Core) : C Core := do
  .ok { c with accu := .word (4#64 - (← wordOf c.accu)) }

/-! ## Integers -/

/-- `Long_val` of a word, all 64 bits of it. -/
def longVal64 (w : BitVec 64) : BitVec 64 := w.sshiftRight 1

/-- `Val_long` of a 64-bit integer. -/
def valLong64 (x : BitVec 64) : BitVec 64 := (x <<< 1) + 1#64

/-- `accu = Val_int(n)`. -/
def const (n : Int) (c : Core) : C Core := .ok { c with accu := valInt n }

/-- `CONSTINT`. -/
def constint (c : Core) : C Core := .ok { c.advance with accu := valInt c.operand.toInt }

/-- `accu = f(accu)` on words. -/
def unop (f : BitVec 64 → BitVec 64) (c : Core) : C Core := do
  .ok { c with accu := .word (f (← wordOf c.accu)) }

/-- `accu = f(accu, *sp++)` on words. -/
def binop (f : BitVec 64 → BitVec 64 → C (BitVec 64)) (c : Core) : C Core := do
  let w ← f (← wordOf c.accu) (← wordOf (← spAt c.sp 0))
  .ok { c with accu := .word w, sp := ← spDrop c.sp 1 }

/-- `NEGINT`. -/
def negint : Core → C Core := unop (fun a => 2#64 - a)

/-- `ADDINT`. -/
def addint : Core → C Core := binop (fun a b => .ok (a + b - 1#64))

/-- `SUBINT`. -/
def subint : Core → C Core := binop (fun a b => .ok (a - b + 1#64))

/-- `MULINT`. -/
def mulint : Core → C Core :=
  binop (fun a b => .ok (valLong64 (longVal64 a * longVal64 b)))

/-- `ANDINT`. -/
def andint : Core → C Core := binop (fun a b => .ok (a &&& b))

/-- `ORINT`. -/
def orint : Core → C Core := binop (fun a b => .ok (a ||| b))

/-- `XORINT`. -/
def xorint : Core → C Core := binop (fun a b => .ok ((a ^^^ b) ||| 1#64))

/-- A shift count C defines for 64-bit operands. -/
def shiftCount (b : BitVec 64) : C Nat :=
  if (longVal64 b).toNat < 64 then .ok (longVal64 b).toNat else .error .undefined

/-- `LSLINT`. -/
def lslint : Core → C Core :=
  binop (fun a b => do .ok (((a - 1#64) <<< (← shiftCount b)) + 1#64))

/-- `LSRINT`. -/
def lsrint : Core → C Core :=
  binop (fun a b => do .ok ((a >>> (← shiftCount b)) ||| 1#64))

/-- `ASRINT`. -/
def asrint : Core → C Core :=
  binop (fun a b => do .ok ((a.sshiftRight (← shiftCount b)) ||| 1#64))

/-- `Val_int` of a C truth value. -/
def valBool (b : Bool) : Value := if b then valTrue else valFalse

/-- `Integer_comparison` with `==` or `!=`: any two words. -/
def equality (negate : Bool) (c : Core) : C Core := do
  let b ← sameWord c.accu (← spAt c.sp 0)
  .ok { c with accu := valBool (b != negate), sp := ← spDrop c.sp 1 }

/-- `Integer_comparison` with an order on words. -/
def comparison (tst : BitVec 64 → BitVec 64 → Bool) (c : Core) : C Core := do
  let b := tst (← wordOf c.accu) (← wordOf (← spAt c.sp 0))
  .ok { c with accu := valBool b, sp := ← spDrop c.sp 1 }

/-- `Integer_branch_comparison`: the operand, widened, against `Long_val(accu)`. -/
def branchComparison (tst : BitVec 64 → BitVec 64 → Bool) (c : Core) : C Core := do
  let b := tst (c.operand.signExtend 64) (longVal64 (← wordOf c.accu))
  branchWhen b c.advance

/-- `*pc << 1` at type `int`, widened. -/
def operandTwice (c : Core) : BitVec 64 := (c.operand <<< 1).signExtend 64

/-- `OFFSETINT`. -/
def offsetint (c : Core) : C Core := do
  .ok { c.advance with accu := .word ((← wordOf c.accu) + operandTwice c) }

/-- `OFFSETREF`. -/
def offsetref (c : Core) : C Core := do
  let w ← wordOf (← field c.mem.heap c.accu 0)
  let heap ← setField c.mem.heap c.accu 0 (.word (w + operandTwice c))
  .ok { c.advance with accu := valUnit, mem := { c.mem with heap := heap } }

/-- `ISINT`. -/
def isint (c : Core) : C Core := do
  .ok { c with accu := valBool (!(← isBlock c.accu)) }

/-! ## Objects -/

/-- `Int_val(v)`. -/
def intVal (v : Value) : C Int := do
  .ok ((← wordOf v).sshiftRight 1 |>.setWidth 32).toInt

/-- `GETMETHOD`. -/
def getmethod (c : Core) : C Core := do
  let meths ← field c.mem.heap (← spAt c.sp 0) 0
  .ok { c with accu := ← field c.mem.heap meths (← intVal c.accu) }

/-- `*(value*)(((char*)&Field(meths, i)) + ofs)`. -/
def fieldAtByte (h : Heap) (meths : Value) (i : Int) (ofs : BitVec 64) : C Value :=
  if ofs.toInt % 8 = 0 then field h meths (i + ofs.toInt / 8) else .error .undefined

/-- The binary search of `GETPUBMET` and `GETDYNMET`: the final `li`.  The sum
    is one of `int`s. -/
def methodSearch (h : Heap) (meths : Value) (tag : BitVec 64) : Nat → Int → Int → C Int
  | 0, _, _ => .error .diverged
  | fuel + 1, li, hi =>
      if li < hi then do
        if 2147483648 ≤ li + hi then .error .undefined
        let mid := (li + hi) / 2
        let mi := if mid % 2 = 0 then mid + 1 else mid
        let w ← wordOf (← field h meths mi)
        if tag.slt w then methodSearch h meths tag fuel li (mi - 2)
        else methodSearch h meths tag fuel mi hi
      else .ok li

/-- Start the search on the table's own bound. -/
def searchTable (h : Heap) (meths : Value) (tag : BitVec 64) : C Int := do
  let hi := ((← wordOf (← field h meths 0)).setWidth 32).toInt
  methodSearch h meths tag (hi.toNat + 1) 3 hi

/-- `*p = w` in the code array. -/
def setCode (mem : Mem) (p : CodePtr) (w : OpcodeWord) : Mem :=
  { mem with code := fun q => if q = p then w else mem.code q }

/-- `GETPUBMET`; the second operand is the inline cache. -/
def getpubmet (c : Core) : C Core := do
  let h := c.mem.heap
  let meths ← field h c.accu 0
  let tag := tagged (BitVec.ofInt 63 c.operand.toInt)
  let c := { c.advance with sp := c.accu :: c.sp }
  let ofs := c.operand.signExtend 64 &&& (← wordOf (← field h meths 1))
  if ← sameWord (← fieldAtByte h meths 3 ofs) (.word tag) then
    .ok { c.advance with accu := ← fieldAtByte h meths 2 ofs }
  else
    let li ← searchTable h meths tag
    .ok { c.advance with
      accu := ← field h meths (li - 1),
      mem := setCode c.mem c.pc (BitVec.ofInt 32 ((li - 3) * 8)) }

/-- `GETDYNMET`. -/
def getdynmet (c : Core) : C Core := do
  let h := c.mem.heap
  let meths ← field h (← spAt c.sp 0) 0
  let li ← searchTable h meths (← wordOf c.accu)
  .ok { c with accu := ← field h meths (li - 1) }

end CamlInstr
