import CamlInterp.ValueProofs

/-! # The instruction set

    `enum instructions` of `runtime/caml/instruct.h`, in its order, and the
    reading of an `opcode_t` word as one of them. -/

namespace CamlOpcode

open CamlValue

/-- `enum instructions`. -/
inductive Opcode where
  | ACC0 | ACC1 | ACC2 | ACC3 | ACC4 | ACC5 | ACC6 | ACC7 | ACC | PUSH | PUSHACC0
  | PUSHACC1 | PUSHACC2 | PUSHACC3 | PUSHACC4 | PUSHACC5 | PUSHACC6 | PUSHACC7 | PUSHACC
  | POP | ASSIGN | ENVACC1 | ENVACC2 | ENVACC3 | ENVACC4 | ENVACC | PUSHENVACC1
  | PUSHENVACC2 | PUSHENVACC3 | PUSHENVACC4 | PUSHENVACC | PUSH_RETADDR | APPLY | APPLY1
  | APPLY2 | APPLY3 | APPTERM | APPTERM1 | APPTERM2 | APPTERM3 | RETURN | RESTART | GRAB
  | CLOSURE | CLOSUREREC | OFFSETCLOSUREM3 | OFFSETCLOSURE0 | OFFSETCLOSURE3
  | OFFSETCLOSURE | PUSHOFFSETCLOSUREM3 | PUSHOFFSETCLOSURE0 | PUSHOFFSETCLOSURE3
  | PUSHOFFSETCLOSURE | GETGLOBAL | PUSHGETGLOBAL | GETGLOBALFIELD | PUSHGETGLOBALFIELD
  | SETGLOBAL | ATOM0 | ATOM | PUSHATOM0 | PUSHATOM | MAKEBLOCK | MAKEBLOCK1 | MAKEBLOCK2
  | MAKEBLOCK3 | MAKEFLOATBLOCK | GETFIELD0 | GETFIELD1 | GETFIELD2 | GETFIELD3 | GETFIELD
  | GETFLOATFIELD | SETFIELD0 | SETFIELD1 | SETFIELD2 | SETFIELD3 | SETFIELD
  | SETFLOATFIELD | VECTLENGTH | GETVECTITEM | SETVECTITEM | GETBYTESCHAR | SETBYTESCHAR
  | BRANCH | BRANCHIF | BRANCHIFNOT | SWITCH | BOOLNOT | PUSHTRAP | POPTRAP | RAISE
  | CHECK_SIGNALS | C_CALL1 | C_CALL2 | C_CALL3 | C_CALL4 | C_CALL5 | C_CALLN | CONST0
  | CONST1 | CONST2 | CONST3 | CONSTINT | PUSHCONST0 | PUSHCONST1 | PUSHCONST2
  | PUSHCONST3 | PUSHCONSTINT | NEGINT | ADDINT | SUBINT | MULINT | DIVINT | MODINT
  | ANDINT | ORINT | XORINT | LSLINT | LSRINT | ASRINT | EQ | NEQ | LTINT | LEINT | GTINT
  | GEINT | OFFSETINT | OFFSETREF | ISINT | GETMETHOD | BEQ | BNEQ | BLTINT | BLEINT
  | BGTINT | BGEINT | ULTINT | UGEINT | BULTINT | BUGEINT | GETPUBMET | GETDYNMET | STOP
  | EVENT | BREAK | RERAISE | RAISE_NOTRACE | GETSTRINGCHAR | PERFORM | RESUME
  | RESUMETERM | REPERFORMTERM
deriving DecidableEq, Repr

/-- The enumerators in order. -/
def opcodes : List Opcode :=
  [.ACC0, .ACC1, .ACC2, .ACC3, .ACC4, .ACC5, .ACC6, .ACC7, .ACC, .PUSH, .PUSHACC0,
    .PUSHACC1, .PUSHACC2, .PUSHACC3, .PUSHACC4, .PUSHACC5, .PUSHACC6, .PUSHACC7, .PUSHACC,
    .POP, .ASSIGN, .ENVACC1, .ENVACC2, .ENVACC3, .ENVACC4, .ENVACC, .PUSHENVACC1,
    .PUSHENVACC2, .PUSHENVACC3, .PUSHENVACC4, .PUSHENVACC, .PUSH_RETADDR, .APPLY, .APPLY1,
    .APPLY2, .APPLY3, .APPTERM, .APPTERM1, .APPTERM2, .APPTERM3, .RETURN, .RESTART, .GRAB,
    .CLOSURE, .CLOSUREREC, .OFFSETCLOSUREM3, .OFFSETCLOSURE0, .OFFSETCLOSURE3,
    .OFFSETCLOSURE, .PUSHOFFSETCLOSUREM3, .PUSHOFFSETCLOSURE0, .PUSHOFFSETCLOSURE3,
    .PUSHOFFSETCLOSURE, .GETGLOBAL, .PUSHGETGLOBAL, .GETGLOBALFIELD, .PUSHGETGLOBALFIELD,
    .SETGLOBAL, .ATOM0, .ATOM, .PUSHATOM0, .PUSHATOM, .MAKEBLOCK, .MAKEBLOCK1, .MAKEBLOCK2,
    .MAKEBLOCK3, .MAKEFLOATBLOCK, .GETFIELD0, .GETFIELD1, .GETFIELD2, .GETFIELD3, .GETFIELD,
    .GETFLOATFIELD, .SETFIELD0, .SETFIELD1, .SETFIELD2, .SETFIELD3, .SETFIELD,
    .SETFLOATFIELD, .VECTLENGTH, .GETVECTITEM, .SETVECTITEM, .GETBYTESCHAR, .SETBYTESCHAR,
    .BRANCH, .BRANCHIF, .BRANCHIFNOT, .SWITCH, .BOOLNOT, .PUSHTRAP, .POPTRAP, .RAISE,
    .CHECK_SIGNALS, .C_CALL1, .C_CALL2, .C_CALL3, .C_CALL4, .C_CALL5, .C_CALLN, .CONST0,
    .CONST1, .CONST2, .CONST3, .CONSTINT, .PUSHCONST0, .PUSHCONST1, .PUSHCONST2,
    .PUSHCONST3, .PUSHCONSTINT, .NEGINT, .ADDINT, .SUBINT, .MULINT, .DIVINT, .MODINT,
    .ANDINT, .ORINT, .XORINT, .LSLINT, .LSRINT, .ASRINT, .EQ, .NEQ, .LTINT, .LEINT, .GTINT,
    .GEINT, .OFFSETINT, .OFFSETREF, .ISINT, .GETMETHOD, .BEQ, .BNEQ, .BLTINT, .BLEINT,
    .BGTINT, .BGEINT, .ULTINT, .UGEINT, .BULTINT, .BUGEINT, .GETPUBMET, .GETDYNMET, .STOP,
    .EVENT, .BREAK, .RERAISE, .RAISE_NOTRACE, .GETSTRINGCHAR, .PERFORM, .RESUME,
    .RESUMETERM, .REPERFORMTERM]

/-- `FIRST_UNIMPLEMENTED_OP`. -/
def firstUnimplementedOp : Nat := 153

/-- The enumerator a code word stands for, when it is one. -/
def decode (w : OpcodeWord) : Option Opcode := opcodes[w.toNat]?

/-- The code word of an enumerator. -/
def Opcode.code (op : Opcode) : OpcodeWord := BitVec.ofNat 32 op.ctorIdx

set_option maxRecDepth 2000 in
theorem length_opcodes : opcodes.length = firstUnimplementedOp := rfl

@[simp] theorem decode_code (op : Opcode) : decode op.code = some op := by
  cases op <;> rfl

/-- The words that name an instruction are those below
    `FIRST_UNIMPLEMENTED_OP`. -/
theorem decode_isSome_iff (w : OpcodeWord) :
    (decode w).isSome = true ↔ w.toNat < firstUnimplementedOp := by
  unfold decode
  rw [← length_opcodes]
  by_cases h : w.toNat < opcodes.length
  · simp [h]
  · simp [h]

/-- A valid word passes the signed range test. -/
theorem toInt_lt_of_decode {w : OpcodeWord} {op : Opcode} (h : decode w = some op) :
    w.toInt < firstUnimplementedOp := by
  have hn := (decode_isSome_iff w).mp (by rw [h]; rfl)
  unfold firstUnimplementedOp at hn ⊢
  rw [BitVec.toInt_eq_toNat_of_lt (by omega)]
  omega

end CamlOpcode
