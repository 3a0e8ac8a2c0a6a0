import CamlInterp.OpcodeProofs
import CamlInterp.BackpatchProofs

/-! # The code emitter — `bytecomp/emitcode.ml`

    `emit` turns a list of instructions into the words of the code array.  It
    writes one word after the other; a jump to a label that is still ahead is
    written as 0 and patched when the label is reached, and the operands the
    linker has to fill in are noted beside.  A position is a number of bytes.
    Of a debug event only what decides how it is merged with another is kept. -/

namespace CamlEmit

open CamlValue CamlOpcode

/-! ## Instructions -/

/-- `label` -/
abbrev Label := Nat

inductive IntegerComparison where
  | Ceq | Cne | Clt | Cgt | Cle | Cge
deriving DecidableEq, Repr

inductive RaiseKind where
  | Raise_regular | Raise_reraise | Raise_notrace
deriving DecidableEq, Repr

inductive Constant where
  | Const_int (i : Int)
  | Const_char (c : BitVec 8)
  | Const_string (s : String)
  | Const_float (s : String)
  | Const_int32 (i : BitVec 32)
  | Const_int64 (i : BitVec 64)
  | Const_nativeint (i : BitVec 64)

inductive StructuredConstant where
  | Const_base (c : Constant)
  | Const_block (t : Int) (fields : List StructuredConstant)
  | Const_float_array (fields : List String)
  | Const_immstring (s : String)

/-- `debug_event_kind`; the type in an `Event_after` is dropped. -/
inductive EventKind where
  | Event_before | Event_after | Event_pseudo
deriving DecidableEq, Repr

/-- `debug_event_info` -/
inductive EventInfo where
  | Event_function | Event_return (n : Nat) | Event_other
deriving DecidableEq, Repr

/-- An `int ref` of a debug event: one that came with a term, and what it holds,
    or one that `weaken_event` made.  Physical equality is equality here. -/
inductive EventRef where
  | ofTerm (address : Nat) (contents : Int)
  | weakened (address : Nat)
deriving DecidableEq, Repr

/-- `!r` -/
def EventRef.contents : EventRef → Int
  | .ofTerm _ n => n
  | .weakened _ => 1

/-- `debug_event_repr` -/
inductive EventRepr where
  | Event_none | Event_parent (r : EventRef) | Event_child (r : EventRef)
deriving DecidableEq, Repr

/-- `debug_event` -/
structure DebugEvent where
  kind : EventKind
  info : EventInfo
  repr : EventRepr
deriving DecidableEq, Repr

/-- The type `instruction` of `instruct.ml`. -/
inductive Instruction where
  | Klabel (lbl : Label)
  | Kacc (n : Int)
  | Kenvacc (n : Int)
  | Kpush
  | Kpop (n : Int)
  | Kassign (n : Int)
  | Kpush_retaddr (lbl : Label)
  | Kapply (n : Int)
  | Kappterm (n sz : Int)
  | Kreturn (n : Int)
  | Krestart
  | Kgrab (n : Int)
  | Kclosure (lbl : Label) (n : Int)
  | Kclosurerec (lbls : List Label) (n : Int)
  | Koffsetclosure (ofs : Int)
  | Kgetglobal (q : String)
  | Ksetglobal (q : String)
  | Kconst (sc : StructuredConstant)
  | Kmakeblock (n t : Int)
  | Kmakefloatblock (n : Int)
  | Kgetfield (n : Int)
  | Ksetfield (n : Int)
  | Kgetfloatfield (n : Int)
  | Ksetfloatfield (n : Int)
  | Kvectlength
  | Kgetvectitem
  | Ksetvectitem
  | Kgetstringchar
  | Kgetbyteschar
  | Ksetbyteschar
  | Kbranch (lbl : Label)
  | Kbranchif (lbl : Label)
  | Kbranchifnot (lbl : Label)
  | Kstrictbranchif (lbl : Label)
  | Kstrictbranchifnot (lbl : Label)
  | Kswitch (tblConst tblBlock : List Label)
  | Kboolnot
  | Kpushtrap (lbl : Label)
  | Kpoptrap
  | Kraise (k : RaiseKind)
  | Kcheck_signals
  | Kccall (name : String) (n : Int)
  | Knegint | Kaddint | Ksubint | Kmulint | Kdivint | Kmodint
  | Kandint | Korint | Kxorint | Klslint | Klsrint | Kasrint
  | Kintcomp (c : IntegerComparison)
  | Koffsetint (n : Int)
  | Koffsetref (n : Int)
  | Kisint
  | Kisout
  | Kgetmethod
  | Kgetpubmet (tag : Int)
  | Kgetdynmet
  | Kevent (ev : DebugEvent)
  | Kperform
  | Kresume
  | Kresumeterm (n : Int)
  | Kreperformterm (n : Int)
  | Kstop

/-- A list of instructions. -/
abbrev Code := List Instruction

/-- `reloc_info` of `cmo_format.mli`. -/
inductive RelocInfo where
  | Reloc_literal (sc : StructuredConstant)
  | Reloc_getglobal (id : String)
  | Reloc_setglobal (id : String)
  | Reloc_primitive (name : String)

/-- `label_definition` -/
inductive LabelDefinition where
  | Label_defined (pos : Nat)
  | Label_undefined (patchlist : List (Nat × Nat))

/-- `negate_integer_comparison` -/
def negateIntegerComparison : IntegerComparison → IntegerComparison
  | .Ceq => .Cne
  | .Cne => .Ceq
  | .Clt => .Cge
  | .Cle => .Cgt
  | .Cgt => .Cle
  | .Cge => .Clt

/-! ## The buffer and the labels -/

/-- `out_buffer`, `label_table` and `reloc_info`. -/
structure Emitter where
  outBuffer : List OpcodeWord
  labelTable : Label → LabelDefinition
  relocInfo : List (RelocInfo × Nat)

/-- `init` -/
def init : Emitter where
  outBuffer := []
  labelTable := fun _ => .Label_undefined []
  relocInfo := []

/-- The number of an opcode, as `Opcodes` has it. -/
def opNum (op : Opcode) : Int := op.ctorIdx

/-- Four `Char.unsafe_chr`, the first one lowest. -/
def wordOfBytes (b1 b2 b3 b4 : Int) : OpcodeWord :=
  BitVec.ofInt 8 b4 ++ BitVec.ofInt 8 b3 ++ BitVec.ofInt 8 b2 ++ BitVec.ofInt 8 b1

namespace Emitter

/-- `out_position` -/
def outPosition (e : Emitter) : Nat := 4 * e.outBuffer.length

/-- `out_word` -/
def outWord (b1 b2 b3 b4 : Int) (e : Emitter) : Emitter :=
  { e with outBuffer := e.outBuffer ++ [wordOfBytes b1 b2 b3 b4] }

/-- `out` -/
def out (e : Emitter) (opcode : Int) : Emitter := e.outWord opcode 0 0 0

/-- `out_int` -/
def outInt (e : Emitter) (n : Int) : Emitter :=
  e.outWord n (n >>> (8 : Nat)) (n >>> (16 : Nat)) (n >>> (24 : Nat))

/-- `backpatch` -/
def backpatch (e : Emitter) (p : Nat × Nat) : Emitter :=
  let displ : Int := ((e.outPosition : Int) - p.2) >>> (2 : Nat)
  let w := wordOfBytes displ (displ >>> (8 : Nat)) (displ >>> (16 : Nat)) (displ >>> (24 : Nat))
  { e with outBuffer := e.outBuffer.set (p.1 / 4) w }

/-- `(!label_table).(lbl) <- d` -/
def setLabel (e : Emitter) (lbl : Label) (d : LabelDefinition) : Emitter :=
  { e with labelTable := fun l => if l = lbl then d else e.labelTable l }

/-- `define_label` -/
def defineLabel (e : Emitter) (lbl : Label) : Except String Emitter :=
  match e.labelTable lbl with
  | .Label_defined _ => .error "Emitcode.define_label"
  | .Label_undefined patchlist =>
      let e := patchlist.foldl backpatch e
      .ok (e.setLabel lbl (.Label_defined e.outPosition))

/-- `out_label_with_orig` -/
def outLabelWithOrig (orig : Nat) (e : Emitter) (lbl : Label) : Emitter :=
  match e.labelTable lbl with
  | .Label_defined pos => e.outInt (((pos : Int) - orig) >>> (2 : Nat))
  | .Label_undefined patchlist =>
      (e.setLabel lbl (.Label_undefined ((e.outPosition, orig) :: patchlist))).outInt 0

/-- `List.iter (out_label_with_orig org)`; `out_label` is the case of one label
    and the position it is written at. -/
def outLabels (org : Nat) (e : Emitter) (lbls : List Label) : Emitter :=
  lbls.foldl (outLabelWithOrig org) e

/-- `slot_for_literal` and its like: `enter info; out_int 0`. -/
def slotFor (e : Emitter) (info : RelocInfo) : Emitter :=
  ({ e with relocInfo := (info, e.outPosition) :: e.relocInfo }).outInt 0

end Emitter

/-! ## Emission of one instruction -/

/-- `const_as_int` -/
def constAsInt : StructuredConstant → Option Int
  | .Const_base (.Const_int i) => some i
  | .Const_base (.Const_char c) => some c.toNat
  | _ => none

/-- `is_immed` -/
def isImmed (i : Int) : Bool := -0x40000000 ≤ i && i ≤ 0x3FFFFFFF

/-- `is_immed_const` -/
def isImmedConst (k : StructuredConstant) : Bool := (constAsInt k).any isImmed

/-- What stands after an opcode: an `out_int`, a slot for the linker, or labels
    relative to the position of the first of them. -/
inductive Operand where
  | int (n : Int)
  | slot (info : RelocInfo)
  | labels (lbls : List Label)

/-- An instruction as it is written; the opcode may be a sum, such as
    `opACC0 + n`. -/
structure Encoding where
  opcode : Int
  operands : List Operand

namespace Emitter

def outOperand (e : Emitter) : Operand → Emitter
  | .int n => e.outInt n
  | .slot info => e.slotFor info
  | .labels lbls => e.outLabels e.outPosition lbls

def outInstr (e : Emitter) (i : Encoding) : Emitter :=
  i.operands.foldl outOperand (e.out i.opcode)

end Emitter

/-- `out opcode` alone. -/
def bare (op : Opcode) : Encoding := ⟨opNum op, []⟩

/-- `emit_comp` -/
def compEncoding : IntegerComparison → Encoding
  | .Ceq => bare .EQ
  | .Cne => bare .NEQ
  | .Clt => bare .LTINT
  | .Cle => bare .LEINT
  | .Cgt => bare .GTINT
  | .Cge => bare .GEINT

/-- The case `Kconst` of `emit_instr`, and that of a pushed constant in `emit`;
    they differ in the opcodes. -/
def constEncoding (const0 constint atom0 atom getglobal : Opcode) (sc : StructuredConstant) :
    Encoding :=
  match sc with
  | .Const_base (.Const_int i) =>
      if isImmed i then
        if 0 ≤ i ∧ i ≤ 3 then ⟨opNum const0 + i, []⟩ else ⟨opNum constint, [.int i]⟩
      else ⟨opNum getglobal, [.slot (.Reloc_literal sc)]⟩
  | .Const_base (.Const_char c) => ⟨opNum constint, [.int c.toNat]⟩
  | .Const_block t [] => if t = 0 then bare atom0 else ⟨opNum atom, [.int t]⟩
  | _ => ⟨opNum getglobal, [.slot (.Reloc_literal sc)]⟩

/-- The cases of `emit_instr` that write something. -/
def encoding : Instruction → Option Encoding
  | .Klabel _ => none
  | .Kacc n => some (if n < 8 then ⟨opNum .ACC0 + n, []⟩ else ⟨opNum .ACC, [.int n]⟩)
  | .Kenvacc n =>
      some (if 1 ≤ n ∧ n ≤ 4 then ⟨opNum .ENVACC1 + n - 1, []⟩ else ⟨opNum .ENVACC, [.int n]⟩)
  | .Kpush => some (bare .PUSH)
  | .Kpop n => some ⟨opNum .POP, [.int n]⟩
  | .Kassign n => some ⟨opNum .ASSIGN, [.int n]⟩
  | .Kpush_retaddr lbl => some ⟨opNum .PUSH_RETADDR, [.labels [lbl]]⟩
  | .Kapply n => some (if n < 4 then ⟨opNum .APPLY1 + n - 1, []⟩ else ⟨opNum .APPLY, [.int n]⟩)
  | .Kappterm n sz =>
      some (if n < 4 then ⟨opNum .APPTERM1 + n - 1, [.int sz]⟩
        else ⟨opNum .APPTERM, [.int n, .int sz]⟩)
  | .Kreturn n => some ⟨opNum .RETURN, [.int n]⟩
  | .Krestart => some (bare .RESTART)
  | .Kgrab n => some ⟨opNum .GRAB, [.int n]⟩
  | .Kclosure lbl n => some ⟨opNum .CLOSURE, [.int n, .labels [lbl]]⟩
  | .Kclosurerec lbls n =>
      some ⟨opNum .CLOSUREREC, [.int lbls.length, .int n, .labels lbls]⟩
  | .Koffsetclosure ofs =>
      some (if ofs = -3 ∨ ofs = 0 ∨ ofs = 3 then ⟨opNum .OFFSETCLOSURE0 + ofs.tdiv 3, []⟩
        else ⟨opNum .OFFSETCLOSURE, [.int ofs]⟩)
  | .Kgetglobal q => some ⟨opNum .GETGLOBAL, [.slot (.Reloc_getglobal q)]⟩
  | .Ksetglobal q => some ⟨opNum .SETGLOBAL, [.slot (.Reloc_setglobal q)]⟩
  | .Kconst sc => some (constEncoding .CONST0 .CONSTINT .ATOM0 .ATOM .GETGLOBAL sc)
  | .Kmakeblock n t =>
      some (if n = 0 then if t = 0 then bare .ATOM0 else ⟨opNum .ATOM, [.int t]⟩
        else if n < 4 then ⟨opNum .MAKEBLOCK1 + n - 1, [.int t]⟩
        else ⟨opNum .MAKEBLOCK, [.int n, .int t]⟩)
  | .Kgetfield n =>
      some (if n < 4 then ⟨opNum .GETFIELD0 + n, []⟩ else ⟨opNum .GETFIELD, [.int n]⟩)
  | .Ksetfield n =>
      some (if n < 4 then ⟨opNum .SETFIELD0 + n, []⟩ else ⟨opNum .SETFIELD, [.int n]⟩)
  | .Kmakefloatblock n =>
      some (if n = 0 then bare .ATOM0 else ⟨opNum .MAKEFLOATBLOCK, [.int n]⟩)
  | .Kgetfloatfield n => some ⟨opNum .GETFLOATFIELD, [.int n]⟩
  | .Ksetfloatfield n => some ⟨opNum .SETFLOATFIELD, [.int n]⟩
  | .Kvectlength => some (bare .VECTLENGTH)
  | .Kgetvectitem => some (bare .GETVECTITEM)
  | .Ksetvectitem => some (bare .SETVECTITEM)
  | .Kgetstringchar => some (bare .GETSTRINGCHAR)
  | .Kgetbyteschar => some (bare .GETBYTESCHAR)
  | .Ksetbyteschar => some (bare .SETBYTESCHAR)
  | .Kbranch lbl => some ⟨opNum .BRANCH, [.labels [lbl]]⟩
  | .Kbranchif lbl => some ⟨opNum .BRANCHIF, [.labels [lbl]]⟩
  | .Kbranchifnot lbl => some ⟨opNum .BRANCHIFNOT, [.labels [lbl]]⟩
  | .Kstrictbranchif lbl => some ⟨opNum .BRANCHIF, [.labels [lbl]]⟩
  | .Kstrictbranchifnot lbl => some ⟨opNum .BRANCHIFNOT, [.labels [lbl]]⟩
  | .Kswitch tblConst tblBlock =>
      -- both tables are relative to the position after the sizes
      some ⟨opNum .SWITCH, [.int (tblConst.length + tblBlock.length * 65536),
        .labels (tblConst ++ tblBlock)]⟩
  | .Kboolnot => some (bare .BOOLNOT)
  | .Kpushtrap lbl => some ⟨opNum .PUSHTRAP, [.labels [lbl]]⟩
  | .Kpoptrap => some (bare .POPTRAP)
  | .Kraise .Raise_regular => some (bare .RAISE)
  | .Kraise .Raise_reraise => some (bare .RERAISE)
  | .Kraise .Raise_notrace => some (bare .RAISE_NOTRACE)
  | .Kcheck_signals => some (bare .CHECK_SIGNALS)
  | .Kccall name n =>
      some (if n ≤ 5 then ⟨opNum .C_CALL1 + n - 1, [.slot (.Reloc_primitive name)]⟩
        else ⟨opNum .C_CALLN, [.int n, .slot (.Reloc_primitive name)]⟩)
  | .Knegint => some (bare .NEGINT)
  | .Kaddint => some (bare .ADDINT)
  | .Ksubint => some (bare .SUBINT)
  | .Kmulint => some (bare .MULINT)
  | .Kdivint => some (bare .DIVINT)
  | .Kmodint => some (bare .MODINT)
  | .Kandint => some (bare .ANDINT)
  | .Korint => some (bare .ORINT)
  | .Kxorint => some (bare .XORINT)
  | .Klslint => some (bare .LSLINT)
  | .Klsrint => some (bare .LSRINT)
  | .Kasrint => some (bare .ASRINT)
  | .Kintcomp c => some (compEncoding c)
  | .Koffsetint n => some ⟨opNum .OFFSETINT, [.int n]⟩
  | .Koffsetref n => some ⟨opNum .OFFSETREF, [.int n]⟩
  | .Kisint => some (bare .ISINT)
  | .Kisout => some (bare .ULTINT)
  | .Kgetmethod => some (bare .GETMETHOD)
  | .Kgetpubmet tag => some ⟨opNum .GETPUBMET, [.int tag, .int 0]⟩
  | .Kgetdynmet => some (bare .GETDYNMET)
  | .Kevent _ => none
  | .Kperform => some (bare .PERFORM)
  | .Kresume => some (bare .RESUME)
  | .Kresumeterm n => some ⟨opNum .RESUMETERM, [.int n]⟩
  | .Kreperformterm n => some ⟨opNum .REPERFORMTERM, [.int n]⟩
  | .Kstop => some (bare .STOP)

/-- `emit_instr` -/
def Emitter.emitInstr (e : Emitter) (instr : Instruction) : Except String Emitter :=
  match instr with
  | .Klabel lbl => e.defineLabel lbl
  | instr =>
      match encoding instr with
      | some i => .ok (e.outInstr i)
      | none => .ok e

/-! ## Emission of a list of instructions -/

/-- `merge_infos` of `bytegen.ml` -/
def mergeInfos (ev ev' : DebugEvent) : Except String EventInfo :=
  match ev.info, ev'.info with
  | .Event_other, info => .ok info
  | info, .Event_other => .ok info
  | _, _ => .error "Bytegen.merge_infos"

/-- `merge_repr` of `bytegen.ml` -/
def mergeRepr (ev ev' : DebugEvent) : Except String EventRepr :=
  match ev.repr, ev'.repr with
  | .Event_none, x => .ok x
  | x, .Event_none => .ok x
  | .Event_parent r, .Event_child r' =>
      if r = r' ∧ r.contents = 1 then .ok .Event_none else .error "Bytegen.merge_repr"
  | .Event_child r, .Event_parent r' =>
      if r = r' then .ok (.Event_parent r) else .error "Bytegen.merge_repr"
  | _, _ => .error "Bytegen.merge_repr"

/-- The `maj` and `min` of `merge_events`. -/
def majorMinor (ev ev' : DebugEvent) : DebugEvent × DebugEvent :=
  match ev.kind, ev'.kind with
  | .Event_pseudo, _ => (ev', ev)
  | _, .Event_pseudo => (ev, ev')
  | .Event_before, _ => (ev', ev)
  | .Event_after, _ => (ev, ev')

/-- `merge_events` of `bytegen.ml`; the last argument of `copy_event` is evaluated
    first. -/
def mergeEvents (ev ev' : DebugEvent) : Except String DebugEvent := do
  let (maj, min) := majorMinor ev ev'
  let repr ← mergeRepr maj min
  let info ← mergeInfos maj min
  return ⟨maj.kind, info, repr⟩

/-- `remerge_events` -/
def remergeEvents (ev1 : DebugEvent) : List Instruction → Except String (List Instruction)
  | .Kevent ev2 :: c => do return .Kevent (← mergeEvents ev1 ev2) :: c
  | c => .ok (.Kevent ev1 :: c)

theorem bind_ok {α β : Type} {x : Except String α} {f : α → Except String β} {b : β}
    (h : (x >>= f) = .ok b) : ∃ a, x = .ok a ∧ f a = .ok b := by
  cases x with
  | error s => cases h
  | ok a => exact ⟨a, rfl, h⟩

/-- An event is put in front, or takes the place of the one that is there. -/
theorem remergeEvents_cons {ev : DebugEvent} {c c' : List Instruction}
    (h : remergeEvents ev c = .ok c') :
    ∃ ev', c' = .Kevent ev' :: c ∨ ∃ ev2 c1, c = .Kevent ev2 :: c1 ∧ c' = .Kevent ev' :: c1 := by
  unfold remergeEvents at h
  split at h
  · next ev2 c =>
      obtain ⟨ev', -, h⟩ := bind_ok h
      obtain rfl := Except.ok.inj h
      exact ⟨ev', .inr ⟨ev2, c, rfl, rfl⟩⟩
  · obtain rfl := Except.ok.inj h
    exact ⟨ev, .inl rfl⟩

theorem length_remergeEvents {ev : DebugEvent} {c c' : List Instruction}
    (h : remergeEvents ev c = .ok c') : c'.length ≤ c.length + 1 := by
  obtain ⟨ev', rfl | ⟨ev2, c1, rfl, rfl⟩⟩ := remergeEvents_cons h
  · exact Nat.le_refl _
  · exact Nat.le_add_right _ _

/-- Whether the second instruction is an event, which `emit` moves on. -/
def secondIsEvent : List Instruction → Bool
  | _ :: .Kevent _ :: _ => true
  | _ => false

/-- The measure of `emit`: moving an event on does not change the length. -/
def emitMeasure (c : List Instruction) : Nat := 2 * c.length + (secondIsEvent c).toNat

theorem emitMeasure_lt {c c' : List Instruction} (h : c.length < c'.length) :
    emitMeasure c < emitMeasure c' := by
  have := Bool.toNat_le (secondIsEvent c)
  unfold emitMeasure
  omega

theorem emitMeasure_moved {c c' : List Instruction} (h : c.length ≤ c'.length)
    (hc : secondIsEvent c = false) (hc' : secondIsEvent c' = true) :
    emitMeasure c < emitMeasure c' := by
  unfold emitMeasure
  rw [hc, hc']
  show _ + 0 < _ + 1
  omega

/-- A `Kpush` and the instruction after it, in one. -/
def pushaccEncoding (n : Int) : Encoding :=
  if n < 8 then ⟨opNum .PUSHACC0 + n, []⟩ else ⟨opNum .PUSHACC, [.int n]⟩

def pushenvaccEncoding (n : Int) : Encoding :=
  if 1 ≤ n ∧ n < 4 then ⟨opNum .PUSHENVACC1 + n - 1, []⟩ else ⟨opNum .PUSHENVACC, [.int n]⟩

def pushoffsetclosureEncoding (ofs : Int) : Encoding :=
  if ofs = -3 ∨ ofs = 0 ∨ ofs = 3 then ⟨opNum .PUSHOFFSETCLOSURE0 + ofs.tdiv 3, []⟩
  else ⟨opNum .PUSHOFFSETCLOSURE, [.int ofs]⟩

def pushconstEncoding (sc : StructuredConstant) : Encoding :=
  constEncoding .PUSHCONST0 .PUSHCONSTINT .PUSHATOM0 .PUSHATOM .PUSHGETGLOBAL sc

/-- `emit_branch_comp` -/
def branchComp : IntegerComparison → Opcode
  | .Ceq => .BEQ
  | .Cne => .BNEQ
  | .Clt => .BLTINT
  | .Cle => .BLEINT
  | .Cgt => .BGTINT
  | .Cge => .BGEINT

/-- A test against a constant and the branch on it, in one; the constant is
    written by `out_const`. -/
def branchConstEncoding (op : Opcode) (k : StructuredConstant) (lbl : Label) :
    Except String Encoding :=
  match constAsInt k with
  | some i => .ok ⟨opNum op, [.int i, .labels [lbl]]⟩
  | none => .error "Emitcode.const_as_int"

/-- `emit`.  Where the source has a case with a `when`, the other branch is the
    later case that takes over. -/
def emit : List Instruction → Emitter → Except String Emitter
  | [], e => .ok e
  -- integer tests, and range tests
  | .Kpush :: .Kconst k :: .Kintcomp c :: .Kbranchif lbl :: rem, e =>
      if isImmedConst k then do
        emit rem (e.outInstr (← branchConstEncoding (branchComp c) k lbl))
      else emit (.Kintcomp c :: .Kbranchif lbl :: rem) (e.outInstr (pushconstEncoding k))
  | .Kpush :: .Kconst k :: .Kintcomp c :: .Kbranchifnot lbl :: rem, e =>
      if isImmedConst k then do
        emit rem (e.outInstr
          (← branchConstEncoding (branchComp (negateIntegerComparison c)) k lbl))
      else emit (.Kintcomp c :: .Kbranchifnot lbl :: rem) (e.outInstr (pushconstEncoding k))
  | .Kpush :: .Kconst k :: .Kisout :: .Kbranchif lbl :: rem, e =>
      if isImmedConst k then do
        emit rem (e.outInstr (← branchConstEncoding .BULTINT k lbl))
      else emit (.Kisout :: .Kbranchif lbl :: rem) (e.outInstr (pushconstEncoding k))
  | .Kpush :: .Kconst k :: .Kisout :: .Kbranchifnot lbl :: rem, e =>
      if isImmedConst k then do
        emit rem (e.outInstr (← branchConstEncoding .BUGEINT k lbl))
      else emit (.Kisout :: .Kbranchifnot lbl :: rem) (e.outInstr (pushconstEncoding k))
  | .Kpush :: .Kacc 0 :: .Kreturn m :: c, e => emit (.Kreturn (m - 1) :: c) e
  -- push, then access
  | .Kpush :: .Kacc n :: c, e => emit c (e.outInstr (pushaccEncoding n))
  | .Kpush :: .Kenvacc n :: c, e => emit c (e.outInstr (pushenvaccEncoding n))
  | .Kpush :: .Koffsetclosure ofs :: c, e => emit c (e.outInstr (pushoffsetclosureEncoding ofs))
  | .Kpush :: .Kgetglobal id :: .Kgetfield n :: c, e =>
      emit c (e.outInstr ⟨opNum .PUSHGETGLOBALFIELD, [.slot (.Reloc_getglobal id), .int n]⟩)
  | .Kpush :: .Kgetglobal id :: c, e =>
      emit c (e.outInstr ⟨opNum .PUSHGETGLOBAL, [.slot (.Reloc_getglobal id)]⟩)
  | .Kpush :: .Kconst sc :: c, e => emit c (e.outInstr (pushconstEncoding sc))
  -- an event in between moves behind
  | .Kpush :: .Kevent ⟨.Event_before, info, repr⟩ :: .Kgetglobal q :: .Kgetfield n :: c, e =>
      match _h : remergeEvents ⟨.Event_before, info, repr⟩ c with
      | .ok c' => emit (.Kpush :: .Kgetglobal q :: .Kgetfield n :: c') e
      | .error msg => .error msg
  | .Kpush :: .Kevent ⟨.Event_before, info, repr⟩ :: .Kacc n :: c, e =>
      match _h : remergeEvents ⟨.Event_before, info, repr⟩ c with
      | .ok c' => emit (.Kpush :: .Kacc n :: c') e
      | .error msg => .error msg
  | .Kpush :: .Kevent ⟨.Event_before, info, repr⟩ :: .Kenvacc n :: c, e =>
      match _h : remergeEvents ⟨.Event_before, info, repr⟩ c with
      | .ok c' => emit (.Kpush :: .Kenvacc n :: c') e
      | .error msg => .error msg
  | .Kpush :: .Kevent ⟨.Event_before, info, repr⟩ :: .Koffsetclosure ofs :: c, e =>
      match _h : remergeEvents ⟨.Event_before, info, repr⟩ c with
      | .ok c' => emit (.Kpush :: .Koffsetclosure ofs :: c') e
      | .error msg => .error msg
  | .Kpush :: .Kevent ⟨.Event_before, info, repr⟩ :: .Kgetglobal q :: c, e =>
      match _h : remergeEvents ⟨.Event_before, info, repr⟩ c with
      | .ok c' => emit (.Kpush :: .Kgetglobal q :: c') e
      | .error msg => .error msg
  | .Kpush :: .Kevent ⟨.Event_before, info, repr⟩ :: .Kconst sc :: c, e =>
      match _h : remergeEvents ⟨.Event_before, info, repr⟩ c with
      | .ok c' => emit (.Kpush :: .Kconst sc :: c') e
      | .error msg => .error msg
  | .Kgetglobal id :: .Kgetfield n :: c, e =>
      emit c (e.outInstr ⟨opNum .GETGLOBALFIELD, [.slot (.Reloc_getglobal id), .int n]⟩)
  | instr :: c, e => do emit c (← e.emitInstr instr)
termination_by c => emitMeasure c
decreasing_by
  all_goals first
    | exact emitMeasure_lt (by simp only [List.length_cons]; omega)
    | refine emitMeasure_moved ?_ rfl rfl
      have := length_remergeEvents _h
      simp only [List.length_cons]
      omega

/-! ## The words written -/

/-- `out_int` writes the low 32 bits. -/
theorem wordOfBytes_int (n : Int) :
    wordOfBytes n (n >>> (8 : Nat)) (n >>> (16 : Nat)) (n >>> (24 : Nat)) = BitVec.ofInt 32 n := by
  apply BitVec.eq_of_toNat_eq
  unfold wordOfBytes
  simp only [BitVec.toNat_append, BitVec.toNat_ofInt, Int.shiftRight_eq_div_pow]
  rw [← Nat.shiftLeft_add_eq_or_of_lt (by omega), ← Nat.shiftLeft_add_eq_or_of_lt (by omega),
    ← Nat.shiftLeft_add_eq_or_of_lt (by omega), Nat.shiftLeft_eq, Nat.shiftLeft_eq,
    Nat.shiftLeft_eq]
  omega

theorem wordOfBytes_opcode {n : Int} (h0 : 0 ≤ n) (h : n < 256) :
    wordOfBytes n 0 0 0 = BitVec.ofInt 32 n := by
  rw [← wordOfBytes_int, Int.shiftRight_eq_div_pow, Int.shiftRight_eq_div_pow,
    Int.shiftRight_eq_div_pow, Int.ediv_eq_zero_of_lt h0 (by omega),
    Int.ediv_eq_zero_of_lt h0 (by omega), Int.ediv_eq_zero_of_lt h0 (by omega)]

/-- A label's reference is the distance in words, from its origin. -/
def layout : Backpatch.Layout OpcodeWord where
  unit := 4
  unit_pos := by decide
  fill := fun pos orig => BitVec.ofInt 32 (((pos : Int) - orig) >>> (2 : Nat))
  hole := 0#32

/-- What a label definition notes. -/
def LabelDefinition.target : LabelDefinition → Backpatch.Target
  | .Label_defined pos => .placed pos
  | .Label_undefined patchlist => .ahead patchlist

namespace Emitter

variable {e e' : Emitter}

/-- The buffer with its labels. -/
def patching (e : Emitter) : Backpatch.Buffer Label OpcodeWord :=
  ⟨e.outBuffer, fun l => (e.labelTable l).target⟩

theorem patching_outInt (e : Emitter) (n : Int) :
    (e.outInt n).patching = e.patching.write (BitVec.ofInt 32 n) := by
  rw [← wordOfBytes_int]
  rfl

theorem patching_slotFor (e : Emitter) (info : RelocInfo) :
    (e.slotFor info).patching = e.patching.write 0#32 :=
  patching_outInt { e with relocInfo := (info, e.outPosition) :: e.relocInfo } 0

theorem patching_setLabel (e : Emitter) (lbl : Label) (d : LabelDefinition) :
    (e.setLabel lbl d).patching = e.patching.setTarget lbl d.target := by
  unfold patching setLabel Backpatch.Buffer.setTarget
  congr 1
  funext l
  exact apply_ite LabelDefinition.target _ _ _

/-- `out_label_with_orig` refers to a label. -/
theorem patching_outLabelWithOrig (orig : Nat) (e : Emitter) (lbl : Label) :
    (outLabelWithOrig orig e lbl).patching = e.patching.refer layout orig lbl := by
  unfold outLabelWithOrig Backpatch.Buffer.refer
  cases hl : e.labelTable lbl with
  | Label_defined pos =>
      have ht : e.patching.target lbl = .placed pos := congrArg LabelDefinition.target hl
      rw [ht]
      exact patching_outInt _ _
  | Label_undefined patchlist =>
      have ht : e.patching.target lbl = .ahead patchlist := congrArg LabelDefinition.target hl
      rw [ht]
      dsimp only
      rw [patching_outInt, patching_setLabel]
      rfl

theorem patching_backpatch (e : Emitter) (p : Nat × Nat) :
    (e.backpatch p).patching = e.patching.patch layout p := by
  unfold backpatch
  dsimp only
  rw [wordOfBytes_int]
  rfl

theorem patching_backpatches (patchlist : List (Nat × Nat)) (e : Emitter) :
    (patchlist.foldl backpatch e).patching
      = patchlist.foldl (Backpatch.Buffer.patch layout) e.patching := by
  induction patchlist generalizing e with
  | nil => rfl
  | cons p patchlist ih =>
      rw [List.foldl_cons, ih, patching_backpatch]
      rfl

/-- `define_label` places a label. -/
theorem patching_defineLabel {lbl : Label} (h : e.defineLabel lbl = .ok e') :
    e.patching.place layout lbl = some e'.patching := by
  unfold defineLabel at h
  unfold Backpatch.Buffer.place
  cases hl : e.labelTable lbl with
  | Label_defined pos =>
      rw [hl] at h
      cases h
  | Label_undefined patchlist =>
      have ht : e.patching.target lbl = .ahead patchlist := congrArg LabelDefinition.target hl
      rw [hl] at h
      obtain rfl := Except.ok.inj h
      rw [ht]
      dsimp only
      rw [patching_setLabel, ← patching_backpatches]
      rfl

/-- `e'` is reached from `e` by writing words and defining labels; a slot noted
    for the linker stays noted, and is one of the words written. -/
structure Grows (e e' : Emitter) : Prop where
  patching : Backpatch.Grows layout e.patching e'.patching
  position : e.outPosition ≤ e'.outPosition
  noted : ∀ {r}, r ∈ e.relocInfo → r ∈ e'.relocInfo
  slots : ∀ {r}, r ∈ e'.relocInfo →
    r ∈ e.relocInfo ∨ e.outPosition ≤ r.2 ∧ r.2 < e'.outPosition

theorem Grows.refl (e : Emitter) : Grows e e := ⟨.refl, Nat.le_refl _, id, Or.inl⟩

theorem outPosition_write {w : OpcodeWord} (h : e'.outBuffer = e.outBuffer ++ [w]) :
    e'.outPosition = e.outPosition + 4 := by
  unfold outPosition
  rw [h, List.length_append]
  rfl

/-- One more word, of whatever kind. -/
theorem Grows.word {e'' : Emitter} {w : OpcodeWord} (h : Grows e e')
    (hp : Backpatch.Grows layout e.patching e''.patching)
    (hw : e''.outBuffer = e'.outBuffer ++ [w])
    (hn : ∀ {r}, r ∈ e'.relocInfo → r ∈ e''.relocInfo)
    (hr : ∀ {r}, r ∈ e''.relocInfo → r ∈ e'.relocInfo ∨ r.2 = e'.outPosition) : Grows e e'' := by
  have hpos := outPosition_write hw
  have hle := h.position
  refine ⟨hp, by omega, fun hr => hn (h.noted hr), ?_⟩
  intro r hmem
  rcases hr hmem with hmem | heq
  · rcases h.slots hmem with hold | ⟨h1, h2⟩
    · exact .inl hold
    · exact .inr ⟨h1, by omega⟩
  · exact .inr ⟨by omega, by omega⟩

theorem Grows.out (h : Grows e e') (opcode : Int) : Grows e (e'.out opcode) :=
  h.word (.write _ h.patching) rfl id .inl

theorem Grows.outInt (h : Grows e e') (n : Int) : Grows e (e'.outInt n) := by
  refine h.word ?_ rfl id .inl
  rw [patching_outInt]
  exact h.patching.write _

theorem Grows.slotFor (h : Grows e e') (info : RelocInfo) : Grows e (e'.slotFor info) := by
  refine h.word ?_ rfl (List.mem_cons_of_mem _) ?_
  · rw [patching_slotFor]
    exact h.patching.write _
  · intro r hmem
    rcases List.mem_cons.mp hmem with rfl | hmem
    · exact .inr rfl
    · exact .inl hmem

/-- A label is one word. -/
theorem outLabelWithOrig_word (orig : Nat) (e : Emitter) (lbl : Label) :
    ∃ w, (outLabelWithOrig orig e lbl).outBuffer = e.outBuffer ++ [w] ∧
      (outLabelWithOrig orig e lbl).relocInfo = e.relocInfo := by
  unfold outLabelWithOrig
  cases e.labelTable lbl with
  | Label_defined pos => exact ⟨_, rfl, rfl⟩
  | Label_undefined patchlist => exact ⟨_, rfl, rfl⟩

theorem Grows.outLabelWithOrig (h : Grows e e') (orig : Nat) (lbl : Label) :
    Grows e (outLabelWithOrig orig e' lbl) := by
  obtain ⟨w, hw, hr⟩ := outLabelWithOrig_word orig e' lbl
  refine h.word ?_ hw (fun hmem => hr ▸ hmem) ?_
  · rw [patching_outLabelWithOrig]
    exact h.patching.refer _ _
  · intro r hmem
    rw [hr] at hmem
    exact .inl hmem

theorem Grows.outLabels (h : Grows e e') (org : Nat) (lbls : List Label) :
    Grows e (e'.outLabels org lbls) := by
  induction lbls generalizing e' with
  | nil => exact h
  | cons lbl lbls ih => exact ih (h.outLabelWithOrig org lbl)

theorem backpatches_kept (patchlist : List (Nat × Nat)) (e : Emitter) :
    (patchlist.foldl backpatch e).outBuffer.length = e.outBuffer.length ∧
      (patchlist.foldl backpatch e).relocInfo = e.relocInfo := by
  induction patchlist generalizing e with
  | nil => exact ⟨rfl, rfl⟩
  | cons p patchlist ih =>
      obtain ⟨hlen, hr⟩ := ih (e.backpatch p)
      exact ⟨hlen.trans List.length_set, hr⟩

/-- `define_label` writes no word and notes no slot. -/
theorem defineLabel_kept {lbl : Label} (h : e.defineLabel lbl = .ok e') :
    e'.outPosition = e.outPosition ∧ e'.relocInfo = e.relocInfo := by
  unfold defineLabel at h
  cases hl : e.labelTable lbl with
  | Label_defined pos =>
      rw [hl] at h
      cases h
  | Label_undefined patchlist =>
      rw [hl] at h
      obtain rfl := Except.ok.inj h
      obtain ⟨hlen, hr⟩ := backpatches_kept patchlist e
      exact ⟨congrArg (4 * ·) hlen, hr⟩

theorem Grows.defineLabel {e'' : Emitter} (h : Grows e e') {lbl : Label}
    (hl : e'.defineLabel lbl = .ok e'') : Grows e e'' := by
  obtain ⟨hpos, hr⟩ := defineLabel_kept hl
  refine ⟨h.patching.place (patching_defineLabel hl), by rw [hpos]; exact h.position,
    fun hmem => hr ▸ h.noted hmem, ?_⟩
  intro r hmem
  rw [hr] at hmem
  rw [hpos]
  exact h.slots hmem

theorem Grows.outOperand (h : Grows e e') (o : Operand) : Grows e (e'.outOperand o) := by
  cases o with
  | int n => exact h.outInt n
  | slot info => exact h.slotFor info
  | labels lbls => exact h.outLabels _ lbls

theorem Grows.outOperands (h : Grows e e') (os : List Operand) :
    Grows e (os.foldl Emitter.outOperand e') := by
  induction os generalizing e' with
  | nil => exact h
  | cons o os ih => exact ih (h.outOperand o)

theorem Grows.outInstr (h : Grows e e') (i : Encoding) : Grows e (e'.outInstr i) :=
  (h.out i.opcode).outOperands i.operands

theorem Grows.trans {e'' : Emitter} (h : Grows e e') (h' : Grows e' e'') : Grows e e'' := by
  have hle := h.position
  have hle' := h'.position
  refine ⟨h.patching.trans h'.patching, Nat.le_trans hle hle', fun hr => h'.noted (h.noted hr), ?_⟩
  intro r hmem
  rcases h'.slots hmem with hmem | ⟨h1, h2⟩
  · rcases h.slots hmem with hold | ⟨h1, h2⟩
    · exact .inl hold
    · exact .inr ⟨h1, by omega⟩
  · exact .inr ⟨by omega, h2⟩

/-- `emit_instr` writes and defines, and nothing else. -/
theorem emitInstr_grows {instr : Instruction} (h : e.emitInstr instr = .ok e') : Grows e e' := by
  unfold emitInstr at h
  split at h
  · exact (Grows.refl e).defineLabel h
  · split at h
    · obtain rfl := Except.ok.inj h
      exact (Grows.refl e).outInstr _
    · obtain rfl := Except.ok.inj h
      exact Grows.refl e

end Emitter

/-- So does `emit`. -/
theorem emit_grows {code : List Instruction} {e e' : Emitter} (h : emit code e = .ok e') :
    e.Grows e' := by
  fun_induction emit code e with
  | case1 e =>
      obtain rfl := Except.ok.inj h
      exact Emitter.Grows.refl e
  | case30 =>
      rename_i ih
      obtain ⟨e1, he1, h⟩ := bind_ok h
      exact (Emitter.emitInstr_grows he1).trans (ih e1 h)
  | case18 | case20 | case22 | case24 | case26 | case28 => cases h
  | _ =>
      rename_i ih
      -- a fused test, whose constant may fail; a fused instruction; a list rearranged
      first
        | obtain ⟨i, -, h⟩ := bind_ok h
          exact ((Emitter.Grows.refl _).outInstr i).trans (ih i h)
        | exact ((Emitter.Grows.refl _).outInstr _).trans (ih h)
        | exact ih h

/-! ## States of the emitter -/

/-- The patch lists are those of a sound buffer, and every slot is a word of it. -/
structure Valid (e : Emitter) : Prop where
  sound : Backpatch.Sound layout e.patching
  slots : ∀ {r}, r ∈ e.relocInfo → r.2 < e.outPosition

/-- Word `k` is `w`, and neither a later label nor the linker will change it. -/
structure Fixed (e : Emitter) (k : Nat) (w : OpcodeWord) : Prop where
  settled : Backpatch.Settled layout e.patching k w
  noSlot : ∀ info, (info, 4 * k) ∉ e.relocInfo

variable {e e' : Emitter} {k : Nat} {w : OpcodeWord}

theorem init_valid : Valid init where
  sound := Backpatch.sound_empty fun _ => rfl
  slots := by
    intro r hmem
    cases hmem

theorem Valid.keeps (hv : Valid e) (hg : e.Grows e') :
    Backpatch.Keeps layout e.patching e'.patching :=
  Backpatch.grows_keeps hv.sound hg.patching

theorem Valid.grows (hv : Valid e) (hg : e.Grows e') : Valid e' where
  sound := (hv.keeps hg).sound
  slots := by
    intro r hmem
    rcases hg.slots hmem with hold | ⟨-, hlt⟩
    · exact Nat.lt_of_lt_of_le (hv.slots hold) hg.position
    · exact hlt

theorem Fixed.lt_length (h : Fixed e k w) : k < e.outBuffer.length :=
  (List.getElem?_eq_some_iff.mp h.settled.1).1

theorem Fixed.grows (hv : Valid e) (hg : e.Grows e') (h : Fixed e k w) : Fixed e' k w where
  settled := (hv.keeps hg).settled h.settled
  noSlot := by
    intro info hmem
    have hlt := h.lt_length
    rcases hg.slots hmem with hold | ⟨hle, -⟩
    · exact h.noSlot info hold
    · unfold Emitter.outPosition at hle
      dsimp only at hle
      omega

/-- No slot is noted for the word that comes next. -/
theorem Valid.noSlot (hv : Valid e) (info : RelocInfo) :
    (info, 4 * e.outBuffer.length) ∉ e.relocInfo :=
  fun hmem => Nat.lt_irrefl _ (hv.slots hmem)

theorem out_fixed (hv : Valid e) (opcode : Int) :
    Fixed (e.out opcode) e.outBuffer.length (wordOfBytes opcode 0 0 0) where
  settled := Backpatch.write_settles hv.sound _
  noSlot := hv.noSlot

theorem outInt_fixed (hv : Valid e) (n : Int) :
    Fixed (e.outInt n) e.outBuffer.length (BitVec.ofInt 32 n) where
  settled := by
    rw [Emitter.patching_outInt]
    exact Backpatch.write_settles hv.sound _
  noSlot := hv.noSlot

theorem emit_valid {code : List Instruction} (h : emit code init = .ok e) : Valid e :=
  init_valid.grows (emit_grows h)

/-! ## How much is written -/

theorem length_out (e : Emitter) (opcode : Int) :
    (e.out opcode).outBuffer.length = e.outBuffer.length + 1 := List.length_append

theorem length_outInt (e : Emitter) (n : Int) :
    (e.outInt n).outBuffer.length = e.outBuffer.length + 1 := List.length_append

theorem length_outLabels (org : Nat) (e : Emitter) (lbls : List Label) :
    (e.outLabels org lbls).outBuffer.length = e.outBuffer.length + lbls.length ∧
      (e.outLabels org lbls).relocInfo = e.relocInfo := by
  induction lbls generalizing e with
  | nil => exact ⟨rfl, rfl⟩
  | cons lbl lbls ih =>
      obtain ⟨w, hw, hr⟩ := Emitter.outLabelWithOrig_word org e lbl
      obtain ⟨hlen, hr'⟩ := ih (Emitter.outLabelWithOrig org e lbl)
      refine ⟨hlen.trans ?_, hr'.trans hr⟩
      rw [hw, List.length_append, List.length_singleton, List.length_cons]
      omega

/-- The words an operand takes. -/
def Operand.size : Operand → Nat
  | .int _ => 1
  | .slot _ => 1
  | .labels lbls => lbls.length

/-- Operands take as many words as their sizes say. -/
theorem length_outOperands (os : List Operand) (e : Emitter) :
    (os.foldl Emitter.outOperand e).outBuffer.length
      = e.outBuffer.length + (os.map Operand.size).sum := by
  induction os generalizing e with
  | nil => rfl
  | cons o os ih =>
      have ho : (e.outOperand o).outBuffer.length = e.outBuffer.length + o.size := by
        cases o with
        | int n => exact length_outInt e n
        | slot info => exact List.length_append
        | labels lbls => exact (length_outLabels _ e lbls).1
      rw [List.foldl_cons, ih, ho, List.map_cons, List.sum_cons, Nat.add_assoc]

theorem length_outInstr (e : Emitter) (i : Encoding) :
    (e.outInstr i).outBuffer.length
      = e.outBuffer.length + 1 + (i.operands.map Operand.size).sum := by
  unfold Emitter.outInstr
  rw [length_outOperands, length_out]

/-- Every entry of a table refers to its label, relative to the start. -/
theorem outLabels_refers {lbls : List Label} (hs : Backpatch.Sound layout e.patching) (org : Nat)
    {j : Nat} {l : Label} (hl : lbls[j]? = some l) :
    Backpatch.Refers layout (e.outLabels org lbls).patching (e.outBuffer.length + j) org l := by
  induction lbls generalizing e j with
  | nil => cases hl
  | cons lbl lbls ih =>
      have hkeeps := Backpatch.refer_keeps hs org lbl
      rw [← Emitter.patching_outLabelWithOrig] at hkeeps
      obtain ⟨w, hw, -⟩ := Emitter.outLabelWithOrig_word org e lbl
      cases j with
      | zero =>
          obtain rfl := Option.some.inj hl
          have href := Backpatch.refer_refers hs org lbl
          rw [← Emitter.patching_outLabelWithOrig] at href
          have hrest :=
            (Emitter.Grows.refl (Emitter.outLabelWithOrig org e lbl)).outLabels org lbls
          exact (Backpatch.grows_keeps hkeeps.sound hrest.patching).refers href
      | succ j =>
          have hrest := ih hkeeps.sound (j := j) hl
          have hlen : (Emitter.outLabelWithOrig org e lbl).outBuffer.length + j
              = e.outBuffer.length + (j + 1) := by
            rw [hw, List.length_append, List.length_singleton]
            omega
          rw [hlen] at hrest
          exact hrest

end CamlEmit
