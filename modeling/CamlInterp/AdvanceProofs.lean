import CamlInterp.CallProofs

/-! # How far an instruction moves `pc`

    Every case of the `switch` steps over its own operands, one `pc++` here and
    one there.  An instruction that neither jumps nor calls nor raises leaves
    `pc` just behind its last operand. -/

namespace CamlAdvance

open CellStore CamlValue CamlOpcode CamlMachine CamlInstr CamlControl CamlStep

variable {ω : Type}

/-! ## Operands -/

/-- The address `n` words further. -/
def past (p : CodePtr) : Nat → CodePtr
  | 0 => p
  | n + 1 => past (p + 4#64) n

theorem past_eq (p : CodePtr) (n : Nat) : past p n = p + BitVec.ofNat 64 (4 * n) := by
  induction n generalizing p with
  | zero => exact (BitVec.add_zero p).symm
  | succ n ih =>
      have hn : BitVec.ofNat 64 (4 * (n + 1)) = 4#64 + BitVec.ofNat 64 (4 * n) := by
        rw [Nat.mul_succ, Nat.add_comm, BitVec.ofNat_add]
      rw [past, ih, BitVec.add_assoc, hn]

/-- `opcode_nargs`, as `caml_init_opcode_nargs` fills it. -/
def opcodeNargs : Opcode → Nat
  | .PUSHACC | .ACC | .POP | .ASSIGN
  | .PUSHENVACC | .ENVACC | .PUSH_RETADDR | .APPLY
  | .APPTERM1 | .APPTERM2 | .APPTERM3 | .RETURN
  | .GRAB | .PUSHGETGLOBAL | .GETGLOBAL | .SETGLOBAL
  | .PUSHATOM | .ATOM | .MAKEBLOCK1 | .MAKEBLOCK2
  | .MAKEBLOCK3 | .MAKEFLOATBLOCK | .GETFIELD
  | .GETFLOATFIELD | .SETFIELD | .SETFLOATFIELD
  | .BRANCH | .BRANCHIF | .BRANCHIFNOT | .PUSHTRAP
  | .C_CALL1 | .C_CALL2 | .C_CALL3 | .C_CALL4 | .C_CALL5
  | .CONSTINT | .PUSHCONSTINT | .OFFSETINT
  | .OFFSETREF | .OFFSETCLOSURE | .PUSHOFFSETCLOSURE
  | .RESUMETERM | .REPERFORMTERM => 1
  | .APPTERM | .CLOSURE | .PUSHGETGLOBALFIELD
  | .GETGLOBALFIELD | .MAKEBLOCK | .C_CALLN
  | .BEQ | .BNEQ | .BLTINT | .BLEINT | .BGTINT | .BGEINT
  | .BULTINT | .BUGEINT | .GETPUBMET => 2
  | _ => 0

/-- The words after the opcode that belong to it, when the first of them is `w`. -/
def width (op : Opcode) (w : OpcodeWord) : Nat :=
  match op with
  | .SWITCH => 1 + ((w &&& 0xFFFF#32).toNat + (w >>> 16).toNat)
  | .CLOSUREREC => 2 + w.toNat
  | op => opcodeNargs op

/-! ## What a computation gives -/

/-- Whatever `x` returns satisfies `P`. -/
def Gives {α : Type} (P : α → Prop) (x : C α) : Prop := ∀ a, x = .ok a → P a

variable {α β : Type} {P : α → Prop} {Q : β → Prop}

theorem gives_ok {a : α} (h : P a) : Gives P (.ok a) := by
  intro a' ha
  obtain rfl := Except.ok.inj ha
  exact h

theorem gives_error (e : Fault) : Gives P (.error e) := fun _ h => by cases h

theorem Gives.after {x : C β} {f : β → C α} (hx : Gives Q x) (h : ∀ b, Q b → Gives P (f b)) :
    Gives P (x >>= f) := by
  intro a ha
  obtain ⟨b, hb, hf⟩ := bind_eq_ok.mp ha
  exact h b (hx b hb) a hf

theorem Gives.bind {x : C β} {f : β → C α} (h : ∀ b, Gives P (f b)) : Gives P (x >>= f) :=
  Gives.after (fun _ _ => trivial) fun b (_ : True) => h b

/-- The core body steps over `n` words. -/
def Steps (n : Nat) (f : Core → C Core) : Prop :=
  ∀ c : Core, Gives (fun c' => c'.pc = past c.pc n) (f c)

/-- An instruction that goes on at the top of the loop does so at `p`. -/
def Leaves (p : CodePtr) (x : C (Ctl (Machine ω))) : Prop :=
  Gives (fun c => ∀ m, c = .next m → m.pc = p) x

/-! ## Core bodies -/

theorem steps_acc (n : Int) : Steps 0 (acc n) := fun _ => Gives.bind fun _ => gives_ok rfl

theorem steps_push : Steps 0 push := fun _ => gives_ok rfl

theorem Steps.pushThen {n : Nat} {f : Core → C Core} (h : Steps n f) : Steps n (pushThen f) := by
  intro c
  refine Gives.after (steps_push c) fun c1 hc1 => ?_
  have hf := h c1
  rw [hc1] at hf
  exact hf

theorem steps_accOperand : Steps 1 accOperand := fun c => steps_acc _ c.advance

theorem steps_pop : Steps 1 pop := fun _ => Gives.bind fun _ => gives_ok rfl

theorem steps_assign : Steps 1 assign := fun _ => Gives.bind fun _ => gives_ok rfl

theorem steps_envacc (n : Int) : Steps 0 (envacc n) := fun _ => Gives.bind fun _ => gives_ok rfl

theorem steps_envaccOperand : Steps 1 envaccOperand := fun c => steps_envacc _ c.advance

theorem steps_pushRetaddr : Steps 1 pushRetaddr := fun _ => gives_ok rfl

theorem steps_restart : Steps 0 restart := by
  intro c
  refine Gives.bind fun _ => ?_
  dsimp only
  split
  · exact Gives.bind fun _ => Gives.bind fun _ => Gives.bind fun _ => gives_ok rfl
  · exact Gives.bind fun _ => Gives.bind fun _ => gives_ok rfl

theorem steps_offsetclosure (n : Int) : Steps 0 (offsetclosure n) :=
  fun _ => Gives.bind fun _ => gives_ok rfl

theorem steps_offsetclosure0 : Steps 0 offsetclosure0 := fun _ => gives_ok rfl

theorem steps_offsetclosureOperand : Steps 1 offsetclosureOperand :=
  fun c => steps_offsetclosure _ c.advance

theorem steps_getglobal : Steps 1 getglobal := fun _ => Gives.bind fun _ => gives_ok rfl

theorem steps_getfieldOperand : Steps 1 getfieldOperand :=
  fun _ => Gives.bind fun _ => gives_ok rfl

theorem steps_getglobalfield : Steps 2 getglobalfield := by
  intro c
  refine Gives.after (steps_getglobal c) fun c1 hc1 => ?_
  have hf := steps_getfieldOperand c1
  rw [hc1] at hf
  exact hf

theorem steps_setglobal : Steps 1 setglobal := fun _ => Gives.bind fun _ => gives_ok rfl

theorem steps_atom (t : Int) : Steps 0 (atom t) := fun _ => gives_ok rfl

theorem steps_atomOperand : Steps 1 atomOperand := fun c => steps_atom _ c.advance

theorem steps_getfield (n : Int) : Steps 0 (getfield n) := fun _ => Gives.bind fun _ => gives_ok rfl

theorem steps_setfield (n : Int) : Steps 0 (setfield n) :=
  fun _ => Gives.bind fun _ => Gives.bind fun _ => Gives.bind fun _ => gives_ok rfl

theorem steps_setfieldOperand : Steps 1 setfieldOperand := by
  intro c
  refine Gives.after (steps_setfield _ c) fun c1 hc1 => gives_ok ?_
  exact congrArg (· + 4#64) hc1

theorem steps_setfloatfield : Steps 1 setfloatfield :=
  fun _ => Gives.bind fun _ => Gives.bind fun _ => Gives.bind fun _ => Gives.bind fun _ =>
    gives_ok rfl

theorem steps_vectlength : Steps 0 vectlength :=
  fun _ => Gives.bind fun _ => Gives.bind fun _ => gives_ok rfl

theorem steps_getvectitem : Steps 0 getvectitem :=
  fun _ => Gives.bind fun _ => Gives.bind fun _ => Gives.bind fun _ => Gives.bind fun _ =>
    gives_ok rfl

theorem steps_setvectitem : Steps 0 setvectitem :=
  fun _ => Gives.bind fun _ => Gives.bind fun _ => Gives.bind fun _ => Gives.bind fun _ =>
    Gives.bind fun _ => gives_ok rfl

theorem steps_getbyteschar : Steps 0 getbyteschar :=
  fun _ => Gives.bind fun _ => Gives.bind fun _ => Gives.bind fun _ => Gives.bind fun _ =>
    gives_ok rfl

theorem steps_setbyteschar : Steps 0 setbyteschar :=
  fun _ => Gives.bind fun _ => Gives.bind fun _ => Gives.bind fun _ => Gives.bind fun _ =>
    Gives.bind fun _ => Gives.bind fun _ => gives_ok rfl

theorem steps_boolnot : Steps 0 boolnot := fun _ => Gives.bind fun _ => gives_ok rfl

theorem steps_const (n : Int) : Steps 0 (const n) := fun _ => gives_ok rfl

theorem steps_constint : Steps 1 constint := fun _ => gives_ok rfl

theorem steps_unop (f : BitVec 64 → BitVec 64) : Steps 0 (unop f) :=
  fun _ => Gives.bind fun _ => gives_ok rfl

theorem steps_binop (f : BitVec 64 → BitVec 64 → C (BitVec 64)) : Steps 0 (binop f) :=
  fun _ => Gives.bind fun _ => Gives.bind fun _ => Gives.bind fun _ => Gives.bind fun _ =>
    Gives.bind fun _ => gives_ok rfl

theorem steps_equality (negate : Bool) : Steps 0 (equality negate) :=
  fun _ => Gives.bind fun _ => Gives.bind fun _ => Gives.bind fun _ => gives_ok rfl

theorem steps_comparison (tst : BitVec 64 → BitVec 64 → Bool) : Steps 0 (comparison tst) :=
  fun _ => Gives.bind fun _ => Gives.bind fun _ => Gives.bind fun _ => Gives.bind fun _ =>
    gives_ok rfl

theorem steps_offsetint : Steps 1 offsetint := fun _ => Gives.bind fun _ => gives_ok rfl

theorem steps_offsetref : Steps 1 offsetref :=
  fun _ => Gives.bind fun _ => Gives.bind fun _ => Gives.bind fun _ => gives_ok rfl

theorem steps_isint : Steps 0 isint := fun _ => Gives.bind fun _ => gives_ok rfl

theorem steps_getmethod : Steps 0 getmethod :=
  fun _ => Gives.bind fun _ => Gives.bind fun _ => Gives.bind fun _ => Gives.bind fun _ =>
    gives_ok rfl

theorem steps_getpubmet : Steps 2 getpubmet := by
  intro c
  refine Gives.bind fun _ => Gives.bind fun _ => Gives.bind fun _ => Gives.bind fun _ =>
    Gives.bind fun _ => ?_
  split
  · exact Gives.bind fun _ => gives_ok rfl
  · exact Gives.bind fun _ => Gives.bind fun _ => gives_ok rfl

theorem steps_getdynmet : Steps 0 getdynmet :=
  fun _ => Gives.bind fun _ => Gives.bind fun _ => Gives.bind fun _ => Gives.bind fun _ =>
    Gives.bind fun _ => gives_ok rfl

/-! ## Branches -/

/-- The test of a branch on a comparison succeeds. -/
def Taken (tst : BitVec 64 → BitVec 64 → Bool) (c : Core) : Prop :=
  ∃ w, wordOf c.accu = .ok w ∧ tst (c.operand.signExtend 64) (longVal64 w) = true

variable {c : Core}

theorem branchWhen_false (c : Core) :
    Gives (fun c' => c'.pc = past c.pc 1) (branchWhen false c) := gives_ok rfl

theorem branchif_falls (h : c.accu = valFalse) :
    Gives (fun c' => c'.pc = past c.pc 1) (branchif c) := by
  unfold branchif
  rw [h]
  exact branchWhen_false c

theorem branchifnot_falls (h : c.accu ≠ valFalse) :
    Gives (fun c' => c'.pc = past c.pc 1) (branchifnot c) := by
  refine Gives.after (Q := fun b => b = false) ?_ ?_
  · intro b hb
    unfold sameWord at hb
    split at hb
    · cases hb
    · rw [← Except.ok.inj hb]
      exact decide_eq_false h
  · rintro b rfl
    exact branchWhen_false c

theorem branchComparison_falls {tst : BitVec 64 → BitVec 64 → Bool} (h : ¬ Taken tst c) :
    Gives (fun c' => c'.pc = past c.pc 2) (branchComparison tst c) := by
  refine Gives.after (Q := fun w => wordOf c.accu = .ok w) (fun _ hw => hw) fun w hw => ?_
  have hb : tst (c.operand.signExtend 64) (longVal64 w) = false :=
    Bool.eq_false_iff.mpr fun ht => h ⟨w, hw, ht⟩
  show Gives _ (branchWhen (tst (c.operand.signExtend 64) (longVal64 w)) c.advance)
  rw [hb]
  exact branchWhen_false c.advance

/-! ## Machine bodies -/

variable {rt : Runtime ω} {act : Activation} {m : Machine ω} {p : CodePtr}

theorem leaves_next (h : m.pc = p) : Leaves p (.ok (.next m)) := by
  refine gives_ok ?_
  intro m' hm
  obtain rfl := Ctl.next.inj hm
  exact h

theorem leaves_error (e : Fault) : Leaves p (.error e : C (Ctl (Machine ω))) := gives_error e

theorem leaves_raise (m : Machine ω) : Leaves p (.ok (.raiseNotrace m)) := by
  refine gives_ok ?_
  intro m' hm
  cases hm

theorem leaves_thenNext {f : Core → C Core}
    (h : Gives (fun c' => c'.pc = p) (f m.toCore)) : Leaves p (thenNext f m) := by
  refine Gives.after (Q := fun m' : Machine ω => m'.pc = p) ?_ fun m' hm' => leaves_next hm'
  exact Gives.after h fun c hc => gives_ok hc

theorem leaves_core {n : Nat} {f : Core → C Core} (h : Steps n f) (m : Machine ω) :
    Leaves (past m.pc n) (thenNext f m) := leaves_thenNext (h m.toCore)

theorem leaves_reenter (m : Machine ω) (e : Value) (mem : Mem) (dom : Domain ω) :
    Leaves p (reenter rt m e mem dom) := by
  refine Gives.bind fun sp => ?_
  dsimp only
  split
  · exact leaves_raise _
  · exact leaves_raise _

/-- `pc` is not among the registers `Enter_gc` loads back. -/
theorem enterGc_pc (m : Machine ω) :
    Gives (fun r => ∀ m', r = .inl m' → m'.pc = m.pc) (enterGc rt m) := by
  refine Gives.bind fun _ => Gives.bind fun r => ?_
  cases r with
  | raised e mem dom =>
      refine gives_ok ?_
      intro m' hm
      cases hm
  | value v mem dom =>
      refine Gives.bind fun _ => Gives.bind fun _ => Gives.bind fun _ => Gives.bind fun _ =>
        gives_ok ?_
      intro m' hm
      obtain rfl := Sum.inl.inj hm
      rfl

theorem gcLoop_pc (n : Nat) (m : Machine ω) :
    Gives (fun r => ∀ m', r = .inl m' → m'.pc = m.pc) (gcLoop rt n m) := by
  intro r h
  refine gcLoop_respects (R := fun m r => ∀ m', r = .inl m' → m'.pc = m.pc) ?_
    (fun h => enterGc_pc _ _ h) (fun h hr m' hm => ?_) h
  · intro m m' hm
    obtain rfl := Sum.inl.inj hm
    rfl
  · exact (hr m' hm).trans (enterGc_pc _ _ h _ rfl)

theorem leaves_allocSmall {wosize tag : Nat} {k : Value → Machine ω → C (Ctl (Machine ω))}
    (hk : ∀ v m1, m1.pc = m.pc → Leaves p (k v m1)) : Leaves p (allocSmall rt m wosize tag k) := by
  refine Gives.bind fun _ => Gives.bind fun _ => Gives.bind fun _ =>
    Gives.after (gcLoop_pc _ m) fun r hr => ?_
  cases r with
  | inl m1 => exact hk _ _ (hr m1 rfl)
  | inr e => exact leaves_reenter _ _ _ _

theorem leaves_allocEither {small : Bool} {wosize tag : Nat}
    {k : Value → Machine ω → C (Ctl (Machine ω))} (hk : ∀ v m1, m1.pc = m.pc → Leaves p (k v m1)) :
    Leaves p (allocEither rt m small wosize tag k) := by
  unfold allocEither camlAllocShr
  split
  · exact leaves_allocSmall hk
  · split
    · exact leaves_error _
    · exact hk _ _ rfl

/-- The fields of a new block are written without moving `pc`. -/
theorem initFields_pc (m : Machine ω) (v : Value) (tag : Nat) (fields : List Value) :
    Gives (fun m' => m'.pc = m.pc) (initFields m v tag fields) := by
  unfold initFields
  split
  · exact gives_ok rfl
  · exact gives_error _

theorem grab_falls (h : m.operand.toInt ≤ m.extraArgs.toInt) :
    Leaves (past m.pc 1) (grab rt m) := by
  unfold grab
  dsimp only
  split
  · exact leaves_next rfl
  · next hlt => exact absurd h hlt

theorem leaves_closure (m : Machine ω) : Leaves (past m.pc 2) (closure rt m) := by
  refine leaves_allocEither fun v m1 hm1 => Gives.bind fun _ => Gives.bind fun _ =>
    Gives.after (initFields_pc _ _ _ _) fun m2 hm2 => leaves_next ?_
  show m2.pc + 4#64 = _
  rw [hm2, hm1]
  split
  · rfl
  · rfl

/-- `pc` is past the offsets, as long as the `int` that counts them is not negative. -/
theorem leaves_closurerec (h : 0 ≤ m.operand.toInt) :
    Leaves (past m.pc (2 + m.operand.toNat)) (closurerec rt m) := by
  refine leaves_allocEither fun v m1 hm1 => Gives.bind fun _ => Gives.bind fun _ =>
    Gives.after (initFields_pc _ _ _ _) fun m2 hm2 => ?_
  cases v with
  | ptr b ofs =>
      refine leaves_next ?_
      have hint : 4 * m.operand.toInt = ((4 * m.operand.toNat : Nat) : Int) := by
        have := BitVec.toInt_eq_toNat_cond m.operand
        have := m.operand.isLt
        omega
      have hpc : m2.pc = m.pc + 4#64 + 4#64 := by
        rw [hm2, hm1]
        split
        · rfl
        · rfl
      show m2.pc + BitVec.ofInt 64 (4 * m.operand.toInt) = _
      rw [hpc, hint, BitVec.ofInt_natCast, ← past_eq, Nat.add_comm]
      rfl
  | undef => exact leaves_error _
  | word w => exact leaves_error _
  | atom t => exact leaves_error _
  | stk s => exact leaves_error _

theorem leaves_makeblockOf {small : Bool} {wosize tag : Nat} (h : m.pc = p) :
    Leaves p (makeblockOf rt small wosize tag m) :=
  leaves_allocEither fun _ _ hm1 => Gives.bind fun _ =>
    Gives.after (initFields_pc _ _ _ _) fun _ hm2 => leaves_next (hm2.trans (hm1.trans h))

theorem leaves_makeblock (m : Machine ω) : Leaves (past m.pc 2) (makeblock rt m) :=
  leaves_makeblockOf rfl

theorem leaves_makeblockN (n : Nat) (m : Machine ω) :
    Leaves (past m.pc 1) (makeblockN rt n m) := leaves_makeblockOf rfl

theorem leaves_makefloatblock (m : Machine ω) : Leaves (past m.pc 1) (makefloatblock rt m) :=
  leaves_allocEither fun _ _ hm1 => Gives.bind fun _ => Gives.bind fun _ =>
    Gives.after (initFields_pc _ _ _ _) fun _ hm2 => leaves_next (hm2.trans hm1)

theorem leaves_getfloatfield (m : Machine ω) : Leaves (past m.pc 1) (getfloatfield rt m) :=
  Gives.bind fun _ => leaves_allocSmall fun _ _ hm1 =>
    Gives.after (initFields_pc _ _ _ _) fun _ hm2 => leaves_next (hm2.trans hm1)

theorem leaves_pushtrap (m : Machine ω) : Leaves (past m.pc 1) (pushtrap m) := leaves_next rfl

theorem poptrap_falls (h : rt.checkPending m.mem m.dom = false) :
    Leaves (past m.pc 0) (poptrap rt m) := by
  unfold poptrap
  rw [h]
  exact Gives.bind fun _ => Gives.bind fun _ => Gives.bind fun _ => leaves_next rfl

theorem checkSignals_falls (h : rt.checkPending m.mem m.dom = false) :
    Leaves (past m.pc 0) (checkSignals rt m) := by
  unfold checkSignals
  rw [h]
  exact leaves_next rfl

theorem leaves_cCall {args : List Value → C (List Value)} {popped : Int} (m : Machine ω) :
    Leaves (past m.pc 1) (cCall rt args popped m) := by
  refine Gives.after (Q := fun m1 : Machine ω => m1.pc = m.pc) ?_ fun m1 hm1 =>
    Gives.bind fun vs => Gives.bind fun r => ?_
  · exact Gives.bind fun _ => gives_ok rfl
  · cases r with
    | value v mem dom =>
        exact Gives.bind fun _ => Gives.bind fun _ => Gives.bind fun _ =>
          leaves_next (congrArg (· + 4#64) hm1)
    | raised e mem dom => exact leaves_reenter _ _ _ _

theorem leaves_cCallN (n : Nat) (m : Machine ω) : Leaves (past m.pc 1) (cCallN rt n m) :=
  leaves_cCall m

theorem leaves_cCalln (m : Machine ω) : Leaves (past m.pc 2) (cCalln rt m) := by
  unfold cCalln
  exact leaves_cCall { m with toCore := { m.toCore.advance with sp := m.accu :: m.sp } }

theorem leaves_divide {f : BitVec 64 → BitVec 64 → BitVec 64} (m : Machine ω) :
    Leaves (past m.pc 0) (divide rt f m) := by
  refine Gives.bind fun _ => Gives.bind fun _ => Gives.bind fun _ => ?_
  dsimp only
  split
  · exact Gives.bind fun _ => Gives.bind fun _ => leaves_reenter _ _ _ _
  · exact Gives.bind fun _ => leaves_next rfl

/-! ## Falling through -/

/-- The instruction is none that leaves for elsewhere, or does not do so here: the
    branch is not taken, there are enough arguments, nothing is pending. -/
def FallsThrough (rt : Runtime ω) (op : Opcode) (m : Machine ω) : Prop :=
  match op with
  | .APPLY | .APPLY1 | .APPLY2 | .APPLY3 | .APPTERM | .APPTERM1 | .APPTERM2 | .APPTERM3
  | .RETURN | .BRANCH | .SWITCH | .RAISE | .RERAISE | .RAISE_NOTRACE | .STOP | .EVENT | .BREAK
  | .PERFORM | .RESUME | .RESUMETERM | .REPERFORMTERM => False
  | .GRAB => m.operand.toInt ≤ m.extraArgs.toInt
  | .BRANCHIF => m.accu = valFalse
  | .BRANCHIFNOT => m.accu ≠ valFalse
  | .BEQ => ¬ Taken (fun a b => a == b) m.toCore
  | .BNEQ => ¬ Taken (fun a b => a != b) m.toCore
  | .BLTINT => ¬ Taken BitVec.slt m.toCore
  | .BLEINT => ¬ Taken BitVec.sle m.toCore
  | .BGTINT => ¬ Taken (fun a b => b.slt a) m.toCore
  | .BGEINT => ¬ Taken (fun a b => b.sle a) m.toCore
  | .BULTINT => ¬ Taken BitVec.ult m.toCore
  | .BUGEINT => ¬ Taken (fun a b => b.ule a) m.toCore
  | .POPTRAP | .CHECK_SIGNALS => rt.checkPending m.mem m.dom = false
  | _ => True

/-- Every instruction that falls through leaves `pc` behind its operands. -/
theorem exec_leaves {op : Opcode} (h : FallsThrough rt op m)
    (hcount : op = .CLOSUREREC → 0 ≤ m.operand.toInt) :
    Leaves (past m.pc (width op m.operand)) (CamlUpstream.exec rt act op m) := by
  cases op
  case ACC0 | ACC1 | ACC2 | ACC3 | ACC4 | ACC5 | ACC6 | ACC7 => exact leaves_core (steps_acc _) m
  case ACC => exact leaves_core steps_accOperand m
  case PUSH | PUSHACC0 => exact leaves_core steps_push m
  case PUSHACC1 | PUSHACC2 | PUSHACC3 | PUSHACC4 | PUSHACC5 | PUSHACC6 | PUSHACC7 =>
    exact leaves_core (steps_acc _).pushThen m
  case PUSHACC => exact leaves_core steps_accOperand.pushThen m
  case POP => exact leaves_core steps_pop m
  case ASSIGN => exact leaves_core steps_assign m
  case ENVACC1 | ENVACC2 | ENVACC3 | ENVACC4 => exact leaves_core (steps_envacc _) m
  case ENVACC => exact leaves_core steps_envaccOperand m
  case PUSHENVACC1 | PUSHENVACC2 | PUSHENVACC3 | PUSHENVACC4 =>
    exact leaves_core (steps_envacc _).pushThen m
  case PUSHENVACC => exact leaves_core steps_envaccOperand.pushThen m
  case PUSH_RETADDR => exact leaves_core steps_pushRetaddr m
  case APPLY | APPLY1 | APPLY2 | APPLY3 | APPTERM | APPTERM1 | APPTERM2 | APPTERM3 | RETURN
      | BRANCH | SWITCH | RAISE | RERAISE | RAISE_NOTRACE | STOP | EVENT | BREAK
      | PERFORM | RESUME | RESUMETERM | REPERFORMTERM => exact h.elim
  case RESTART => exact leaves_core steps_restart m
  case GRAB => exact grab_falls h
  case CLOSURE => exact leaves_closure m
  case CLOSUREREC => exact leaves_closurerec (hcount rfl)
  case OFFSETCLOSUREM3 | OFFSETCLOSURE3 => exact leaves_core (steps_offsetclosure _) m
  case OFFSETCLOSURE0 => exact leaves_core steps_offsetclosure0 m
  case OFFSETCLOSURE => exact leaves_core steps_offsetclosureOperand m
  case PUSHOFFSETCLOSUREM3 | PUSHOFFSETCLOSURE3 =>
    exact leaves_core (steps_offsetclosure _).pushThen m
  case PUSHOFFSETCLOSURE0 => exact leaves_core steps_offsetclosure0.pushThen m
  case PUSHOFFSETCLOSURE => exact leaves_core steps_offsetclosureOperand.pushThen m
  case GETGLOBAL => exact leaves_core steps_getglobal m
  case PUSHGETGLOBAL => exact leaves_core steps_getglobal.pushThen m
  case GETGLOBALFIELD => exact leaves_core steps_getglobalfield m
  case PUSHGETGLOBALFIELD => exact leaves_core steps_getglobalfield.pushThen m
  case SETGLOBAL => exact leaves_core steps_setglobal m
  case ATOM0 => exact leaves_core (steps_atom _) m
  case ATOM => exact leaves_core steps_atomOperand m
  case PUSHATOM0 => exact leaves_core (steps_atom _).pushThen m
  case PUSHATOM => exact leaves_core steps_atomOperand.pushThen m
  case MAKEBLOCK => exact leaves_makeblock m
  case MAKEBLOCK1 | MAKEBLOCK2 | MAKEBLOCK3 => exact leaves_makeblockN _ m
  case MAKEFLOATBLOCK => exact leaves_makefloatblock m
  case GETFIELD0 | GETFIELD1 | GETFIELD2 | GETFIELD3 => exact leaves_core (steps_getfield _) m
  case GETFIELD => exact leaves_core steps_getfieldOperand m
  case GETFLOATFIELD => exact leaves_getfloatfield m
  case SETFIELD0 | SETFIELD1 | SETFIELD2 | SETFIELD3 => exact leaves_core (steps_setfield _) m
  case SETFIELD => exact leaves_core steps_setfieldOperand m
  case SETFLOATFIELD => exact leaves_core steps_setfloatfield m
  case VECTLENGTH => exact leaves_core steps_vectlength m
  case GETVECTITEM => exact leaves_core steps_getvectitem m
  case SETVECTITEM => exact leaves_core steps_setvectitem m
  case GETBYTESCHAR | GETSTRINGCHAR => exact leaves_core steps_getbyteschar m
  case SETBYTESCHAR => exact leaves_core steps_setbyteschar m
  case BRANCHIF => exact leaves_thenNext (branchif_falls h)
  case BRANCHIFNOT => exact leaves_thenNext (branchifnot_falls h)
  case BOOLNOT => exact leaves_core steps_boolnot m
  case PUSHTRAP => exact leaves_pushtrap m
  case POPTRAP => exact poptrap_falls h
  case CHECK_SIGNALS => exact checkSignals_falls h
  case C_CALL1 | C_CALL2 | C_CALL3 | C_CALL4 | C_CALL5 => exact leaves_cCallN _ m
  case C_CALLN => exact leaves_cCalln m
  case CONST0 | CONST1 | CONST2 | CONST3 => exact leaves_core (steps_const _) m
  case CONSTINT => exact leaves_core steps_constint m
  case PUSHCONST0 | PUSHCONST1 | PUSHCONST2 | PUSHCONST3 =>
    exact leaves_core (steps_const _).pushThen m
  case PUSHCONSTINT => exact leaves_core steps_constint.pushThen m
  case NEGINT => exact leaves_core (steps_unop _) m
  case ADDINT | SUBINT | MULINT | ANDINT | ORINT | XORINT | LSLINT | LSRINT | ASRINT =>
    exact leaves_core (steps_binop _) m
  case DIVINT | MODINT => exact leaves_divide m
  case EQ | NEQ => exact leaves_core (steps_equality _) m
  case LTINT | LEINT | GTINT | GEINT | ULTINT | UGEINT => exact leaves_core (steps_comparison _) m
  case OFFSETINT => exact leaves_core steps_offsetint m
  case OFFSETREF => exact leaves_core steps_offsetref m
  case ISINT => exact leaves_core steps_isint m
  case GETMETHOD => exact leaves_core steps_getmethod m
  case BEQ | BNEQ | BLTINT | BLEINT | BGTINT | BGEINT | BULTINT | BUGEINT =>
    exact leaves_thenNext (branchComparison_falls h)
  case GETPUBMET => exact leaves_core steps_getpubmet m
  case GETDYNMET => exact leaves_core steps_getdynmet m

/-- **AN INSTRUCTION THAT FALLS THROUGH** leaves `pc` behind its operands, a `CLOSUREREC`
    if its number of functions is not negative as an `int`. -/
theorem falls_past {op : Opcode} {m' : Machine ω} (hop : m.mem.code m.pc = op.code)
    (hf : FallsThrough rt op { m with toCore := m.toCore.advance })
    (hcount : op = .CLOSUREREC → 0 ≤ (m.mem.code (m.pc + 4#64)).toInt)
    (h : machineStep rt act (.next m) = .ok (.next m')) :
    m'.pc = past m.pc (1 + width op (m.mem.code (m.pc + 4#64))) := by
  rw [CamlCall.step_at hop] at h
  rw [Nat.add_comm]
  exact exec_leaves hf hcount _ h m' rfl

end CamlAdvance
