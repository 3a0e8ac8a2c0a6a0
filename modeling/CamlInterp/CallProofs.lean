import CamlInterp.FusionProofs

/-! # Calls — what becomes of the arguments

    A tail call slides its arguments up over the frame it leaves, in place and
    from the last one down, so that a word is read before it is overwritten.  The
    call instructions with the number of arguments built in put the return frame
    under arguments that are already there. -/

namespace CamlCall

open CellStore CamlValue CamlOpcode CamlMachine CamlInstr CamlControl CamlStep CamlFusion

variable {ω : Type}

/-! ## The sliding loop -/

theorem spAt_nat {sp : List Value} {i : Nat} (h : i < sp.length) :
    spAt sp i = .ok (sp.get ⟨i, h⟩) := by
  unfold spAt
  rw [if_pos (Int.natCast_nonneg i), Int.toNat_natCast, List.getElem?_eq_getElem h]
  rfl

theorem spSet_nat {sp : List Value} {i : Nat} (h : i < sp.length) (v : Value) :
    spSet sp i v = .ok (sp.set i v) := by
  unfold spSet
  rw [if_pos ⟨Int.natCast_nonneg i, by rw [Int.toNat_natCast]; exact h⟩, Int.toNat_natCast]

/-- The words after the loop: `n` of them replaced, the others as they were. -/
theorem slide_words {d n : Nat} {sp : List Value} (h : d + n ≤ sp.length) :
    ∃ r, slide d n sp = .ok r ∧ r.length = sp.length ∧
      ∀ j, r[j]? = if d ≤ j ∧ j < d + n then sp[j - d]? else sp[j]? := by
  induction n generalizing sp with
  | zero =>
      refine ⟨sp, rfl, rfl, fun j => ?_⟩
      rw [if_neg (by omega)]
  | succ n ih =>
      have hn : n < sp.length := by omega
      have hd : d + n < sp.length := by omega
      have hroom : d + n ≤ (sp.set (d + n) (sp.get ⟨n, hn⟩)).length := by
        rw [List.length_set]
        omega
      obtain ⟨r, hr, hlen, hwords⟩ := ih hroom
      refine ⟨r, ?_, hlen.trans List.length_set, fun j => ?_⟩
      · show (spAt sp n >>= fun v => spSet sp (d + n) v >>= slide d n) = .ok r
        rw [spAt_nat hn]
        show (spSet sp ((d + n : Nat) : Int) _ >>= slide d n) = .ok r
        rw [spSet_nat hd]
        exact hr
      · rw [hwords j]
        by_cases hj : d ≤ j ∧ j < d + n
        · -- a lower word, read after this round: the loop has not reached it yet
          rw [if_pos hj, if_pos (by omega), List.getElem?_set_ne (by omega)]
        · rw [if_neg hj]
          by_cases hlast : j = d + n
          · subst hlast
            rw [if_pos (by omega), List.getElem?_set_self hd, Nat.add_sub_cancel_left,
              List.getElem?_eq_getElem hn]
            rfl
          · rw [if_neg (by omega), List.getElem?_set_ne (fun e => hlast e.symm)]

/-- **THE SLIDE**: from the new `sp` on there are the arguments, and under them
    what was under the frame. -/
theorem slide_drop {d n : Nat} {sp : List Value} (h : d + n ≤ sp.length) :
    ∃ r, slide d n sp = .ok r ∧ d ≤ r.length ∧ r.drop d = sp.take n ++ sp.drop (d + n) := by
  obtain ⟨r, hr, hlen, hwords⟩ := slide_words h
  refine ⟨r, hr, by omega, List.ext_getElem? (fun i => ?_)⟩
  have htake : (sp.take n).length = n := by
    rw [List.length_take]
    omega
  rw [List.getElem?_drop, hwords (d + i)]
  by_cases hi : i < n
  · rw [if_pos (by omega), List.getElem?_append_left (by omega), Nat.add_sub_cancel_left,
      List.getElem?_take_of_lt hi]
  · rw [if_neg (by omega), List.getElem?_append_right (by omega), List.getElem?_drop, htake]
    congr 1
    omega

/-- With fewer words than the frame has, the loop leaves the stack at once. -/
theorem slide_short {d n : Nat} {sp : List Value} (hn : 0 < n) (h : sp.length < d + n) :
    slide d n sp = .error .undefined := by
  obtain ⟨k, rfl⟩ := Nat.exists_eq_add_of_lt hn
  rw [Nat.zero_add] at h ⊢
  have hset : ∀ v, spSet sp ((d : Int) + (k : Int)) v = .error .undefined := by
    intro v
    unfold spSet
    rw [if_neg (by omega)]
  show (spAt sp k >>= fun v => spSet sp (d + k) v >>= slide d k) = _
  cases hv : spAt sp k with
  | error e =>
      unfold spAt at hv
      rw [if_pos (Int.natCast_nonneg k)] at hv
      cases hw : sp[(k : Int).toNat]? with
      | none =>
          rw [hw] at hv
          rw [← Except.error.inj hv]
          rfl
      | some w => rw [hw] at hv; cases hv
  | ok v =>
      show (spSet sp ((d : Int) + (k : Int)) v >>= slide d k) = _
      rw [hset]
      rfl

/-! ## Tail calls -/

/-- What a tail call with `n` arguments from a frame of `slot` words leaves. -/
def tailCalled (n slot : Nat) (c : Core) : Core :=
  { c with
    sp := c.sp.take n ++ c.sp.drop slot, extraArgs := c.extraArgs + BitVec.ofNat 63 (n - 1) }

/-- The frame is on the stack, or the call leaves the stack. -/
def tailCall (n slot : Nat) (c : Core) : C Core :=
  if slot ≤ c.sp.length then enterClosure (tailCalled n slot c) else .error .undefined

/-- Entering a closure does not depend on where the call stands. -/
theorem enterClosure_pc (c : Core) (p : CodePtr) :
    enterClosure { c with pc := p } = enterClosure c := rfl

theorem spDrop_nat {sp : List Value} {n : Nat} (h : n ≤ sp.length) :
    spDrop sp n = .ok (sp.drop n) := by
  unfold spDrop
  rw [if_pos ⟨Int.natCast_nonneg n, by rw [Int.toNat_natCast]; exact h⟩, Int.toNat_natCast]

theorem spDrop_short {sp : List Value} {n : Nat} (h : sp.length < n) :
    spDrop sp n = .error .undefined := by
  unfold spDrop
  rw [if_neg (by rw [Int.toNat_natCast]; omega)]

/-- `APPTERM`, behind its opcode. -/
theorem appterm_eq {c : Core} {n slot : Nat} (hn : 0 < n) (hslot : n ≤ slot)
    (h1 : c.operand.toInt = n) (h2 : c.advance.operand.toInt = slot) :
    appterm c = tailCall n slot c := by
  have hd : ((slot : Int) - n).toNat = slot - n := by omega
  have hextra : ((n : Int) - 1) = ((n - 1 : Nat) : Int) := by omega
  unfold appterm tailCall
  simp only [h1, h2]
  rw [if_pos ⟨Int.natCast_nonneg n, Int.ofNat_le.mpr hslot⟩, hd, Int.toNat_natCast]
  show (slide (slot - n) n c.sp >>= _) = _
  by_cases hlen : slot ≤ c.sp.length
  · have hroom : slot - n + n ≤ c.sp.length := by omega
    obtain ⟨r, hr, hrlen, hdrop⟩ := slide_drop hroom
    have hsub : ((slot : Int) - n) = ((slot - n : Nat) : Int) := by omega
    have hsum : slot - n + n = slot := by omega
    rw [hr, if_pos hlen]
    show (spDrop r ((slot : Int) - n) >>= _) = _
    rw [hsub, spDrop_nat hrlen, hdrop, hsum, hextra, BitVec.ofInt_natCast]
    exact enterClosure_pc (tailCalled n slot c) _
  · rw [slide_short hn (by omega), if_neg hlen]
    rfl

/-- `APPTERM1` to `APPTERM3`, behind their opcode. -/
theorem apptermArgs_eq {c : Core} {n slot : Nat} (hslot : n ≤ slot)
    (h1 : c.operand.toInt = slot) : apptermArgs n c = tailCall n slot c := by
  have hsub : (c.operand.toInt - n) = ((slot - n : Nat) : Int) := by omega
  have hsum : slot - n + n = slot := by omega
  unfold apptermArgs tailCall spTake
  rw [hsub]
  by_cases hlen : slot ≤ c.sp.length
  · have hrest : n ≤ (c.sp.drop (slot - n)).length := by
      rw [List.length_drop]
      omega
    rw [if_pos (by omega : n ≤ c.sp.length), if_pos hlen]
    show (spDrop c.sp ((slot - n : Nat) : Int) >>= _) = _
    rw [spDrop_nat (by omega)]
    show (spDrop (c.sp.drop (slot - n)) (n : Int) >>= _) = _
    rw [spDrop_nat hrest, List.drop_drop, hsum]
    rfl
  · rw [if_neg hlen]
    by_cases hn : n ≤ c.sp.length
    · rw [if_pos hn]
      show (spDrop c.sp ((slot - n : Nat) : Int) >>= _) = _
      by_cases hd : slot - n ≤ c.sp.length
      · have hrest : (c.sp.drop (slot - n)).length < n := by
          rw [List.length_drop]
          omega
        rw [spDrop_nat hd]
        show (spDrop (c.sp.drop (slot - n)) (n : Int) >>= _) = _
        rw [spDrop_short hrest]
        rfl
      · rw [spDrop_short (by omega)]
        rfl
    · rw [if_neg hn]
      rfl

/-! ## Calls -/

/-- `APPLY1` to `APPLY3` put under the arguments what `PUSH_RETADDR` pushes
    before them. -/
theorem applyArgs_eq {c : Core} {args rest : List Value} {p : CodePtr} (hargs : 0 < args.length)
    (hsp : c.sp = args ++ rest) (hop : (c.mem.code p).toInt = args.length) :
    applyArgs args.length c = apply { c with
      pc := p, sp := args ++ ofCode c.pc :: c.env :: valLong c.extraArgs :: rest } := by
  have hextra : ((c.mem.code p).toInt - 1) = ((args.length - 1 : Nat) : Int) := by omega
  unfold applyArgs apply spTake Core.operand
  rw [hsp, if_pos (by rw [List.length_append]; omega), List.take_left, List.drop_left, hextra,
    BitVec.ofInt_natCast]
  exact (enterClosure_pc _ p).symm

/-! ## The instructions -/

/-- The call instructions with `n` arguments built in. -/
def applyOf : Nat → Option Opcode
  | 1 => some .APPLY1
  | 2 => some .APPLY2
  | 3 => some .APPLY3
  | _ => none

/-- The tail-call instructions with `n` arguments built in. -/
def apptermOf : Nat → Option Opcode
  | 1 => some .APPTERM1
  | 2 => some .APPTERM2
  | 3 => some .APPTERM3
  | _ => none

variable {rt : Runtime ω} {act : Activation} {m : Machine ω} {n slot : Nat} {op : Opcode}

theorem apptermOf_pos (h : apptermOf n = some op) : 0 < n := by
  cases n with
  | zero => cases h
  | succ n => exact Nat.succ_pos n

theorem applyOf_pos (h : applyOf n = some op) : 0 < n := by
  cases n with
  | zero => cases h
  | succ n => exact Nat.succ_pos n

theorem apptermOf_exec (h : apptermOf n = some op) :
    CamlUpstream.exec rt act op m = CamlUpstream.enter (apptermArgs n) m := by
  unfold apptermOf at h
  split at h
  · cases h; rfl
  · cases h; rfl
  · cases h; rfl
  · cases h

theorem applyOf_exec (h : applyOf n = some op) :
    CamlUpstream.exec rt act op m = CamlUpstream.enter (applyArgs n) m := by
  unfold applyOf at h
  split at h
  · cases h; rfl
  · cases h; rfl
  · cases h; rfl
  · cases h

/-- The step at an instruction. -/
theorem step_at (h : m.mem.code m.pc = op.code) :
    machineStep rt act (.next m)
      = CamlUpstream.exec rt act op { m with toCore := m.toCore.advance } := by
  have hex : executing (.next m) = some op := by
    show decode (m.mem.code m.pc) = _
    rw [h, decode_code]
  exact machineStep_executing hex

/-- `goto check_stacks` with the registers `c`. -/
def called (m : Machine ω) (x : C Core) : C (Ctl (Machine ω)) := do
  .ok (.checkStacks { m with toCore := ← x })

theorem enter_eq (f : Core → C Core) (m : Machine ω) :
    CamlUpstream.enter f m = called m (f m.toCore) := by
  unfold CamlUpstream.enter onCore called
  cases f m.toCore with
  | error e => rfl
  | ok c => rfl

/-- `APPTERM` with its operands in memory. -/
theorem step_appterm {nargs size : OpcodeWord} (hn : 0 < n) (hslot : n ≤ slot)
    (hcode : Holds m.mem.code m.pc [Opcode.APPTERM.code, nargs, size])
    (h1 : nargs.toInt = n) (h2 : size.toInt = slot) :
    machineStep rt act (.next m) = called m (tailCall n slot m.toCore) := by
  obtain ⟨hop, hnargs, hsize, -⟩ := hcode
  have hbody : appterm m.toCore.advance = tailCall n slot m.toCore.advance := by
    refine appterm_eq hn hslot ?_ ?_
    · show (m.mem.code (m.pc + 4#64)).toInt = _
      rw [hnargs, h1]
    · show (m.mem.code (m.pc + 4#64 + 4#64)).toInt = _
      rw [hsize, h2]
  rw [step_at hop]
  refine (enter_eq _ _).trans ?_
  rw [hbody]
  rfl

theorem step_apptermOf {size : OpcodeWord} (h : apptermOf n = some op) (hslot : n ≤ slot)
    (hcode : Holds m.mem.code m.pc [op.code, size]) (h2 : size.toInt = slot) :
    machineStep rt act (.next m) = called m (tailCall n slot m.toCore) := by
  obtain ⟨hop, hsize, -⟩ := hcode
  have hbody : apptermArgs n m.toCore.advance = tailCall n slot m.toCore.advance := by
    refine apptermArgs_eq hslot ?_
    show (m.mem.code (m.pc + 4#64)).toInt = _
    rw [hsize, h2]
  rw [step_at hop, apptermOf_exec h, enter_eq, hbody]
  rfl

/-- `PUSH_RETADDR` pushes a return frame. -/
theorem step_pushRetaddr {ofs : OpcodeWord}
    (hcode : Holds m.mem.code m.pc [Opcode.PUSH_RETADDR.code, ofs]) :
    machineStep rt act (.next m) = .ok (.next { m with
      pc := m.pc + 8#64
      sp := ofCode (m.pc + 4#64 + BitVec.ofInt 64 (4 * ofs.toInt)) :: m.env ::
        valLong m.extraArgs :: m.sp }) := by
  obtain ⟨hop, hofs, -⟩ := hcode
  have hpc : m.pc + 4#64 + 4#64 = m.pc + 8#64 := BitVec.add_assoc _ _ _
  rw [step_at hop, ← hofs, ← hpc]
  rfl

/-- `APPLY1` to `APPLY3` against `APPLY` of as many arguments. -/
theorem step_applyOf {a : Machine ω} {args rest : List Value} {q : CodePtr} {w : OpcodeWord}
    (h : applyOf args.length = some op) (hop : a.mem.code a.pc = op.code)
    (hsp : a.sp = args ++ rest) (hcode : Holds a.mem.code q [Opcode.APPLY.code, w])
    (hw : w.toInt = args.length) :
    machineStep rt act (.next a) = machineStep rt act (.next { a with
      pc := q
      sp := args ++ ofCode (a.pc + 4#64) :: a.env :: valLong a.extraArgs :: rest }) := by
  obtain ⟨happly, hoperand, -⟩ := hcode
  have hbody := applyArgs_eq (c := a.toCore.advance) (p := q + 4#64) (applyOf_pos h) hsp
    (by show (a.mem.code (q + 4#64)).toInt = _; rw [hoperand, hw])
  rw [step_at hop, applyOf_exec h, step_at (m := { a with
      pc := q
      sp := args ++ ofCode (a.pc + 4#64) :: a.env :: valLong a.extraArgs :: rest }) happly]
  refine (enter_eq _ _).trans (Eq.trans ?_ (enter_eq _ _).symm)
  rw [hbody]
  rfl

/-- **CALLS MOVE EXACTLY THE ARGUMENTS**: a tail call keeps the arguments and what
    is under the frame, whichever instruction makes it; a call with its arguments
    already pushed is one with a return frame pushed before them. -/
theorem calls_move_arguments (rt : Runtime ω) (act : Activation) :
    (∀ (m : Machine ω) (nargs size : OpcodeWord),
      Holds m.mem.code m.pc [Opcode.APPTERM.code, nargs, size] → 1 ≤ nargs.toInt →
      nargs.toInt ≤ size.toInt → size.toInt ≤ m.sp.length →
      machineStep rt act (.next m) = (codeVal m.mem.heap m.accu).map fun pc => .checkStacks { m with
        pc := pc, env := m.accu
        sp := m.sp.take nargs.toInt.toNat ++ m.sp.drop size.toInt.toNat
        extraArgs := m.extraArgs + BitVec.ofInt 63 (nargs.toInt - 1) }) ∧
    (∀ (m : Machine ω) (n : Nat) (op : Opcode) (nargs size : OpcodeWord) (p q : CodePtr),
      apptermOf n = some op → nargs.toInt = n → n ≤ size.toInt →
      Holds m.mem.code p [op.code, size] →
      Holds m.mem.code q [Opcode.APPTERM.code, nargs, size] →
      machineStep rt act (.next { m with pc := p }) =
        machineStep rt act (.next { m with pc := q })) ∧
    (∀ (m : Machine ω) (ofs : OpcodeWord),
      Holds m.mem.code m.pc [Opcode.PUSH_RETADDR.code, ofs] → ∃ m1,
      machineStep rt act (.next m) = .ok (.next m1) ∧
      ∀ (a : Machine ω) (op : Opcode) (args : List Value) (nargs : OpcodeWord) (q : CodePtr),
        applyOf args.length = some op → nargs.toInt = args.length → a.mem.code a.pc = op.code →
        Holds a.mem.code q [Opcode.APPLY.code, nargs] → a.env = m.env →
        a.extraArgs = m.extraArgs → a.sp = args ++ m.sp →
        a.pc + 4#64 = m.pc + 4#64 + BitVec.ofInt 64 (4 * ofs.toInt) →
        machineStep rt act (.next a) =
          machineStep rt act (.next { a with pc := q, sp := args ++ m1.sp })) := by
  refine ⟨?_, ?_, ?_⟩
  · intro m nargs size hcode h1 h2 hlen
    obtain ⟨n, hn⟩ := Int.eq_ofNat_of_zero_le (by omega : 0 ≤ nargs.toInt)
    obtain ⟨slot, hslot⟩ := Int.eq_ofNat_of_zero_le (by omega : 0 ≤ size.toInt)
    have hextra : ((n : Int) - 1) = ((n - 1 : Nat) : Int) := by omega
    rw [step_appterm (by omega) (by omega) hcode hn hslot, hn, hslot, Int.toNat_natCast,
      Int.toNat_natCast, hextra, BitVec.ofInt_natCast]
    unfold tailCall
    rw [if_pos (by omega)]
    unfold enterClosure called
    show ((codeVal m.mem.heap m.accu >>= _) >>= _) = _
    cases codeVal m.mem.heap m.accu with
    | error e => rfl
    | ok pc => rfl
  · intro m n op nargs size p q hop hn hsize hp hq
    obtain ⟨slot, hslot⟩ := Int.eq_ofNat_of_zero_le (by omega : 0 ≤ size.toInt)
    rw [step_apptermOf (m := { m with pc := p }) hop (by omega) hp hslot,
      step_appterm (m := { m with pc := q }) (apptermOf_pos hop) (by omega) hq hn hslot]
    rfl
  · intro m ofs hcode
    refine ⟨_, step_pushRetaddr hcode, ?_⟩
    intro a op args nargs q hop hn hat hq henv hextra hsp hret
    rw [step_applyOf hop hat hsp hq hn, henv, hextra, hret]

/-- A closure with three words on the stack, and code for each of the calls. -/
def calling (pc : CodePtr) : Machine Unit where
  pc := pc
  sp := [valInt 1, valInt 2, valInt 3]
  accu := .ptr 0 0
  env := .atom 0
  extraArgs := 4#63
  mem :=
    { heap := ⟨[some ⟨closureTag, [ofCode 0x2000#64, .word (makeClosinfo 0 2)]⟩]⟩
      code := assemble 0x1000#64 [Opcode.APPTERM.code, 2#32, 3#32, Opcode.APPTERM2.code, 3#32,
        Opcode.PUSH_RETADDR.code, 2#32, Opcode.APPLY1.code, Opcode.APPLY.code, 1#32]
      globalData := valUnit
      raiseUnhandled := valUnit }
  dom := domainOf [mainStack] 0

/-- Two arguments slid over a frame of three words, by both instructions, and a
    call with one argument by both. -/
theorem calls_move_arguments_three :
    machineStep quiet soleActivation (.next (calling 0x1000#64)) = .ok (.checkStacks
      { calling 0x2000#64 with sp := [valInt 1, valInt 2], env := .ptr 0 0, extraArgs := 5#63 }) ∧
    machineStep quiet soleActivation (.next (calling 0x100C#64)) =
      machineStep quiet soleActivation (.next (calling 0x1000#64)) ∧
    machineStep quiet soleActivation (.next { calling 0x101C#64 with sp := [valInt 7, valInt 1,
        valInt 2, valInt 3] }) =
      machineStep quiet soleActivation (.next { calling 0x1020#64 with sp := [valInt 7,
        ofCode 0x1020#64, .atom 0, valLong 4#63, valInt 1, valInt 2, valInt 3] }) := by
  obtain ⟨hslide, hbuiltin, hcall⟩ := calls_move_arguments quiet soleActivation
  refine ⟨?_, ?_, ?_⟩
  · exact hslide (calling 0x1000#64) 2#32 3#32 ⟨rfl, rfl, rfl, trivial⟩ (by decide) (by decide)
      (by decide)
  · exact hbuiltin (calling 0x1000#64) 2 .APPTERM2 2#32 3#32 0x100C#64 0x1000#64 rfl (by decide)
      (by decide) ⟨rfl, rfl, trivial⟩ ⟨rfl, rfl, rfl, trivial⟩
  · obtain ⟨m1, hm1, hsame⟩ := hcall (calling 0x1014#64) 2#32 ⟨rfl, rfl, trivial⟩
    obtain rfl := Ctl.next.inj (Except.ok.inj hm1)
    exact hsame { calling 0x101C#64 with sp := [valInt 7, valInt 1, valInt 2, valInt 3] } .APPLY1
      [valInt 7] 1#32 0x1020#64 rfl (by decide) rfl ⟨rfl, rfl, trivial⟩ rfl rfl rfl rfl

end CamlCall
