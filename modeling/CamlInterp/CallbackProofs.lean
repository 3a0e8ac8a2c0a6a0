import CamlInterp.TrapProofs

/-! # Callbacks — entering and leaving the interpreter

    `caml_callbackN_exn` pushes a frame on the running stack, clears the parent
    of the running fiber and runs `caml_interprete` on a few words of code of its
    own.  The call ends at `STOP` or with an exception result, after any number
    of calls, handlers and fibers.  Followed through all of them, the fiber it
    was entered on keeps the words under the frame.  On an exception result `sp`
    is set from the number of words on entry, which `caml_interprete` keeps in an
    `int`. -/

namespace CamlCallback

open CellStore ParentChain CamlValue CamlOpcode CamlMachine CamlControl CamlInterp CamlStep
  CamlFiber CamlEffect CamlPassage CamlBystander CamlHandlerCall Runs

variable {ω : Type}

/-! ## `caml_callbackN_exn` -/

/-- The words of `callback_code` that are set once; its two operands are written
    by every callback. -/
structure CallbackCode (prog : CodePtr) (mem : Mem) : Prop where
  acc : mem.code prog = Opcode.ACC.code
  apply : mem.code (prog + 8#64) = Opcode.APPLY.code
  pop : mem.code (prog + 16#64) = Opcode.POP.code
  one : mem.code (prog + 20#64) = 1#32
  stop : mem.code (prog + 24#64) = Opcode.STOP.code

/-- `callback_code[1] = narg + 3; callback_code[3] = narg`. -/
def setOperands (prog : CodePtr) (narg : Nat) (mem : Mem) : Mem :=
  let code := Function.update mem.code (prog + 4#64) (BitVec.ofNat 32 (narg + 3))
  { mem with code := Function.update code (prog + 12#64) (BitVec.ofNat 32 narg) }

/-- The frame a callback pushes under its arguments, on top of `old`. -/
def baseWords (prog : CodePtr) (closure : Value) (old : List Value) : List Value :=
  ofCode (prog + 16#64) :: valUnit :: valLong 0#63 :: closure :: old

/-- `save_and_clear_stack_parent`. -/
def saveAndClearStackParent (mem : Mem) (dom : Domain ω) : C (Value × Mem × Domain ω) := do
  let parent := (← dom.stack dom.currentStack).parent
  let (cont, heap) := allocBlock mem.heap contTag [valPtr parent]
  let dom ← dom.setParent dom.currentStack none
  .ok (cont, { mem with heap := heap }, dom)

/-- `caml_callbackN_exn` up to the call of `caml_interprete`. -/
def enterCallback (prog : CodePtr) (closure : Value) (args : List Value) (mem : Mem)
    (dom : Domain ω) : C (Value × Mem × Domain ω) := do
  camlAssert (args.length + 4 ≤ 256)
  let old ← dom.loadSp
  let dom ← dom.saveSp (args ++ baseWords prog closure old)
  saveAndClearStackParent (setOperands prog args.length mem) dom

/-- The step does not return from `caml_interprete`. -/
def Going (x : C (Ctl (Machine ω))) : Prop := ∀ r m, x ≠ .ok (.halted r m)

variable {rt : Runtime ω} {act : Activation} {m : Machine ω} {c c' : Ctl (Machine ω)}

theorem Going.bind {α : Type} {x : C α} {f : α → C (Ctl (Machine ω))}
    (h : ∀ a, Going (f a)) : Going (x >>= f) := by
  intro r m hx
  obtain ⟨a, -, ha⟩ := bind_eq_ok.mp hx
  exact h a r m ha

theorem going_error (e : Fault) : Going (.error e : C (Ctl (Machine ω))) :=
  fun _ _ h => by cases h

theorem going_next (m : Machine ω) : Going (.ok (.next m)) := fun _ _ h => by cases h

theorem going_checkStacks (m : Machine ω) : Going (.ok (.checkStacks m)) :=
  fun _ _ h => by cases h

theorem going_raise (m : Machine ω) : Going (.ok (.raiseNotrace m)) := fun _ _ h => by cases h

theorem going_dispatch (w : OpcodeWord) (m : Machine ω) : Going (.ok (.dispatch w m)) :=
  fun _ _ h => by cases h

theorem going_reenter (m : Machine ω) (e : Value) (mem : Mem) (dom : Domain ω) :
    Going (reenter rt m e mem dom) := by
  refine Going.bind fun sp => ?_
  dsimp only
  split
  · exact going_raise _
  · exact going_raise _

theorem going_raiseException (reraise : Bool) (m : Machine ω) :
    Going (raiseException rt reraise m) := by
  unfold raiseException
  dsimp only
  split
  · exact going_raise _
  · exact going_raise _

theorem going_camlRaise (m : Machine ω) (e : Value) : Going (camlRaise rt m e) :=
  going_reenter _ _ _ _

theorem going_allocSmall {wosize tag : Nat} {k : Value → Machine ω → C (Ctl (Machine ω))}
    (hk : ∀ v m, Going (k v m)) (m : Machine ω) : Going (allocSmall rt m wosize tag k) := by
  refine Going.bind fun _ => Going.bind fun _ => Going.bind fun _ => Going.bind fun r => ?_
  cases r with
  | inl m1 => exact hk _ _
  | inr e => exact going_reenter _ _ _ _

theorem going_allocEither {small : Bool} {wosize tag : Nat}
    {k : Value → Machine ω → C (Ctl (Machine ω))} (hk : ∀ v m, Going (k v m))
    (m : Machine ω) : Going (allocEither rt m small wosize tag k) := by
  unfold allocEither camlAllocShr
  split
  · exact going_allocSmall hk m
  · split
    · exact going_error _
    · exact hk _ _

theorem going_enterParent (m : Machine ω) (h : Value) (sp : List Value) :
    Going (enterParent m h sp) :=
  Going.bind fun _ => Going.bind fun _ => Going.bind fun _ => Going.bind fun _ =>
    Going.bind fun _ => Going.bind fun _ => going_checkStacks _

theorem going_doReturn (m : Machine ω) : Going (doReturn m) := by
  unfold doReturn
  split
  · exact Going.bind fun _ => Going.bind fun _ => Going.bind fun _ => Going.bind fun _ =>
      going_enterParent _ _ _
  · exact Going.bind fun _ => Going.bind fun _ => going_next _
  · exact going_error _

theorem going_grab (m : Machine ω) : Going (grab rt m) := by
  unfold grab
  dsimp only
  split
  · exact going_next _
  · exact going_allocSmall (fun v m1 => Going.bind fun _ => Going.bind fun _ =>
      going_doReturn _) _

theorem going_closure (m : Machine ω) : Going (closure rt m) :=
  going_allocEither (fun _ _ => Going.bind fun _ => Going.bind fun _ => Going.bind fun _ =>
    going_next _) _

theorem going_finishRec (nfuncs nvars : OpcodeWord) (v : Value) (m : Machine ω) :
    Going (finishRec nfuncs nvars v m) := by
  refine Going.bind fun _ => Going.bind fun _ => Going.bind fun _ => ?_
  cases v with
  | ptr b ofs => exact going_next _
  | undef => exact going_error _
  | word w => exact going_error _
  | atom t => exact going_error _
  | stk s => exact going_error _

theorem going_closurerec (m : Machine ω) : Going (closurerec rt m) :=
  going_allocEither (going_finishRec _ _) _

theorem going_makeblockOf {small : Bool} {wosize tag : Nat} (m : Machine ω) :
    Going (makeblockOf rt small wosize tag m) :=
  going_allocEither (fun _ _ => Going.bind fun _ => Going.bind fun _ => going_next _) m

theorem going_makeblockN {n : Nat} (m : Machine ω) : Going (makeblockN rt n m) :=
  going_makeblockOf _

theorem going_makeblock (m : Machine ω) : Going (makeblock rt m) :=
  going_makeblockOf _

theorem going_makefloatblock (m : Machine ω) : Going (makefloatblock rt m) :=
  going_allocEither (fun _ _ => Going.bind fun _ => Going.bind fun _ =>
    Going.bind fun _ => going_next _) _

theorem going_getfloatfield (m : Machine ω) : Going (getfloatfield rt m) :=
  Going.bind fun _ => going_allocSmall (fun _ _ => Going.bind fun _ => going_next _) _

theorem going_cCall {args : List Value → C (List Value)} {popped : Int} (m : Machine ω) :
    Going (cCall rt args popped m) := by
  refine Going.bind fun m1 => Going.bind fun vs => Going.bind fun r => ?_
  cases r with
  | value v mem dom =>
      exact Going.bind fun _ => Going.bind fun _ => Going.bind fun _ => going_next _
  | raised e mem dom => exact going_reenter _ _ _ _

theorem going_cCallN {n : Nat} (m : Machine ω) : Going (cCallN rt n m) := going_cCall m

theorem going_cCalln (m : Machine ω) : Going (cCalln rt m) := by
  unfold cCalln
  exact going_cCall _

theorem going_divide {f : BitVec 64 → BitVec 64 → BitVec 64} (m : Machine ω) :
    Going (divide rt f m) := by
  refine Going.bind fun _ => Going.bind fun _ => Going.bind fun _ => ?_
  dsimp only
  split
  · exact Going.bind fun _ => Going.bind fun _ => going_camlRaise _ _
  · exact Going.bind fun _ => going_next _

theorem going_processSignal (m : Machine ω) : Going (processSignal rt m) := by
  refine Going.bind fun _ => Going.bind fun r => ?_
  cases r with
  | value v mem dom =>
      exact Going.bind fun _ => Going.bind fun _ => Going.bind fun _ => Going.bind fun _ =>
        Going.bind fun _ => Going.bind fun _ => Going.bind fun _ => Going.bind fun _ =>
          going_next _
  | raised e mem dom => exact going_reenter _ _ _ _

theorem going_checkSignals (m : Machine ω) : Going (checkSignals rt m) := by
  unfold checkSignals
  split
  · exact going_processSignal _
  · exact going_next _

theorem going_atCheckStacks (m : Machine ω) : Going (checkStacks rt m) := by
  refine Going.bind fun _ => ?_
  split
  · refine Going.bind fun _ => Going.bind fun grown => ?_
    cases grown with
    | some dom => exact Going.bind fun _ => going_checkSignals _
    | none => exact Going.bind fun _ => Going.bind fun _ => going_camlRaise _ _
  · exact going_checkSignals _

theorem going_poptrap (m : Machine ω) : Going (poptrap rt m) := by
  unfold poptrap
  split
  · exact going_processSignal _
  · exact Going.bind fun _ => Going.bind fun _ => Going.bind fun _ => going_next _

theorem going_event (m : Machine ω) : Going (event rt m) := by
  unfold event
  dsimp only
  split
  · exact Going.bind fun _ => going_dispatch _ _
  · exact going_dispatch _ _

theorem going_enterEffectHandler (m : Machine ω) (eff cont h : Value) (child : Nat)
    (sp : List Value) : Going (enterEffectHandler m eff cont child h sp) :=
  Going.bind fun _ => Going.bind fun _ => Going.bind fun _ => Going.bind fun _ =>
    Going.bind fun _ => Going.bind fun _ => going_checkStacks _

theorem going_doResume (fn arg : Value) (m : Machine ω) : Going (doResume rt fn arg m) := by
  refine Going.bind fun q => ?_
  cases q with
  | none => exact Going.bind fun _ => going_raiseException _ _
  | some s =>
      exact Going.bind fun _ => Going.bind fun _ => Going.bind fun _ => Going.bind fun _ =>
        Going.bind fun _ => Going.bind fun _ => Going.bind fun _ => Going.bind fun _ =>
          going_checkStacks _

theorem going_resume (m : Machine ω) : Going (resume rt m) :=
  Going.bind fun _ => Going.bind fun _ => Going.bind fun _ => going_doResume _ _ _

theorem going_resumeterm (m : Machine ω) : Going (resumeterm rt m) :=
  Going.bind fun _ => Going.bind fun _ => Going.bind fun _ => Going.bind fun _ =>
    going_doResume _ _ _

theorem going_perform (m : Machine ω) : Going (perform rt m) := by
  refine Going.bind fun i => ?_
  split
  · exact Going.bind fun _ => going_raiseException _ _
  · exact going_allocSmall (fun _ _ => Going.bind fun _ => Going.bind fun _ =>
      Going.bind fun _ => Going.bind fun _ => Going.bind fun _ =>
        going_enterEffectHandler _ _ _ _ _ _) _

/-- `REPERFORMTERM` does not halt. -/
theorem going_reperformterm (m : Machine ω) : Going (reperformterm rt m) := by
  refine Going.bind fun _ => Going.bind fun _ => Going.bind fun _ => Going.bind fun _ =>
    Going.bind fun _ => Going.bind fun _ => ?_
  dsimp only
  split
  · refine Going.bind fun _ => ?_
    split
    · exact Going.bind fun _ => going_camlRaise _ _
    · exact Going.bind fun _ => going_doResume _ _ _
  · exact Going.bind fun _ => Going.bind fun _ => Going.bind fun _ => Going.bind fun _ =>
      Going.bind fun _ => Going.bind fun _ => Going.bind fun _ => Going.bind fun _ =>
        going_enterEffectHandler _ _ _ _ _ _

theorem going_enter {f : Core → C Core} (m : Machine ω) : Going (CamlUpstream.enter f m) :=
  Going.bind fun _ => going_checkStacks _

theorem going_thenNext {f : Core → C Core} (m : Machine ω) : Going (thenNext f m) :=
  Going.bind fun _ => going_next _

theorem going_ret (m : Machine ω) : Going (CamlUpstream.ret m) := by
  refine Going.bind fun _ => ?_
  split
  · exact going_thenNext _
  · exact going_doReturn _

/-- **ONLY `STOP`**, of all instructions, returns from `caml_interprete`. -/
theorem going_exec {op : Opcode} (hop : op ≠ .STOP) (m : Machine ω) :
    Going (CamlUpstream.exec rt act op m) := by
  cases op with
  | APPLY => exact going_enter m
  | APPLY1 => exact going_enter m
  | APPLY2 => exact going_enter m
  | APPLY3 => exact going_enter m
  | APPTERM => exact going_enter m
  | APPTERM1 => exact going_enter m
  | APPTERM2 => exact going_enter m
  | APPTERM3 => exact going_enter m
  | RETURN => exact going_ret m
  | GRAB => exact going_grab m
  | CLOSURE => exact going_closure m
  | CLOSUREREC => exact going_closurerec m
  | MAKEBLOCK => exact going_makeblock m
  | MAKEBLOCK1 => exact going_makeblockN m
  | MAKEBLOCK2 => exact going_makeblockN m
  | MAKEBLOCK3 => exact going_makeblockN m
  | MAKEFLOATBLOCK => exact going_makefloatblock m
  | GETFLOATFIELD => exact going_getfloatfield m
  | PUSHTRAP => exact going_next _
  | POPTRAP => exact going_poptrap m
  | RAISE => exact going_raiseException _ m
  | CHECK_SIGNALS => exact going_checkSignals m
  | C_CALL1 => exact going_cCallN m
  | C_CALL2 => exact going_cCallN m
  | C_CALL3 => exact going_cCallN m
  | C_CALL4 => exact going_cCallN m
  | C_CALL5 => exact going_cCallN m
  | C_CALLN => exact going_cCalln m
  | DIVINT => exact going_divide m
  | MODINT => exact going_divide m
  | STOP => exact absurd rfl hop
  | EVENT => exact going_event m
  | BREAK => exact Going.bind fun _ => going_dispatch _ _
  | RERAISE => exact going_raiseException _ m
  | RAISE_NOTRACE => exact going_raise _
  | PERFORM => exact going_perform m
  | RESUME => exact going_resume m
  | RESUMETERM => exact going_resumeterm m
  | REPERFORMTERM => exact going_reperformterm m
  | _ => exact going_thenNext m

/-- How a run ends: at a `STOP`, or by an exception without a trap frame on a
    fiber without a parent. -/
theorem step_halts {r : Result} {m' : Machine ω} (h : machineStep rt act c = .ok (.halted r m')) :
    (executing c = some .STOP ∧ stop act (fetched c) = .ok (.halted r m')) ∨
      ∃ m i, c = .raiseNotrace m ∧ m.dom.pool.get m.dom.currentStack = some i ∧
        i.parent = none ∧ ∃ dom, r = .exception m.accu ∧
          m.dom.setSp act.initialStackWords.toInt
            (wordsFrom m.sp act.initialStackWords.toInt.toNat) = .ok dom ∧
          m' = { m with
            sp := wordsFrom m.sp act.initialStackWords.toInt.toNat,
            dom := { dom with
              externalRaise := act.initialExternalRaise,
              trapSpOff := act.initialTrapSpOff } } := by
  rcases machineStep_cases h with ⟨op, hex, hs⟩ | ⟨m, rfl, hs⟩ | ⟨m, rfl, hs⟩
  · by_cases hop : op = .STOP
    · rw [hop] at hex hs
      exact Or.inl ⟨hex, hs⟩
    · exact absurd hs (going_exec hop _ r m')
  · exact absurd hs (going_atCheckStacks m r m')
  · unfold raiseNotrace at hs
    split at hs
    · obtain ⟨i, hi, hs⟩ := bind_eq_ok.mp hs
      cases hp : i.parent with
      | none =>
          simp only [hp] at hs
          obtain ⟨dom, hdom, hs⟩ := bind_eq_ok.mp hs
          obtain ⟨rfl, rfl⟩ := Ctl.halted.inj (Except.ok.inj hs)
          exact Or.inr ⟨m, i, rfl, stack_ok hi, hp, dom, rfl, hdom, rfl⟩
      | some p =>
          simp only [hp] at hs
          obtain ⟨dom, -, hs⟩ := bind_eq_ok.mp hs
          obtain ⟨x, -, hs⟩ := bind_eq_ok.mp hs
          exact absurd hs (going_enterParent _ _ _ r m')
    · obtain ⟨sp, -, hs⟩ := bind_eq_ok.mp hs
      split at hs
      · obtain ⟨pc, -, hs⟩ := bind_eq_ok.mp hs
        obtain ⟨extra, -, hs⟩ := bind_eq_ok.mp hs
        obtain ⟨trap, -, hs⟩ := bind_eq_ok.mp hs
        cases hs
      · cases hs

/-! ## The fiber a run was entered on -/

/-- Where the stack `home` is after a step to `c'`: a stack that is gone has been
    replaced by the running one. -/
def homeAfter (c' : Ctl (Machine ω)) (home : Nat) : Nat :=
  if (c'.state.dom.pool.get home).isSome then home else c'.state.dom.currentStack

/-- A step, with the stack the run was entered on followed through its moves. -/
def homeStep (rt : Runtime ω) (act : Activation) (s : Ctl (Machine ω) × Nat) :
    C (Ctl (Machine ω) × Nat) := do
  let c' ← machineStep rt act s.1
  .ok (c', homeAfter c' s.2)

/-- The words of the stack `home`, without the two that are on top while it is
    parked. -/
def framesOf (home : Nat) (m : Machine ω) : List Value :=
  if m.dom.currentStack = home then m.sp else ((wordsOf m.dom home).getD []).drop 2

/-- The called code touches only its own frames: run on the stack `home` it keeps
    the callback's frame `base` until it returns to it, it executes no `STOP`, and
    it puts no fiber around `home`.  The code of the callback and the block `cont`,
    which only the callback knows, stay as they are. -/
structure OwnFrames (rt : Runtime ω) (act : Activation) (prog : CodePtr) (cont : Value)
    (parent : Option Nat) (base : List Value) (s : Ctl (Machine ω) × Nat) : Prop where
  frames : ∀ {c'} (above : List Value), s.1.state.dom.currentStack = s.2 →
    s.1.state.sp = above ++ base → machineStep rt act s.1 = .ok c' →
    (∀ r m', c' ≠ .halted r m') → (∃ above', framesOf (homeAfter c' s.2) c'.state =
      above' ++ base) ∨ ∃ m, AtDoReturn rt s.1 m ∧ m.sp = base
  stop : executing s.1 = some .STOP → s.1.state.dom.currentStack = s.2 ∧
    ∀ above, s.1.state.sp ≠ above ++ base
  effects : ∀ {op c'}, executing s.1 = some op → isEffect op = true →
    machineStep rt act s.1 = .ok c' → ∀ q, linksOf c'.state.dom.pool s.2 ≠ some (some q)
  code : CallbackCode prog s.1.state.mem
  cont : field s.1.state.mem.heap cont 0 = .ok (valPtr parent)

/-- The call has not returned: the running fiber is `home` or above it, and the
    frame of the callback is in place. -/
structure Inside (base : List Value) (handlers : Value × Value × Value)
    (s : Ctl (Machine ω) × Nat) : Prop where
  going : ∀ r m', s.1 ≠ .halted r m'
  reached : Reaches (linksOf s.1.state.dom.pool) s.1.state.dom.currentStack s.2
  outline : outlineOf s.1.state.dom s.2 = some (none, handlers)
  frames : ∃ above, framesOf s.2 s.1.state = above ++ base

/-- The call has returned to `pc` in the code of the callback. -/
structure Returned (pc : CodePtr) (sp : List Value) (handlers : Value × Value × Value)
    (s : Ctl (Machine ω) × Nat) : Prop where
  at_pc : ∃ m, s.1 = .next m ∧ m.pc = pc ∧ m.sp = sp
  fiber : s.1.state.dom.currentStack = s.2
  outline : outlineOf s.1.state.dom s.2 = some (none, handlers)

variable {prog : CodePtr} {cont : Value} {parent : Option Nat} {base : List Value}
  {handlers : Value × Value × Value} {home : Nat} {dom dom' : Domain ω}

theorem linksOf_outline {x : Nat} {p : Option Nat}
    (h : outlineOf dom x = some (p, handlers)) : linksOf dom.pool x = some p := by
  rw [linksOf_eq_outline, h]
  rfl

/-- A fiber without a parent is at the end of every chain it is on. -/
theorem Inside.of_root (h : Inside base handlers (c, home))
    (hp : linksOf c.state.dom.pool c.state.dom.currentStack = some none) :
    c.state.dom.currentStack = home := by
  have hroot : ∀ {x}, Around (linksOf c.state.dom.pool) c.state.dom.currentStack x → False := by
    intro x hx
    induction hx with
    | parent hlink _ =>
        rw [hp] at hlink
        cases hlink
    | next _ _ _ ih => exact ih
  rcases h.reached with he | ha
  · exact he.symm
  · exact (hroot ha).elim

/-- What is held on a stack that has no parent makes its outline. -/
theorem outline_of_held {x : Nat} (hheld : heldBy dom' x = heldBy dom x)
    (h : outlineOf dom x = some (none, handlers))
    (hlink : ∀ q, linksOf dom'.pool x ≠ some (some q)) :
    outlineOf dom' x = some (none, handlers) := by
  obtain ⟨i, hi, hio⟩ := Option.map_eq_some_iff.mp h
  unfold heldBy at hheld
  rw [hi] at hheld
  obtain ⟨j, hj, hjh⟩ := Option.map_eq_some_iff.mp hheld
  have hparent : j.parent = none := by
    cases hp : j.parent with
    | none => rfl
    | some q =>
        refine absurd ?_ (hlink q)
        rw [linksOf_some hj, hp]
  have hhandlers : (outline j).2 = (outline i).2 := by
    show (held j).2 = (held i).2
    rw [hjh]
  unfold outlineOf
  rw [hj]
  refine congrArg some (Prod.ext hparent ?_)
  rw [hhandlers, hio]

theorem homeAfter_of_outline {o : Option Nat × Value × Value × Value}
    (h : outlineOf c'.state.dom home = some o) : homeAfter c' home = home := by
  obtain ⟨i, hi, -⟩ := Option.map_eq_some_iff.mp h
  unfold homeAfter
  rw [hi]
  rfl

/-- The running stack, moved or not. -/
theorem homeAfter_running (c' : Ctl (Machine ω)) (hsp : Spares dom c'.state.dom) (hcur : dom.currentStack = home)
    (h : outlineOf dom home = some (none, handlers)) :
    homeAfter c' home = c'.state.dom.currentStack := by
  obtain ⟨i, hi, -⟩ := Option.map_eq_some_iff.mp h
  unfold homeAfter
  split
  · next hsome =>
      by_contra hne
      have hgone := hsp.freed (by rw [hcur]; exact Store.lt_fresh_of_get hi)
        (fun e => hne (hcur.symm.trans e.symm))
      rw [hcur] at hgone
      rw [hgone] at hsome
      cases hsome
  · rfl

theorem framesOf_running (hcur : m.dom.currentStack = home) : framesOf home m = m.sp := by
  unfold framesOf
  rw [if_pos hcur]

theorem wordsOf_of_held {x : Nat} (h : heldBy dom' x = heldBy dom x) :
    wordsOf dom' x = wordsOf dom x := by
  rw [wordsOf_held, h, ← wordsOf_held]

/-- The frames of a parked fiber are the words it holds. -/
theorem framesOf_held {m' : Machine ω} (hcur : m.dom.currentStack ≠ home)
    (hcur' : m'.dom.currentStack ≠ home) (h : wordsOf m'.dom home = wordsOf m.dom home) :
    framesOf home m' = framesOf home m := by
  unfold framesOf
  rw [if_neg hcur, if_neg hcur', h]

/-! ## One step inside the call -/

/-- A step that stays on its fiber, from a fiber above `home`. -/
theorem Inside.stays_above (h : Inside base handlers (c, home))
    (hcur : c.state.dom.currentStack ≠ home) (hsp : Spares c.state.dom dom') :
    dom'.currentStack ≠ home ∧ Around (linksOf dom'.pool) dom'.currentStack home ∧
      outlineOf dom' home = some (none, handlers) ∧
      wordsOf dom' home = wordsOf c.state.dom home := by
  rcases h.reached with he | ha
  · exact absurd he.symm hcur
  · obtain ⟨i, hi, hio⟩ := Option.map_eq_some_iff.mp h.outline
    obtain ⟨hi', hne⟩ := hsp.around ha hi
    refine ⟨fun e => hne e.symm, hsp.still_around ha hi, ?_, ?_⟩
    · unfold outlineOf
      rw [hi']
      exact congrArg some hio
    · unfold wordsOf
      rw [hi', hi]

/-- A step that stays on its fiber. -/
theorem Inside.stays (h : Inside base handlers (c, home)) (hsp : Spares c.state.dom c'.state.dom)
    (hgo : ∀ r m', c' ≠ .halted r m')
    (hframes : c.state.dom.currentStack = home →
      ∃ above, framesOf (homeAfter c' home) c'.state = above ++ base) :
    Inside base handlers (c', homeAfter c' home) := by
  by_cases hcur : c.state.dom.currentStack = home
  · have hhome : homeAfter c' home = c'.state.dom.currentStack :=
      homeAfter_running c' hsp hcur h.outline
    refine ⟨hgo, Or.inl hhome, ?_, hframes hcur⟩
    show outlineOf c'.state.dom (homeAfter c' home) = _
    rw [hhome, hsp.running, hcur]
    exact h.outline
  · obtain ⟨hne, hreach, hout, hwords⟩ := h.stays_above hcur hsp
    have hhome : homeAfter c' home = home := homeAfter_of_outline hout
    rw [hhome]
    refine ⟨hgo, Or.inr hreach, hout, ?_⟩
    obtain ⟨above, hab⟩ := h.frames
    exact ⟨above, (framesOf_held hcur hne hwords).trans hab⟩

/-- The running fiber is given up, so it is one above `home`. -/
theorem Inside.climbs (h : Inside base handlers (c, home)) (hsp : Spares c.state.dom m.dom)
    (hcl : Climbs m c') (hlink : ∀ q, linksOf c'.state.dom.pool home ≠ some (some q)) :
    Inside base handlers (c', homeAfter c' home) := by
  have hcur : c.state.dom.currentStack ≠ home := by
    rintro rfl
    have hroot := linksOf_outline h.outline
    have hroot' := hsp.links_running.trans hroot
    rw [hcl.parent] at hroot'
    cases hroot'
  obtain ⟨hne, hreach, hout, hwords⟩ := h.stays_above hcur hsp
  have hheld := hcl.kept (Ne.symm hne)
  have hout' : outlineOf c'.state.dom home = some (none, handlers) :=
    outline_of_held hheld hout hlink
  have hhome : homeAfter c' home = home := homeAfter_of_outline hout'
  have hwords' : wordsOf c'.state.dom home = wordsOf c.state.dom home :=
    (wordsOf_of_held hheld).trans hwords
  rw [hhome]
  refine ⟨?_, ?_, hout', ?_⟩
  · rintro r m' rfl
    obtain ⟨m1, hm1⟩ := hcl.label
    cases hm1
  · refine hreach.climb hcl.parent (fun y z hy hyz => ?_)
    rw [linksOf_of_get (hcl.others hy hyz)]
    exact hyz
  · obtain ⟨above, hab⟩ := h.frames
    by_cases hcur' : c'.state.dom.currentStack = home
    · -- back on `home`: its words make room for new ones
      obtain ⟨i, w0, w1, rest, new, hi, hw, -, hsp'⟩ :=
        hcl.sp (fun e => hne (e.symm.trans hcur'))
      rw [hcur'] at hi
      have hrest : framesOf home c.state = rest := by
        unfold framesOf
        rw [if_neg hcur, ← hwords]
        unfold wordsOf
        rw [hi]
        show i.words.drop 2 = rest
        rw [hw]
        rfl
      refine ⟨new ++ above, ?_⟩
      show framesOf home c'.state = _
      rw [framesOf_running hcur', hsp', List.append_assoc, ← hab]
      exact congrArg (new ++ ·) hrest.symm
    · exact ⟨above, (framesOf_held hcur hcur' hwords').trans hab⟩

/-- A chain is put on top of the running fiber. -/
theorem Inside.descends {s : Nat} (h : Inside base handlers (c, home))
    (hdom : m.dom = c.state.dom) (hd : Descends s m c')
    (hlink : ∀ q, linksOf c'.state.dom.pool home ≠ some (some q))
    (hframes : c.state.dom.currentStack = home →
      ∃ above, framesOf (homeAfter c' home) c'.state = above ++ base) :
    Inside base handlers (c', homeAfter c' home) := by
  have hout : outlineOf m.dom home = some (none, handlers) := by
    rw [hdom]
    exact h.outline
  have hout' : outlineOf c'.state.dom home = some (none, handlers) := by
    by_cases hcur : m.dom.currentStack = home
    · obtain ⟨i, hi, hparked⟩ := hd.parked
      rw [hcur] at hi hparked
      have hsaved : outlineOf ({ m.dom with
          pool := m.dom.pool.put home { i with words := m.sp } } : Domain ω) home
          = some (none, handlers) := by
        unfold outlineOf
        rw [Store.get_put_self _ hi]
        unfold outlineOf at hout
        rw [hi] at hout
        exact hout
      refine outline_of_held ?_ hsaved hlink
      rw [hparked]
      unfold heldBy
      rw [Store.get_put_self _ hi]
      rfl
    · exact outline_of_held (hd.kept (Ne.symm hcur)) hout hlink
  have hhome : homeAfter c' home = home := homeAfter_of_outline hout'
  refine ⟨?_, ?_, ?_, ?_⟩
  · rintro r m' rfl
    obtain ⟨m1, hm1⟩ := hd.label
    cases hm1
  · show Reaches _ _ (homeAfter c' home)
    rw [hhome]
    refine h.reached.through (b := c.state.dom.currentStack) ?_ (fun y z hyz => ?_)
    · rw [← hdom]
      exact Descends.reaches hd
    · rw [← hdom] at hyz
      exact Descends.keeps hd hyz
  · show outlineOf _ (homeAfter c' home) = _
    rw [hhome]
    exact hout'
  · by_cases hcur : c.state.dom.currentStack = home
    · exact hframes hcur
    · have hcur' : c'.state.dom.currentStack ≠ home := by
        intro he
        -- the chain of a fiber without a parent is that fiber
        obtain ⟨l, last, hl, hlast, hlinks⟩ := hd.links
        rw [← hd.current, he] at hl hlast
        obtain rfl : l = [] := by
          cases l with
          | nil => rfl
          | cons y l =>
              have := hl.1
              rw [linksOf_outline hout] at this
              cases this
        obtain rfl : home = last := Option.some.inj hlast
        refine hlink m.dom.currentStack ?_
        rw [hlinks, Function.update_self]
      obtain ⟨above, hab⟩ := h.frames
      refine ⟨above, ?_⟩
      show framesOf (homeAfter c' home) c'.state = _
      rw [hhome]
      refine (framesOf_held hcur hcur' ?_).trans hab
      have hne : home ≠ m.dom.currentStack := by
        rw [hdom]
        exact Ne.symm hcur
      rw [wordsOf_of_held (hd.kept hne), hdom]

/-! ## The two ways out -/

/-- By how many words the saved `sp` of a stack is above its end. -/
def aboveOf (dom : Domain ω) (s : Nat) : Option Nat := (dom.pool.get s).map StackInfo.above

/-- What `caml_interprete` has left when it returns. -/
structure Left (act : Activation) (base old : List Value) (handlers : Value × Value × Value)
    (s : Ctl (Machine ω) × Nat) : Prop where
  ended : ∃ r m', s.1 = .halted r m'
  fiber : s.1.state.dom.currentStack = s.2
  outline : outlineOf s.1.state.dom s.2 = some (none, handlers)
  trap : s.1.state.dom.trapSpOff = act.initialTrapSpOff
  external : s.1.state.dom.externalRaise = act.initialExternalRaise
  value : ∀ {v m'}, s.1 = .halted (.value v) m' → wordsOf m'.dom s.2 = some old
  exception : ∀ {e m'}, s.1 = .halted (.exception e) m' → (∃ above,
    wordsOf m'.dom s.2 = some (wordsFrom (above ++ base) act.initialStackWords.toInt.toNat)) ∧
    aboveOf m'.dom s.2 = some (-act.initialStackWords.toInt).toNat

variable {closure : Value} {old : List Value} {s s' : Ctl (Machine ω) × Nat}

/-- Both exits write `sp` to the running stack. -/
theorem left_of_put {r : Result} {i j : StackInfo} {m' : Machine ω}
    (hcur : m.dom.currentStack = home) (hout : outlineOf m.dom home = some (none, handlers))
    (hi : m.dom.pool.get m.dom.currentStack = some i) (hj : outline j = outline i)
    (hm' : m'.dom = { m.dom with
      pool := m.dom.pool.put m.dom.currentStack j
      externalRaise := act.initialExternalRaise, trapSpOff := act.initialTrapSpOff })
    (hvalue : ∀ v, r = .value v → j.words = old)
    (hexn : ∀ e, r = .exception e →
      (∃ above, j.words = wordsFrom (above ++ base) act.initialStackWords.toInt.toNat) ∧
        j.above = (-act.initialStackWords.toInt).toNat) :
    Left act base old handlers (.halted r m', homeAfter (.halted r m') home) := by
  rw [hcur] at hi
  have hpool : m'.dom.pool.get home = some j := by
    rw [hm', hcur]
    exact Store.get_put_self _ hi
  have hout' : outlineOf m'.dom home = some (none, handlers) := by
    unfold outlineOf at hout ⊢
    rw [hi] at hout
    rw [hpool, ← hout]
    exact congrArg some hj
  have hwords : wordsOf m'.dom home = some j.words := by
    unfold wordsOf
    rw [hpool]
    rfl
  have hhome : homeAfter (.halted r m') home = home := homeAfter_of_outline hout'
  rw [hhome]
  refine ⟨⟨_, _, rfl⟩, ?_, hout', ?_, ?_, fun {v m1} he => ?_, fun {e m1} he => ?_⟩
  · show m'.dom.currentStack = home
    rw [hm']
    exact hcur
  · show m'.dom.trapSpOff = _
    rw [hm']
  · show m'.dom.externalRaise = _
    rw [hm']
  · obtain ⟨hr, rfl⟩ := Ctl.halted.inj he
    rw [← hvalue v hr]
    exact hwords
  · obtain ⟨hr, rfl⟩ := Ctl.halted.inj he
    obtain ⟨⟨above, hab⟩, habove⟩ := hexn e hr
    refine ⟨⟨above, hab ▸ hwords⟩, ?_⟩
    unfold aboveOf
    rw [hpool]
    exact congrArg some habove

/-- The exception result. -/
theorem Inside.exits {r : Result} {m' : Machine ω} (h : Inside base handlers (c, home))
    (hown : OwnFrames rt act prog cont parent base (c, home))
    (hs : machineStep rt act c = .ok (.halted r m')) :
    Left act base old handlers (.halted r m', homeAfter (.halted r m') home) := by
  obtain ⟨above, hab⟩ := h.frames
  rcases step_halts hs with ⟨hstop, -⟩ | ⟨m, i, rfl, hi, hp, dom, rfl, hdom, rfl⟩
  · -- the called code has no `STOP`
    obtain ⟨hcur, hno⟩ := hown.stop hstop
    rw [framesOf_running hcur] at hab
    exact absurd hab (hno above)
  · have hroot : linksOf m.dom.pool m.dom.currentStack = some none := by
      rw [linksOf_some hi, hp]
    have hcur : m.dom.currentStack = home := h.of_root hroot
    have hsp : m.sp = above ++ base := (framesOf_running (m := m) hcur).symm.trans hab
    obtain ⟨j, hj, hd⟩ := bind_eq_ok.mp hdom
    obtain rfl := Except.ok.inj hd
    refine left_of_put (j := { j with
      words := wordsFrom m.sp act.initialStackWords.toInt.toNat
      above := (-act.initialStackWords.toInt).toNat }) hcur h.outline (stack_ok hj) rfl rfl
      (fun v hv => ?_) (fun e _ => ⟨⟨above, ?_⟩, rfl⟩)
    · cases hv
    · rw [hsp]

/-- `do_return` on the frame of the callback. -/
theorem doReturn_base (h : m.sp = baseWords prog closure old) :
    doReturn m = .ok (.next { m with
      pc := prog + 16#64, env := valUnit, extraArgs := 0#63, sp := closure :: old }) := by
  have hlong : longVal (valLong 0#63) = .ok 0#63 := longVal_valLong _
  unfold doReturn
  rw [h]
  unfold baseWords
  simp only [codeOf_ofCode, hlong, bind, Except.bind]

/-- The call returns to the code of the callback. -/
theorem Inside.returns (hk : Considerate rt)
    (h : Inside (baseWords prog closure old) handlers (c, home))
    (hcur : c.state.dom.currentStack = home) (hat : AtDoReturn rt c m)
    (hsp : m.sp = baseWords prog closure old) (hs : machineStep rt act c = .ok c') :
    Returned (prog + 16#64) (closure :: old) handlers (c', homeAfter c' home) := by
  rw [hat.step act, doReturn_base hsp] at hs
  obtain rfl := Except.ok.inj hs
  have hspares := hat.spares hk
  have hhome := homeAfter_running (.next { m with
    pc := prog + 16#64, env := valUnit, extraArgs := 0#63, sp := closure :: old })
    hspares hcur h.outline
  rw [hhome]
  refine ⟨⟨_, rfl, rfl, rfl⟩, rfl, ?_⟩
  show outlineOf m.dom m.dom.currentStack = _
  rw [hspares.running, hcur]
  exact h.outline

/-- **ONE STEP** of the called code. -/
theorem Inside.step (hk : Considerate rt)
    (h : Inside (baseWords prog closure old) handlers s)
    (hown : OwnFrames rt act prog cont parent (baseWords prog closure old) s)
    (hs : homeStep rt act s = .ok s') :
    Inside (baseWords prog closure old) handlers s' ∨
      Returned (prog + 16#64) (closure :: old) handlers s' ∨
      Left act (baseWords prog closure old) old handlers s' := by
  obtain ⟨c, home⟩ := s
  obtain ⟨c', hc', hs⟩ := bind_eq_ok.mp hs
  obtain rfl := Except.ok.inj hs
  by_cases hhalt : ∃ r m', c' = .halted r m'
  · obtain ⟨r, m', rfl⟩ := hhalt
    exact Or.inr (Or.inr (h.exits hown hc'))
  · have hgo : ∀ r m', c' ≠ .halted r m' := fun r m' e => hhalt ⟨r, m', e⟩
    by_cases hret : c.state.dom.currentStack = home ∧
        ∃ m, AtDoReturn rt c m ∧ m.sp = baseWords prog closure old
    · obtain ⟨hcur, m, hat, hsp⟩ := hret
      exact Or.inr (Or.inl (h.returns hk hcur hat hsp hc'))
    · have hframes : c.state.dom.currentStack = home →
          ∃ above, framesOf (homeAfter c' home) c'.state
            = above ++ baseWords prog closure old := by
        intro hcur
        obtain ⟨above, hab⟩ := h.frames
        rw [framesOf_running hcur] at hab
        rcases hown.frames above hcur hab hc' hgo with hnew | hat
        · exact hnew
        · exact absurd ⟨hcur, hat⟩ hret
      refine Or.inl ?_
      cases step_switches hk hc' with
      | stays hsp => exact h.stays hsp hgo hframes
      | climbs hsp hcl hop =>
          refine h.climbs hsp hcl ?_
          rcases hop with ⟨op, hex, hop⟩ | hget
          · exact hown.effects hex hop hc'
          · -- a fiber that ends leaves the others alone
            intro q hq
            have hcur : c.state.dom.currentStack ≠ home := by
              rintro rfl
              have hroot := hsp.links_running.trans (linksOf_outline h.outline)
              rw [hcl.parent] at hroot
              cases hroot
            obtain ⟨hne, -, hout, -⟩ := h.stays_above hcur hsp
            rw [linksOf_of_get (hget home (Ne.symm hne)), linksOf_outline hout] at hq
            cases hq
      | descends hdom hd hop =>
          obtain ⟨op, hex, hop⟩ := hop
          exact h.descends hdom hd (hown.effects hex hop hc') hframes

/-- `POP 1` in the code of the callback. -/
theorem Returned.pop (h : Returned (prog + 16#64) (closure :: old) handlers s)
    (hcode : CallbackCode prog s.1.state.mem) (hs : homeStep rt act s = .ok s') :
    Returned (prog + 24#64) old handlers s' := by
  obtain ⟨c, home⟩ := s
  obtain ⟨c', hc', hs⟩ := bind_eq_ok.mp hs
  obtain rfl := Except.ok.inj hs
  obtain ⟨m, rfl, hpc, hsp⟩ := h.at_pc
  replace hcode : CallbackCode prog m.mem := hcode
  have hex : executing (.next m) = some .POP := by
    show decode (m.mem.code m.pc) = _
    rw [hpc, hcode.pop, decode_code]
  have hone : (fetched (.next m)).operand = 1#32 := by
    show m.mem.code (m.pc + 4#64) = _
    rw [hpc, BitVec.add_assoc]
    exact hcode.one
  rw [machineStep_executing hex] at hc'
  obtain ⟨m1, hm1, hc'⟩ := bind_eq_ok.mp hc'
  obtain rfl := Except.ok.inj hc'
  obtain ⟨core, hcore, hm1⟩ := bind_eq_ok.mp hm1
  obtain rfl := Except.ok.inj hm1
  obtain ⟨sp, hdrop, hcore⟩ := bind_eq_ok.mp hcore
  obtain rfl := Except.ok.inj hcore
  rw [hone] at hdrop
  change spDrop m.sp 1 = _ at hdrop
  rw [hsp] at hdrop
  obtain rfl : old = sp := Except.ok.inj hdrop
  have hhome : homeAfter (.next { m with pc := m.pc + 4#64 + 4#64, sp := old }) home = home :=
    homeAfter_of_outline h.outline
  refine ⟨⟨_, rfl, ?_, rfl⟩, ?_, ?_⟩
  · show m.pc + 4#64 + 4#64 = _
    rw [hpc, BitVec.add_assoc, BitVec.add_assoc]
    rfl
  · exact h.fiber.trans hhome.symm
  · exact (congrArg (outlineOf m.dom) hhome).trans h.outline

/-- `STOP` in the code of the callback. -/
theorem Returned.stop (h : Returned (prog + 24#64) old handlers s)
    (hcode : CallbackCode prog s.1.state.mem) (hs : homeStep rt act s = .ok s') :
    Left act base old handlers s' := by
  obtain ⟨c, home⟩ := s
  obtain ⟨c', hc', hs⟩ := bind_eq_ok.mp hs
  obtain rfl := Except.ok.inj hs
  obtain ⟨m, rfl, hpc, hsp⟩ := h.at_pc
  replace hcode : CallbackCode prog m.mem := hcode
  have hex : executing (.next m) = some .STOP := by
    show decode (m.mem.code m.pc) = _
    rw [hpc, hcode.stop, decode_code]
  rw [machineStep_executing hex] at hc'
  obtain ⟨dom, hdom, hc'⟩ := bind_eq_ok.mp hc'
  obtain rfl := Except.ok.inj hc'
  change m.dom.saveSp m.sp = _ at hdom
  obtain ⟨j, hj, hd⟩ := bind_eq_ok.mp hdom
  obtain rfl := Except.ok.inj hd
  refine left_of_put (m := m) (j := { j with words := m.sp }) h.fiber h.outline (stack_ok hj)
    rfl rfl (fun _ _ => hsp) (fun e he => ?_)
  cases he

/-- **A WHOLE RUN**, up to its end. -/
theorem Inside.run (hk : Considerate rt) {past : List (Ctl (Machine ω) × Nat)}
    {s0 : Ctl (Machine ω) × Nat} {r : Result}
    (h0 : Inside (baseWords prog closure old) handlers s0)
    (hrun : Run (homeStep rt act) s0 past (.halted r m, home))
    (hown : ∀ x ∈ past, OwnFrames rt act prog cont parent (baseWords prog closure old) x) :
    Left act (baseWords prog closure old) old handlers (.halted r m, home) := by
  have hinv := Run.invariant
    (G := OwnFrames rt act prog cont parent (baseWords prog closure old))
    (P := fun _ x => Inside (baseWords prog closure old) handlers x ∨
      Returned (prog + 16#64) (closure :: old) handlers x ∨
      Returned (prog + 24#64) old handlers x ∨
      Left act (baseWords prog closure old) old handlers x)
    (Or.inl h0) (fun _ t u ht hG hs => ?_) hrun hown
  · rcases hinv with h | h | h | h
    · exact absurd rfl (h.going r m)
    · obtain ⟨m', hm', -⟩ := h.at_pc
      cases hm'
    · obtain ⟨m', hm', -⟩ := h.at_pc
      cases hm'
    · exact h
  · rcases ht with h | h | h | h
    · rcases h.step hk hG hs with h' | h' | h'
      · exact Or.inl h'
      · exact Or.inr (Or.inl h')
      · exact Or.inr (Or.inr (Or.inr h'))
    · exact Or.inr (Or.inr (Or.inl (h.pop hG.code hs)))
    · exact Or.inr (Or.inr (Or.inr (h.stop hG.code hs)))
    · obtain ⟨c', hc', -⟩ := bind_eq_ok.mp hs
      obtain ⟨r', m', hend⟩ := h.ended
      rw [hend] at hc'
      cases hc'

/-! ## The whole callback -/

/-- The state after its first instruction, which loads the closure. -/
def applying (prog : CodePtr) (ctx : Nat) (closure : Value) (mem : Mem) (dom : Domain ω)
    (words : List Value) : Ctl (Machine ω) :=
  .next { entry prog ctx mem dom words with pc := prog + 8#64, accu := closure }

variable {args : List Value} {mem mem1 : Mem} {dom1 : Domain ω} {i : StackInfo} {ctx : Nat}

/-- What `caml_interprete` finds. -/
structure Entered (prog : CodePtr) (closure : Value) (args : List Value) (mem : Mem)
    (dom : Domain ω) (i : StackInfo) (cont : Value) (mem1 : Mem) (dom1 : Domain ω) : Prop where
  few : args.length + 4 ≤ 256
  current : dom1.currentStack = dom.currentStack
  stack : dom1.pool.get dom.currentStack = some { i with
    words := args ++ baseWords prog closure i.words, parent := none }
  trap : dom1.trapSpOff = dom.trapSpOff
  external : dom1.externalRaise = dom.externalRaise
  code : mem1.code = (setOperands prog args.length mem).code
  cont : field mem1.heap cont 0 = .ok (valPtr i.parent)

/-- What `caml_callbackN_exn` has done when it enters the interpreter. -/
theorem entered (hi : dom.pool.get dom.currentStack = some i)
    (h : enterCallback prog closure args mem dom = .ok (cont, mem1, dom1)) :
    Entered prog closure args mem dom i cont mem1 dom1 := by
  obtain ⟨u, hfew, h⟩ := bind_eq_ok.mp h
  obtain ⟨sp, hsp, h⟩ := bind_eq_ok.mp h
  obtain ⟨dom2, hdom2, h⟩ := bind_eq_ok.mp h
  obtain ⟨j, hj, rfl⟩ := loadSp_ok hsp
  obtain rfl : i = j := Option.some.inj (hi.symm.trans hj)
  rw [saveSp_of_get _ hi] at hdom2
  obtain rfl := Except.ok.inj hdom2
  have hget := Store.get_put_self
    { i with words := args ++ baseWords prog closure i.words } hi
  obtain ⟨k, hk, h⟩ := bind_eq_ok.mp h
  obtain rfl := Option.some.inj (hget.symm.trans (stack_ok hk))
  obtain ⟨dom3, hdom3, h⟩ := bind_eq_ok.mp h
  obtain ⟨k, hk', hput, -, -⟩ := setParent_get hdom3
  obtain rfl := Option.some.inj (hget.symm.trans hk')
  have hall := Except.ok.inj h
  obtain ⟨l, -, hd⟩ := bind_eq_ok.mp hdom3
  obtain rfl := Except.ok.inj hd
  cases hall
  refine ⟨of_decide_eq_true (camlAssert_eq_ok.mp hfew), rfl, hput, rfl, rfl, rfl, ?_⟩
  exact field_ptr_zero (i := 0) (Store.get_alloc_fresh _ _) rfl

/-- Storing the number of arguments leaves the instructions of the callback code. -/
theorem CallbackCode.operands (h : CallbackCode prog mem) (narg : Nat) :
    CallbackCode prog (setOperands prog narg mem) := by
  have hset : ∀ {pc : CodePtr}, pc ≠ prog + 4#64 → pc ≠ prog + 12#64 →
      (setOperands prog narg mem).code pc = mem.code pc := by
    intro pc h4 h12
    show Function.update _ _ _ pc = _
    rw [Function.update_of_ne h12, Function.update_of_ne h4]
  constructor
  · rw [hset (by bv_omega) (by bv_omega)]
    exact h.acc
  · rw [hset (by bv_omega) (by bv_omega)]
    exact h.apply
  · rw [hset (by bv_omega) (by bv_omega)]
    exact h.pop
  · rw [hset (by bv_omega) (by bv_omega)]
    exact h.one
  · rw [hset (by bv_omega) (by bv_omega)]
    exact h.stop

/-- Callback code is what the memory has at its addresses. -/
theorem CallbackCode.congr (h : CallbackCode prog mem) (hcode : mem1.code = mem.code) :
    CallbackCode prog mem1 := by
  constructor
  · rw [hcode]
    exact h.acc
  · rw [hcode]
    exact h.apply
  · rw [hcode]
    exact h.pop
  · rw [hcode]
    exact h.one
  · rw [hcode]
    exact h.stop

theorem length_wordsFrom (sp : List Value) (n : Nat) : (wordsFrom sp n).length = n := by
  unfold wordsFrom
  rw [List.length_append, List.length_replicate, List.length_drop]
  omega

/-- `Stack_high - n` words, as far as they are among the older ones. -/
theorem wordsFrom_append (above old : List Value) {n : Nat} (hn : old.length ≤ n) :
    ∃ frame, wordsFrom (above ++ old) n = frame ++ old ∧ frame.length = n - old.length := by
  refine ⟨List.replicate (n - (above ++ old).length) .undef ++
    above.drop ((above ++ old).length - n), ?_, ?_⟩
  · unfold wordsFrom
    rw [List.drop_append_of_le_length (by rw [List.length_append]; omega), List.append_assoc]
  · rw [List.length_append, List.length_replicate, List.length_drop, List.length_append]
    omega

end CamlCallback
