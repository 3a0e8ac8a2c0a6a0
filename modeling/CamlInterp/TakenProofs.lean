import CamlInterp.TrapProofs
import CamlInterp.CallProofs

/-! # Resuming a continuation that has been taken

    `RESUME` and `RESUMETERM` have already rewritten the top of the stack when
    `do_resume` finds the NULL stack of a continuation that was taken before.  The
    raise that follows looks at nothing but the words under those the instruction
    took, and throws the rest away: it is the raise of `Continuation_already_taken`
    in place of the instruction. -/

namespace CamlTaken

open CellStore CamlValue CamlOpcode CamlMachine CamlControl CamlStep CamlFiber CamlEffect
  CamlUnhandled CamlPassage CamlHandlerCall CamlTrap CamlCall

variable {ω : Type}

/-- The debugger leaves the fibers and `trap_sp_off` alone. -/
def Watches (rt : Runtime ω) : Prop :=
  ∀ ev mem dom, (rt.debugger ev mem dom).2.pool = dom.pool ∧
    (rt.debugger ev mem dom).2.currentStack = dom.currentStack ∧
    (rt.debugger ev mem dom).2.trapSpOff = dom.trapSpOff

/-- What a raise finds is among the words `older`: the current trap frame or, without
    one, the words `caml_interprete` was entered with.  The running fiber is not
    its own parent. -/
structure Spares (act : Activation) (d : Domain ω) (older : List Value) : Prop where
  trap : d.trapSpOff.toInt ≤ 0 → -d.trapSpOff.toInt ≤ older.length
  entry : ∀ {i}, 0 < d.trapSpOff.toInt → d.pool.get d.currentStack = some i → i.parent = none →
    act.initialStackWords.toInt ≤ older.length
  parent : ∀ {i}, d.pool.get d.currentStack = some i → i.parent ≠ some d.currentStack

/-- The machine is at a `RESUME` or a `RESUMETERM` on the NULL stack, with `older`
    under the words the instruction takes: its two operands, and for `RESUMETERM n`
    the frame of `n` words that they belong to. -/
structure Taken (act : Activation) (m : Machine ω) (older : List Value) : Prop where
  accu : m.accu = valPtr none
  form : (m.mem.code m.pc = Opcode.RESUME.code ∧ ∃ fn arg, m.sp = fn :: arg :: older) ∨
    (m.mem.code m.pc = Opcode.RESUMETERM.code ∧ ∃ fn arg frame,
      m.sp = fn :: arg :: (frame ++ older) ∧
      (m.mem.code (m.pc + 4#64)).toInt = (frame.length : Int) + 2)
  spared : Spares act m.dom older

/-- The state of the C code outside the interpreter, replaced. -/
def withWorld (w : ω) (m : Machine ω) : Machine ω := { m with dom := { m.dom with world := w } }

variable {rt : Runtime ω} {act : Activation} {m : Machine ω} {older : List Value}

/-! ## What a raise looks at -/

/-- The words from a lower `sp` on, when it is among the older words. -/
theorem wordsFrom_append {n : Nat} (above : List Value) (h : n ≤ older.length) :
    wordsFrom (above ++ older) n = older.drop (older.length - n) := by
  unfold wordsFrom
  rw [List.length_append, Nat.sub_eq_zero_of_le (by omega),
    show above.length + older.length - n = above.length + (older.length - n) by omega,
    List.drop_append]
  simp

theorem spDrop_older {depth : Int} (above : List Value) (h0 : 0 ≤ depth)
    (h : depth ≤ older.length) :
    spDrop (above ++ older) (((above ++ older).length : Int) - depth)
      = .ok (older.drop (older.length - depth.toNat)) := by
  unfold spDrop
  rw [List.length_append, if_pos (by omega),
    show (((above.length + older.length : Nat) : Int) - depth).toNat
      = above.length + (older.length - depth.toNat) by omega, List.drop_append]
  simp

/-- A raise with no trap frame on a stack that has been freed. -/
theorem raiseNotrace_gone (htrap : 0 < m.dom.trapSpOff.toInt)
    (hi : m.dom.pool.get m.dom.currentStack = none) :
    raiseNotrace act m = .error .undefined := by
  unfold raiseNotrace Domain.stack
  rw [if_pos (slt_of_pos htrap), hi]
  rfl

/-- A raise into the trap frame `frame`. -/
def catchIn (m : Machine ω) (frame : List Value) : C (Ctl (Machine ω)) :=
  match frame with
  | w0 :: w1 :: w2 :: w3 :: rest => do
      .ok (.next { m with
        pc := ← codeOf w0, env := w2, extraArgs := ← longVal w3, sp := rest,
        dom := { m.dom with trapSpOff := ← longVal w1 } })
  | _ => .error .undefined

theorem raiseNotrace_catchIn (htrap : ¬ 0 < m.dom.trapSpOff.toInt) :
    raiseNotrace act m
      = spDrop m.sp ((m.sp.length : Int) - -m.dom.trapSpOff.toInt) >>= catchIn m := by
  have hnot : ¬ (0#63).slt m.dom.trapSpOff = true := by
    rw [BitVec.slt_iff_toInt_lt]
    exact htrap
  unfold raiseNotrace
  rw [if_neg hnot]
  rfl

/-- **A RAISE FORGETS** what is above the words that are spared. -/
theorem raiseNotrace_older (h : Spares act m.dom older) (above above' : List Value) :
    raiseNotrace act { m with sp := above ++ older }
      = raiseNotrace act { m with sp := above' ++ older } := by
  by_cases htrap : 0 < m.dom.trapSpOff.toInt
  · cases hi : m.dom.pool.get m.dom.currentStack with
    | none =>
        have hgone : ∀ l, raiseNotrace act { m with sp := l } = .error .undefined :=
          fun l => raiseNotrace_gone (m := { m with sp := l }) htrap hi
        rw [hgone, hgone]
    | some i =>
        cases hp : i.parent with
        | none =>
            have hle : act.initialStackWords.toInt.toNat ≤ older.length :=
              Int.toNat_le.mpr (h.entry htrap hi hp)
            refine (raiseNotrace_returns (m := { m with sp := above ++ older }) htrap hi hp).trans
              (Eq.symm ((raiseNotrace_returns (m := { m with sp := above' ++ older })
                htrap hi hp).trans ?_))
            dsimp only
            rw [wordsFrom_append above hle, wordsFrom_append above' hle]
        | some p =>
            have hne : p ≠ m.dom.currentStack := fun e => h.parent hi (hp.trans (by rw [e]))
            have hleave : ∀ l, raiseNotrace act { m with sp := l } = leaveFor m p i.handleExn :=
              fun l => (raiseNotrace_leaves (m := { m with sp := l }) htrap hi hp).trans
                (leaveFor_sp hi hne _ _)
            rw [hleave, hleave]
  · have hle := h.trap (Int.not_lt.mp htrap)
    have hcatch : ∀ l, raiseNotrace act { m with sp := l ++ older }
        = catchIn m (older.drop (older.length - (-m.dom.trapSpOff.toInt).toNat)) := by
      intro l
      refine (raiseNotrace_catchIn (m := { m with sp := l ++ older }) htrap).trans ?_
      dsimp only
      rw [spDrop_older l (by omega) hle]
      rfl
    rw [hcatch, hcatch]

/-! ## The world does not matter -/

/-- A result with the world replaced. -/
def inWorld (w : ω) (r : C (Ctl (Machine ω))) : C (Ctl (Machine ω)) :=
  r.map (Ctl.map (withWorld w))

theorem inWorld_bind {α : Type} (w : ω) (x : C α) (k : α → C (Ctl (Machine ω))) :
    inWorld w (x >>= k) = x >>= fun a => inWorld w (k a) := by
  cases x with
  | error f => rfl
  | ok a => rfl

theorem catchIn_world (w : ω) (m : Machine ω) (frame : List Value) :
    catchIn (withWorld w m) frame = inWorld w (catchIn m frame) := by
  unfold catchIn
  split
  · simp only [inWorld_bind]
    rfl
  · rfl

theorem leaveFor_world (w : ω) (m : Machine ω) (p : Nat) (h : Value) :
    leaveFor (withWorld w m) p h = inWorld w (leaveFor m p h) := by
  unfold leaveFor leaveStack enterParent Domain.freeStack
  simp only [inWorld_bind, bind_assoc]
  rfl

/-- A raise does not look at the world. -/
theorem raiseNotrace_world (w : ω) (m : Machine ω) :
    raiseNotrace act (withWorld w m) = inWorld w (raiseNotrace act m) := by
  by_cases htrap : 0 < m.dom.trapSpOff.toInt
  · cases hi : m.dom.pool.get m.dom.currentStack with
    | none =>
        rw [raiseNotrace_gone htrap hi, raiseNotrace_gone (m := withWorld w m) htrap hi]
        rfl
    | some i =>
        cases hp : i.parent with
        | none =>
            rw [raiseNotrace_returns htrap hi hp,
              raiseNotrace_returns (m := withWorld w m) htrap hi hp]
            rfl
        | some p =>
            rw [raiseNotrace_leaves htrap hi hp,
              raiseNotrace_leaves (m := withWorld w m) htrap hi hp, ← leaveFor_world]
            rfl
  · rw [raiseNotrace_catchIn htrap, raiseNotrace_catchIn (m := withWorld w m) htrap, inWorld_bind]
    congr 1
    funext frame
    exact catchIn_world w m frame

theorem inWorld_inWorld (w w' : ω) (r : C (Ctl (Machine ω))) :
    inWorld w (inWorld w' r) = inWorld w r := by
  cases r with
  | error f => rfl
  | ok c => cases c <;> rfl

/-! ## The two instructions -/

theorem checkTrapBarrier_sp (m : Machine ω) (words : List Value) :
    checkTrapBarrier rt { m with sp := words } = { checkTrapBarrier rt m with sp := words } := by
  unfold checkTrapBarrier
  split
  · rfl
  · rfl

/-- The label `raise_exception` with these words on the stack: `pc` may be pushed
    on them, and the backtrace is another. -/
theorem raiseException_sp (rt : Runtime ω) (m : Machine ω) (words : List Value) :
    ∃ above w, raiseException rt false { m with sp := words } = .ok (.raiseNotrace
        (withWorld w { checkTrapBarrier rt m with sp := above ++ words })) ∧
      ((checkTrapBarrier rt m).dom.backtraceActive = false →
        w = (checkTrapBarrier rt m).dom.world) := by
  unfold raiseException
  rw [checkTrapBarrier_sp]
  dsimp only
  split
  · rename_i hbt
    exact ⟨[_], _, rfl, fun h => absurd (hbt.symm.trans h) (by decide)⟩
  · exact ⟨[], _, rfl, fun _ => rfl⟩

theorem checkTrapBarrier_watched (hw : Watches rt) (m : Machine ω) :
    (checkTrapBarrier rt m).dom.pool = m.dom.pool ∧
      (checkTrapBarrier rt m).dom.currentStack = m.dom.currentStack ∧
      (checkTrapBarrier rt m).dom.trapSpOff = m.dom.trapSpOff := by
  unfold checkTrapBarrier
  split
  · exact hw _ _ _
  · exact ⟨rfl, rfl, rfl⟩

/-- The check of the trap barrier spares the fibers. -/
theorem Spares.watched (h : Spares act m.dom older) (hw : Watches rt) :
    Spares act (checkTrapBarrier rt m).dom older := by
  obtain ⟨hpool, hcur, htrap⟩ := checkTrapBarrier_watched hw m
  constructor
  · rw [htrap]
    exact h.trap
  · intro i
    rw [hpool, hcur, htrap]
    exact h.entry
  · intro i
    rw [hpool, hcur]
    exact h.parent

/-- `do_resume` on the NULL stack. -/
theorem doResume_null {e : Value} (hnull : m.accu = valPtr none)
    (he : field m.mem.heap m.mem.globalData continuationAlreadyTakenExn = .ok e)
    (fn arg : Value) (words : List Value) :
    doResume rt fn arg { m with sp := words }
      = raiseException rt false { m with accu := e, sp := words } := by
  unfold doResume
  rw [hnull, ptrVal_valPtr]
  show (field m.mem.heap m.mem.globalData continuationAlreadyTakenExn >>= _) = _
  rw [he]
  rfl

theorem spDrop_of_length {fr rest : List Value} {n : Int} (h : (fr.length : Int) = n) :
    spDrop (fr ++ rest) n = .ok rest := by
  rw [← h]
  exact spDrop_append

/-- What `RESUMETERM` leaves under two new words when it drops its frame. -/
theorem spDrop_frame (fn arg : Value) (frame older : List Value) :
    ∃ below, spDrop (fn :: arg :: (frame ++ older)) frame.length = .ok below ∧
      spDrop below 2 = .ok older := by
  have hlen : ((fn :: arg :: frame).take frame.length).length = frame.length := by
    rw [List.length_take, List.length_cons, List.length_cons]
    omega
  have hrest : ((fn :: arg :: frame).drop frame.length).length = 2 := by
    rw [List.length_drop, List.length_cons, List.length_cons]
    omega
  have hsplit : fn :: arg :: (frame ++ older) = (fn :: arg :: frame).take frame.length ++
      ((fn :: arg :: frame).drop frame.length ++ older) := by
    rw [← List.append_assoc, List.take_append_drop]
    rfl
  refine ⟨(fn :: arg :: frame).drop frame.length ++ older, ?_, ?_⟩
  · rw [hsplit]
    exact spDrop_of_length (by rw [hlen])
  · exact spDrop_of_length (by rw [hrest]; rfl)

/-- Both instructions come to `raise_exception` with the older words under others. -/
theorem Taken.step (rt : Runtime ω) {e : Value} (h : Taken act m older)
    (he : field m.mem.heap m.mem.globalData continuationAlreadyTakenExn = .ok e) :
    ∃ new, machineStep rt act (.next m) = raiseException rt false
      { m with pc := m.pc + 4#64, accu := e, sp := new ++ older } := by
  rcases h.form with ⟨hop, fn, arg, hsp⟩ | ⟨hop, fn, arg, frame, hsp, hn⟩
  · refine ⟨[valLong m.dom.trapSpOff, valLong 0#63, ofCode (m.pc + 4#64), m.env,
      valLong m.extraArgs], ?_⟩
    rw [step_at hop]
    show resume rt { m with pc := m.pc + 4#64 } = _
    unfold resume
    rw [hsp]
    exact doResume_null (m := { m with pc := m.pc + 4#64 }) h.accu he fn arg _
  · refine ⟨[valLong m.dom.trapSpOff, valLong m.extraArgs], ?_⟩
    obtain ⟨below, hbelow, hrest⟩ := spDrop_frame fn arg frame older
    have hdrop : (m.mem.code (m.pc + 4#64)).toInt - 2 = frame.length := by omega
    rw [step_at hop]
    show resumeterm rt { m with pc := m.pc + 4#64 } = _
    unfold resumeterm
    show (spAt m.sp 0 >>= fun fn => spAt m.sp 1 >>= fun arg =>
      spDrop m.sp ((m.mem.code (m.pc + 4#64)).toInt - 2) >>= fun below => _) = _
    rw [hdrop, hsp, hbelow]
    show (spDrop below 2 >>= _) = _
    rw [hrest]
    exact doResume_null (m := { m with pc := m.pc + 4#64 }) h.accu he fn arg _

/-- **RESUMING A TAKEN CONTINUATION ONLY RAISES**: the instruction leaves every fiber
    as it is, and what happens next is what happens next when `RAISE` is executed in
    its place with `Continuation_already_taken` in `accu`, the backtrace apart. -/
theorem taken_only_raises (rt : Runtime ω) (act : Activation) (hw : Watches rt) (m : Machine ω)
    (older : List Value) (h : Taken act m older) (e : Value)
    (he : field m.mem.heap m.mem.globalData continuationAlreadyTakenExn = .ok e) :
    ∃ m1 m2, machineStep rt act (.next m) = .ok (.raiseNotrace m1) ∧
      CamlUpstream.exec rt act .RAISE { m with pc := m.pc + 4#64, accu := e }
        = .ok (.raiseNotrace m2) ∧
      m1.dom.pool = m.dom.pool ∧ m1.dom.currentStack = m.dom.currentStack ∧
      machineStep rt act (.raiseNotrace m1)
        = inWorld m1.dom.world (machineStep rt act (.raiseNotrace m2)) ∧
      (m2.dom.backtraceActive = false →
        machineStep rt act (.raiseNotrace m1) = machineStep rt act (.raiseNotrace m2)) := by
  obtain ⟨taken, htaken⟩ : ∃ taken, m.sp = taken ++ older := by
    rcases h.form with ⟨-, fn, arg, hsp⟩ | ⟨-, fn, arg, frame, hsp, -⟩
    · exact ⟨[fn, arg], hsp⟩
    · exact ⟨fn :: arg :: frame, hsp⟩
  obtain ⟨new, hstep⟩ := h.step rt he
  -- both raises pass the trap barrier in the same way
  have hraise := raiseException_sp rt { m with pc := m.pc + 4#64, accu := e }
  have hspared : Spares act { m with pc := m.pc + 4#64, accu := e }.dom older := h.spared
  have hb := hspared.watched hw
  obtain ⟨hpool, hcur, -⟩ :=
    checkTrapBarrier_watched hw { m with pc := m.pc + 4#64, accu := e }
  generalize checkTrapBarrier rt { m with pc := m.pc + 4#64, accu := e } = b at *
  obtain ⟨above1, w1, h1, hw1⟩ := hraise (new ++ older)
  obtain ⟨above2, w2, h2, hw2⟩ := hraise m.sp
  have hsame : raiseNotrace act { b with sp := above1 ++ (new ++ older) }
      = raiseNotrace act { b with sp := above2 ++ m.sp } := by
    rw [htaken, ← List.append_assoc, ← List.append_assoc]
    exact raiseNotrace_older hb _ _
  refine ⟨_, _, hstep.trans h1, h2, hpool, hcur, ?_, fun hbt => ?_⟩
  · show raiseNotrace act (withWorld w1 _) = inWorld w1 (raiseNotrace act (withWorld w2 _))
    rw [raiseNotrace_world, raiseNotrace_world, inWorld_inWorld, hsame]
  · obtain rfl := hw1 hbt
    obtain rfl := hw2 hbt
    exact hsame

/-- A `RESUMETERM 3` at 0x1000 on the NULL stack, in a `try` whose handler is at
    0x1008; the globals are in block 0. -/
def spent : Machine Unit where
  pc := 0x1000#64
  sp := [valInt 1, valInt 2, valInt 3, ofCode 0x1008#64, valLong 1#63, .atom 0, valLong 2#63,
    valInt 7]
  accu := valPtr none
  env := .atom 0
  extraArgs := 0#63
  mem := {
    heap := ⟨[some ⟨0, List.replicate 14 (valInt 9)⟩]⟩
    code := assemble 0x1000#64 [Opcode.RESUMETERM.code, 3#32, Opcode.STOP.code]
    globalData := .ptr 0 0
    raiseUnhandled := valUnit }
  dom := { domainOf [mainStack] 0 with trapSpOff := -5#63 }

/-- A continuation that has been taken raises at its second resume. -/
theorem taken_only_raises_spent :
    ∃ m1 m2, machineStep quiet soleActivation (.next spent) = .ok (.raiseNotrace m1) ∧
      CamlUpstream.exec quiet soleActivation .RAISE
        { spent with pc := spent.pc + 4#64, accu := valInt 9 } = .ok (.raiseNotrace m2) ∧
      m1.dom.pool = spent.dom.pool ∧
      machineStep quiet soleActivation (.raiseNotrace m1)
        = inWorld m1.dom.world (machineStep quiet soleActivation (.raiseNotrace m2)) := by
  have hspared : Spares soleActivation spent.dom
      [ofCode 0x1008#64, valLong 1#63, .atom 0, valLong 2#63, valInt 7] := by
    refine ⟨fun _ => by decide, fun h => absurd h (by decide), fun {i} hi => ?_⟩
    obtain rfl : mainStack = i := Option.some.inj hi
    exact fun h => by cases h
  have htaken : Taken soleActivation spent
      [ofCode 0x1008#64, valLong 1#63, .atom 0, valLong 2#63, valInt 7] :=
    ⟨rfl, .inr ⟨by decide, valInt 1, valInt 2, [valInt 3], rfl, by decide⟩, hspared⟩
  obtain ⟨m1, m2, hstep, hraise, hpool, -, hsame, -⟩ := taken_only_raises quiet soleActivation
    (fun _ _ _ => ⟨rfl, rfl, rfl⟩) spent _ htaken (valInt 9) rfl
  exact ⟨m1, m2, hstep, hraise, hpool, hsame⟩

end CamlTaken
