import CamlInterp.TowerProofs
import CamlInterp.RelatedProofs

/-! # Two generations of the interpreter

    `interp-ali.c` and `interp.c` with the same C code around them, which has
    nothing pending and no debugger, on one stack that is large enough.  Their
    states correspond when the registers are the same and the stacks form a tower.
    An instruction that leaves the links alone keeps the correspondence because it
    is local; `PUSHTRAP`, `POPTRAP` and a raise are followed by hand. -/

namespace CamlGeneration

open CellStore CamlValue CamlOpcode CamlMachine CamlInstr CamlControl CamlStep CamlPassage
  CamlLocal CamlTower CamlTrap Related
open CamlAli (AliMachine AliRuntime AliActivation AliResult CamlState popFrame allocated)

variable {ω : Type}

/-! ## The C code both call -/

/-- What a primitive leaves. -/
structure Answer (ω : Type) where
  raised : Bool
  value : Value
  mem : Mem
  backtraceActive : Bool
  world : ω

/-- C code around the interpreter.  Of the stack, `caml_stash_backtrace` looks at
    the words that are not immediate integers and stops at the innermost frame. -/
structure Outside (ω : Type) where
  primitive : OpcodeWord → List Value → Mem → Bool → ω → C (Answer ω)
  stashBacktrace : Value → List Value → Option Nat → Bool → ω → ω
  eventCountHit : ω → Bool × ω
  savedInstruction : CodePtr → ω → OpcodeWord

/-- A word with the immediate integers made equal. -/
def blank : Value → Value
  | .word w => if w.getLsbD 0 then valUnit else .word w
  | v => v

/-- That code around `interp.c`. -/
def Outside.runtime (out : Outside ω) : Runtime ω where
  gcRounds := fun _ _ => 0
  checkPending := fun _ _ => false
  processPendingActions := fun mem dom => .ok (.value valUnit mem dom)
  primitive := fun w args mem dom => do
    let r ← out.primitive w args mem dom.backtraceActive dom.world
    let dom := { dom with backtraceActive := r.backtraceActive, world := r.world }
    .ok (if r.raised then .raised r.value r.mem dom else .value r.value r.mem dom)
  signalsAtRaise := fun e mem dom => (e, mem, dom)
  stackAllocOk := fun _ _ => true
  stashBacktrace := fun e sp reraise dom =>
    out.stashBacktrace e (sp.map blank)
      (if 0 < dom.trapSpOff.toInt then none else some (-dom.trapSpOff.toInt).toNat) reraise
      dom.world
  debugger := fun _ mem dom => (mem, dom)
  eventCountHit := fun dom => out.eventCountHit dom.world
  savedInstruction := fun pc dom => out.savedInstruction pc dom.world

/-- That code around `interp-ali.c`, in an activation entered with `base` words on
    the stack. -/
def Outside.aliRuntime (out : Outside ω) (base : Nat) : AliRuntime ω where
  youngExhausted := fun _ _ => false
  allocSmallDispatch := fun mem state => .ok (.value valUnit mem state)
  somethingToDo := fun _ _ => false
  processPendingActions := fun mem state => .ok (.value valUnit mem state)
  reallocStack := fun mem state => .ok (.value valUnit mem state)
  primitive := fun w args mem state => do
    let r ← out.primitive w args mem state.backtraceActive state.world
    let state := { state with backtraceActive := r.backtraceActive, world := r.world }
    .ok (if r.raised then .raised r.value r.mem state else .value r.value r.mem state)
  pendingAtRaise := fun e mem state => (e, mem, state)
  stashBacktrace := fun e sp reraise state =>
    out.stashBacktrace e (sp.map blank)
      (if state.trapsp ≤ base then none else some state.trapsp.toNat) reraise state.world
  debugger := fun _ mem state => (mem, state)
  eventCountHit := fun state => out.eventCountHit state.world
  savedInstruction := fun pc state => out.savedInstruction pc state.world

/-! ## States that correspond -/

/-- The C state around the registers: the same world, and one stack without a parent
    that has `room`. -/
structure Around (room : Nat) (dom : Domain ω) (state : CamlState ω) : Prop where
  backtraceActive : state.backtraceActive = dom.backtraceActive
  world : state.world = dom.world
  stack : ∃ i, dom.pool.get dom.currentStack = some i ∧ i.parent = none ∧
    room + stackThresholdWords ≤ i.size
  threshold : room ≤ state.stackThreshold

/-- A state of `interp.c` and one of `interp-ali.c`: the same registers and words on
    top, over the two sides of a tower. -/
def Linked (base room : Nat) (m : Machine ω) (a : AliMachine ω) : Prop :=
  ∃ d s s' fs, m.toCore = atop s d ∧ a.toCore = atop s' d ∧
    Tower base s s' m.dom.trapSpOff a.state.trapsp fs ∧ Around room m.dom a.state

/-- Two states after the return: `interp.c` has put back the caller's `trap_sp_off`. -/
def Ended (base : Nat) (m : Machine ω) (a : AliMachine ω) : Prop :=
  ∃ d s s' off fs, m.toCore = atop s d ∧ a.toCore = atop s' d ∧
    Tower base s s' off a.state.trapsp fs

/-- Both interpreters are at the same label, with states in `R`, or `Q` when they have
    returned. -/
inductive Meets {σ τ : Type} (R Q : σ → τ → Prop) : Ctl σ → Ctl τ → Prop where
  | next {m : σ} {a : τ} : R m a → Meets R Q (.next m) (.next a)
  | dispatch {m : σ} {a : τ} (w : OpcodeWord) : R m a → Meets R Q (.dispatch w m) (.dispatch w a)
  | checkStacks {m : σ} {a : τ} : R m a → Meets R Q (.checkStacks m) (.checkStacks a)
  | raiseNotrace {m : σ} {a : τ} : R m a → Meets R Q (.raiseNotrace m) (.raiseNotrace a)
  | halted {m : σ} {a : τ} (r : Result) : Q m a → Meets R Q (.halted r m) (.halted r a)

/-- Both fault, or both go on with results in `R`. -/
inductive Alike {α β : Type} (R : α → β → Prop) : C α → C β → Prop where
  | fault (e e' : Fault) : Alike R (.error e) (.error e')
  | ok {x : α} {y : β} : R x y → Alike R (.ok x) (.ok y)

/-- One step of the two interpreters. -/
abbrev Steps (base room : Nat) : C (Ctl (Machine ω)) → C (Ctl (AliMachine ω)) → Prop :=
  Alike (Meets (Linked base room) (Ended base))

theorem Both.alike {α β : Type} {R : α → β → Prop} {x : C α} {y : C β} (h : Both R x y) :
    Alike R x y := by
  cases h with
  | error e => exact Alike.fault e e
  | ok h => exact Alike.ok h

theorem Alike.trans_eq {α β : Type} {R : α → β → Prop} {x x' : C α} {y : C β}
    (h : Alike Eq x x') (h' : Alike R x' y) : Alike R x y := by
  cases h with
  | fault e e' =>
      cases h' with
      | fault _ e'' => exact Alike.fault e e''
  | ok h => rw [h]; exact h'

theorem Alike.mono {α β : Type} {R S : α → β → Prop} {x : C α} {y : C β} (h : Alike R x y)
    (hRS : ∀ a b, R a b → S a b) : Alike S x y := by
  cases h with
  | fault e e' => exact Alike.fault e e'
  | ok hab => exact Alike.ok (hRS _ _ hab)

theorem Alike.bind {α β γ δ : Type} {R : α → β → Prop} {S : γ → δ → Prop} {x : C α} {y : C β}
    {f : α → C γ} {g : β → C δ} (h : Both R x y) (hfg : ∀ a b, R a b → Alike S (f a) (g b)) :
    Alike S (x >>= f) (y >>= g) := by
  cases h with
  | error e => exact Alike.fault e e
  | ok hab => exact hfg _ _ hab

variable {out : Outside ω} {base room : Nat} {act : Activation} {act' : AliActivation}
  {d : Core} {s s' : List Value} {fs : List Nat} {dom : Domain ω} {state : CamlState ω}

/-! ## Local bodies -/

/-- The two sides of a tower under one core. -/
def Twin (s s' : List Value) (c c' : Core) : Prop := ∃ d, c = atop s d ∧ c' = atop s' d

theorem atop_nil (c : Core) : atop [] c = c := by
  unfold atop
  rw [List.append_nil]

/-- A body that reaches no link does the same on both sides. -/
theorem local_twin {off : Long} {t : Int} (ht : Tower base s s' off t fs) {f : Core → C Core}
    (hf : fs ≠ [] → Local f d) : Both (Twin s s') (f (atop s d)) (f (atop s' d)) := by
  cases fs with
  | nil =>
      -- without frames the stacks are the same, however far the body reaches
      obtain ⟨rfl, rfl⟩ := ht.nil
      rw [atop_nil]
      exact Both.refl (fun c => ⟨c, (atop_nil c).symm, (atop_nil c).symm⟩) _
  | cons h fs =>
      have hloc := hf (List.cons_ne_nil _ _)
      rw [hloc s, hloc s']
      exact Both.map (fun c => ⟨c, rfl, rfl⟩) _

/-- An instruction of both interpreters that goes on to the next one. -/
theorem next_steps (ht : Tower base s s' dom.trapSpOff state.trapsp fs)
    (har : Around room dom state) {f : Core → C Core} (hf : fs ≠ [] → Local f d) :
    Steps base room (thenNext f ⟨atop s d, dom⟩) (CamlAli.next f ⟨atop s' d, state⟩) := by
  have hb := local_twin ht hf
  unfold thenNext onCore CamlAli.next
  dsimp only
  revert hb
  generalize f (atop s d) = x
  generalize f (atop s' d) = y
  intro hb
  cases hb with
  | error e => exact Alike.fault e e
  | ok hab =>
      obtain ⟨d', rfl, rfl⟩ := hab
      exact Alike.ok (Meets.next ⟨d', s, s', fs, rfl, rfl, ht, har⟩)

/-- An instruction of both interpreters that enters a function. -/
theorem enter_steps (ht : Tower base s s' dom.trapSpOff state.trapsp fs)
    (har : Around room dom state) {f : Core → C Core} (hf : fs ≠ [] → Local f d) :
    Steps base room (CamlUpstream.enter f ⟨atop s d, dom⟩)
      (CamlAli.enter f ⟨atop s' d, state⟩) := by
  have hb := local_twin ht hf
  unfold CamlUpstream.enter onCore CamlAli.enter
  dsimp only
  revert hb
  generalize f (atop s d) = x
  generalize f (atop s' d) = y
  intro hb
  cases hb with
  | error e => exact Alike.fault e e
  | ok hab =>
      obtain ⟨d', rfl, rfl⟩ := hab
      exact Alike.ok (Meets.checkStacks ⟨d', s, s', fs, rfl, rfl, ht, har⟩)

/-! ## Reading and writing below the top -/

theorem acc_steps (ht : Tower base s s' dom.trapSpOff state.trapsp fs)
    (har : Around room dom state) {i : Int}
    (hi : ∀ h ∈ fs, ((d.sp ++ s).length : Int) - i ≠ h - 1) :
    Steps base room (thenNext (acc i) ⟨atop s d, dom⟩)
      (CamlAli.next (acc i) ⟨atop s' d, state⟩) := by
  have hat : spAt (d.sp ++ s') i = spAt (d.sp ++ s) i := ht.spAt_eq d.sp hi
  unfold thenNext onCore CamlAli.next acc
  simp only [atop, hat]
  cases spAt (d.sp ++ s) i with
  | error e => exact Alike.fault e e
  | ok v => exact Alike.ok (Meets.next ⟨{ d with accu := v }, s, s', fs, rfl, rfl, ht, har⟩)

/-- `ASSIGN` to a word that is not the link of a trap frame. -/
theorem assign_steps (ht : Tower base s s' dom.trapSpOff state.trapsp fs)
    (har : Around room dom state)
    (hi : ∀ h ∈ fs, ((d.sp ++ s).length : Int) - d.operand.toInt ≠ h - 1) :
    Steps base room (thenNext assign ⟨atop s d, dom⟩)
      (CamlAli.next assign ⟨atop s' d, state⟩) := by
  have hop : ∀ r, (atop r d).operand = d.operand := fun _ => rfl
  unfold thenNext onCore CamlAli.next assign
  simp only [hop]
  rcases ht.spSet_eq d.sp hi d.accu with ⟨h, h'⟩ | ⟨top', r, r', h, h', hr⟩
  · simp only [atop, h, h']
    exact Alike.fault _ _
  · simp only [atop, h, h']
    exact Alike.ok (Meets.next ⟨{ d.advance with sp := top', accu := valUnit }, r, r', fs,
      rfl, rfl, hr, har⟩)

/-! ## Raising -/

theorem blank_valLong (x : Long) : blank (valLong x) = valUnit := by
  have hbit : (tagged x).getLsbD 0 = true := by
    unfold tagged
    rw [BitVec.getLsbD_append]
    rfl
  show (if (tagged x).getLsbD 0 then valUnit else _) = _
  rw [if_pos hbit]

/-- The links are all that differs, and they are immediate. -/
theorem tower_blank {off : Long} {t : Int} (ht : Tower base s s' off t fs) :
    s'.map blank = s.map blank := by
  induction ht with
  | bottom => rfl
  | frame e x _ _ _ _ ih =>
      simp only [List.map_cons, List.map_append, blank_valLong, ih]

theorem tower_innermost {off : Long} {t : Int} (ht : Tower base s s' off t fs) :
    (if t ≤ base then none else some t.toNat) =
      if 0 < off.toInt then none else some (-off.toInt).toNat := by
  cases ht with
  | bottom h0 h => exact if_pos h
  | @frame mid s s' off t fs h e x ht hh hbase hfit =>
      have hoff : (BitVec.ofInt 63 (-(h : Int))).toInt = -(h : Int) :=
        toInt_small (by omega) (by omega)
      rw [hoff, if_neg (by omega), if_neg (by omega), Int.neg_neg]

/-- Noting the backtrace does not matter. -/
theorem stash_linked (reraise : Bool) {m : Machine ω} {a : AliMachine ω}
    (h : Linked base room m a) :
    Linked base room (stashBacktrace out.runtime reraise m)
      (CamlAli.stashBacktrace (out.aliRuntime base) reraise a) := by
  obtain ⟨d, s, s', fs, hm, ha, ht, har⟩ := h
  refine ⟨d, s, s', fs, hm, ha, ht, har.backtraceActive, ?_, har.stack, har.threshold⟩
  obtain ⟨c, dom⟩ := m
  obtain ⟨c', state⟩ := a
  obtain rfl : c = atop s d := hm
  obtain rfl : c' = atop s' d := ha
  have hwords : (d.sp ++ s').map blank = (d.sp ++ s).map blank := by
    rw [List.map_append, List.map_append, tower_blank ht]
  show out.stashBacktrace d.accu ((d.sp ++ s').map blank)
      (if state.trapsp ≤ base then none else some state.trapsp.toNat) reraise state.world
    = out.stashBacktrace d.accu ((d.sp ++ s).map blank)
      (if 0 < dom.trapSpOff.toInt then none else some (-dom.trapSpOff.toInt).toNat) reraise
      dom.world
  rw [hwords, har.world, tower_innermost ht]

/-- No debugger. -/
theorem checkTrapBarrier_eq (m : Machine ω) : checkTrapBarrier out.runtime m = m := by
  unfold checkTrapBarrier
  split <;> rfl

theorem ali_checkTrapBarrier_eq (a : AliMachine ω) :
    CamlAli.checkTrapBarrier (out.aliRuntime base) a = a := by
  unfold CamlAli.checkTrapBarrier
  split <;> rfl

/-- C code raises: the words it was called with are loaded back. -/
theorem reenter_steps {dom0 : Domain ω} {state0 : CamlState ω} {e : Value} {mem : Mem}
    (ht : Tower base s s' dom.trapSpOff state.trapsp fs) (har : Around room dom state)
    (hload : dom.loadSp = .ok (d.sp ++ s)) (hext : state.externSp = d.sp ++ s') :
    Steps base room (reenter out.runtime ⟨atop s d, dom0⟩ e mem dom)
      (.ok (CamlAli.reenter (out.aliRuntime base) ⟨atop s' d, state0⟩ e mem state)) := by
  have hlink : Linked base room
      (⟨{ atop s d with sp := d.sp ++ s, accu := e, mem := mem }, dom⟩ : Machine ω)
      ⟨{ atop s' d with sp := state.externSp, accu := e, mem := mem }, state⟩ := by
    rw [hext]
    exact ⟨{ d with accu := e, mem := mem }, s, s', fs, rfl, rfl, ht, har⟩
  unfold reenter CamlAli.reenter
  rw [hload]
  simp only [bind, Except.bind, checkTrapBarrier_eq, ali_checkTrapBarrier_eq, har.backtraceActive]
  split
  · exact Alike.ok (Meets.raiseNotrace (stash_linked false hlink))
  · exact Alike.ok (Meets.raiseNotrace hlink)

theorem raise_steps (reraise : Bool) (ht : Tower base s s' dom.trapSpOff state.trapsp fs)
    (har : Around room dom state) :
    Steps base room (raiseException out.runtime reraise ⟨atop s d, dom⟩)
      (.ok (CamlAli.raise (out.aliRuntime base) reraise ⟨atop s' d, state⟩)) := by
  unfold raiseException CamlAli.raise
  simp only [checkTrapBarrier_eq, ali_checkTrapBarrier_eq, har.backtraceActive]
  split
  · refine Alike.ok (Meets.raiseNotrace (stash_linked reraise ?_))
    exact ⟨{ d with sp := ofCode (d.pc - 4#64) :: d.sp }, s, s', fs, rfl, rfl, ht, har⟩
  · exact Alike.ok (Meets.raiseNotrace ⟨d, s, s', fs, rfl, rfl, ht, har⟩)

theorem raiseNotraceInstr_steps (ht : Tower base s s' dom.trapSpOff state.trapsp fs)
    (har : Around room dom state) :
    Steps base room (raiseNotraceInstr out.runtime ⟨atop s d, dom⟩)
      (.ok (.raiseNotrace (CamlAli.checkTrapBarrier (out.aliRuntime base)
        ⟨atop s' d, state⟩))) := by
  unfold raiseNotraceInstr
  rw [checkTrapBarrier_eq, ali_checkTrapBarrier_eq]
  exact Alike.ok (Meets.raiseNotrace ⟨d, s, s', fs, rfl, rfl, ht, har⟩)

/-! ## Trap frames -/

theorem spDrop_above (above : List Value) {rest : List Value} {n : Int} (h : n = above.length) :
    spDrop (above ++ rest) n = .ok rest := by
  subst h
  rw [spDrop_append (by rw [Int.toNat_natCast])]
  unfold spDrop
  rw [if_pos ⟨Int.natCast_nonneg _, by rw [Int.toNat_natCast]⟩, Int.toNat_natCast, List.drop_length]
  rfl

/-- The link of `interp-ali.c` leads to the next frame. -/
theorem distance_eq {h : Nat} {t : Int} (h0 : 0 ≤ t) (h1 : t < 2305843009213693952) (hfit : 8 * h < 2 ^ 64) :
    (h : Int) - (BitVec.ofInt 63 ((h : Int) - t)).toInt = t := by
  rw [toInt_small (by omega) (by omega)]
  omega

/-- `PUSHTRAP` adds a frame to the tower. -/
theorem pushtrap_steps (ht : Tower base s s' dom.trapSpOff state.trapsp fs)
    (har : Around room dom state) (hbase : base < (d.sp ++ s).length + 4)
    (hfit : 8 * ((d.sp ++ s).length + 4) < 2 ^ 64) :
    Steps base room (pushtrap ⟨atop s d, dom⟩) (CamlAli.pushtrap ⟨atop s' d, state⟩) := by
  -- the height of the new frame
  obtain ⟨h, hh⟩ : ∃ h, h = (d.sp ++ s).length + 4 := ⟨_, rfl⟩
  rw [← hh] at hbase hfit
  have hframe : Tower base (valLong dom.trapSpOff :: d.env :: valLong d.extraArgs :: (d.sp ++ s))
      (valLong (BitVec.ofInt 63 (h - state.trapsp)) :: d.env :: valLong d.extraArgs ::
        (d.sp ++ s')) (BitVec.ofInt 63 (-(h : Int))) h (h :: fs) :=
    Tower.frame d.env (valLong d.extraArgs) ht hh hbase hfit
  have hlen : ((d.sp ++ s').length : Int) + 4 = h := by
    rw [hh, List.length_append, List.length_append, ht.length_eq]
    omega
  have hoff : spOffset (ofCode (d.codeAt d.operand) :: valLong dom.trapSpOff :: d.env ::
      valLong d.extraArgs :: (d.sp ++ s)) = BitVec.ofInt 63 (-(h : Int)) := by
    unfold spOffset
    rw [hh]
    rfl
  have hnew : pushtrap (⟨atop s d, dom⟩ : Machine ω) = .ok (.next ⟨
      atop (valLong dom.trapSpOff :: d.env :: valLong d.extraArgs :: (d.sp ++ s))
        { d with sp := [ofCode (d.codeAt d.operand)], pc := d.pc + 4#64 },
      { dom with trapSpOff := BitVec.ofInt 63 (-(h : Int)) }⟩) := by
    rw [← hoff]
    rfl
  have hold : CamlAli.pushtrap (⟨atop s' d, state⟩ : AliMachine ω) = .ok (.next ⟨
      atop (valLong (BitVec.ofInt 63 (h - state.trapsp)) ::
        d.env :: valLong d.extraArgs :: (d.sp ++ s'))
        { d with sp := [ofCode (d.codeAt d.operand)], pc := d.pc + 4#64 },
      { state with trapsp := h }⟩) := by
    rw [← hlen]
    rfl
  rw [hnew, hold]
  exact Alike.ok (Meets.next ⟨_, _, _, _, rfl, rfl, hframe,
    har.backtraceActive, har.world, har.stack, har.threshold⟩)

/-- `POPTRAP` takes the topmost frame off it. -/
theorem poptrap_steps (ht : Tower base s s' dom.trapSpOff state.trapsp fs)
    (har : Around room dom state) (hb : base < 2 ^ 61)
    (htop : fs.head? = some (d.sp ++ s).length) :
    Steps base room (poptrap out.runtime ⟨atop s d, dom⟩)
      (CamlAli.poptrap (out.aliRuntime base) ⟨atop s' d, state⟩) := by
  obtain ⟨trapSpOff, hoff⟩ : ∃ off, off = dom.trapSpOff := ⟨_, rfl⟩
  obtain ⟨trapsp, htr⟩ : ∃ t, t = state.trapsp := ⟨_, rfl⟩
  rw [← hoff, ← htr] at ht
  cases ht with
  | bottom => cases htop
  | @frame mid s s' off t fs h e x ht hh hbase hfit =>
      -- the frame is on top: only its handler is above the link
      obtain ⟨w0, hsp⟩ : ∃ w0, d.sp = [w0] := by
        have htop' : h = (d.sp ++ valLong off :: e :: x :: (mid ++ s)).length :=
          Option.some.inj htop
        rw [List.length_append] at htop'
        simp only [List.length_cons] at htop'
        exact List.length_eq_one_iff.mp (by omega)
      have hlen : (mid ++ s').length = (mid ++ s).length := by
        rw [List.length_append, List.length_append, ht.length_eq]
      have hnew : poptrap out.runtime
          (⟨atop (valLong off :: e :: x :: (mid ++ s)) d, dom⟩ : Machine ω) = .ok (.next
          ⟨atop s { d with sp := mid }, { dom with trapSpOff := off }⟩) := by
        have h1 : spAt ([w0] ++ valLong off :: e :: x :: (mid ++ s)) 1 = .ok (valLong off) := rfl
        have h4 : spDrop ([w0] ++ valLong off :: e :: x :: (mid ++ s)) 4 = .ok (mid ++ s) :=
          spDrop_above [w0, valLong off, e, x] rfl
        unfold poptrap atop
        simp only [hsp, h1, h4, longVal_valLong, bind, Except.bind]
        rfl
      have hold : CamlAli.poptrap (out.aliRuntime base) (⟨atop
          (valLong (BitVec.ofInt 63 (h - t)) :: e :: x :: (mid ++ s')) d, state⟩ : AliMachine ω)
          = .ok (.next ⟨atop s' { d with sp := mid }, { state with trapsp := t }⟩) := by
        have h1 : spAt ([w0] ++ valLong (BitVec.ofInt 63 (h - t)) :: e :: x :: (mid ++ s')) 1
            = .ok (valLong (BitVec.ofInt 63 (h - t))) := rfl
        have h4 : spDrop ([w0] ++ valLong (BitVec.ofInt 63 (h - t)) :: e :: x :: (mid ++ s')) 4
            = .ok (mid ++ s') := spDrop_above [w0, valLong (BitVec.ofInt 63 (h - t)), e, x] rfl
        have hl : ([w0] ++ valLong (BitVec.ofInt 63 (h - t)) :: e :: x :: (mid ++ s')).length
            = h := by
          simp only [List.cons_append, List.nil_append, List.length_cons, hlen]
          omega
        unfold CamlAli.poptrap atop
        simp only [hsp, h1, h4, hl, longVal_valLong, bind, Except.bind,
          distance_eq ht.trapsp_nonneg (ht.trapsp_small hb) hfit]
        rfl
      rw [hnew, hold]
      exact Alike.ok (Meets.next ⟨_, _, _, _, rfl, rfl, ht,
        har.backtraceActive, har.world, har.stack, har.threshold⟩)

/-- With the handler word gone, `sp` would have to go up again. -/
theorem spDrop_gone {l : Value} {rest : List Value} {h : Nat} (hh : h = rest.length + 2) :
    spDrop (l :: rest) ((l :: rest).length - (h : Int)) = .error .undefined := by
  unfold spDrop
  rw [if_neg]
  rw [hh, List.length_cons]
  omega

/-- `raise_notrace` cuts the stack down to the topmost frame, or to the base. -/
theorem raiseNotrace_steps (ht : Tower base s s' dom.trapSpOff state.trapsp fs)
    (har : Around room dom state) (hb : base < 2 ^ 61)
    (hwords : act.initialStackWords.toInt.toNat = base) (hoffset : act'.initialSpOffset = base) :
    Steps base room (raiseNotrace act ⟨atop s d, dom⟩)
      (CamlAli.raiseNotrace act' ⟨atop s' d, state⟩) := by
  obtain ⟨trapSpOff, hoff⟩ : ∃ off, off = dom.trapSpOff := ⟨_, rfl⟩
  obtain ⟨trapsp, htr⟩ : ∃ t, t = state.trapsp := ⟨_, rfl⟩
  rw [← hoff, ← htr] at ht
  cases ht with
  | bottom h0 hle =>
      -- no frame: both leave with the exception
      obtain ⟨i, hi, hp, -⟩ := har.stack
      have hpos : 0 < dom.trapSpOff.toInt := by
        rw [← hoff]
        decide
      have hnew : raiseNotrace act (⟨atop [] d, dom⟩ : Machine ω) = _ :=
        raiseNotrace_returns hpos hi hp
      have hold : CamlAli.raiseNotrace act' (⟨atop [] d, state⟩ : AliMachine ω) = _ := if_pos (by
        show state.trapsp ≤ act'.initialSpOffset
        rw [hoffset, ← htr]
        exact hle)
      rw [hnew, hold, hwords, hoffset]
      refine Alike.ok (Meets.halted _ ⟨{ d with sp := wordsFrom (atop [] d).sp base }, [], [],
        1#63, [], ?_, ?_, ?_⟩)
      · exact (atop_nil _).symm
      · exact (atop_nil _).symm
      · show Tower base [] [] 1#63 state.trapsp []
        rw [← htr]
        exact Tower.bottom h0 hle
  | @frame mid s s' off t fs h e x ht hh hbase hfit =>
      have hlen := ht.length_eq
      rw [List.length_append] at hh
      have hdepth : -dom.trapSpOff.toInt = h := by
        rw [← hoff, toInt_small (by omega) (by omega)]
        omega
      have hneg : ¬ (0#63).slt dom.trapSpOff = true := by
        rw [BitVec.slt_iff_toInt_lt]
        show ¬ (0 : Int) < _
        omega
      have hin : ¬ state.trapsp ≤ act'.initialSpOffset := by
        rw [hoffset, ← htr]
        omega
      rcases List.eq_nil_or_concat d.sp with hnil | ⟨above, w0, hsp⟩
      · -- the handler word is gone from the stack, so neither has a frame to enter
        have hnew : raiseNotrace act (⟨atop (valLong off :: e :: x :: (mid ++ s)) d, dom⟩ :
            Machine ω) = .error .undefined := by
          unfold raiseNotrace
          rw [if_neg hneg]
          show (spDrop (d.sp ++ _) (((d.sp ++ _).length : Int) - -dom.trapSpOff.toInt) >>= _) = _
          rw [hdepth, hnil, List.nil_append, spDrop_gone (by
              simp only [List.length_append, List.length_cons]
              omega)]
          rfl
        have hold : CamlAli.raiseNotrace act' (⟨atop
            (valLong (BitVec.ofInt 63 (h - t)) :: e :: x :: (mid ++ s')) d, state⟩ : AliMachine ω)
            = .error .undefined := by
          unfold CamlAli.raiseNotrace
          rw [if_neg hin]
          show (spDrop (d.sp ++ _) (((d.sp ++ _).length : Int) - state.trapsp) >>= _) = _
          rw [← htr, hnil, List.nil_append,
            spDrop_gone (by
              simp only [List.length_append, List.length_cons]
              omega)]
          rfl
        rw [hnew, hold]
        exact Alike.fault _ _
      · -- both drop the words down to the frame and enter its handler
        rw [List.concat_eq_append] at hsp
        have hnew : raiseNotrace act (⟨atop (valLong off :: e :: x :: (mid ++ s)) d, dom⟩ :
            Machine ω) = (codeOf w0 >>= fun pc => longVal x >>= fun n => .ok (.next
              ⟨atop s { d with pc := pc, env := e, extraArgs := n, sp := mid },
                { dom with trapSpOff := off }⟩)) := by
          unfold raiseNotrace
          rw [if_neg hneg]
          show (spDrop (d.sp ++ _) (((d.sp ++ _).length : Int) - -dom.trapSpOff.toInt) >>= _) = _
          rw [hdepth, hsp, List.append_assoc, spDrop_above above (by
            simp only [List.length_append, List.length_cons, List.length_nil]
            omega)]
          show (codeOf w0 >>= fun pc => longVal x >>= fun n => longVal (valLong off) >>= _) = _
          simp only [longVal_valLong]
          rfl
        have hold : CamlAli.raiseNotrace act' (⟨atop
            (valLong (BitVec.ofInt 63 (h - t)) :: e :: x :: (mid ++ s')) d, state⟩ : AliMachine ω)
            = (codeOf w0 >>= fun pc => longVal x >>= fun n => .ok (.next
              ⟨atop s' { d with pc := pc, env := e, extraArgs := n, sp := mid },
                { state with trapsp := t }⟩)) := by
          unfold CamlAli.raiseNotrace
          rw [if_neg hin]
          show (spDrop (d.sp ++ _) (((d.sp ++ _).length : Int) - state.trapsp) >>= _) = _
          rw [← htr, hsp, List.append_assoc, spDrop_above above (by
            simp only [List.length_append, List.length_cons, List.length_nil]
            omega)]
          show (codeOf w0 >>= fun pc => longVal x >>= fun n =>
            longVal (valLong (BitVec.ofInt 63 (h - t))) >>= _) = _
          simp only [longVal_valLong]
          show (codeOf w0 >>= fun pc => longVal x >>= fun n => (.ok (.next (⟨_, { state with
            trapsp := (h : Int) - (BitVec.ofInt 63 ((h : Int) - t)).toInt }⟩ : AliMachine ω)) :
              C (Ctl (AliMachine ω)))) = _
          rw [distance_eq ht.trapsp_nonneg (ht.trapsp_small hb) hfit]
          rfl
        rw [hnew, hold]
        refine Alike.bind (Both.same (codeOf w0)) (fun pc _ hpc => ?_)
        refine Alike.bind (Both.same (longVal x)) (fun n _ hn => ?_)
        subst hpc hn
        exact Alike.ok (Meets.next ⟨_, _, _, _, rfl, rfl, ht,
          har.backtraceActive, har.world, har.stack, har.threshold⟩)

end CamlGeneration
