import CamlInterp.CurryProofs
import CamlInterp.RelocationProofs

/-! # `RESTART` and the room on the stack

    `check_stacks` lets a call through with `Stack_threshold_words` free words on
    the stack, enough for what a function pushes before it can ask for more.
    `RESTART` runs before that, and pushes as many words as the closure holds. -/

namespace CamlRestart

open CellStore CamlValue CamlOpcode CamlMachine CamlControl CamlStep CamlFiber CamlEffect CamlCurry
  CamlRelocation

variable {ω : Type}

/-- The machine is at the `RESTART` of a closure that `GRAB` has built, with
    `args` in it. -/
structure AtRestart (m : Machine ω) (args : List Value) : Prop where
  code : executing (.next m) = some .RESTART
  closure : ∃ b c entry, m.env = .ptr b 0 ∧
    m.mem.heap.get b = some ⟨closureTag, partialFields c entry args⟩

/-- The instruction is executed, and the assertion `Stack_base <= sp` at the next
    dispatch holds. -/
def StaysInside (rt : Runtime ω) (act : Activation) (m : Machine ω) : Prop :=
  ∃ m', machineStep rt act (.next m) = .ok (.next m') ∧ CamlUpstream.checkSp m' = .ok ()

variable {rt : Runtime ω} {act : Activation} {m m' : Machine ω} {dom dom' : Domain ω}
  {args : List Value} {i : StackInfo}

/-! ## The room `check_stacks` leaves -/

/-- A reallocated stack has room for what was required. -/
theorem realloc_room {required : Nat} (hi : dom.pool.get dom.currentStack = some i)
    (hreq : required ≤ maxWosize) (h : camlTryReallocStack rt required dom = .ok (some dom')) :
    ∃ i', dom'.pool.get dom'.currentStack = some i' ∧ i'.words = i.words ∧
      i.words.length + required ≤ i'.size := by
  obtain ⟨old, size, hold, hused, hsize, rfl⟩ := realloc_grown h
  obtain rfl := Option.some.inj (hi.symm.trans hold)
  have hne : dom.pool.fresh ≠ dom.currentStack := Nat.ne_of_gt (Store.lt_fresh_of_get hi)
  have hint := BitVec.toInt_lt (x := BitVec.ofNat 32 i.words.length)
  unfold maxWosize at hreq
  refine ⟨{ i with size := size }, (Store.get_free_of_ne _ hne).trans (Store.get_alloc_fresh _ _),
    rfl, ?_⟩
  show i.words.length + required ≤ size
  rw [Nat.mod_eq_of_lt (by omega)] at hsize
  exact hsize

/-- Pending actions leave the words, and at least the room there was. -/
theorem checkSignals_room (hr : Relocates rt) (hi : m.dom.pool.get m.dom.currentStack = some i)
    (h : checkSignals rt m = .ok (.next m')) :
    ∃ i', m'.dom.pool.get m'.dom.currentStack = some i' ∧ m'.sp.length = m.sp.length ∧
      i.size ≤ i'.size := by
  unfold checkSignals at h
  split at h
  · obtain ⟨f, m1, hm1, hmv⟩ := processSignal_moved hr hi
    obtain rfl := Ctl.next.inj (Except.ok.inj (hm1.symm.trans h))
    obtain ⟨i', hi', ho⟩ := hmv.dom.running hi
    refine ⟨i', hi', ?_, ho.size⟩
    rw [hmv.sp, List.length_map]
  · obtain rfl := Ctl.next.inj (Except.ok.inj h)
    exact ⟨i, hi, rfl, Nat.le_refl _⟩

/-- A call that `check_stacks` lets through has the threshold free. -/
theorem checkStacks_room (hr : Relocates rt) (h : checkStacks rt m = .ok (.next m'))
    (hi : m'.dom.pool.get m'.dom.currentStack = some i) :
    m'.sp.length + stackThresholdWords ≤ i.size := by
  obtain ⟨cur, hcur, h⟩ := bind_eq_ok.mp h
  have hget := stack_ok hcur
  split at h
  · obtain ⟨dom1, hdom1, h⟩ := bind_eq_ok.mp h
    obtain ⟨i0, -, hi1, -, hcur1, -⟩ := saveSp_get hdom1
    rw [← hcur1] at hi1
    obtain ⟨grown, hgrown, h⟩ := bind_eq_ok.mp h
    cases grown with
    | none =>
        -- the stack cannot grow: the overflow is raised, and no call goes on
        obtain ⟨m1, -, h⟩ := bind_eq_ok.mp h
        obtain ⟨e, -, h⟩ := bind_eq_ok.mp h
        obtain ⟨m2, hm2⟩ := reenter_raises h
        cases hm2
    | some dom2 =>
        obtain ⟨sp, hsp, h⟩ := bind_eq_ok.mp h
        obtain ⟨i2, hi2, hw2, hsize⟩ := realloc_room hi1 (by decide) hgrown
        obtain ⟨i2', hi2', hspw⟩ := loadSp_ok hsp
        obtain rfl := Option.some.inj (hi2.symm.trans hi2')
        obtain ⟨i3, hi3, hlen, hle⟩ := checkSignals_room (m := { m with sp := sp, dom := dom2 }) hr
          hi2 h
        obtain rfl := Option.some.inj (hi3.symm.trans hi)
        have hlen' : m'.sp.length = sp.length := hlen
        have hsplen : sp.length = i2.words.length := by rw [hspw]
        rw [hw2] at hsplen
        omega
  · next hroom =>
      obtain ⟨i3, hi3, hlen, hle⟩ := checkSignals_room hr hget h
      obtain rfl := Option.some.inj (hi3.symm.trans hi)
      omega

/-! ## The instruction -/

/-- `RESTART` pushes exactly what the closure holds. -/
theorem restart_sp (rt : Runtime ω) (act : Activation) (h : AtRestart m args) :
    ∃ m', machineStep rt act (.next m) = .ok (.next m') ∧ m'.sp = args ++ m.sp ∧
      m'.dom = m.dom := by
  obtain ⟨b, c, entry, henv, hb⟩ := h.closure
  exact ⟨_, restart_step rt act h.code henv hb, rfl, rfl⟩

theorem checkSp_iff (hi : m.dom.pool.get m.dom.currentStack = some i) :
    CamlUpstream.checkSp m = .ok () ↔ m.sp.length ≤ i.size := by
  unfold CamlUpstream.checkSp Domain.stack
  rw [hi]
  show camlAssert (decide (m.sp.length ≤ i.size)) = .ok () ↔ _
  rw [camlAssert_eq_ok, decide_eq_true_iff]

/-- `RESTART` stays inside the stack exactly if its arguments have room. -/
theorem staysInside_iff (hi : m.dom.pool.get m.dom.currentStack = some i)
    (hat : AtRestart m args) :
    StaysInside rt act m ↔ args.length + m.sp.length ≤ i.size := by
  obtain ⟨m', hm', hsp, hdom⟩ := restart_sp rt act hat
  have hi' : m'.dom.pool.get m'.dom.currentStack = some i := by
    rw [hdom]
    exact hi
  rw [← List.length_append, ← hsp, ← checkSp_iff hi']
  constructor
  · rintro ⟨m1, hm1, hcheck⟩
    obtain rfl := Ctl.next.inj (Except.ok.inj (hm1.symm.trans hm'))
    exact hcheck
  · intro hcheck
    exact ⟨m', hm', hcheck⟩

/-- **RESTART STAYS INSIDE THE STACK** if and only if the stored arguments fit in
    the free words; of these `check_stacks` has left at least the threshold. -/
theorem restart_inside (rt : Runtime ω) (act : Activation) (hr : Relocates rt) (m0 m : Machine ω)
    (i : StackInfo) (args : List Value)
    (hlet : machineStep rt act (.checkStacks m0) = .ok (.next m))
    (hi : m.dom.pool.get m.dom.currentStack = some i) (hat : AtRestart m args) :
    (StaysInside rt act m ↔ args.length + m.sp.length ≤ i.size) ∧
      stackThresholdWords + m.sp.length ≤ i.size := by
  refine ⟨staysInside_iff hi hat, ?_⟩
  have hroom := checkStacks_room hr hlet hi
  omega

/-- A function of eighteen arguments applied to `n` of them, called again on a
    stack of 32 words with the threshold and nothing more free. -/
def restarting (n : Nat) : Machine Unit where
  pc := 0x1000#64
  sp := List.replicate 16 (valInt 0)
  accu := .ptr 1 0
  env := .ptr 1 0
  extraArgs := 0#63
  mem :=
    { heap := ⟨[some ⟨closureTag, [ofCode 0x1004#64, .word (makeClosinfo 0 2)]⟩,
        some ⟨closureTag, partialFields (.ptr 0 0) 0x1004#64 (List.replicate n (valInt 7))⟩]⟩
      code := assemble 0x1000#64 [Opcode.RESTART.code, Opcode.GRAB.code, 17#32]
      globalData := valUnit
      raiseUnhandled := valUnit }
  dom := domainOf [{ mainStack with size := 32 }] 0

theorem restarting_atRestart (n : Nat) :
    AtRestart (restarting n) (List.replicate n (valInt 7)) where
  code := rfl
  closure := ⟨1, .ptr 0 0, 0x1004#64, rfl, rfl⟩

/-- Sixteen stored arguments fit, also when a signal is handled before. -/
theorem restart_inside_sixteen :
    ∃ m, machineStep shifting soleActivation (.checkStacks (restarting 16)) = .ok (.next m) ∧
      StaysInside shifting soleActivation m := by
  refine ⟨_, rfl, (restart_inside shifting soleActivation shift_relocates (restarting 16) _ _
    (List.replicate 16 (valInt 7)) rfl rfl ⟨rfl, ?_⟩).1.mpr (by decide)⟩
  exact ⟨2, .ptr 1 0, 0x1004#64, rfl, rfl⟩

/-- Seventeen do not: `check_stacks` lets the call through, and `RESTART` writes
    the word below `Stack_base`. -/
theorem restart_inside_seventeen :
    machineStep quiet soleActivation (.checkStacks (restarting 17)) = .ok (.next (restarting 17)) ∧
    AtRestart (restarting 17) (List.replicate 17 (valInt 7)) ∧
    ¬ StaysInside quiet soleActivation (restarting 17) := by
  refine ⟨rfl, restarting_atRestart 17, ?_⟩
  rw [staysInside_iff (i := { mainStack with size := 32 }) rfl (restarting_atRestart 17)]
  decide

end CamlRestart
