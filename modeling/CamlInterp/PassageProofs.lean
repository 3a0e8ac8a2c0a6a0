import CamlInterp.PerformProofs

/-! # Passages — what a step does to the domain

    Apart from the trap instructions, the ways out of a fiber and the effect
    instructions, all the interpreter does to `caml_domain_state` is to save
    `sp`, to grow the running stack and to call C code.  A relation between
    domains that survives these three holds across every such step; it is
    proved here once, over the whole `switch`, for any relation. -/

namespace CamlPassage

open CellStore ParentChain CamlValue CamlOpcode CamlMachine CamlControl CamlStep CamlFiber
  CamlEffect

variable {ω : Type}

/-- The domain C code leaves, whether it returns or raises. -/
def domOf : CResult ω → Domain ω
  | .value _ _ dom => dom
  | .raised _ _ dom => dom

/-- A relation between the domain before and after that survives what is done to
    it outside traps and effects. -/
structure Survives (rt : Runtime ω) (R : Domain ω → Domain ω → Prop) : Prop where
  refl : ∀ d, R d d
  trans : ∀ {d d' d''}, R d d' → R d' d'' → R d d''
  saved : ∀ {d d' sp}, d.saveSp sp = .ok d' → R d d'
  returned : ∀ {d d' n sp}, d.setSp n sp = .ok d' → R d d'
  grown : ∀ {d d' n}, camlTryReallocStack rt n d = .ok (some d') → R d d'
  world : ∀ d w, R d { d with world := w }
  pending : ∀ {mem d r}, rt.processPendingActions mem d = .ok r → R d (domOf r)
  primitive : ∀ {w args mem d r}, rt.primitive w args mem d = .ok r → R d (domOf r)
  raising : ∀ e mem d, R d (rt.signalsAtRaise e mem d).2.2
  debugger : ∀ ev mem d, R d (rt.debugger ev mem d).2

variable {rt : Runtime ω} {R : Domain ω → Domain ω → Prop} {act : Activation}
  {m m' : Machine ω} {mem : Mem} {dom : Domain ω} {c c' : Ctl (Machine ω)}

/-! ## Raising -/

theorem checkTrapBarrier_within (hR : Survives rt R) (m : Machine ω) :
    R m.dom (checkTrapBarrier rt m).dom := by
  unfold checkTrapBarrier
  split
  · exact hR.debugger .trapBarrier m.mem m.dom
  · exact hR.refl _

theorem raiseException_within (hR : Survives rt R) {reraise : Bool}
    (h : raiseException rt reraise m = .ok c') :
    (∃ m', c' = .raiseNotrace m') ∧ R m.dom c'.state.dom := by
  have hbar := checkTrapBarrier_within hR m
  unfold raiseException at h
  dsimp only at h
  split at h
  · obtain rfl := Except.ok.inj h
    exact ⟨⟨_, rfl⟩, hR.trans hbar (hR.world _ _)⟩
  · obtain rfl := Except.ok.inj h
    exact ⟨⟨_, rfl⟩, hbar⟩

theorem reenter_within (hR : Survives rt R) {e : Value} (h : reenter rt m e mem dom = .ok c') :
    (∃ m', c' = .raiseNotrace m') ∧ R dom c'.state.dom := by
  obtain ⟨sp, -, h⟩ := bind_eq_ok.mp h
  have hbar := checkTrapBarrier_within hR { m with sp := sp, accu := e, mem := mem, dom := dom }
  dsimp only at h
  split at h
  · obtain rfl := Except.ok.inj h
    exact ⟨⟨_, rfl⟩, hR.trans hbar (hR.world _ _)⟩
  · obtain rfl := Except.ok.inj h
    exact ⟨⟨_, rfl⟩, hbar⟩

theorem camlRaise_within (hR : Survives rt R) {e : Value} (h : camlRaise rt m e = .ok c') :
    (∃ m', c' = .raiseNotrace m') ∧ R m.dom c'.state.dom := by
  obtain ⟨hraise, hre⟩ := reenter_within hR h
  exact ⟨hraise, hR.trans (hR.raising e m.mem m.dom) hre⟩

/-! ## Allocation -/

/-- The domain after a round of pending actions. -/
def domAfter : Machine ω ⊕ Value × Mem × Domain ω → Domain ω
  | .inl m => m.dom
  | .inr (_, _, dom) => dom

/-- A stop for pending actions stays within the relation. -/
theorem enterGc_within (hR : Survives rt R) {r : Machine ω ⊕ Value × Mem × Domain ω}
    (h : enterGc rt m = .ok r) : R m.dom (domAfter r) := by
  obtain ⟨dom, hdom, h⟩ := bind_eq_ok.mp h
  obtain ⟨res, hres, h⟩ := bind_eq_ok.mp h
  have hall := hR.trans (hR.saved hdom) (hR.pending hres)
  cases res with
  | raised e mem' dom' =>
      obtain rfl := Except.ok.inj h
      exact hall
  | value v mem' dom' =>
      obtain ⟨sp, -, h⟩ := bind_eq_ok.mp h
      obtain ⟨accu, -, h⟩ := bind_eq_ok.mp h
      obtain ⟨env, -, h⟩ := bind_eq_ok.mp h
      obtain ⟨sp', -, h⟩ := bind_eq_ok.mp h
      obtain rfl := Except.ok.inj h
      exact hall

theorem gcLoop_within (hR : Survives rt R) {n : Nat} {r : Machine ω ⊕ Value × Mem × Domain ω}
    (h : gcLoop rt n m = .ok r) : R m.dom (domAfter r) :=
  gcLoop_respects (R := fun m r => R m.dom (domAfter r)) (fun _ => hR.refl _)
    (fun h => enterGc_within hR h) (fun h h' => hR.trans (enterGc_within hR h) h') h

/-- An allocation raises, or goes on with the block. -/
theorem allocSmall_within (hR : Survives rt R) {wosize tag : Nat}
    {k : Value → Machine ω → C (Ctl (Machine ω))} (h : allocSmall rt m wosize tag k = .ok c') :
    ((∃ m', c' = .raiseNotrace m') ∧ R m.dom c'.state.dom) ∨
      ∃ v m1, R m.dom m1.dom ∧ k v m1 = .ok c' := by
  obtain ⟨-, -, h⟩ := bind_eq_ok.mp h
  obtain ⟨-, -, h⟩ := bind_eq_ok.mp h
  obtain ⟨-, -, h⟩ := bind_eq_ok.mp h
  obtain ⟨r, hr, h⟩ := bind_eq_ok.mp h
  have hgc := gcLoop_within hR hr
  cases r with
  | inl m1 =>
      exact Or.inr ⟨.ptr m1.mem.heap.fresh 0, { m1 with mem := { m1.mem with
        heap := m1.mem.heap.alloc ⟨tag, List.replicate wosize .undef⟩ } }, hgc, h⟩
  | inr e =>
      obtain ⟨hraise, hre⟩ := reenter_within hR h
      exact Or.inl ⟨hraise, hR.trans hgc hre⟩

/-- An allocating instruction whose continuation leaves the domain alone. -/
theorem allocSmall_frame (hR : Survives rt R) {wosize tag : Nat}
    {k : Value → Machine ω → C (Ctl (Machine ω))}
    (hk : ∀ v m1 c1, k v m1 = .ok c1 → c1.state.dom = m1.dom)
    (h : allocSmall rt m wosize tag k = .ok c') : R m.dom c'.state.dom := by
  rcases allocSmall_within hR h with ⟨-, hr⟩ | ⟨v, m1, hr, hk1⟩
  · exact hr
  · rw [hk v m1 c' hk1]
    exact hr

/-- Allocation on either path, if what follows leaves the domain alone. -/
theorem allocEither_frame (hR : Survives rt R) {small : Bool} {wosize tag : Nat}
    {k : Value → Machine ω → C (Ctl (Machine ω))}
    (hk : ∀ v m1 c1, k v m1 = .ok c1 → c1.state.dom = m1.dom)
    (h : allocEither rt m small wosize tag k = .ok c') : R m.dom c'.state.dom := by
  unfold allocEither at h
  split at h
  · exact allocSmall_frame hR hk h
  · unfold camlAllocShr at h
    split at h
    · cases h
    · have hsame := hk _ _ c' h
      rw [hsame]
      exact hR.refl _

theorem initFields_dom {v : Value} {tag : Nat} {fields : List Value}
    (h : initFields m v tag fields = .ok m') : m'.dom = m.dom := by
  cases v with
  | ptr b ofs =>
      obtain rfl := Except.ok.inj h
      rfl
  | undef => cases h
  | word w => cases h
  | atom t => cases h
  | stk s => cases h

/-- `CLOSURE` stays within the relation. -/
theorem closure_within (hR : Survives rt R) (h : closure rt m = .ok c') :
    R m.dom c'.state.dom := by
  unfold CamlControl.closure at h
  dsimp only at h
  have hall := allocEither_frame hR (fun v m1 c1 hk => ?_) h
  · split at hall
    · exact hall
    · exact hall
  · obtain ⟨_, -, hk⟩ := bind_eq_ok.mp hk
    obtain ⟨vars, -, hk⟩ := bind_eq_ok.mp hk
    obtain ⟨m2, hinit, hk⟩ := bind_eq_ok.mp hk
    obtain rfl := Except.ok.inj hk
    exact (initFields_dom hinit : m2.dom = m1.dom)

/-- Filling the block of `CLOSUREREC` leaves the domain alone. -/
theorem finishRec_dom {nfuncs nvars : OpcodeWord} {v : Value}
    (h : finishRec nfuncs nvars v m = .ok c') : c'.state.dom = m.dom := by
  obtain ⟨_, -, h⟩ := bind_eq_ok.mp h
  obtain ⟨vars, -, h⟩ := bind_eq_ok.mp h
  obtain ⟨m2, hinit, h⟩ := bind_eq_ok.mp h
  have hdom := initFields_dom hinit
  cases v with
  | ptr b ofs =>
      obtain rfl := Except.ok.inj h
      exact hdom
  | undef => cases h
  | word w => cases h
  | atom t => cases h
  | stk s => cases h

theorem closurerec_within (hR : Survives rt R) (h : closurerec rt m = .ok c') :
    R m.dom c'.state.dom := by
  unfold closurerec at h
  dsimp only at h
  have hall := allocEither_frame hR (fun v m1 c1 hk => finishRec_dom hk) h
  split at hall
  · exact hall
  · exact hall

theorem makeblockOf_within (hR : Survives rt R) {small : Bool} {wosize tag : Nat}
    (h : makeblockOf rt small wosize tag m = .ok c') : R m.dom c'.state.dom := by
  refine allocEither_frame hR (fun v m1 c1 hk => ?_) h
  obtain ⟨rest, -, hk⟩ := bind_eq_ok.mp hk
  obtain ⟨m2, hinit, hk⟩ := bind_eq_ok.mp hk
  obtain rfl := Except.ok.inj hk
  exact (initFields_dom hinit : m2.dom = m1.dom)

theorem makeblock_within (hR : Survives rt R) (h : makeblock rt m = .ok c') :
    R m.dom c'.state.dom :=
  makeblockOf_within (m := { m with toCore := m.toCore.advance.advance }) hR h

theorem makeblockN_within (hR : Survives rt R) {n : Nat} (h : makeblockN rt n m = .ok c') :
    R m.dom c'.state.dom :=
  makeblockOf_within (m := { m with toCore := m.toCore.advance }) hR h

theorem makefloatblock_within (hR : Survives rt R) (h : makefloatblock rt m = .ok c') :
    R m.dom c'.state.dom := by
  refine allocEither_frame (m := { m with toCore := m.toCore.advance }) hR
    (fun v m1 c1 hk => ?_) h
  obtain ⟨rest, -, hk⟩ := bind_eq_ok.mp hk
  obtain ⟨vals, -, hk⟩ := bind_eq_ok.mp hk
  obtain ⟨m2, hinit, hk⟩ := bind_eq_ok.mp hk
  obtain rfl := Except.ok.inj hk
  exact (initFields_dom hinit : m2.dom = m1.dom)

theorem getfloatfield_within (hR : Survives rt R) (h : getfloatfield rt m = .ok c') :
    R m.dom c'.state.dom := by
  obtain ⟨d, -, h⟩ := bind_eq_ok.mp h
  refine allocSmall_frame (m := { m with toCore := m.toCore.advance }) hR
    (fun v m1 c1 hk => ?_) h
  obtain ⟨m2, hinit, hk⟩ := bind_eq_ok.mp hk
  obtain rfl := Except.ok.inj hk
  exact (initFields_dom hinit : m2.dom = m1.dom)

/-! ## C calls, signals and the size of the stack -/

theorem setupForCCall_within (hR : Survives rt R) (h : setupForCCall m = .ok m') :
    R m.dom m'.dom := by
  obtain ⟨dom, hdom, h⟩ := bind_eq_ok.mp h
  obtain rfl := Except.ok.inj h
  exact hR.saved hdom

/-- A C call stays within the relation. -/
theorem cCall_within (hR : Survives rt R) {args : List Value → C (List Value)} {popped : Int}
    (h : cCall rt args popped m = .ok c') : R m.dom c'.state.dom := by
  obtain ⟨m1, hm1, h⟩ := bind_eq_ok.mp h
  obtain ⟨vs, -, h⟩ := bind_eq_ok.mp h
  obtain ⟨res, hres, h⟩ := bind_eq_ok.mp h
  have hall := hR.trans (setupForCCall_within hR hm1) (hR.primitive hres)
  cases res with
  | raised e mem' dom' => exact hR.trans hall (reenter_within hR h).2
  | value v mem' dom' =>
      obtain ⟨sp, -, h⟩ := bind_eq_ok.mp h
      obtain ⟨env, -, h⟩ := bind_eq_ok.mp h
      obtain ⟨sp', -, h⟩ := bind_eq_ok.mp h
      obtain rfl := Except.ok.inj h
      exact hall

theorem cCallN_within (hR : Survives rt R) {n : Nat} (h : cCallN rt n m = .ok c') :
    R m.dom c'.state.dom :=
  cCall_within hR h

theorem cCalln_within (hR : Survives rt R) (h : cCalln rt m = .ok c') : R m.dom c'.state.dom := by
  unfold cCalln at h
  exact cCall_within (m := { m with toCore := { m.toCore.advance with sp := m.accu :: m.sp } }) hR h

/-- A division does, with its exception. -/
theorem divide_within (hR : Survives rt R) {f : BitVec 64 → BitVec 64 → BitVec 64}
    (h : divide rt f m = .ok c') : R m.dom c'.state.dom := by
  obtain ⟨w, -, h⟩ := bind_eq_ok.mp h
  obtain ⟨n, -, h⟩ := bind_eq_ok.mp h
  obtain ⟨sp, -, h⟩ := bind_eq_ok.mp h
  dsimp only at h
  split at h
  · obtain ⟨m1, hm1, h⟩ := bind_eq_ok.mp h
    obtain ⟨e, -, h⟩ := bind_eq_ok.mp h
    exact hR.trans (setupForCCall_within (m := { m with sp := sp }) hR hm1)
      (camlRaise_within hR h).2
  · obtain ⟨a, -, h⟩ := bind_eq_ok.mp h
    obtain rfl := Except.ok.inj h
    exact hR.refl _

/-- `process_signal` stays within the relation. -/
theorem processSignal_within (hR : Survives rt R) (h : processSignal rt m = .ok c') :
    R m.dom c'.state.dom := by
  obtain ⟨dom, hdom, h⟩ := bind_eq_ok.mp h
  obtain ⟨res, hres, h⟩ := bind_eq_ok.mp h
  have hall := hR.trans (hR.saved hdom) (hR.pending hres)
  cases res with
  | raised e mem' dom' => exact hR.trans hall (reenter_within hR h).2
  | value v mem' dom' =>
      obtain ⟨sp, -, h⟩ := bind_eq_ok.mp h
      obtain ⟨w0, -, h⟩ := bind_eq_ok.mp h
      obtain ⟨w3, -, h⟩ := bind_eq_ok.mp h
      obtain ⟨pc, -, h⟩ := bind_eq_ok.mp h
      obtain ⟨w4, -, h⟩ := bind_eq_ok.mp h
      obtain ⟨w5, -, h⟩ := bind_eq_ok.mp h
      obtain ⟨extra, -, h⟩ := bind_eq_ok.mp h
      obtain ⟨sp', -, h⟩ := bind_eq_ok.mp h
      obtain rfl := Except.ok.inj h
      exact hall

theorem checkSignals_within (hR : Survives rt R) (h : checkSignals rt m = .ok c') :
    R m.dom c'.state.dom := by
  unfold checkSignals at h
  split at h
  · exact processSignal_within hR h
  · obtain rfl := Except.ok.inj h
    exact hR.refl _

/-- `check_stacks` does, when it replaces the stack, too. -/
theorem checkStacks_within (hR : Survives rt R) (h : checkStacks rt m = .ok c') :
    R m.dom c'.state.dom := by
  obtain ⟨cur, -, h⟩ := bind_eq_ok.mp h
  split at h
  · obtain ⟨dom, hdom, h⟩ := bind_eq_ok.mp h
    obtain ⟨grown, hgrown, h⟩ := bind_eq_ok.mp h
    have hsave := hR.saved hdom
    cases grown with
    | some dom' =>
        obtain ⟨sp, -, h⟩ := bind_eq_ok.mp h
        exact hR.trans (hR.trans hsave (hR.grown hgrown))
          (checkSignals_within (m := { m with sp := sp, dom := dom' }) hR h)
    | none =>
        -- overflow: the exception is raised on the stack as it is
        obtain ⟨m1, hm1, h⟩ := bind_eq_ok.mp h
        obtain ⟨e, -, h⟩ := bind_eq_ok.mp h
        exact hR.trans (hR.trans hsave (setupForCCall_within (m := { m with dom := dom }) hR hm1))
          (camlRaise_within hR h).2
  · exact checkSignals_within hR h

/-! ## Debugger -/

theorem callDebugger_within (hR : Survives rt R) {ev : DebuggerEvent}
    (h : callDebugger rt ev m = .ok m') : R m.dom m'.dom := by
  obtain ⟨dom, hdom, h⟩ := bind_eq_ok.mp h
  obtain ⟨sp, -, h⟩ := bind_eq_ok.mp h
  obtain ⟨-, -, h⟩ := bind_eq_ok.mp h
  obtain rfl := Except.ok.inj h
  exact hR.trans (hR.saved hdom) (hR.debugger ev m.mem dom)

theorem event_within (hR : Survives rt R) (h : event rt m = .ok c') : R m.dom c'.state.dom := by
  unfold event at h
  dsimp only at h
  have hworld := hR.world m.dom (rt.eventCountHit m.dom).2
  split at h
  · obtain ⟨m1, hm1, h⟩ := bind_eq_ok.mp h
    obtain rfl := Except.ok.inj h
    exact hR.trans hworld (callDebugger_within hR hm1)
  · obtain rfl := Except.ok.inj h
    exact hworld

theorem breakInstr_within (hR : Survives rt R) (h : breakInstr rt m = .ok c') :
    R m.dom c'.state.dom := by
  obtain ⟨m1, hm1, h⟩ := bind_eq_ok.mp h
  obtain rfl := Except.ok.inj h
  exact callDebugger_within hR hm1

/-! ## Changing fibers -/

/-- The machine at the end of the running fiber, about to enter the handler `h`
    of that fiber on its parent `p`. -/
def leaveFor (m : Machine ω) (p : Nat) (h : Value) : C (Ctl (Machine ω)) := do
  let (m, sp) ← leaveStack m p
  enterParent m h sp

/-- The running fiber of `m` is given up for its parent, whose words make room
    for new ones; no other fiber loses its words or handlers, and one that has a
    parent keeps it. -/
structure Climbs (m : Machine ω) (c' : Ctl (Machine ω)) : Prop where
  label : ∃ m', c' = .checkStacks m'
  parent : linksOf m.dom.pool m.dom.currentStack = some (some c'.state.dom.currentStack)
  kept : ∀ {x}, x ≠ m.dom.currentStack → heldBy c'.state.dom x = heldBy m.dom x
  others : ∀ {x p}, x ≠ m.dom.currentStack → linksOf m.dom.pool x = some (some p) →
    c'.state.dom.pool.get x = m.dom.pool.get x
  sp : c'.state.dom.currentStack ≠ m.dom.currentStack →
    ∃ i w0 w1 rest new, m.dom.pool.get c'.state.dom.currentStack = some i ∧
      i.words = w0 :: w1 :: rest ∧ longVal w0 = .ok c'.state.dom.trapSpOff ∧
      c'.state.sp = new ++ rest

/-- The chain of the stack `s` is put on top of the running fiber of `m`, which
    is left with the words in `m.sp`. -/
structure Descends (s : Nat) (m : Machine ω) (c' : Ctl (Machine ω)) : Prop where
  label : ∃ m', c' = .checkStacks m'
  current : c'.state.dom.currentStack = s
  links : ∃ l last, Linked (linksOf m.dom.pool) (s :: l) ∧ (s :: l).getLast? = some last ∧
    linksOf c'.state.dom.pool =
      Function.update (linksOf m.dom.pool) last (some (some m.dom.currentStack))
  kept : ∀ {x}, x ≠ m.dom.currentStack → heldBy c'.state.dom x = heldBy m.dom x
  parked : ∃ i, m.dom.pool.get m.dom.currentStack = some i ∧
    heldBy c'.state.dom m.dom.currentStack = some (held { i with words := m.sp })

theorem heldBy_of_get {dom' : Domain ω} {x : Nat} (h : dom'.pool.get x = dom.pool.get x) :
    heldBy dom' x = heldBy dom x := by
  unfold heldBy
  rw [h]

/-- The words popped from a parked stack were on top of it. -/
theorem parked_words {sp rest : List Value} {w0 w1 : Value} (h0 : spAt sp 0 = .ok w0)
    (h1 : spAt sp 1 = .ok w1) (h2 : spDrop sp 2 = .ok rest) : sp = w0 :: w1 :: rest := by
  obtain ⟨sp1, rfl⟩ := spAt_zero_ok h0
  obtain ⟨sp2, rfl⟩ := spAt_one_ok h1
  obtain rfl : sp2 = rest := Except.ok.inj h2
  rfl

/-- Leaving a fiber frees it and leaves the others alone. -/
theorem leaveFor_get {h : Value} {p : Nat} (hs : leaveFor m p h = .ok c') {x : Nat}
    (hx : x ≠ m.dom.currentStack) : c'.state.dom.pool.get x = m.dom.pool.get x := by
  obtain ⟨⟨m1, sp⟩, hleave, hs⟩ := bind_eq_ok.mp hs
  obtain ⟨sp', -, hleave⟩ := bind_eq_ok.mp hleave
  obtain ⟨dom1, hfree, hleave⟩ := bind_eq_ok.mp hleave
  obtain ⟨-, -, hfree⟩ := bind_eq_ok.mp hfree
  obtain rfl := Except.ok.inj hfree
  obtain ⟨rfl, rfl⟩ := Prod.mk.inj (Except.ok.inj hleave)
  obtain ⟨w0, -, hs⟩ := bind_eq_ok.mp hs
  obtain ⟨trap, -, hs⟩ := bind_eq_ok.mp hs
  obtain ⟨w1, -, hs⟩ := bind_eq_ok.mp hs
  obtain ⟨extra, -, hs⟩ := bind_eq_ok.mp hs
  obtain ⟨rest, -, hs⟩ := bind_eq_ok.mp hs
  obtain ⟨pc, -, hs⟩ := bind_eq_ok.mp hs
  obtain rfl := Except.ok.inj hs
  exact Store.get_free_of_ne _ hx

/-- Leaving a fiber for its parent is a climb. -/
theorem leaveFor_climbs {h : Value} {p : Nat} {i : StackInfo}
    (hi : m.dom.pool.get m.dom.currentStack = some i) (hp : i.parent = some p)
    (hs : leaveFor m p h = .ok c') : Climbs m c' := by
  have hframe : ∀ {x}, x ≠ m.dom.currentStack →
      c'.state.dom.pool.get x = m.dom.pool.get x := fun hx => leaveFor_get hs hx
  obtain ⟨⟨m1, sp⟩, hleave, hs⟩ := bind_eq_ok.mp hs
  obtain ⟨sp', hload, hleave⟩ := bind_eq_ok.mp hleave
  obtain ⟨dom1, hfree, hleave⟩ := bind_eq_ok.mp hleave
  obtain ⟨-, -, hfree⟩ := bind_eq_ok.mp hfree
  obtain rfl := Except.ok.inj hfree
  obtain ⟨rfl, rfl⟩ := Prod.mk.inj (Except.ok.inj hleave)
  obtain ⟨j, hj, rfl⟩ := loadSp_ok hload
  obtain ⟨w0, hw0, hs⟩ := bind_eq_ok.mp hs
  obtain ⟨trap, htrap, hs⟩ := bind_eq_ok.mp hs
  obtain ⟨w1, hw1, hs⟩ := bind_eq_ok.mp hs
  obtain ⟨extra, -, hs⟩ := bind_eq_ok.mp hs
  obtain ⟨rest, hrest, hs⟩ := bind_eq_ok.mp hs
  obtain ⟨pc, -, hs⟩ := bind_eq_ok.mp hs
  obtain rfl := Except.ok.inj hs
  refine ⟨⟨_, rfl⟩, ?_, fun hx => heldBy_of_get (hframe hx), fun hx _ => hframe hx, fun _ =>
    ⟨j, w0, w1, rest, [m.accu], hj, parked_words hw0 hw1 hrest, htrap, rfl⟩⟩
  unfold linksOf
  rw [hi]
  exact congrArg some hp

/-- The handler's arguments take the place of the two words on top of the parent. -/
theorem enterEffectHandler_sp {eff cont handler : Value} {child : Nat} {sp : List Value}
    (h : enterEffectHandler m eff cont child handler sp = .ok c') :
    (∃ m', c' = .checkStacks m') ∧ c'.state.dom.pool = m.dom.pool ∧
      c'.state.dom.currentStack = m.dom.currentStack ∧
      ∃ w0 w1 rest new, sp = w0 :: w1 :: rest ∧ longVal w0 = .ok c'.state.dom.trapSpOff ∧
        c'.state.sp = new ++ rest := by
  obtain ⟨w0, hw0, h⟩ := bind_eq_ok.mp h
  obtain ⟨trap, htrap, h⟩ := bind_eq_ok.mp h
  obtain ⟨w1, hw1, h⟩ := bind_eq_ok.mp h
  obtain ⟨extra, -, h⟩ := bind_eq_ok.mp h
  obtain ⟨rest, hrest, h⟩ := bind_eq_ok.mp h
  obtain ⟨pc, -, h⟩ := bind_eq_ok.mp h
  obtain rfl := Except.ok.inj h
  exact ⟨⟨_, rfl⟩, rfl, rfl, w0, w1, rest, [eff, cont, valPtr (some child)],
    parked_words hw0 hw1 hrest, htrap, rfl⟩

/-- `PERFORM` raises, or gives up the fiber it has noted before the allocation. -/
theorem perform_passes (hR : Survives rt R) (h : perform rt m = .ok c') :
    ((∃ m', c' = .raiseNotrace m') ∧ R m.dom c'.state.dom) ∨
      ∃ i p cont m1, m.dom.pool.get m.dom.currentStack = some i ∧ i.parent = some p ∧
        R m.dom m1.dom ∧ CamlPerform.finishPerform m.dom.currentStack p cont m1 = .ok c' := by
  obtain ⟨old, hold, h⟩ := bind_eq_ok.mp h
  cases hp : old.parent with
  | none =>
      rw [hp] at h
      obtain ⟨e, -, h⟩ := bind_eq_ok.mp h
      exact Or.inl (raiseException_within (m := { m with accu := e }) hR h)
  | some p =>
      rw [hp] at h
      rcases allocSmall_within hR h with hr | ⟨v, m1, hr, h⟩
      · exact Or.inl hr
      · exact Or.inr ⟨old, p, v, m1, stack_ok hold, hp, hr, h⟩

/-- The end of `PERFORM` climbs to the parent. -/
theorem finishPerform_climbs {i : StackInfo} {p : Nat} {cont : Value}
    (hi : m.dom.pool.get m.dom.currentStack = some i) (hp : i.parent = some p)
    (h : CamlPerform.finishPerform m.dom.currentStack p cont m = .ok c') : Climbs m c' := by
  obtain ⟨dom1, hdom1, h⟩ := bind_eq_ok.mp h
  obtain ⟨sp, hsp, h⟩ := bind_eq_ok.mp h
  obtain ⟨dom2, hdom2, h⟩ := bind_eq_ok.mp h
  obtain ⟨m2, hinit, h⟩ := bind_eq_ok.mp h
  obtain ⟨j, -, h⟩ := bind_eq_ok.mp h
  obtain ⟨hlabel, hpool, hcur, hwords⟩ := enterEffectHandler_sp h
  have hdom := initFields_dom hinit
  obtain ⟨-, -, -, hother1, -⟩ := setWords_get hdom1
  obtain ⟨-, -, -, hother2, -⟩ := setParent_get hdom2
  have hget : ∀ {x}, x ≠ m.dom.currentStack →
      c'.state.dom.pool.get x = m.dom.pool.get x := by
    intro x hx
    rw [hpool, hdom]
    exact (hother2 x hx).trans (hother1 x hx)
  have hcur' : c'.state.dom.currentStack = p := by
    rw [hcur, hdom]
    exact (setParent_ok hdom2).2
  refine ⟨hlabel, ?_, fun hx => heldBy_of_get (hget hx), fun hx _ => hget hx, fun hne => ?_⟩
  · rw [hcur']
    unfold linksOf
    rw [hi]
    exact congrArg some hp
  · obtain ⟨k, hk, rfl⟩ := loadSp_ok hsp
    rw [hcur'] at hne ⊢
    obtain ⟨w0, w1, rest, new, hw, htrap, hnew⟩ := hwords
    exact ⟨k, w0, w1, rest, new, (hother1 p hne).symm.trans hk, hw, htrap, hnew⟩

theorem stk_of_ptrVal {v : Value} {s : Nat} (h : ptrVal v = .ok (some s)) : v = .stk s := by
  cases v with
  | word w =>
      change (if w = 1#64 then Except.ok none else Except.error Fault.undefined) = _ at h
      split at h
      · cases h
      · cases h
  | stk t => rw [Option.some.inj (Except.ok.inj h)]
  | undef => cases h
  | ptr b ofs => cases h
  | atom t => cases h

/-- A new parent changes neither words nor handlers. -/
theorem setParent_kept {dom dom' : Domain ω} {s : Nat} {p : Option Nat}
    (h : dom.setParent s p = .ok dom') (x : Nat) : heldBy dom' x = heldBy dom x := by
  obtain ⟨i, hi, hi', hother, -⟩ := setParent_get h
  by_cases hx : x = s
  · unfold heldBy
    rw [hx, hi, hi']
    rfl
  · exact heldBy_of_get (hother x hx)

/-- `do_resume` with a stack in `accu`. -/
theorem doResume_descends {fn arg : Value} {s : Nat} (hacc : m.accu = .stk s)
    (h : doResume rt fn arg m = .ok c') : Descends s m c' := by
  unfold doResume at h
  rw [hacc] at h
  obtain ⟨q, hq, h⟩ := bind_eq_ok.mp h
  obtain rfl : some s = q := Except.ok.inj hq
  obtain ⟨last, hlast, h⟩ := bind_eq_ok.mp h
  obtain ⟨dom1, hdom1, h⟩ := bind_eq_ok.mp h
  obtain ⟨dom2, hdom2, h⟩ := bind_eq_ok.mp h
  obtain ⟨sp, -, h⟩ := bind_eq_ok.mp h
  obtain ⟨w0, -, h⟩ := bind_eq_ok.mp h
  obtain ⟨trap, -, h⟩ := bind_eq_ok.mp h
  obtain ⟨sp', -, h⟩ := bind_eq_ok.mp h
  obtain ⟨pc, -, h⟩ := bind_eq_ok.mp h
  obtain rfl := Except.ok.inj h
  have hres := setParent_kept hdom1
  obtain ⟨j, hj, hj', hother2, -⟩ := saveSp_get hdom2
  have hcur1 : dom1.currentStack = m.dom.currentStack := (setParent_ok hdom1).2
  rw [hcur1] at hj hj' hother2
  obtain ⟨l, hl, ht⟩ := linked_of_lastParent hlast
  refine ⟨⟨_, rfl⟩, rfl, ⟨l, last, hl, ht, ?_⟩, fun {x} hx => ?_, ?_⟩
  · exact (saveSp_ok hdom2 m.mem).links.trans (setParent_ok hdom1).1
  · have hheld : heldBy dom2 x = heldBy dom1 x := heldBy_of_get (hother2 x hx)
    exact hheld.trans (hres x)
  · -- the running fiber may even be the last of the chain: only its parent changes
    have hsame := hres m.dom.currentStack
    unfold heldBy at hsame
    rw [hj] at hsame
    obtain ⟨i, hi, hheld⟩ := Option.map_eq_some_iff.mp hsame.symm
    refine ⟨i, hi, ?_⟩
    show (dom2.pool.get m.dom.currentStack).map held = _
    rw [hj']
    have hhandlers := congrArg Prod.snd hheld
    show some (m.sp, (held j).2) = some (m.sp, (held i).2)
    rw [hhandlers]

/-- `do_resume` raises, or puts a chain on top of the running fiber. -/
theorem doResume_passes (hR : Survives rt R) {fn arg : Value}
    (h : doResume rt fn arg m = .ok c') :
    ((∃ m', c' = .raiseNotrace m') ∧ R m.dom c'.state.dom) ∨
      ∃ s, m.accu = .stk s ∧ Descends s m c' := by
  obtain ⟨q, hq, h'⟩ := bind_eq_ok.mp h
  cases q with
  | none =>
      obtain ⟨e, -, h'⟩ := bind_eq_ok.mp h'
      exact Or.inl (raiseException_within (m := { m with accu := e }) hR h')
  | some s => exact Or.inr ⟨s, stk_of_ptrVal hq, doResume_descends (stk_of_ptrVal hq) h⟩

/-- `RESUME` and `RESUMETERM` park the words under their operands. -/
theorem resume_passes (hR : Survives rt R) (h : resume rt m = .ok c') :
    ((∃ m', c' = .raiseNotrace m') ∧ R m.dom c'.state.dom) ∨
      ∃ s w0 w1 parked, m.accu = .stk s ∧
        Descends s { m with sp := w0 :: w1 :: parked } c' := by
  obtain ⟨fn, -, h⟩ := bind_eq_ok.mp h
  obtain ⟨arg, -, h⟩ := bind_eq_ok.mp h
  obtain ⟨rest, -, h⟩ := bind_eq_ok.mp h
  rcases doResume_passes hR h with hr | ⟨s, hacc, hd⟩
  · exact Or.inl hr
  · exact Or.inr ⟨s, _, _, _, hacc, hd⟩

theorem resumeterm_passes (hR : Survives rt R) (h : resumeterm rt m = .ok c') :
    ((∃ m', c' = .raiseNotrace m') ∧ R m.dom c'.state.dom) ∨
      ∃ s w0 w1 parked, m.accu = .stk s ∧
        Descends s { m with sp := w0 :: w1 :: parked } c' := by
  obtain ⟨fn, -, h⟩ := bind_eq_ok.mp h
  obtain ⟨arg, -, h⟩ := bind_eq_ok.mp h
  obtain ⟨below, -, h⟩ := bind_eq_ok.mp h
  obtain ⟨rest, -, h⟩ := bind_eq_ok.mp h
  rcases doResume_passes hR h with hr | ⟨s, hacc, hd⟩
  · exact Or.inl hr
  · exact Or.inr ⟨s, _, _, _, hacc, hd⟩

/-- `REPERFORMTERM` raises, gives up the running fiber, or, without a parent,
    resumes the continuation. -/
theorem reperformterm_passes (hR : Survives rt R) (h : reperformterm rt m = .ok c') :
    ((∃ m', c' = .raiseNotrace m') ∧ R m.dom c'.state.dom) ∨ Climbs m c' ∨
      linksOf m.dom.pool m.dom.currentStack = some none ∧ ∃ s w0 w1 parked,
        Descends s { m with sp := w0 :: w1 :: parked } c' := by
  obtain ⟨cont, -, h⟩ := bind_eq_ok.mp h
  obtain ⟨w1, -, h⟩ := bind_eq_ok.mp h
  obtain ⟨contTail, -, h⟩ := bind_eq_ok.mp h
  obtain ⟨i, hi, h⟩ := bind_eq_ok.mp h
  obtain ⟨below, -, h⟩ := bind_eq_ok.mp h
  obtain ⟨rest, -, h⟩ := bind_eq_ok.mp h
  have hlink := linksOf_of_stack hi
  cases hp : i.parent with
  | none =>
      simp only [hp] at h
      obtain ⟨⟨v, mem1⟩, -, h⟩ := bind_eq_ok.mp h
      dsimp only at h
      split at h
      · obtain ⟨e, -, h⟩ := bind_eq_ok.mp h
        exact Or.inl (camlRaise_within (m := { m with sp := _, mem := mem1 }) hR h)
      · obtain ⟨e, -, h⟩ := bind_eq_ok.mp h
        rcases doResume_passes hR h with hr | ⟨s, -, hd⟩
        · exact Or.inl hr
        · exact Or.inr (Or.inr ⟨by rw [hlink, hp], s, _, _, rest,
            ⟨hd.label, hd.current, hd.links, hd.kept, hd.parked⟩⟩)
  | some p =>
      simp only [hp] at h
      obtain ⟨dom1, hdom1, h⟩ := bind_eq_ok.mp h
      obtain ⟨sp, hsp, h⟩ := bind_eq_ok.mp h
      obtain ⟨tail, -, h⟩ := bind_eq_ok.mp h
      obtain ⟨j, hj, h⟩ := bind_eq_ok.mp h
      obtain ⟨u, hroot, h⟩ := bind_eq_ok.mp h
      obtain ⟨dom2, hdom2, h⟩ := bind_eq_ok.mp h
      obtain ⟨dom3, hdom3, h⟩ := bind_eq_ok.mp h
      obtain ⟨k, -, h⟩ := bind_eq_ok.mp h
      obtain ⟨hlabel, hpool, hcur, w0, w1, rest', new, hw, htrap, hnew⟩ := enterEffectHandler_sp h
      obtain ⟨-, -, -, hother1, -⟩ := setWords_get hdom1
      obtain ⟨-, -, -, hother2, -⟩ := setParent_get hdom2
      obtain ⟨-, -, -, hother3, -⟩ := setParent_get hdom3
      have hcur' : c'.state.dom.currentStack = p :=
        hcur.trans ((setParent_ok hdom3).2.trans (setParent_ok hdom2).2)
      -- the last fiber has no parent, so it is none of those that keep theirs
      have htail : ∀ {x q}, x ≠ m.dom.currentStack →
          linksOf m.dom.pool x = some (some q) → x ≠ tail := by
        rintro x q hx hxq rfl
        have hnone : j.parent = none := of_decide_eq_true (camlAssert_eq_ok.mp hroot)
        have hjx : m.dom.pool.get x = some j := (hother1 x hx).symm.trans (stack_ok hj)
        unfold linksOf at hxq
        rw [hjx] at hxq
        exact nomatch hnone.symm.trans (Option.some.inj hxq)
      refine Or.inr (Or.inl ⟨hlabel, ?_, fun {x} hx => ?_, fun {x q} hx hxq => ?_, fun hne => ?_⟩)
      · rw [hcur', hlink, hp]
      · have hheld : heldBy c'.state.dom x = heldBy dom3 x := heldBy_of_get (by rw [hpool])
        have hheld1 : heldBy dom1 x = heldBy m.dom x := heldBy_of_get (hother1 x hx)
        rw [hheld, setParent_kept hdom3 x, heldBy_of_get (hother2 x hx)]
        exact hheld1
      · rw [hpool]
        exact (hother3 x (htail hx hxq)).trans ((hother2 x hx).trans (hother1 x hx))
      · rw [hcur'] at hne ⊢
        obtain ⟨q, hq, rfl⟩ := loadSp_ok hsp
        exact ⟨q, w0, w1, rest', new, (hother1 p hne).symm.trans hq, hw, htrap, hnew⟩

/-! ## The whole switch -/

/-- The effect instructions. -/
def isEffect : Opcode → Bool
  | .PERFORM | .RESUME | .RESUMETERM | .REPERFORMTERM => true
  | _ => false

/-- What a step that is none of the effect instructions does to the domain. -/
inductive Passage (R : Domain ω → Domain ω → Prop) (c c' : Ctl (Machine ω)) : Prop where
  /-- it stays within the relation -/
  | within : R c.state.dom c'.state.dom → Passage R c c'
  /-- `PUSHTRAP`, `POPTRAP`, or an exception that is caught -/
  | retraps {t : Long} : executing c = some .PUSHTRAP ∨ executing c = some .POPTRAP ∨
      (∃ m, c = .raiseNotrace m) → c'.state.dom = { c.state.dom with trapSpOff := t } →
      Passage R c c'
  /-- the interpreter returns -/
  | halts {r : Result} {dom : Domain ω} {x : Nat} {t : Long} : R c.state.dom dom →
      c'.state.dom = { dom with externalRaise := x, trapSpOff := t } → c' = .halted r c'.state →
      Passage R c c'
  /-- the running fiber ends -/
  | leaves {m : Machine ω} {i : StackInfo} {p : Nat} {h : Value} : R c.state.dom m.dom →
      m.dom.pool.get m.dom.currentStack = some i → i.parent = some p →
      leaveFor m p h = .ok c' → Passage R c c'

/-- `do_return`: through a frame, or out of the fiber. -/
theorem doReturn_cases (h : doReturn m = .ok c') :
    (m.sp ≠ [] ∧ c'.state.dom = m.dom) ∨
      m.sp = [] ∧ ∃ i p, m.dom.pool.get m.dom.currentStack = some i ∧ i.parent = some p ∧
        leaveFor m p i.handleValue = .ok c' := by
  unfold doReturn at h
  split at h
  · next hsp =>
      obtain ⟨i, hi, h⟩ := bind_eq_ok.mp h
      obtain ⟨-, -, h⟩ := bind_eq_ok.mp h
      obtain ⟨p, hp, h⟩ := bind_eq_ok.mp h
      exact Or.inr ⟨hsp, i, p, stack_ok hi, orUndefined_eq_ok.mp hp, h⟩
  · next hsp =>
      obtain ⟨pc, -, h⟩ := bind_eq_ok.mp h
      obtain ⟨extra, -, h⟩ := bind_eq_ok.mp h
      obtain rfl := Except.ok.inj h
      exact Or.inl ⟨by rw [hsp]; exact List.cons_ne_nil _ _, rfl⟩
  · cases h

theorem doReturn_passes (hr : R c.state.dom m.dom) (h : doReturn m = .ok c') :
    Passage R c c' := by
  rcases doReturn_cases h with ⟨-, hdom⟩ | ⟨-, i, p, hi, hp, hleave⟩
  · refine .within ?_
    rw [hdom]
    exact hr
  · exact .leaves hr hi hp hleave

/-- `raise_notrace` stays on its stack, climbs, or halts. -/
theorem raiseNotrace_passes (hR : Survives rt R) (h : raiseNotrace act m = .ok c') :
    Passage R (.raiseNotrace m) c' := by
  unfold raiseNotrace at h
  split at h
  · obtain ⟨i, hi, h⟩ := bind_eq_ok.mp h
    have hi := stack_ok hi
    cases hp : i.parent with
    | none =>
        simp only [hp] at h
        obtain ⟨dom, hdom, h⟩ := bind_eq_ok.mp h
        obtain rfl := Except.ok.inj h
        exact .halts (hR.returned hdom) rfl rfl
    | some p =>
        simp only [hp] at h
        obtain ⟨dom, hdom, h⟩ := bind_eq_ok.mp h
        obtain ⟨j, hj, hj', -, hcur, -⟩ := saveSp_get hdom
        obtain rfl : j = i := Option.some.inj (hj.symm.trans hi)
        exact .leaves (m := { m with dom := dom }) (i := { j with words := m.sp })
          (hR.saved hdom) (by rw [hcur]; exact hj') hp h
  · obtain ⟨sp, -, h⟩ := bind_eq_ok.mp h
    split at h
    · obtain ⟨pc, -, h⟩ := bind_eq_ok.mp h
      obtain ⟨extra, -, h⟩ := bind_eq_ok.mp h
      obtain ⟨trap, -, h⟩ := bind_eq_ok.mp h
      obtain rfl := Except.ok.inj h
      exact .retraps (Or.inr (Or.inr ⟨m, rfl⟩)) rfl
    · cases h

theorem onCore_dom {f : Core → C Core} (h : onCore f m = .ok m') : m'.dom = m.dom := by
  obtain ⟨core, -, h⟩ := bind_eq_ok.mp h
  obtain rfl := Except.ok.inj h
  rfl

theorem thenNext_dom {f : Core → C Core} (h : thenNext f m = .ok c') : c'.state.dom = m.dom := by
  obtain ⟨m1, hm1, h⟩ := bind_eq_ok.mp h
  obtain rfl := Except.ok.inj h
  exact onCore_dom hm1

theorem enter_dom {f : Core → C Core} (h : CamlUpstream.enter f m = .ok c') :
    c'.state.dom = m.dom := by
  obtain ⟨m1, hm1, h⟩ := bind_eq_ok.mp h
  obtain rfl := Except.ok.inj h
  exact onCore_dom hm1

theorem ret_passes (hR : Survives rt R) (hc : (fetched c).dom = m.dom)
    (h : CamlUpstream.ret m = .ok c') : Passage R c c' := by
  obtain ⟨m1, hm1, h⟩ := bind_eq_ok.mp h
  have hdom : c.state.dom = m1.dom := by rw [onCore_dom hm1, ← hc, fetched_dom]
  split at h
  · refine .within ?_
    rw [thenNext_dom h, hdom]
    exact hR.refl _
  · exact doReturn_passes (hdom ▸ hR.refl _) h

/-- `GRAB` stays on its stack: what it returns through is its own frame. -/
theorem grab_passes (hR : Survives rt R) (hc : c.state.dom = m.dom) (h : grab rt m = .ok c') :
    Passage R c c' := by
  unfold grab at h
  dsimp only at h
  split at h
  · obtain rfl := Except.ok.inj h
    refine .within ?_
    rw [hc]
    exact hR.refl _
  · rcases allocSmall_within (m := { m with toCore := m.toCore.advance }) hR h with
      ⟨-, hr⟩ | ⟨v, m1, hr, h⟩
    · refine .within ?_
      rw [hc]
      exact hr
    · obtain ⟨args, -, h⟩ := bind_eq_ok.mp h
      obtain ⟨m2, hinit, h⟩ := bind_eq_ok.mp h
      refine doReturn_passes ?_ h
      rw [hc]
      show R m.dom m2.dom
      rw [initFields_dom hinit]
      exact hr

/-- `POPTRAP` stays on its stack. -/
theorem poptrap_passes (hR : Survives rt R) (hc : executing c = some .POPTRAP)
    (h : poptrap rt (fetched c) = .ok c') : Passage R c c' := by
  unfold poptrap at h
  split at h
  · refine .within ?_
    have hall := processSignal_within (m := { fetched c with pc := (fetched c).pc - 4#64 }) hR h
    rw [← fetched_dom]
    exact hall
  · obtain ⟨w, -, h⟩ := bind_eq_ok.mp h
    obtain ⟨trap, -, h⟩ := bind_eq_ok.mp h
    obtain ⟨sp, -, h⟩ := bind_eq_ok.mp h
    obtain rfl := Except.ok.inj h
    exact .retraps (Or.inr (Or.inl hc)) (by rw [← fetched_dom c]; rfl)

theorem stop_passes (hR : Survives rt R) (hc : c.state.dom = m.dom) (h : stop act m = .ok c') :
    Passage R c c' := by
  obtain ⟨dom, hdom, h⟩ := bind_eq_ok.mp h
  obtain rfl := Except.ok.inj h
  exact .halts (hc ▸ hR.saved hdom) rfl rfl

/-- **ONE INSTRUCTION**: every case of the `switch` but the effect instructions. -/
theorem exec_passes (hR : Survives rt R) {op : Opcode} (hc : executing c = some op)
    (hop : isEffect op = false) (h : CamlUpstream.exec rt act op (fetched c) = .ok c') :
    Passage R c c' := by
  have hdom : c.state.dom = (fetched c).dom := (fetched_dom c).symm
  have hwithin : R (fetched c).dom c'.state.dom → Passage R c c' := by
    intro hr
    refine .within ?_
    rw [hdom]
    exact hr
  have hsame : c'.state.dom = (fetched c).dom → Passage R c c' := by
    intro he
    refine hwithin ?_
    rw [he]
    exact hR.refl _
  cases op with
  | APPLY => exact hsame (enter_dom h)
  | APPLY1 => exact hsame (enter_dom h)
  | APPLY2 => exact hsame (enter_dom h)
  | APPLY3 => exact hsame (enter_dom h)
  | APPTERM => exact hsame (enter_dom h)
  | APPTERM1 => exact hsame (enter_dom h)
  | APPTERM2 => exact hsame (enter_dom h)
  | APPTERM3 => exact hsame (enter_dom h)
  | RETURN => exact ret_passes hR rfl h
  | GRAB => exact grab_passes hR hdom h
  | CLOSURE => exact hwithin (closure_within hR h)
  | CLOSUREREC => exact hwithin (closurerec_within hR h)
  | MAKEBLOCK => exact hwithin (makeblock_within hR h)
  | MAKEBLOCK1 => exact hwithin (makeblockN_within hR h)
  | MAKEBLOCK2 => exact hwithin (makeblockN_within hR h)
  | MAKEBLOCK3 => exact hwithin (makeblockN_within hR h)
  | MAKEFLOATBLOCK => exact hwithin (makefloatblock_within hR h)
  | GETFLOATFIELD => exact hwithin (getfloatfield_within hR h)
  | PUSHTRAP =>
      obtain rfl := Except.ok.inj h
      exact .retraps (Or.inl hc) (by rw [hdom]; rfl)
  | POPTRAP => exact poptrap_passes hR hc h
  | RAISE => exact hwithin (raiseException_within hR h).2
  | CHECK_SIGNALS => exact hwithin (checkSignals_within hR h)
  | C_CALL1 => exact hwithin (cCallN_within hR h)
  | C_CALL2 => exact hwithin (cCallN_within hR h)
  | C_CALL3 => exact hwithin (cCallN_within hR h)
  | C_CALL4 => exact hwithin (cCallN_within hR h)
  | C_CALL5 => exact hwithin (cCallN_within hR h)
  | C_CALLN => exact hwithin (cCalln_within hR h)
  | DIVINT => exact hwithin (divide_within hR h)
  | MODINT => exact hwithin (divide_within hR h)
  | STOP => exact stop_passes hR hdom h
  | EVENT => exact hwithin (event_within hR h)
  | BREAK => exact hwithin (breakInstr_within hR h)
  | RERAISE => exact hwithin (raiseException_within hR h).2
  | RAISE_NOTRACE =>
      obtain rfl := Except.ok.inj h
      exact hwithin (checkTrapBarrier_within hR _)
  | PERFORM => cases hop
  | RESUME => cases hop
  | RESUMETERM => cases hop
  | REPERFORMTERM => cases hop
  | _ => exact hsame (thenNext_dom h)

/-- **ONE STEP** that is not an effect instruction. -/
theorem step_passes (hR : Survives rt R)
    (hop : ∀ op, executing c = some op → isEffect op = false)
    (h : machineStep rt act c = .ok c') : Passage R c c' := by
  rcases machineStep_cases h with ⟨op, hex, hs⟩ | ⟨m, rfl, hs⟩ | ⟨m, rfl, hs⟩
  · exact exec_passes hR hex (hop op hex) hs
  · exact .within (checkStacks_within hR hs)
  · exact raiseNotrace_passes hR hs

end CamlPassage
