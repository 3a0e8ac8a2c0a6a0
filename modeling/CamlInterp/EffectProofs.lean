import CamlInterp.FiberProofs

/-! # Effects — what is saved where, and what comes back

    Three layouts have to fit: the words `RESUME` and `RESUMETERM` park on the
    resuming fiber, the words `PERFORM` leaves on the fiber that performs, and
    the words `REPERFORMTERM` leaves on every fiber in between.  A handler runs
    on the fiber around the one whose handler it is; what it does there before
    it passes the effect on, or resumes the continuation, is anything that keeps
    to its own frame. -/

namespace CamlEffect

open CellStore ParentChain CamlValue CamlOpcode CamlMachine CamlControl CamlStep CamlFiber Runs

variable {ω : Type}

/-! ## What a fiber holds -/

/-- The words and the handlers of a stack. -/
def held (i : StackInfo) : List Value × Value × Value × Value :=
  (i.words, i.handleValue, i.handleExn, i.handleEffect)

def heldBy (dom : Domain ω) (s : Nat) : Option (List Value × Value × Value × Value) :=
  (dom.pool.get s).map held

/-- The parent and the handlers of a stack. -/
def outline (i : StackInfo) : Option Nat × Value × Value × Value :=
  (i.parent, i.handleValue, i.handleExn, i.handleEffect)

def outlineOf (dom : Domain ω) (s : Nat) : Option (Option Nat × Value × Value × Value) :=
  (dom.pool.get s).map outline

/-- The words of a fiber that waits under another one. -/
def Parked (dom : Domain ω) (s : Nat) : Prop :=
  ∃ i t e rest, dom.pool.get s = some i ∧ i.words = valLong t :: valLong e :: rest

/-- The words `PERFORM` leaves on the fiber that performs. -/
def suspended (m : Machine ω) : List Value :=
  valLong m.dom.trapSpOff :: ofCode m.pc :: m.env :: valLong m.extraArgs :: m.sp

/-- The running fiber, which may have been moved, keeps its parent and its
    handlers; the fibers around it are as they were. -/
structure Undisturbed (dom dom' : Domain ω) : Prop where
  running : outlineOf dom' dom'.currentStack = outlineOf dom dom.currentStack
  around : ∀ {l}, Linked (linksOf dom.pool) (dom.currentStack :: l) →
    ∀ x ∈ l, dom'.pool.get x = dom.pool.get x ∧ x ≠ dom'.currentStack

variable {rt : Runtime ω} {act : Activation} {m m' d : Machine ω} {dom dom' dom'' : Domain ω}
  {s : Nat} {l : List Nat}

theorem linksOf_eq_outline (dom : Domain ω) (s : Nat) :
    linksOf dom.pool s = (outlineOf dom s).map Prod.fst := by
  unfold linksOf outlineOf
  rw [Option.map_map]
  rfl

theorem linksOf_of_get {dom dom' : Domain ω} {x : Nat}
    (h : dom'.pool.get x = dom.pool.get x) :
    linksOf dom'.pool x = linksOf dom.pool x := by
  unfold linksOf
  rw [h]

theorem Linked.of_get (h : Linked (linksOf dom.pool) l)
    (hl : ∀ x ∈ l, dom'.pool.get x = dom.pool.get x) : Linked (linksOf dom'.pool) l :=
  h.congr (fun x hx => linksOf_of_get (hl x hx))

theorem Undisturbed.refl (dom : Domain ω) : Undisturbed dom dom :=
  ⟨rfl, fun hl _ hx => ⟨rfl, fun e => (List.nodup_cons.mp hl.nodup).1 (e ▸ hx)⟩⟩

/-- The chain of the running fiber is still there. -/
theorem Undisturbed.linked (h : Undisturbed dom dom')
    (hl : Linked (linksOf dom.pool) (dom.currentStack :: l)) :
    Linked (linksOf dom'.pool) (dom'.currentStack :: l) := by
  refine ⟨?_, Linked.of_get hl.2 (fun x hx => (h.around hl x hx).1)⟩
  rw [linksOf_eq_outline, h.running, ← linksOf_eq_outline]
  exact hl.1

theorem Undisturbed.trans (h : Undisturbed dom dom') (h' : Undisturbed dom' dom'') :
    Undisturbed dom dom'' := by
  refine ⟨h'.running.trans h.running, fun hl x hx => ?_⟩
  obtain ⟨hget, hne⟩ := h'.around (h.linked hl) x hx
  exact ⟨hget.trans (h.around hl x hx).1, hne⟩

/-- The running fiber is still there, with its outline. -/
theorem Undisturbed.live (h : Undisturbed dom dom') {i : StackInfo}
    (hi : dom.pool.get dom.currentStack = some i) :
    ∃ j, dom'.pool.get dom'.currentStack = some j ∧ outline j = outline i := by
  have hout := h.running
  unfold outlineOf at hout
  rw [hi] at hout
  exact Option.map_eq_some_iff.mp hout

/-! ## Stack operations, cell by cell -/

theorem setWords_get {sp : List Value} (h : dom.setWords s sp = .ok dom') :
    ∃ i, dom.pool.get s = some i ∧ dom'.pool.get s = some { i with words := sp } ∧
      (∀ x, x ≠ s → dom'.pool.get x = dom.pool.get x) ∧
      dom'.trapSpOff = dom.trapSpOff := by
  obtain ⟨i, hi, hd⟩ := bind_eq_ok.mp h
  obtain rfl := Except.ok.inj hd
  exact ⟨i, stack_ok hi, Store.get_put_self _ (stack_ok hi),
    fun x hx => Store.get_put_of_ne _ _ hx, rfl⟩

theorem setParent_get {p : Option Nat} (h : dom.setParent s p = .ok dom') :
    ∃ i, dom.pool.get s = some i ∧ dom'.pool.get s = some { i with parent := p } ∧
      (∀ x, x ≠ s → dom'.pool.get x = dom.pool.get x) ∧
      dom'.trapSpOff = dom.trapSpOff := by
  obtain ⟨i, hi, hd⟩ := bind_eq_ok.mp h
  obtain rfl := Except.ok.inj hd
  exact ⟨i, stack_ok hi, Store.get_put_self _ (stack_ok hi),
    fun x hx => Store.get_put_of_ne _ _ hx, rfl⟩

theorem loadSp_ok {sp : List Value} (h : dom.loadSp = .ok sp) :
    ∃ i, dom.pool.get dom.currentStack = some i ∧ i.words = sp := by
  obtain ⟨i, hi, hd⟩ := bind_eq_ok.mp h
  exact ⟨i, stack_ok hi, Except.ok.inj hd⟩

theorem spAt_zero_ok {sp : List Value} {v : Value} (h : spAt sp 0 = .ok v) :
    ∃ rest, sp = v :: rest := by
  cases sp with
  | nil => exact nomatch h
  | cons w rest => exact ⟨rest, by rw [Except.ok.inj h]⟩

theorem spAt_one_ok {w v : Value} {sp : List Value} (h : spAt (w :: sp) 1 = .ok v) :
    ∃ rest, sp = v :: rest := by
  cases sp with
  | nil => exact nomatch h
  | cons w rest => exact ⟨rest, by rw [Except.ok.inj h]⟩

theorem spDrop_append {fr rest : List Value} : spDrop (fr ++ rest) fr.length = .ok rest := by
  unfold spDrop
  rw [if_pos ⟨by omega, by simp⟩]
  simp

theorem spDrop_ok {sp rest : List Value} {n : Int} (h : spDrop sp n = .ok rest) :
    ∃ fr, sp = fr ++ rest ∧ (fr.length : Int) = n := by
  unfold spDrop at h
  split at h
  · next hn =>
      refine ⟨sp.take n.toNat, ?_, ?_⟩
      · rw [← Except.ok.inj h, List.take_append_drop]
      · rw [List.length_take, Nat.min_eq_left hn.2]
        omega
  · exact nomatch h

/-! ## The handler's side -/

/-- A handler has just been entered on a fiber whose saved words are still those
    it was parked with. -/
structure Entered (b tail : Nat) (m : Machine ω) : Prop where
  words : ∃ i w0 w1 rest eff, m.dom.pool.get m.dom.currentStack = some i ∧
    i.words = w0 :: w1 :: rest ∧ longVal w0 = .ok m.dom.trapSpOff ∧
    longVal w1 = .ok (m.extraArgs - 2#63) ∧ m.sp = eff :: .ptr b 0 :: .stk tail :: rest

/-- A three-argument handler has run from its entry to its `REPERFORMTERM`: the
    fibers in the continuation and around are as they were, so is the
    continuation, and the operand is the size of the frame plus two. -/
structure Passes (b tail : Nat) (m d : Machine ω) : Prop where
  cont : contOf d.mem.heap b = contOf m.mem.heap b
  captured : ∀ {s l}, contOf m.mem.heap b = some s → Linked (linksOf m.dom.pool) (s :: l) →
    ∀ x ∈ s :: l, d.dom.pool.get x = m.dom.pool.get x ∧ x ≠ d.dom.currentStack
  fibers : Undisturbed m.dom d.dom
  frame : ∃ eff rest fr, m.sp = eff :: .ptr b 0 :: .stk tail :: rest ∧
    d.sp = .ptr b 0 :: .stk tail :: (fr ++ rest) ∧ d.operand.toInt = fr.length + 2
  args : d.extraArgs = m.extraArgs - 2#63
  trap : d.dom.trapSpOff = m.dom.trapSpOff

/-- Pending actions that come back have run on the current stack: they leave it,
    or a copy that has replaced it, with its words, its parent and its handlers,
    and the fibers around alone. -/
structure CallsBack (rt : Runtime ω) : Prop where
  fibers : ∀ {mem dom v mem' dom'}, rt.processPendingActions mem dom = .ok (.value v mem' dom') →
    Undisturbed dom dom' ∧ dom'.trapSpOff = dom.trapSpOff
  words : ∀ {mem dom v mem' dom' sp},
    rt.processPendingActions mem dom = .ok (.value v mem' dom') → dom.loadSp = .ok sp →
    dom'.loadSp = .ok sp
  /-- the stack that has been replaced is freed -/
  freed : ∀ {mem dom v mem' dom'}, rt.processPendingActions mem dom = .ok (.value v mem' dom') →
    dom'.currentStack ≠ dom.currentStack → dom'.pool.get dom.currentStack = none
  /-- a freed stack stays freed -/
  dead : ∀ {mem dom v mem' dom'}, rt.processPendingActions mem dom = .ok (.value v mem' dom') →
    dom.pool.fresh ≤ dom'.pool.fresh ∧
      ∀ x, x < dom.pool.fresh → dom.pool.get x = none → dom'.pool.get x = none
  /-- closures keep their code -/
  closures : ∀ {mem dom v mem' dom' c pc},
    rt.processPendingActions mem dom = .ok (.value v mem' dom') →
    codeVal mem.heap c = .ok pc → codeVal mem'.heap c = .ok pc

/-- The machine `m` has been stopped for pending actions, and is now `m'`. -/
structure Stopped (m m' : Machine ω) : Prop where
  pc : m'.pc = m.pc
  sp : m'.sp = m.sp
  accu : m'.accu = m.accu
  env : m'.env = m.env
  extraArgs : m'.extraArgs = m.extraArgs
  trap : m'.dom.trapSpOff = m.dom.trapSpOff
  fibers : Undisturbed m.dom m'.dom
  freed : m'.dom.currentStack ≠ m.dom.currentStack →
    m'.dom.pool.get m.dom.currentStack = none
  fresh : m.dom.pool.fresh ≤ m'.dom.pool.fresh
  dead : ∀ x, x < m.dom.pool.fresh → m.dom.pool.get x = none → m'.dom.pool.get x = none
  closures : ∀ {c pc}, codeVal m.mem.heap c = .ok pc → codeVal m'.mem.heap c = .ok pc

theorem saveSp_get {sp : List Value} (h : dom.saveSp sp = .ok dom') :
    ∃ i, dom.pool.get dom.currentStack = some i ∧
      dom'.pool.get dom.currentStack = some { i with words := sp } ∧
      (∀ x, x ≠ dom.currentStack → dom'.pool.get x = dom.pool.get x) ∧
      dom'.currentStack = dom.currentStack ∧ dom'.trapSpOff = dom.trapSpOff := by
  obtain ⟨i, hi, hd⟩ := bind_eq_ok.mp h
  obtain rfl := Except.ok.inj hd
  exact ⟨i, stack_ok hi, Store.get_put_self _ (stack_ok hi),
    fun x hx => Store.get_put_of_ne _ _ hx, rfl, rfl⟩

theorem saveSp_of_get (sp : List Value) {i : StackInfo}
    (h : dom.pool.get dom.currentStack = some i) :
    dom.saveSp sp = .ok { dom with
      pool := dom.pool.put dom.currentStack { i with words := sp } } := by
  unfold Domain.saveSp Domain.stack
  rw [h]
  rfl

/-- What has been saved is loaded. -/
theorem loadSp_saveSp {sp : List Value} (h : dom.saveSp sp = .ok dom') : dom'.loadSp = .ok sp := by
  obtain ⟨i, hi, hi', -, hcur, -⟩ := saveSp_get h
  unfold Domain.loadSp Domain.stack
  rw [hcur, hi']
  rfl

theorem Stopped.refl (m : Machine ω) : Stopped m m :=
  ⟨rfl, rfl, rfl, rfl, rfl, rfl, Undisturbed.refl _, fun h => absurd rfl h, Nat.le_refl _,
    fun _ _ h => h, fun h => h⟩

/-- Two stops one after the other; that numbers of stacks are not used again is what
    the bound is for. -/
theorem Stopped.trans {m'' : Machine ω} (h : Stopped m m') (h' : Stopped m' m'')
    (hlt : m.dom.currentStack < m.dom.pool.fresh) : Stopped m m'' := by
  refine ⟨h'.pc.trans h.pc, h'.sp.trans h.sp, h'.accu.trans h.accu, h'.env.trans h.env,
    h'.extraArgs.trans h.extraArgs, h'.trap.trans h.trap, h.fibers.trans h'.fibers, ?_,
    Nat.le_trans h.fresh h'.fresh, ?_, fun hc => h'.closures (h.closures hc)⟩
  · intro hne
    by_cases hcur : m'.dom.currentStack = m.dom.currentStack
    · rw [← hcur]
      exact h'.freed (fun e => hne (e.trans hcur))
    · exact h'.dead _ (Nat.lt_of_lt_of_le hlt h.fresh) (h.freed hcur)
  · intro x hx hnone
    exact h'.dead x (Nat.lt_of_lt_of_le hx h.fresh) (h.dead x hx hnone)

/-- Saving words on the running stack disturbs nothing. -/
theorem saveSp_undisturbed {sp : List Value} (h : dom.saveSp sp = .ok dom') :
    Undisturbed dom dom' := by
  obtain ⟨i, hi, hi', hother, hcur, -⟩ := saveSp_get h
  refine ⟨?_, fun hl x hx => ?_⟩
  · unfold outlineOf
    rw [hcur, hi, hi']
    rfl
  · have hne : x ≠ dom.currentStack := fun e => (List.nodup_cons.mp hl.nodup).1 (e ▸ hx)
    exact ⟨hother x hne, by rw [hcur]; exact hne⟩

/-- Pending actions return, with the code and the saved words as they were; the
    stack that holds the words may be another one. -/
structure GivesBack (rt : Runtime ω) : Prop where
  returns : ∀ mem dom, ∃ v mem' dom', rt.processPendingActions mem dom = .ok (.value v mem' dom')
  saved : ∀ {mem dom v mem' dom' sp},
    rt.processPendingActions mem dom = .ok (.value v mem' dom') → dom.loadSp = .ok sp →
    dom'.loadSp = .ok sp ∧ mem'.code = mem.code

/-- A stop for pending actions, as far as an instruction that allocates can tell. -/
structure GivenBack (m m' : Machine ω) : Prop where
  pc : m'.pc = m.pc
  sp : m'.sp = m.sp
  env : m'.env = m.env
  code : m'.mem.code = m.mem.code

/-- A stop of a runtime that gives back returns, to a stack that is there. -/
theorem enterGc_givesBack (hg : GivesBack rt) {i : StackInfo}
    (hi : m.dom.pool.get m.dom.currentStack = some i) :
    ∃ m' j, enterGc rt m = .ok (.inl m') ∧ GivenBack m m' ∧
      m'.dom.pool.get m'.dom.currentStack = some j := by
  have hsave := saveSp_of_get (m.accu :: m.env :: ofCode m.pc :: m.sp) hi
  obtain ⟨v, mem, dom, hp⟩ := hg.returns m.mem { m.dom with
    pool := m.dom.pool.put m.dom.currentStack
      { i with words := m.accu :: m.env :: ofCode m.pc :: m.sp } }
  have hput : Domain.loadSp { m.dom with
      pool := m.dom.pool.put m.dom.currentStack
        { i with words := m.accu :: m.env :: ofCode m.pc :: m.sp } }
      = .ok (m.accu :: m.env :: ofCode m.pc :: m.sp) :=
    bind_eq_ok.mpr ⟨_, orUndefined_eq_ok.mpr (Store.get_put_self _ hi), rfl⟩
  obtain ⟨hload, hcode⟩ := hg.saved hp hput
  obtain ⟨j, hj, -⟩ := loadSp_ok hload
  refine ⟨_, j, bind_eq_ok.mpr ⟨_, hsave, bind_eq_ok.mpr ⟨_, hp, bind_eq_ok.mpr
    ⟨_, hload, rfl⟩⟩⟩, ?_, hj⟩
  exact ⟨rfl, rfl, rfl, hcode⟩

/-- So do all the stops of one allocation. -/
theorem gcLoop_givesBack (hg : GivesBack rt) (n : Nat) {i : StackInfo}
    (hi : m.dom.pool.get m.dom.currentStack = some i) :
    ∃ m', gcLoop rt n m = .ok (.inl m') ∧ GivenBack m m' := by
  have hback : ∀ {m : Machine ω}, (∃ i, m.dom.pool.get m.dom.currentStack = some i) →
      ∃ m1, enterGc rt m = .ok (.inl m1) ∧
        (∃ i, m1.dom.pool.get m1.dom.currentStack = some i) ∧
        ∀ {m2}, GivenBack m1 m2 → GivenBack m m2 := by
    rintro m ⟨i, hi⟩
    obtain ⟨m1, j, h1, hs, hj⟩ := enterGc_givesBack hg hi
    exact ⟨m1, h1, ⟨j, hj⟩, fun h => ⟨h.pc.trans hs.pc, h.sp.trans hs.sp, h.env.trans hs.env,
      h.code.trans hs.code⟩⟩
  obtain ⟨m', hm', -, hs⟩ := gcLoop_returns (fun m => ⟨rfl, rfl, rfl, rfl⟩) hback n ⟨i, hi⟩
  exact ⟨m', hm', hs⟩

/-! ## The performing side -/

theorem reenter_raises {e : Value} {mem : Mem} {c' : Ctl (Machine ω)}
    (h : reenter rt m e mem dom = .ok c') : ∃ m', c' = .raiseNotrace m' := by
  obtain ⟨sp, -, h⟩ := bind_eq_ok.mp h
  dsimp only at h
  split at h
  · exact ⟨_, (Except.ok.inj h).symm⟩
  · exact ⟨_, (Except.ok.inj h).symm⟩

/-- `CHECK_SIGNALS` goes on or raises. -/
theorem checkSignals_ends {c' : Ctl (Machine ω)} (h : checkSignals rt m = .ok c') :
    (∃ m', c' = .next m') ∨ ∃ m', c' = .raiseNotrace m' := by
  unfold checkSignals at h
  split at h
  · obtain ⟨dom', -, h⟩ := bind_eq_ok.mp h
    obtain ⟨res, -, h⟩ := bind_eq_ok.mp h
    cases res with
    | raised e mem' dom' => exact Or.inr (reenter_raises h)
    | value v mem' dom' =>
        obtain ⟨sp, -, h⟩ := bind_eq_ok.mp h
        obtain ⟨w0, -, h⟩ := bind_eq_ok.mp h
        obtain ⟨w3, -, h⟩ := bind_eq_ok.mp h
        obtain ⟨pc, -, h⟩ := bind_eq_ok.mp h
        obtain ⟨w4, -, h⟩ := bind_eq_ok.mp h
        obtain ⟨w5, -, h⟩ := bind_eq_ok.mp h
        obtain ⟨extra, -, h⟩ := bind_eq_ok.mp h
        obtain ⟨sp', -, h⟩ := bind_eq_ok.mp h
        exact Or.inl ⟨_, (Except.ok.inj h).symm⟩
  · exact Or.inl ⟨_, (Except.ok.inj h).symm⟩

/-- `check_stacks` goes on or raises. -/
theorem checkStacks_ends {c' : Ctl (Machine ω)} (h : checkStacks rt m = .ok c') :
    (∃ m', c' = .next m') ∨ ∃ m', c' = .raiseNotrace m' := by
  obtain ⟨cur, -, h⟩ := bind_eq_ok.mp h
  split at h
  · obtain ⟨dom', -, h⟩ := bind_eq_ok.mp h
    obtain ⟨grown, -, h⟩ := bind_eq_ok.mp h
    cases grown with
    | none =>
        obtain ⟨m1, -, h⟩ := bind_eq_ok.mp h
        obtain ⟨e, -, h⟩ := bind_eq_ok.mp h
        exact Or.inr (reenter_raises h)
    | some dom' =>
        obtain ⟨sp, -, h⟩ := bind_eq_ok.mp h
        exact checkSignals_ends h
  · exact checkSignals_ends h

/-- Once the pending actions are through, `Alloc_small` hands out a fresh cell. -/
theorem allocSmall_eq {wosize tag : Nat} (k : Value → Machine ω → C (Ctl (Machine ω)))
    (hw : 1 ≤ wosize) (hsmall : wosize ≤ maxYoungWosize) (htag : tag < 256)
    (h : gcLoop rt (rt.gcRounds m.mem m.dom) m = .ok (.inl m')) :
    allocSmall rt m wosize tag k
      = k (.ptr m'.mem.heap.fresh 0) { m' with mem := { m'.mem with
          heap := m'.mem.heap.alloc ⟨tag, List.replicate wosize .undef⟩ } } := by
  unfold allocSmall camlAssert
  simp only [hw, hsmall, htag, h, bind, Except.bind, decide_true, if_true]
  rfl

/-- Pending actions keep code where it is, too. -/
structure KeepsCode (rt : Runtime ω) : Prop extends CallsBack rt where
  code : ∀ {mem dom v mem' dom'},
    rt.processPendingActions mem dom = .ok (.value v mem' dom') → mem'.code = mem.code

/-- The same registers, with the running stack perhaps moved and the memory
    perhaps changed by pending actions. -/
structure Carried (rt : Runtime ω) (m m' : Machine ω) : Prop where
  pc : m'.pc = m.pc
  sp : m'.sp = m.sp
  accu : m'.accu = m.accu
  env : m'.env = m.env
  extraArgs : m'.extraArgs = m.extraArgs
  memory : m'.mem = m.mem ∨
    ∃ dom v dom', rt.processPendingActions m.mem dom = .ok (.value v m'.mem dom')
  trap : m'.dom.trapSpOff = m.dom.trapSpOff
  fibers : Undisturbed m.dom m'.dom

theorem Carried.code (hk : KeepsCode rt) (h : Carried rt m m') :
    m'.mem.code = m.mem.code := by
  rcases h.memory with hm | ⟨dom, v, dom', hp⟩
  · rw [hm]
  · exact hk.code hp

/-- Where `CHECK_SIGNALS` goes on, the registers are as they were. -/
theorem checkSignals_carried (hk : CallsBack rt)
    (h : checkSignals rt m = .ok (.next m')) : Carried rt m m' := by
  unfold checkSignals at h
  split at h
  · obtain ⟨dom, hdom, h⟩ := bind_eq_ok.mp h
    obtain ⟨res, hres, h⟩ := bind_eq_ok.mp h
    cases res with
    | raised e mem' dom' =>
        obtain ⟨m'', hm''⟩ := reenter_raises h
        exact nomatch hm''
    | value v mem' dom' =>
        have hload := hk.words hres (loadSp_saveSp hdom)
        obtain ⟨hfib, htrap⟩ := hk.fibers hres
        obtain ⟨-, -, -, -, -, htrap'⟩ := saveSp_get hdom
        obtain ⟨sp, hsp, h⟩ := bind_eq_ok.mp h
        obtain rfl := Except.ok.inj (hload.symm.trans hsp)
        obtain ⟨w0, hw0, h⟩ := bind_eq_ok.mp h
        obtain ⟨w3, hw3, h⟩ := bind_eq_ok.mp h
        obtain ⟨pc, hpc, h⟩ := bind_eq_ok.mp h
        obtain ⟨w4, hw4, h⟩ := bind_eq_ok.mp h
        obtain ⟨w5, hw5, h⟩ := bind_eq_ok.mp h
        obtain ⟨extra, hextra, h⟩ := bind_eq_ok.mp h
        obtain ⟨sp', hsp', hm⟩ := bind_eq_ok.mp h
        obtain rfl := Ctl.next.inj (Except.ok.inj hm)
        refine ⟨?_, (Except.ok.inj hsp').symm, (Except.ok.inj hw0).symm,
          (Except.ok.inj hw4).symm, ?_, Or.inr ⟨_, _, _, hres⟩, htrap.trans htrap',
          (saveSp_undisturbed hdom).trans hfib⟩
        · have hw : ofCode m.pc = w3 := Except.ok.inj hw3
          rw [← hw] at hpc
          exact (Except.ok.inj hpc).symm
        · have hw : valLong m.extraArgs = w5 := Except.ok.inj hw5
          rw [← hw, longVal_valLong] at hextra
          exact (Except.ok.inj hextra).symm
  · obtain rfl := Ctl.next.inj (Except.ok.inj h)
    exact ⟨rfl, rfl, rfl, rfl, rfl, Or.inl rfl, rfl, Undisturbed.refl _⟩

/-- `caml_try_realloc_stack` after the words have been saved. -/
theorem realloc_undisturbed {sp : List Value} {required : Nat}
    (hsave : dom.saveSp sp = .ok dom')
    (h : camlTryReallocStack rt required dom' = .ok (some dom'')) :
    Undisturbed dom dom'' ∧ dom''.loadSp = .ok sp ∧ dom''.trapSpOff = dom.trapSpOff := by
  obtain ⟨i, hi, hi', hother, hcur, htrap⟩ := saveSp_get hsave
  obtain ⟨old, size, hold, rfl⟩ := realloc_eq h
  have hfresh : dom'.pool.fresh ≠ dom'.currentStack :=
    Nat.ne_of_gt (Store.lt_fresh_of_get hold)
  have hold' : old = { i with words := sp } := by
    rw [hcur] at hold
    exact Option.some.inj (hold.symm.trans hi')
  have hnew : ((dom'.pool.alloc { old with size := size }).free dom'.currentStack).get
      dom'.pool.fresh = some { old with size := size } := by
    rw [Store.get_free_of_ne _ hfresh, Store.get_alloc_fresh]
  refine ⟨⟨?_, fun hl x hx => ?_⟩, ?_, htrap⟩
  · unfold outlineOf
    show (Store.get _ dom'.pool.fresh).map outline = _
    rw [hnew, hi, hold']
    rfl
  · have hxc : x ≠ dom.currentStack := fun e => (List.nodup_cons.mp hl.nodup).1 (e ▸ hx)
    have hxf : x ≠ dom'.pool.fresh := by
      have hlive := (live_iff _ _).mp (hl.live (List.mem_cons_of_mem _ hx))
      rw [← hother x hxc] at hlive
      obtain ⟨j, hj⟩ := Option.ne_none_iff_exists'.mp hlive
      exact Nat.ne_of_lt (Store.lt_fresh_of_get hj)
    refine ⟨?_, hxf⟩
    show Store.get (Store.free _ _) x = _
    rw [Store.get_free_of_ne _ (by rw [hcur]; exact hxc), Store.get_alloc_of_ne _ _ hxf,
      hother x hxc]
  · unfold Domain.loadSp Domain.stack
    show (orUndefined (Store.get _ dom'.pool.fresh) >>= _) = _
    rw [hnew, hold']
    rfl

/-- Where `check_stacks` goes on, the registers are as they were, on a stack that may
    have been moved. -/
theorem checkStacks_carried (hk : CallsBack rt)
    (h : checkStacks rt m = .ok (.next m')) : Carried rt m m' := by
  obtain ⟨cur, -, h⟩ := bind_eq_ok.mp h
  split at h
  · obtain ⟨dom, hdom, h⟩ := bind_eq_ok.mp h
    obtain ⟨grown, hgrown, h⟩ := bind_eq_ok.mp h
    cases grown with
    | none =>
        obtain ⟨m1, -, h⟩ := bind_eq_ok.mp h
        obtain ⟨e, -, h⟩ := bind_eq_ok.mp h
        obtain ⟨m2, hm2⟩ := reenter_raises h
        exact nomatch hm2
    | some dom' =>
        obtain ⟨sp, hsp, h⟩ := bind_eq_ok.mp h
        obtain ⟨hund, hload, htrap⟩ := realloc_undisturbed hdom hgrown
        obtain rfl := Except.ok.inj (hload.symm.trans hsp)
        have hc := checkSignals_carried (m := { m with dom := dom' }) hk h
        exact ⟨hc.pc, hc.sp, hc.accu, hc.env, hc.extraArgs, hc.memory, hc.trap.trans htrap,
          hund.trans hc.fibers⟩
  · exact checkSignals_carried hk h

/-! ## The chain in a continuation -/

/-- The effect performed in `m0` has been passed on by the fibers `done`; a
    handler has just been entered on the first of `ahead`.  The continuation
    holds the performing fiber and `caps`, which are `done` where they are now. -/
structure Captured (m0 : Machine ω) (b : Nat) (done ahead caps : List Nat) (m : Machine ω) :
    Prop where
  linked : Linked (linksOf m.dom.pool) (m0.dom.currentStack :: caps)
  cont : contOf m.mem.heap b = some m0.dom.currentStack
  here : ahead.head? = some m.dom.currentStack
  linkedAhead : Linked (linksOf m.dom.pool) ahead
  apart : ∀ x ∈ m0.dom.currentStack :: caps, x ∉ ahead
  waiting : ∀ x ∈ ahead, m.dom.pool.get x = m0.dom.pool.get x
  held : caps.map (heldBy m.dom) = done.map (heldBy m0.dom)
  own : ∃ i0 i, m0.dom.pool.get m0.dom.currentStack = some i0 ∧
    m.dom.pool.get m0.dom.currentStack = some i ∧
    CamlEffect.held i = CamlEffect.held { i0 with words := suspended m0 }
  entered : ∃ tail, (m0.dom.currentStack :: caps).getLast? = some tail ∧ Entered b tail m

/-- The words under the frame, from both `sp + *pc - 2` and the two slots above. -/
theorem spDrop_frame {w0 w1 : Value} {fr rest below rest' : List Value} {n : Int}
    (hn : n = fr.length + 2) (h1 : spDrop (w0 :: w1 :: (fr ++ rest)) (n - 2) = .ok below)
    (h2 : spDrop below 2 = .ok rest') : rest' = rest := by
  obtain ⟨fr1, hfr1, hlen1⟩ := spDrop_ok h1
  obtain ⟨fr2, rfl, hlen2⟩ := spDrop_ok h2
  have happ : (w0 :: w1 :: fr) ++ rest = (fr1 ++ fr2) ++ rest' := by
    rw [List.append_assoc, ← hfr1]
    rfl
  have hlen : (w0 :: w1 :: fr).length = (fr1 ++ fr2).length := by
    rw [List.length_append, List.length_cons, List.length_cons]
    omega
  exact (List.append_inj happ hlen).2.symm

/-- The fiber a handler has run on, at its `REPERFORMTERM`: parking it anew gives
    the words and the handlers it was parked with. -/
theorem Captured.running {m0 : Machine ω} {b x tail : Nat} {done caps : List Nat}
    (h : Captured m0 b done (x :: l) caps m) (hx : Parked m0.dom x)
    (htail : (m0.dom.currentStack :: caps).getLast? = some tail) (hpass : Passes b tail m d) :
    ∃ i fr rest, d.dom.pool.get d.dom.currentStack = some i ∧ i.parent = l.head? ∧
      d.sp = .ptr b 0 :: .stk tail :: (fr ++ rest) ∧ d.operand.toInt = fr.length + 2 ∧
      heldBy m0.dom x = some (CamlEffect.held { i with
        words := valLong d.dom.trapSpOff :: valLong d.extraArgs :: rest }) := by
  obtain rfl : x = m.dom.currentStack := Option.some.inj h.here
  obtain ⟨tail', htail', ⟨iw, w0, w1, rest, eff, hiw, hwords, hw0, hw1, hsp⟩⟩ := h.entered
  obtain rfl : tail = tail' := Option.some.inj (htail.symm.trans htail')
  -- it still has the outline it had when the handler was entered
  have hrun := hpass.fibers.running
  unfold outlineOf at hrun
  rw [hiw, Option.map_some] at hrun
  obtain ⟨i, hi, hout⟩ := Option.map_eq_some_iff.mp hrun
  simp only [outline, Prod.mk.injEq] at hout
  have hparent : iw.parent = l.head? := by
    have hlink := h.linkedAhead.1
    unfold linksOf at hlink
    rw [hiw] at hlink
    exact Option.some.inj hlink
  obtain ⟨eff', rest', fr, hsp', hdsp, hop⟩ := hpass.frame
  obtain rfl : rest = rest' := by
    rw [hsp] at hsp'
    exact (List.cons.inj (List.cons.inj (List.cons.inj hsp').2).2).2
  refine ⟨i, fr, rest, hi, hout.1.trans hparent, hdsp, hop, ?_⟩
  have hpw := h.waiting m.dom.currentStack List.mem_cons_self
  obtain ⟨i0, t, e, rest0, hi0, hw⟩ := hx
  obtain rfl : iw = i0 := Option.some.inj (hiw.symm.trans (hpw.trans hi0))
  rw [hwords] at hw
  obtain ⟨rfl, hw'⟩ := List.cons.inj hw
  obtain ⟨rfl, rfl⟩ := List.cons.inj hw'
  rw [longVal_valLong] at hw0 hw1
  have htrap : d.dom.trapSpOff = t := by rw [hpass.trap, Except.ok.inj hw0]
  have hargs : d.extraArgs = e := by rw [hpass.args, Except.ok.inj hw1]
  unfold heldBy
  rw [hi0]
  simp only [Option.map_some, CamlEffect.held, hwords, htrap, hargs, hout.2.1, hout.2.2.1,
    hout.2.2.2]

/-- The effect is passed on `n` times: each handler runs from its entry to its
    `REPERFORMTERM`, which enters the next one. -/
inductive PassedOn (rt : Runtime ω) (act : Activation) (b : Nat) :
    Nat → Machine ω → Machine ω → Prop where
  | here {m : Machine ω} : PassedOn rt act b 0 m m
  | more {n tail : Nat} {past : List (Ctl (Machine ω))} {c : Ctl (Machine ω)}
      {m m' mn : Machine ω} : handlerPair (.checkStacks m) = some (b, tail) →
      Run (machineStep rt act) (.checkStacks m) past c → executing c = some .REPERFORMTERM →
      Passes b tail m (fetched c) → machineStep rt act c = .ok (.checkStacks m') →
      PassedOn rt act b n m' mn → PassedOn rt act b (n + 1) m mn

theorem Entered.pair {b tail : Nat} (h : Entered b tail m) :
    handlerPair (.checkStacks m) = some (b, tail) := by
  obtain ⟨i, w0, w1, rest, eff, -, -, -, -, hsp⟩ := h.words
  unfold handlerPair
  simp only [hsp]

end CamlEffect
