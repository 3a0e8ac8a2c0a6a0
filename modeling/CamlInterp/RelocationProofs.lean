import CamlInterp.HandlerCallProofs

/-! # Relocation — pending actions nobody notices

    `Enter_gc` and `process_signal` save the registers on the stack, call
    `caml_process_pending_actions` and load them back.  Meanwhile blocks of the
    heap may have been moved, with every pointer to them, and the running stack
    may have been replaced by a larger copy.  Whatever an instruction does after
    the call it has to do with what it loads back: its result is then the result
    it would have had without the call, moved in the same way. -/

namespace CamlRelocation

open CellStore CamlValue CamlOpcode CamlMachine CamlControl CamlStep CamlFiber CamlEffect
  CamlUnhandled CamlPassage CamlHandlerCall

variable {ω : Type}

/-! ## Moving blocks -/

/-- A value after every block `b` has been moved to `f b`. -/
def moveVal (f : Nat → Nat) : Value → Value
  | .ptr b ofs => .ptr (f b) ofs
  | v => v

def moveBlock (f : Nat → Nat) (blk : Block) : Block :=
  { blk with fields := blk.fields.map (moveVal f) }

/-- The blocks of `h` are those of `h'`, moved along `f`. -/
structure HeapMoved (f : Nat → Nat) (h h' : Heap) : Prop where
  injective : ∀ {b c blk blk'}, h.get b = some blk → h.get c = some blk' → f b = f c → b = c
  blocks : ∀ {b blk}, h.get b = some blk → h'.get (f b) = some (moveBlock f blk)

structure MemMoved (f : Nat → Nat) (mem mem' : Mem) : Prop where
  heap : HeapMoved f mem.heap mem'.heap
  code : mem'.code = mem.code
  globalData : mem'.globalData = moveVal f mem.globalData
  raiseUnhandled : mem'.raiseUnhandled = moveVal f mem.raiseUnhandled

/-- The handlers of a stack are moved; its parent stays, and it may be larger. -/
structure OutlineMoved (f : Nat → Nat) (i i' : StackInfo) : Prop where
  handleValue : i'.handleValue = moveVal f i.handleValue
  handleExn : i'.handleExn = moveVal f i.handleExn
  handleEffect : i'.handleEffect = moveVal f i.handleEffect
  parent : i'.parent = i.parent
  size : i.size ≤ i'.size

/-- The stacks keep their words, and the running one may be another stack; what
    is saved in the running one does not matter while it runs. -/
structure DomMoved (f : Nat → Nat) (dom dom' : Domain ω) : Prop where
  running : ∀ {i}, dom.pool.get dom.currentStack = some i →
    ∃ i', dom'.pool.get dom'.currentStack = some i' ∧ OutlineMoved f i i'
  others : ∀ {x i}, x ≠ dom.currentStack → dom.pool.get x = some i → x ≠ dom'.currentStack ∧
    ∃ i', dom'.pool.get x = some i' ∧ OutlineMoved f i i' ∧ i'.words = i.words.map (moveVal f)
  trapSpOff : dom'.trapSpOff = dom.trapSpOff
  trapBarrierOff : dom'.trapBarrierOff = dom.trapBarrierOff
  externalRaise : dom'.externalRaise = dom.externalRaise
  backtraceActive : dom'.backtraceActive = dom.backtraceActive
  maxStackSize : dom'.maxStackSize = dom.maxStackSize
  fiberWsz : dom'.fiberWsz = dom.fiberWsz

/-- The machine `m'` is `m` with the blocks moved along `f` and its stack moved. -/
structure Moved (f : Nat → Nat) (m m' : Machine ω) : Prop where
  pc : m'.pc = m.pc
  sp : m'.sp = m.sp.map (moveVal f)
  accu : m'.accu = moveVal f m.accu
  env : m'.env = moveVal f m.env
  extraArgs : m'.extraArgs = m.extraArgs
  mem : MemMoved f m.mem m'.mem
  dom : DomMoved f m.dom m'.dom

/-- The same label, with the machine moved. -/
def CtlMoved (f : Nat → Nat) (c c' : Ctl (Machine ω)) : Prop :=
  ∃ m', c' = c.map (fun _ => m') ∧ Moved f c.state m'

/-! ## Pending actions -/

/-- A pending action: the saved words are moved like everything else. -/
structure Relocated (f : Nat → Nat) (mem mem' : Mem) (dom dom' : Domain ω) : Prop where
  memory : MemMoved f mem mem'
  domain : DomMoved f dom dom'
  words : ∀ {i i'}, dom.pool.get dom.currentStack = some i →
    dom'.pool.get dom'.currentStack = some i' → i'.words = i.words.map (moveVal f)

/-- Pending actions relocate, and come back. -/
def Relocates (rt : Runtime ω) : Prop :=
  ∀ mem dom i, dom.pool.get dom.currentStack = some i → ∃ f v mem' dom',
    rt.processPendingActions mem dom = .ok (.value v mem' dom') ∧
    Relocated f mem mem' dom dom'

/-- The same C code when there are no pending actions. -/
def idle (rt : Runtime ω) : Runtime ω :=
  { rt with gcRounds := fun _ _ => 0, checkPending := fun _ _ => false }

/-! ## Values that can be moved -/

/-- The value is no pointer to a block from `n` on. -/
def Below (n : Nat) (v : Value) : Prop := ∀ {b ofs}, v = .ptr b ofs → b < n

/-- Every pointer of the machine is one to a block of its heap, and the running
    fiber is not its own parent. -/
structure Closed (m : Machine ω) : Prop where
  accu : Below m.mem.heap.fresh m.accu
  env : Below m.mem.heap.fresh m.env
  sp : ∀ v ∈ m.sp, Below m.mem.heap.fresh v
  heap : ∀ {b blk}, m.mem.heap.get b = some blk → ∀ v ∈ blk.fields, Below m.mem.heap.fresh v
  globalData : Below m.mem.heap.fresh m.mem.globalData
  raiseUnhandled : Below m.mem.heap.fresh m.mem.raiseUnhandled
  words : ∀ {x i}, x ≠ m.dom.currentStack → m.dom.pool.get x = some i →
    ∀ v ∈ i.words, Below m.mem.heap.fresh v
  handlers : ∀ {x i}, m.dom.pool.get x = some i → Below m.mem.heap.fresh i.handleValue ∧
    Below m.mem.heap.fresh i.handleExn ∧ Below m.mem.heap.fresh i.handleEffect
  parent : ∀ {i}, m.dom.pool.get m.dom.currentStack = some i →
    i.parent ≠ some m.dom.currentStack

variable {rt : Runtime ω} {act : Activation} {f g : Nat → Nat} {m m' m'' : Machine ω}
  {mem mem' mem'' : Mem} {dom dom' dom'' : Domain ω} {c c' : Ctl (Machine ω)} {h h' h'' : Heap}

/-! ## Identity, composition and congruence -/

theorem moveVal_id (v : Value) : moveVal id v = v := by
  cases v <;> rfl

theorem moveVal_comp (f g : Nat → Nat) (v : Value) :
    moveVal g (moveVal f v) = moveVal (g ∘ f) v := by
  cases v <;> rfl

theorem map_moveVal_id (l : List Value) : l.map (moveVal id) = l := by
  induction l with
  | nil => rfl
  | cons v l ih => rw [List.map_cons, moveVal_id, ih]

theorem map_moveVal_comp (f g : Nat → Nat) (l : List Value) :
    (l.map (moveVal f)).map (moveVal g) = l.map (moveVal (g ∘ f)) := by
  rw [List.map_map]
  exact List.map_congr_left (fun v _ => moveVal_comp f g v)

theorem moveBlock_id (blk : Block) : moveBlock id blk = blk := by
  unfold moveBlock
  rw [map_moveVal_id]

theorem moveBlock_comp (f g : Nat → Nat) (blk : Block) :
    moveBlock g (moveBlock f blk) = moveBlock (g ∘ f) blk := by
  unfold moveBlock
  rw [map_moveVal_comp]

theorem HeapMoved.refl (h : Heap) : HeapMoved id h h :=
  ⟨fun _ _ e => e, fun hb => by rw [moveBlock_id]; exact hb⟩

theorem HeapMoved.trans (hf : HeapMoved f h h') (hg : HeapMoved g h' h'') :
    HeapMoved (g ∘ f) h h'' := by
  constructor
  · intro b c blk blk' hb hc e
    exact hf.injective hb hc (hg.injective (hf.blocks hb) (hf.blocks hc) e)
  · intro b blk hb
    rw [← moveBlock_comp]
    exact hg.blocks (hf.blocks hb)

theorem MemMoved.refl (mem : Mem) : MemMoved id mem mem :=
  ⟨HeapMoved.refl _, rfl, (moveVal_id _).symm, (moveVal_id _).symm⟩

theorem MemMoved.trans (hf : MemMoved f mem mem') (hg : MemMoved g mem' mem'') :
    MemMoved (g ∘ f) mem mem'' := by
  refine ⟨hf.heap.trans hg.heap, hg.code.trans hf.code, ?_, ?_⟩
  · rw [hg.globalData, hf.globalData, moveVal_comp]
  · rw [hg.raiseUnhandled, hf.raiseUnhandled, moveVal_comp]

theorem OutlineMoved.refl (i : StackInfo) : OutlineMoved id i i :=
  ⟨(moveVal_id _).symm, (moveVal_id _).symm, (moveVal_id _).symm, rfl, Nat.le_refl _⟩

theorem OutlineMoved.trans {i i' i'' : StackInfo} (hf : OutlineMoved f i i')
    (hg : OutlineMoved g i' i'') : OutlineMoved (g ∘ f) i i'' := by
  refine ⟨?_, ?_, ?_, hg.parent.trans hf.parent, Nat.le_trans hf.size hg.size⟩
  · rw [hg.handleValue, hf.handleValue, moveVal_comp]
  · rw [hg.handleExn, hf.handleExn, moveVal_comp]
  · rw [hg.handleEffect, hf.handleEffect, moveVal_comp]

theorem DomMoved.refl (dom : Domain ω) : DomMoved id dom dom :=
  ⟨fun hi => ⟨_, hi, OutlineMoved.refl _⟩,
    fun hx hi => ⟨hx, _, hi, OutlineMoved.refl _, (map_moveVal_id _).symm⟩,
    rfl, rfl, rfl, rfl, rfl, rfl⟩

/-- Two moves one after the other. -/
theorem DomMoved.trans (hf : DomMoved f dom dom') (hg : DomMoved g dom' dom'') :
    DomMoved (g ∘ f) dom dom'' := by
  refine ⟨fun hi => ?_, fun hx hi => ?_, hg.trapSpOff.trans hf.trapSpOff,
    hg.trapBarrierOff.trans hf.trapBarrierOff, hg.externalRaise.trans hf.externalRaise,
    hg.backtraceActive.trans hf.backtraceActive, hg.maxStackSize.trans hf.maxStackSize,
    hg.fiberWsz.trans hf.fiberWsz⟩
  · obtain ⟨i', hi', ho⟩ := hf.running hi
    obtain ⟨i'', hi'', ho'⟩ := hg.running hi'
    exact ⟨i'', hi'', ho.trans ho'⟩
  · obtain ⟨hx', i', hi', ho, hw⟩ := hf.others hx hi
    obtain ⟨hx'', i'', hi'', ho', hw'⟩ := hg.others hx' hi'
    refine ⟨hx'', i'', hi'', ho.trans ho', ?_⟩
    rw [hw', hw, map_moveVal_comp]

theorem Moved.refl (m : Machine ω) : Moved id m m :=
  ⟨rfl, (map_moveVal_id _).symm, (moveVal_id _).symm, (moveVal_id _).symm, rfl, MemMoved.refl _,
    DomMoved.refl _⟩

theorem Moved.trans (hf : Moved f m m') (hg : Moved g m' m'') : Moved (g ∘ f) m m'' := by
  refine ⟨hg.pc.trans hf.pc, ?_, ?_, ?_, hg.extraArgs.trans hf.extraArgs,
    hf.mem.trans hg.mem, hf.dom.trans hg.dom⟩
  · rw [hg.sp, hf.sp, map_moveVal_comp]
  · rw [hg.accu, hf.accu, moveVal_comp]
  · rw [hg.env, hf.env, moveVal_comp]

theorem CtlMoved.refl (c : Ctl (Machine ω)) : CtlMoved id c c := by
  refine ⟨c.state, ?_, Moved.refl _⟩
  cases c <;> rfl

theorem moveVal_congr {n : Nat} {v : Value} (hv : Below n v) (hfg : ∀ b < n, g b = f b) :
    moveVal g v = moveVal f v := by
  cases v with
  | ptr b ofs =>
      show Value.ptr (g b) ofs = Value.ptr (f b) ofs
      rw [hfg b (hv rfl)]
  | undef => rfl
  | word w => rfl
  | atom t => rfl
  | stk s => rfl

theorem map_moveVal_congr {n : Nat} {l : List Value} (hl : ∀ v ∈ l, Below n v)
    (hfg : ∀ b < n, g b = f b) : l.map (moveVal g) = l.map (moveVal f) :=
  List.map_congr_left (fun v hv => moveVal_congr (hl v hv) hfg)

theorem OutlineMoved.congr {n : Nat} {i i' : StackInfo} (h : OutlineMoved f i i')
    (hi : Below n i.handleValue ∧ Below n i.handleExn ∧ Below n i.handleEffect)
    (hfg : ∀ b < n, g b = f b) : OutlineMoved g i i' := by
  refine ⟨?_, ?_, ?_, h.parent, h.size⟩
  · rw [moveVal_congr hi.1 hfg, h.handleValue]
  · rw [moveVal_congr hi.2.1 hfg, h.handleExn]
  · rw [moveVal_congr hi.2.2 hfg, h.handleEffect]

/-- What is done with the numbers that are no blocks yet does not matter. -/
theorem Moved.congr (hm : Closed m) (h : Moved f m m')
    (hfg : ∀ b < m.mem.heap.fresh, g b = f b) : Moved g m m' := by
  refine ⟨h.pc, ?_, ?_, ?_, h.extraArgs, ⟨⟨?_, ?_⟩, h.mem.code, ?_, ?_⟩,
    ⟨fun hi => ?_, fun hx hi => ?_, h.dom.trapSpOff, h.dom.trapBarrierOff, h.dom.externalRaise,
      h.dom.backtraceActive, h.dom.maxStackSize, h.dom.fiberWsz⟩⟩
  · rw [h.sp, map_moveVal_congr hm.sp hfg]
  · rw [h.accu, moveVal_congr hm.accu hfg]
  · rw [h.env, moveVal_congr hm.env hfg]
  · intro b c blk blk' hb hc e
    rw [hfg b (Store.lt_fresh_of_get hb), hfg c (Store.lt_fresh_of_get hc)] at e
    exact h.mem.heap.injective hb hc e
  · intro b blk hb
    rw [hfg b (Store.lt_fresh_of_get hb), h.mem.heap.blocks hb]
    unfold moveBlock
    rw [map_moveVal_congr (hm.heap hb) hfg]
  · rw [h.mem.globalData, moveVal_congr hm.globalData hfg]
  · rw [h.mem.raiseUnhandled, moveVal_congr hm.raiseUnhandled hfg]
  · obtain ⟨i', hi', ho⟩ := h.dom.running hi
    exact ⟨i', hi', ho.congr (hm.handlers hi) hfg⟩
  · obtain ⟨hx', i', hi', ho, hw⟩ := h.dom.others hx hi
    refine ⟨hx', i', hi', ho.congr (hm.handlers hi) hfg, ?_⟩
    rw [hw, map_moveVal_congr (hm.words hx hi) hfg]

/-! ## Registers saved and loaded back -/

/-- Saving words in the running stack, with an action after it. -/
theorem saved_relocated (hr : Relocates rt) {i : StackInfo}
    (hi : m.dom.pool.get m.dom.currentStack = some i) (words : List Value) :
    ∃ f v mem' dom', m.dom.saveSp words = .ok { m.dom with
        pool := m.dom.pool.put m.dom.currentStack { i with words := words } } ∧
      rt.processPendingActions m.mem { m.dom with
        pool := m.dom.pool.put m.dom.currentStack { i with words := words } }
        = .ok (.value v mem' dom') ∧
      dom'.loadSp = .ok (words.map (moveVal f)) ∧ MemMoved f m.mem mem' ∧
      DomMoved f m.dom dom' := by
  have hput := Store.get_put_self { i with words := words } hi
  obtain ⟨f, v, mem', dom', hpend, hrel⟩ := hr m.mem { m.dom with
    pool := m.dom.pool.put m.dom.currentStack { i with words := words } } _ hput
  obtain ⟨i', hi', ho⟩ := hrel.domain.running hput
  refine ⟨f, v, mem', dom', saveSp_of_get words hi, hpend, ?_, hrel.memory, ?_⟩
  · unfold Domain.loadSp Domain.stack
    rw [hi', ← hrel.words hput hi']
    rfl
  · refine ⟨fun {j} hj => ?_, fun {x j} hx hj => ?_, hrel.domain.trapSpOff,
      hrel.domain.trapBarrierOff, hrel.domain.externalRaise, hrel.domain.backtraceActive,
      hrel.domain.maxStackSize, hrel.domain.fiberWsz⟩
    · obtain rfl := Option.some.inj (hi.symm.trans hj)
      exact ⟨i', hi', ⟨ho.handleValue, ho.handleExn, ho.handleEffect, ho.parent, ho.size⟩⟩
    · exact hrel.domain.others hx ((Store.get_put_of_ne _ _ hx).trans hj)

/-- `Enter_gc` loads back what it has saved, moved. -/
theorem enterGc_moved (hr : Relocates rt) {i : StackInfo}
    (hi : m.dom.pool.get m.dom.currentStack = some i) :
    ∃ f m', enterGc rt m = .ok (.inl m') ∧ Moved f m m' := by
  obtain ⟨f, v, mem', dom', hsave, hpend, hload, hmem, hdom⟩ :=
    saved_relocated hr hi (m.accu :: m.env :: ofCode m.pc :: m.sp)
  refine ⟨f, { m with
    accu := moveVal f m.accu, env := moveVal f m.env, sp := m.sp.map (moveVal f),
    mem := mem', dom := dom' }, ?_, rfl, rfl, rfl, rfl, rfl, hmem, hdom⟩
  unfold enterGc
  rw [hsave]
  show (rt.processPendingActions _ _ >>= _) = _
  rw [hpend]
  show (dom'.loadSp >>= _) = _
  rw [hload]
  rfl

/-- Any number of actions in the loop of `Alloc_small`. -/
theorem gcLoop_moved (hr : Relocates rt) (n : Nat) {i : StackInfo}
    (hi : m.dom.pool.get m.dom.currentStack = some i) :
    ∃ f m', gcLoop rt n m = .ok (.inl m') ∧ Moved f m m' := by
  have hback : ∀ {m : Machine ω}, (∃ i, m.dom.pool.get m.dom.currentStack = some i) →
      ∃ m1, enterGc rt m = .ok (.inl m1) ∧
        (∃ i, m1.dom.pool.get m1.dom.currentStack = some i) ∧
        ∀ {m2}, (∃ f, Moved f m1 m2) → ∃ f, Moved f m m2 := by
    rintro m ⟨i, hi⟩
    obtain ⟨f, m1, hm1, hf⟩ := enterGc_moved hr hi
    obtain ⟨i1, hi1, -⟩ := hf.dom.running hi
    exact ⟨m1, hm1, ⟨i1, hi1⟩, fun ⟨g, hg⟩ => ⟨g ∘ f, hf.trans hg⟩⟩
  obtain ⟨m', hm', -, f, hf⟩ := gcLoop_returns (fun m => ⟨id, Moved.refl m⟩) hback n ⟨i, hi⟩
  exact ⟨f, m', hm', hf⟩

/-- What `Setup_for_event` saves. -/
def eventWords (m : Machine ω) : List Value :=
  m.accu :: valUnit :: valUnit :: ofCode m.pc :: m.env :: valLong m.extraArgs :: m.sp

/-- `process_signal` when the actions return and have moved the saved words. -/
theorem processSignal_returns {d dom' : Domain ω} {v : Value} {mem' : Mem}
    (hsave : m.dom.saveSp (eventWords m) = .ok d)
    (hpend : rt.processPendingActions m.mem d = .ok (.value v mem' dom'))
    (hload : dom'.loadSp = .ok ((eventWords m).map (moveVal f))) :
    processSignal rt m = .ok (.next { m with
      accu := moveVal f m.accu, env := moveVal f m.env, sp := m.sp.map (moveVal f),
      mem := mem', dom := dom' }) := by
  have hlong : longVal (moveVal f (valLong m.extraArgs)) = .ok m.extraArgs := longVal_valLong _
  unfold processSignal
  show (m.dom.saveSp (eventWords m) >>= _) = _
  rw [hsave]
  show (rt.processPendingActions _ _ >>= _) = _
  rw [hpend]
  show (dom'.loadSp >>= _) = _
  rw [hload]
  exact bind_eq_ok.mpr ⟨_, rfl, bind_eq_ok.mpr ⟨_, rfl, bind_eq_ok.mpr ⟨_, rfl,
    bind_eq_ok.mpr ⟨_, rfl, bind_eq_ok.mpr ⟨_, rfl, bind_eq_ok.mpr ⟨_, rfl,
      bind_eq_ok.mpr ⟨_, hlong, bind_eq_ok.mpr ⟨_, rfl, rfl⟩⟩⟩⟩⟩⟩⟩⟩

/-- `process_signal` loads back what it has saved, moved. -/
theorem processSignal_moved (hr : Relocates rt) {i : StackInfo}
    (hi : m.dom.pool.get m.dom.currentStack = some i) :
    ∃ f m', processSignal rt m = .ok (.next m') ∧ Moved f m m' := by
  obtain ⟨f, v, mem', dom', hsave, hpend, hload, hmem, hdom⟩ :=
    saved_relocated hr hi (eventWords m)
  exact ⟨f, _, processSignal_returns hsave hpend hload, rfl, rfl, rfl, rfl, rfl, hmem, hdom⟩

/-! ## A block allocated after the actions -/

/-- The machine with a new block of `n` words. -/
def withBlock (m : Machine ω) (tag n : Nat) : Machine ω :=
  { m with mem := { m.mem with
      heap := m.mem.heap.alloc ⟨tag, List.replicate n .undef⟩ } }

/-- The new block is where it is. -/
def movesFresh (f : Nat → Nat) (m m' : Machine ω) : Nat → Nat :=
  Function.update f m.mem.heap.fresh m'.mem.heap.fresh

theorem moveBlock_undef (f : Nat → Nat) (tag n : Nat) :
    moveBlock f ⟨tag, List.replicate n .undef⟩ = ⟨tag, List.replicate n .undef⟩ := by
  unfold moveBlock
  rw [List.map_replicate]
  rfl

theorem get_withBlock {tag n b : Nat} {blk : Block}
    (hb : (withBlock m tag n).mem.heap.get b = some blk) :
    (b = m.mem.heap.fresh ∧ blk = ⟨tag, List.replicate n .undef⟩) ∨
      b ≠ m.mem.heap.fresh ∧ m.mem.heap.get b = some blk := by
  by_cases he : b = m.mem.heap.fresh
  · refine Or.inl ⟨he, ?_⟩
    rw [he] at hb
    exact (Option.some.inj ((Store.get_alloc_fresh _ _).symm.trans hb)).symm
  · exact Or.inr ⟨he, (Store.get_alloc_of_ne _ _ he).symm.trans hb⟩

/-- Allocation after a move: the new block extends it. -/
theorem withBlock_moved (hm : Closed m) (h : Moved f m m') (tag n : Nat) :
    Moved (movesFresh f m m') (withBlock m tag n) (withBlock m' tag n) := by
  have hold : ∀ b < m.mem.heap.fresh, movesFresh f m m' b = f b :=
    fun b hb => Function.update_of_ne (Nat.ne_of_lt hb) _ _
  have hnew : movesFresh f m m' m.mem.heap.fresh = m'.mem.heap.fresh := Function.update_self _ _ _
  have hall := h.congr hm hold
  -- a block that was there before is not moved to the new one
  have hne : ∀ {b blk}, m.mem.heap.get b = some blk →
      movesFresh f m m' b ≠ m'.mem.heap.fresh :=
    fun hb => Nat.ne_of_lt (Store.lt_fresh_of_get (hall.mem.heap.blocks hb))
  refine ⟨hall.pc, hall.sp, hall.accu, hall.env, hall.extraArgs,
    ⟨⟨?_, ?_⟩, hall.mem.code, hall.mem.globalData, hall.mem.raiseUnhandled⟩, hall.dom⟩
  · intro b c blk blk' hb hc e
    rcases get_withBlock hb with ⟨rfl, -⟩ | ⟨-, hb⟩
    · rcases get_withBlock hc with ⟨rfl, -⟩ | ⟨-, hc⟩
      · rfl
      · exact absurd (e.symm.trans hnew) (hne hc)
    · rcases get_withBlock hc with ⟨rfl, -⟩ | ⟨-, hc⟩
      · exact absurd (e.trans hnew) (hne hb)
      · exact hall.mem.heap.injective hb hc e
  · intro b blk hb
    rcases get_withBlock hb with ⟨rfl, rfl⟩ | ⟨-, hb⟩
    · rw [hnew, moveBlock_undef]
      exact Store.get_alloc_fresh _ _
    · exact Store.get_alloc_of_get _ (hall.mem.heap.blocks hb)

/-- What follows an allocation does the same on a moved machine. -/
def Follows (m : Machine ω) (k : Value → Machine ω → C (Ctl (Machine ω))) : Prop :=
  ∀ f ma mb b blk c, Moved f ma mb → ma.dom = m.dom → ma.mem.heap.get b = some blk →
    k (.ptr b 0) ma = .ok c → ∃ c', k (.ptr (f b) 0) mb = .ok c' ∧ CtlMoved f c c'

/-- The result `c'` of a step with actions is the result `c` of the step without
    them, moved. -/
def Unnoticed (x y : C (Ctl (Machine ω))) : Prop :=
  ∀ c, x = .ok c → ∃ c' f, y = .ok c' ∧ CtlMoved f c c'

theorem unnoticed_same (x : C (Ctl (Machine ω))) : Unnoticed x x :=
  fun _ h => ⟨_, id, h, CtlMoved.refl _⟩

theorem Unnoticed.bind {α : Type} {x : C α} {k k' : α → C (Ctl (Machine ω))}
    (h : ∀ a, x = .ok a → Unnoticed (k a) (k' a)) : Unnoticed (x >>= k) (x >>= k') := by
  intro c hc
  obtain ⟨a, ha, hc⟩ := bind_eq_ok.mp hc
  obtain ⟨c', f, hc', hcm⟩ := h a ha c hc
  exact ⟨c', f, bind_eq_ok.mpr ⟨a, ha, hc'⟩, hcm⟩

/-- An allocation with pending actions, if what follows does not notice them. -/
theorem allocSmall_unnoticed (hr : Relocates rt) (hm : Closed m) {i : StackInfo}
    (hi : m.dom.pool.get m.dom.currentStack = some i) {wosize tag : Nat}
    {k : Value → Machine ω → C (Ctl (Machine ω))} (hk : Follows m k) :
    Unnoticed (allocSmall (idle rt) m wosize tag k) (allocSmall rt m wosize tag k) := by
  intro c h
  obtain ⟨u1, hwosize, h⟩ := bind_eq_ok.mp h
  obtain ⟨u2, htag, h⟩ := bind_eq_ok.mp h
  obtain ⟨u3, hyoung, h⟩ := bind_eq_ok.mp h
  obtain ⟨f, m', hgc, hmoved⟩ := gcLoop_moved hr (rt.gcRounds m.mem m.dom) hi
  change k (.ptr m.mem.heap.fresh 0) (withBlock m tag wosize) = .ok c at h
  obtain ⟨c', hc', hcm⟩ := hk _ _ _ _ _ _ (withBlock_moved hm hmoved tag wosize) rfl
    (Store.get_alloc_fresh _ _) h
  have hnew : movesFresh f m m' m.mem.heap.fresh = m'.mem.heap.fresh := Function.update_self _ _ _
  rw [hnew] at hc'
  refine ⟨c', _, ?_, hcm⟩
  exact bind_eq_ok.mpr ⟨u1, hwosize, bind_eq_ok.mpr ⟨u2, htag, bind_eq_ok.mpr ⟨u3, hyoung,
    bind_eq_ok.mpr ⟨_, hgc, hc'⟩⟩⟩⟩

/-- `caml_alloc_shr` runs no actions. -/
theorem allocEither_unnoticed (hr : Relocates rt) (hm : Closed m) {i : StackInfo}
    (hi : m.dom.pool.get m.dom.currentStack = some i) {small : Bool} {wosize tag : Nat}
    {k : Value → Machine ω → C (Ctl (Machine ω))} (hk : Follows m k) :
    Unnoticed (allocEither (idle rt) m small wosize tag k)
      (allocEither rt m small wosize tag k) := by
  unfold allocEither
  split
  · exact allocSmall_unnoticed hr hm hi hk
  · exact unnoticed_same _

/-! ## What the instructions do with what they load back -/

theorem spTake_moved {sp l : List Value} {n : Nat} (h : spTake sp n = .ok l) :
    spTake (sp.map (moveVal f)) n = .ok (l.map (moveVal f)) := by
  unfold spTake at h ⊢
  rw [List.length_map]
  split at h
  · next hn =>
      rw [if_pos hn, ← Except.ok.inj h, List.map_take]
  · cases h

theorem codeOf_moved {v : Value} {pc : CodePtr} (h : codeOf v = .ok pc) :
    codeOf (moveVal f v) = .ok pc := by
  cases v with
  | word w => exact h
  | ptr b ofs => cases h
  | undef => cases h
  | atom t => cases h
  | stk s => cases h

theorem longVal_moved {v : Value} {n : Long} (h : longVal v = .ok n) :
    longVal (moveVal f v) = .ok n := by
  cases v with
  | word w => exact h
  | ptr b ofs => cases h
  | undef => cases h
  | atom t => cases h
  | stk s => cases h

/-- What `Field(v, i)` reads, and when. -/
theorem field_eq_ok {b : Nat} {ofs i : Int} {x : Value} :
    field h (.ptr b ofs) i = .ok x ↔
      ∃ blk, h.get b = some blk ∧ 0 ≤ ofs + i ∧ blk.fields[(ofs + i).toNat]? = some x := by
  unfold field locate
  dsimp only
  cases hb : h.get b with
  | none => simp
  | some blk =>
      by_cases hi : 0 ≤ ofs + i ∧ (ofs + i).toNat < blk.fields.length
      · simp only [if_pos hi]
        rw [orUndefined_eq_ok]
        exact ⟨fun hx => ⟨blk, rfl, hi.1, hx⟩,
          fun ⟨blk', hblk, _, hx⟩ => Option.some.inj hblk ▸ hx⟩
      · simp only [if_neg hi]
        refine ⟨(fun hx => by cases hx), fun ⟨blk', hblk, hpos, hx⟩ => ?_⟩
        obtain rfl := Option.some.inj hblk
        obtain ⟨hlt, -⟩ := List.getElem?_eq_some_iff.mp hx
        exact absurd ⟨hpos, hlt⟩ hi

/-- A field of a moved block is the moved field. -/
theorem field_moved {v x : Value} {i : Int} (hm : HeapMoved f h h') (hx : field h v i = .ok x) :
    field h' (moveVal f v) i = .ok (moveVal f x) := by
  cases v with
  | ptr b ofs =>
      obtain ⟨blk, hb, hpos, hx⟩ := field_eq_ok.mp hx
      refine field_eq_ok.mpr ⟨moveBlock f blk, hm.blocks hb, hpos, ?_⟩
      show (blk.fields.map (moveVal f))[_]? = _
      rw [List.getElem?_map, hx]
      rfl
  | undef => cases hx
  | word w => cases hx
  | atom t => cases hx
  | stk s => cases hx

theorem codeVal_moved {v : Value} {pc : CodePtr} (hm : HeapMoved f h h')
    (hpc : codeVal h v = .ok pc) : codeVal h' (moveVal f v) = .ok pc := by
  obtain ⟨x, hx, hpc⟩ := bind_eq_ok.mp hpc
  exact bind_eq_ok.mpr ⟨_, field_moved hm hx, codeOf_moved hpc⟩

/-- Floats are read alike after a move. -/
theorem doubleVals_moved {vs ds : List Value} (hm : HeapMoved f h h')
    (hds : doubleVals h vs = .ok ds) :
    doubleVals h' (vs.map (moveVal f)) = .ok (ds.map (moveVal f)) := by
  induction vs generalizing ds with
  | nil =>
      obtain rfl := Except.ok.inj hds
      rfl
  | cons v vs ih =>
      obtain ⟨d, hd, hds⟩ := bind_eq_ok.mp hds
      obtain ⟨ds', hds', hds⟩ := bind_eq_ok.mp hds
      obtain rfl := Except.ok.inj hds
      exact bind_eq_ok.mpr ⟨_, field_moved hm hd, bind_eq_ok.mpr ⟨_, ih hds', rfl⟩⟩

/-- Filling the new block. -/
theorem put_moved {b tag : Nat} {blk : Block} {fields : List Value} (hm : HeapMoved f h h')
    (hb : h.get b = some blk) :
    HeapMoved f (h.put b ⟨tag, fields⟩) (h'.put (f b) ⟨tag, fields.map (moveVal f)⟩) := by
  have hlive : ∀ {c blk'}, (h.put b ⟨tag, fields⟩).get c = some blk' →
      ∃ blk'', h.get c = some blk'' := by
    intro c blk' hc
    by_cases he : c = b
    · exact ⟨blk, he ▸ hb⟩
    · exact ⟨blk', (Store.get_put_of_ne _ _ he).symm.trans hc⟩
  constructor
  · intro c d blk1 blk2 hc hd e
    obtain ⟨blk3, hc⟩ := hlive hc
    obtain ⟨blk4, hd⟩ := hlive hd
    exact hm.injective hc hd e
  · intro c blk' hc
    by_cases he : c = b
    · rw [he] at hc ⊢
      obtain rfl := Option.some.inj ((Store.get_put_self _ hb).symm.trans hc)
      exact Store.get_put_self _ (hm.blocks hb)
    · have hc' : h.get c = some blk' := (Store.get_put_of_ne _ _ he).symm.trans hc
      rw [Store.get_put_of_ne _ _ (fun e => he (hm.injective hc' hb e))]
      exact hm.blocks hc'

/-- `initFields` on the new block. -/
theorem initFields_moved {ma mb m1 : Machine ω} {b tag : Nat} {blk : Block}
    {fields : List Value} (hm : Moved f ma mb) (hb : ma.mem.heap.get b = some blk)
    (hinit : initFields ma (.ptr b 0) tag fields = .ok m1) :
    ∃ m2, initFields mb (.ptr (f b) 0) tag (fields.map (moveVal f)) = .ok m2 ∧
      Moved f m1 m2 ∧ m1.dom = ma.dom := by
  obtain rfl := Except.ok.inj hinit
  exact ⟨_, rfl, ⟨hm.pc, hm.sp, hm.accu, hm.env, hm.extraArgs,
    ⟨put_moved hm.mem.heap hb, hm.mem.code, hm.mem.globalData, hm.mem.raiseUnhandled⟩, hm.dom⟩, rfl⟩

/-- Leaving a fiber whose parent is another one. -/
theorem leaveFor_moved {ma mb : Machine ω} {p : Nat} {v : Value} {i : StackInfo}
    (hm : Moved f ma mb) (hi : ma.dom.pool.get ma.dom.currentStack = some i)
    (hp : p ≠ ma.dom.currentStack) (hs : leaveFor ma p v = .ok c) :
    ∃ c', leaveFor mb p (moveVal f v) = .ok c' ∧ CtlMoved f c c' := by
  obtain ⟨⟨m1, sp⟩, hleave, hs⟩ := bind_eq_ok.mp hs
  obtain ⟨sp', hload, hleave⟩ := bind_eq_ok.mp hleave
  obtain ⟨dom1, hfree, hleave⟩ := bind_eq_ok.mp hleave
  obtain ⟨-, -, hfree⟩ := bind_eq_ok.mp hfree
  obtain rfl := Except.ok.inj hfree
  obtain ⟨rfl, rfl⟩ := Prod.mk.inj (Except.ok.inj hleave)
  obtain ⟨j, hj, rfl⟩ := loadSp_ok hload
  obtain ⟨w0, hw0, hs⟩ := bind_eq_ok.mp hs
  obtain ⟨trap, htrap, hs⟩ := bind_eq_ok.mp hs
  obtain ⟨w1, hw1, hs⟩ := bind_eq_ok.mp hs
  obtain ⟨extra, hextra, hs⟩ := bind_eq_ok.mp hs
  obtain ⟨rest, hrest, hs⟩ := bind_eq_ok.mp hs
  obtain ⟨pc, hpc, hs⟩ := bind_eq_ok.mp hs
  obtain rfl := Except.ok.inj hs
  obtain ⟨i', hi', -⟩ := hm.dom.running hi
  obtain ⟨hp', j', hj', hoj, hwords⟩ := hm.dom.others hp hj
  rw [parked_words hw0 hw1 hrest] at hwords
  unfold leaveFor
  rw [leaveStack_of_get hj' hi', hwords]
  refine ⟨.checkStacks { mb with
    sp := mb.accu :: rest.map (moveVal f), extraArgs := extra, accu := moveVal f v, pc := pc,
    env := moveVal f v, dom := { mb.dom with
      pool := mb.dom.pool.free mb.dom.currentStack, currentStack := p, trapSpOff := trap } },
    bind_eq_ok.mpr ⟨_, rfl, bind_eq_ok.mpr ⟨_, rfl, bind_eq_ok.mpr ⟨_, longVal_moved htrap,
      bind_eq_ok.mpr ⟨_, rfl, bind_eq_ok.mpr ⟨_, longVal_moved hextra, bind_eq_ok.mpr ⟨_, rfl,
        bind_eq_ok.mpr ⟨_, codeVal_moved hm.mem.heap hpc, rfl⟩⟩⟩⟩⟩⟩⟩, _, rfl, ?_⟩
  refine ⟨rfl, ?_, rfl, rfl, rfl, hm.mem, ⟨fun {k} hk => ?_, fun {x k} hx hk => ?_, rfl,
    hm.dom.trapBarrierOff, hm.dom.externalRaise, hm.dom.backtraceActive, hm.dom.maxStackSize,
    hm.dom.fiberWsz⟩⟩
  · show mb.accu :: rest.map (moveVal f) = (ma.accu :: rest).map (moveVal f)
    rw [hm.accu]
    rfl
  · -- the parent runs now
    have hk' : ma.dom.pool.get p = some k := (Store.get_free_of_ne _ hp).symm.trans hk
    obtain rfl := Option.some.inj (hj.symm.trans hk')
    exact ⟨j', (Store.get_free_of_ne _ hp').trans hj', hoj⟩
  · have hxc : x ≠ ma.dom.currentStack := by
      rintro rfl
      cases (Store.get_free_self _ _).symm.trans hk
    have hk' : ma.dom.pool.get x = some k := (Store.get_free_of_ne _ hxc).symm.trans hk
    obtain ⟨hx', k', hk'', hok, hwk⟩ := hm.dom.others hxc hk'
    exact ⟨hx, k', (Store.get_free_of_ne _ hx').trans hk'', hok, hwk⟩

/-- `do_return`, through a frame or out of the fiber. -/
theorem doReturn_moved {ma mb : Machine ω} (hm : Moved f ma mb)
    (hself : ∀ {i}, ma.dom.pool.get ma.dom.currentStack = some i →
      i.parent ≠ some ma.dom.currentStack)
    (hs : doReturn ma = .ok c) : ∃ c', doReturn mb = .ok c' ∧ CtlMoved f c c' := by
  have hsp' := hm.sp
  rcases doReturn_cases hs with ⟨hne, -⟩ | ⟨hnil, i, p, hi, hp, hleave⟩
  · unfold doReturn at hs
    split at hs
    · next hsp => exact absurd hsp hne
    · next w0 w1 w2 rest hsp =>
        obtain ⟨pc, hpc, hs⟩ := bind_eq_ok.mp hs
        obtain ⟨extra, hextra, hs⟩ := bind_eq_ok.mp hs
        obtain rfl := Except.ok.inj hs
        rw [hsp] at hsp'
        refine ⟨.next { mb with
          pc := pc, env := moveVal f w1, extraArgs := extra, sp := rest.map (moveVal f) }, ?_,
          _, rfl, rfl, rfl, hm.accu, rfl, rfl, hm.mem, hm.dom⟩
        unfold doReturn
        rw [hsp']
        exact bind_eq_ok.mpr ⟨_, codeOf_moved hpc, bind_eq_ok.mpr ⟨_, longVal_moved hextra, rfl⟩⟩
    · cases hs
  · obtain ⟨i', hi', ho⟩ := hm.dom.running hi
    have hpc : p ≠ ma.dom.currentStack := fun e => hself hi (e ▸ hp)
    rw [hnil] at hsp'
    rw [doReturn_leaves hsp' hi' (ho.parent.trans hp), ho.handleValue]
    exact leaveFor_moved hm hi hpc hleave

/-! ## The instructions -/

variable {i : StackInfo}

theorem Moved.spTake {ma mb : Machine ω} {n : Nat} {l : List Value} (hm : Moved f ma mb)
    (h : CamlMachine.spTake ma.sp n = .ok l) :
    CamlMachine.spTake mb.sp n = .ok (l.map (moveVal f)) := by
  rw [hm.sp]
  exact spTake_moved h

/-- The end of an allocating instruction: the block in `accu`, `n` words popped. -/
theorem Moved.popped {ma mb : Machine ω} (hm : Moved f ma mb) (b n : Nat) :
    Moved f { ma with accu := .ptr b 0, sp := ma.sp.drop n }
      { mb with accu := .ptr (f b) 0, sp := mb.sp.drop n } := by
  refine ⟨hm.pc, ?_, rfl, hm.env, hm.extraArgs, hm.mem, hm.dom⟩
  show mb.sp.drop n = (ma.sp.drop n).map (moveVal f)
  rw [hm.sp, List.map_drop]

theorem Moved.stepped {ma mb : Machine ω} (hm : Moved f ma mb) (d : BitVec 64) :
    Moved f { ma with pc := ma.pc + d } { mb with pc := mb.pc + d } := by
  refine ⟨?_, hm.sp, hm.accu, hm.env, hm.extraArgs, hm.mem, hm.dom⟩
  show mb.pc + d = ma.pc + d
  rw [hm.pc]

/-- Only `pc` has moved on. -/
theorem Closed.advanced (hm : Closed m) {pc : CodePtr} : Closed { m with pc := pc } :=
  ⟨hm.accu, hm.env, hm.sp, hm.heap, hm.globalData, hm.raiseUnhandled, hm.words, hm.handlers,
    hm.parent⟩

theorem Closed.pushed (hm : Closed m) {pc : CodePtr} :
    Closed { m with pc := pc, sp := m.accu :: m.sp } := by
  refine ⟨hm.accu, hm.env, fun v hv => ?_, hm.heap, hm.globalData, hm.raiseUnhandled, hm.words,
    hm.handlers, hm.parent⟩
  rcases List.mem_cons.mp hv with rfl | hv
  · exact hm.accu
  · exact hm.sp v hv

/-- Pending actions of `GRAB` go unnoticed. -/
theorem grab_unnoticed (hr : Relocates rt) (hm : Closed m)
    (hi : m.dom.pool.get m.dom.currentStack = some i) :
    Unnoticed (grab (idle rt) m) (grab rt m) := by
  unfold grab
  dsimp only
  split
  · exact unnoticed_same _
  · refine allocSmall_unnoticed (m := { m with toCore := m.toCore.advance }) hr hm.advanced hi ?_
    intro f ma mb b blk c hmv hdom hb hs
    obtain ⟨args, hargs, hs⟩ := bind_eq_ok.mp hs
    obtain ⟨m1, hinit, hs⟩ := bind_eq_ok.mp hs
    obtain ⟨m2, hinit', hmv', hdom'⟩ := initFields_moved hmv hb hinit
    have hfields : ofCode (mb.pc - 12#64) :: .word (makeClosinfo 0 2) :: mb.env ::
        args.map (moveVal f) = (ofCode (ma.pc - 12#64) :: .word (makeClosinfo 0 2) ::
          ma.env :: args).map (moveVal f) := by
      rw [hmv.pc, hmv.env]
      rfl
    have hself : ∀ {j}, m1.dom.pool.get m1.dom.currentStack = some j →
        j.parent ≠ some m1.dom.currentStack := by
      rw [hdom', hdom]
      exact hm.parent
    obtain ⟨c', hc', hcm⟩ := doReturn_moved (hmv'.popped b (1 + m.extraArgs).toNat) hself hs
    refine ⟨c', bind_eq_ok.mpr ⟨_, hmv.spTake hargs, bind_eq_ok.mpr ⟨m2, ?_, hc'⟩⟩, hcm⟩
    rw [hfields]
    exact hinit'

/-- The block is filled with the moved fields before the next instruction. -/
theorem fill_moved {ma mb : Machine ω} {b tag : Nat} {blk : Block} {fields fields' : List Value}
    {last last' : Machine ω → Machine ω} (hmv : Moved f ma mb)
    (hb : ma.mem.heap.get b = some blk) (hfields : fields' = fields.map (moveVal f))
    (hlast : ∀ m1 m2, Moved f m1 m2 → Moved f (last m1) (last' m2))
    (hs : (do
      let m1 ← initFields ma (.ptr b 0) tag fields
      .ok (.next (last m1))) = (.ok c : C (Ctl (Machine ω)))) :
    ∃ c', (do
      let m2 ← initFields mb (.ptr (f b) 0) tag fields'
      .ok (.next (last' m2))) = (.ok c' : C (Ctl (Machine ω))) ∧ CtlMoved f c c' := by
  obtain ⟨m1, hinit, hs⟩ := bind_eq_ok.mp hs
  obtain rfl := Except.ok.inj hs
  obtain ⟨m2, hinit', hmv', -⟩ := initFields_moved hmv hb hinit
  rw [hfields, hinit']
  exact ⟨_, rfl, _, rfl, hlast m1 m2 hmv'⟩

/-- Those of `CLOSURE` do. -/
theorem closure_unnoticed (hr : Relocates rt) (hm : Closed m)
    (hi : m.dom.pool.get m.dom.currentStack = some i) :
    Unnoticed (CamlControl.closure (idle rt) m) (CamlControl.closure rt m) := by
  have hfollows : ∀ (m0 : Machine ω) (n wosize : Nat), Follows m0 (fun v m => do
      withinBlock (wosize = 2 + n)
      let vars ← CamlMachine.spTake m.sp n
      let m ← initFields m v closureTag
        (ofCode (m.codeAt m.operand) :: .word (makeClosinfo 0 2) :: vars)
      .ok (.next { m with accu := v, sp := m.sp.drop n, pc := m.pc + 4#64 })) := by
    intro m0 n wosize f ma mb b blk c hmv _ hb hs
    obtain ⟨u, hin, hs⟩ := bind_eq_ok.mp hs
    obtain ⟨vars, hvars, hs⟩ := bind_eq_ok.mp hs
    have hfields : ofCode (mb.codeAt mb.operand) :: .word (makeClosinfo 0 2) ::
        vars.map (moveVal f) = (ofCode (ma.codeAt ma.operand) :: .word (makeClosinfo 0 2) ::
          vars).map (moveVal f) := by
      unfold Core.codeAt Core.operand
      rw [hmv.pc, hmv.mem.code]
      rfl
    obtain ⟨c', hc', hcm⟩ := fill_moved hmv hb hfields
      (fun m1 m2 h => (h.popped b n).stepped 4#64) hs
    exact ⟨c', bind_eq_ok.mpr ⟨u, hin, bind_eq_ok.mpr ⟨_, hmv.spTake hvars, hc'⟩⟩, hcm⟩
  unfold CamlControl.closure
  dsimp only
  split
  · exact allocEither_unnoticed (m := { m with toCore := { m.toCore.advance with
      sp := m.accu :: m.sp } }) hr hm.pushed hi (hfollows _ _ _)
  · exact allocEither_unnoticed (m := { m with toCore := m.toCore.advance }) hr hm.advanced hi
      (hfollows _ _ _)

/-- The fields of the functions but the first, after a move. -/
theorem infixFields_moved {ca cb : Core} (hpc : cb.pc = ca.pc) (hcode : cb.mem.code = ca.mem.code)
    (n j envofs : Nat) :
    infixFields cb n j envofs = (infixFields ca n j envofs).map (moveVal f) := by
  induction n generalizing j envofs with
  | zero => rfl
  | succ n ih =>
      have hat : cb.codeAt (cb.operandAt j) = ca.codeAt (ca.operandAt j) := by
        unfold Core.codeAt Core.operandAt
        rw [hpc, hcode]
      unfold infixFields
      rw [hat, ih]
      rfl

theorem infixClosures_moved (b n j : Nat) (sp : List Value) :
    infixClosures (f b) n j (sp.map (moveVal f)) = (infixClosures b n j sp).map (moveVal f) := by
  induction n generalizing j sp with
  | zero => rfl
  | succ n ih => exact ih (j + 1) (.ptr b (3 * j) :: sp)

/-- The fields of recursive closures, after a move. -/
theorem recFields_moved {ca cb : Core} (hpc : cb.pc = ca.pc) (hcode : cb.mem.code = ca.mem.code)
    (n envofs : Nat) (vars : List Value) :
    recFields cb n envofs (vars.map (moveVal f))
      = (recFields ca n envofs vars).map (moveVal f) := by
  have hat : cb.codeAt (cb.operandAt 0) = ca.codeAt (ca.operandAt 0) := by
    unfold Core.codeAt Core.operandAt
    rw [hpc, hcode]
  have hfuncs : ofCode (cb.codeAt (cb.operandAt 0)) :: .word (makeClosinfo 0 envofs) ::
      infixFields cb (n - 1) 1 envofs
      = (ofCode (ca.codeAt (ca.operandAt 0)) :: .word (makeClosinfo 0 envofs) ::
        infixFields ca (n - 1) 1 envofs).map (moveVal f) := by
    rw [hat, infixFields_moved (f := f) hpc hcode]
    rfl
  have hundef : (List.replicate envofs Value.undef).map (moveVal f)
      = List.replicate envofs Value.undef := List.map_replicate
  unfold recFields
  rw [hfuncs]
  simp only [List.length_map, List.map_append, List.map_drop, hundef]

/-- Filling the block of `CLOSUREREC` follows a relocation. -/
theorem finishRec_follows (m : Machine ω) (nfuncs nvars : OpcodeWord) :
    Follows m (finishRec nfuncs nvars) := by
  intro f ma mb b blk c hmv _ hb hs
  obtain ⟨u, hin, hs⟩ := bind_eq_ok.mp hs
  obtain ⟨vars, hvars, hs⟩ := bind_eq_ok.mp hs
  have hfields := recFields_moved (f := f) hmv.pc hmv.mem.code nfuncs.toInt.toNat
    (envOffset nfuncs) vars
  have hlast : ∀ m1 m2 : Machine ω, Moved f m1 m2 → Moved f { m1 with
      accu := .ptr b 0
      sp := infixClosures b (nfuncs.toInt.toNat - 1) 1 (.ptr b 0 :: m1.sp.drop nvars.toInt.toNat)
      pc := m1.pc + BitVec.ofInt 64 (4 * nfuncs.toInt) } { m2 with
      accu := .ptr (f b) 0
      sp := infixClosures (f b) (nfuncs.toInt.toNat - 1) 1
        (.ptr (f b) 0 :: m2.sp.drop nvars.toInt.toNat)
      pc := m2.pc + BitVec.ofInt 64 (4 * nfuncs.toInt) } := by
    intro m1 m2 h
    refine ⟨?_, ?_, rfl, h.env, h.extraArgs, h.mem, h.dom⟩
    · show m2.pc + _ = m1.pc + _
      rw [h.pc]
    · show infixClosures (f b) _ 1 (.ptr (f b) 0 :: m2.sp.drop _) = _
      rw [h.sp, ← List.map_drop]
      exact infixClosures_moved b _ 1 (.ptr b 0 :: m1.sp.drop _)
  obtain ⟨c', hc', hcm⟩ := fill_moved hmv hb hfields hlast hs
  exact ⟨c', bind_eq_ok.mpr ⟨u, hin, bind_eq_ok.mpr ⟨_, hmv.spTake hvars, hc'⟩⟩, hcm⟩

theorem closurerec_unnoticed (hr : Relocates rt) (hm : Closed m)
    (hi : m.dom.pool.get m.dom.currentStack = some i) :
    Unnoticed (closurerec (idle rt) m) (closurerec rt m) := by
  unfold closurerec
  dsimp only
  split
  · exact allocEither_unnoticed (m := { m with toCore := { m.toCore.advance.advance with
      sp := m.accu :: m.sp } }) hr hm.pushed hi (finishRec_follows _ _ _)
  · exact allocEither_unnoticed (m := { m with toCore := m.toCore.advance.advance }) hr
      hm.advanced hi (finishRec_follows _ _ _)

theorem makeblockOf_unnoticed (hr : Relocates rt) (hm : Closed m)
    (hi : m.dom.pool.get m.dom.currentStack = some i) {small : Bool} {wosize tag : Nat} :
    Unnoticed (makeblockOf (idle rt) small wosize tag m) (makeblockOf rt small wosize tag m) := by
  refine allocEither_unnoticed hr hm hi ?_
  intro f ma mb b blk c hmv _ hb hs
  obtain ⟨rest, hrest, hs⟩ := bind_eq_ok.mp hs
  have hfields : mb.accu :: rest.map (moveVal f) = (ma.accu :: rest).map (moveVal f) := by
    rw [hmv.accu]
    rfl
  obtain ⟨c', hc', hcm⟩ := fill_moved hmv hb hfields (fun m1 m2 h => h.popped b (wosize - 1)) hs
  exact ⟨c', bind_eq_ok.mpr ⟨_, hmv.spTake hrest, hc'⟩, hcm⟩

theorem makeblockN_unnoticed (hr : Relocates rt) (hm : Closed m)
    (hi : m.dom.pool.get m.dom.currentStack = some i) (n : Nat) :
    Unnoticed (makeblockN (idle rt) n m) (makeblockN rt n m) :=
  makeblockOf_unnoticed (m := { m with toCore := m.toCore.advance }) hr hm.advanced hi

theorem makeblock_unnoticed (hr : Relocates rt) (hm : Closed m)
    (hi : m.dom.pool.get m.dom.currentStack = some i) :
    Unnoticed (makeblock (idle rt) m) (makeblock rt m) :=
  makeblockOf_unnoticed (m := { m with toCore := m.toCore.advance.advance }) hr hm.advanced hi

/-- Pending actions of `MAKEFLOATBLOCK` go unnoticed. -/
theorem makefloatblock_unnoticed (hr : Relocates rt) (hm : Closed m)
    (hi : m.dom.pool.get m.dom.currentStack = some i) :
    Unnoticed (makefloatblock (idle rt) m) (makefloatblock rt m) := by
  refine allocEither_unnoticed (m := { m with toCore := m.toCore.advance }) hr hm.advanced hi ?_
  intro f ma mb b blk c hmv _ hb hs
  obtain ⟨rest, hrest, hs⟩ := bind_eq_ok.mp hs
  obtain ⟨ds, hds, hs⟩ := bind_eq_ok.mp hs
  have hoperands : mb.accu :: rest.map (moveVal f) = (ma.accu :: rest).map (moveVal f) := by
    rw [hmv.accu]
    rfl
  obtain ⟨c', hc', hcm⟩ := fill_moved hmv hb rfl
    (fun m1 m2 h => h.popped b (mlsize m.operand - 1)) hs
  refine ⟨c', bind_eq_ok.mpr ⟨_, hmv.spTake hrest, bind_eq_ok.mpr ⟨_, ?_, hc'⟩⟩, hcm⟩
  rw [hoperands]
  exact doubleVals_moved hmv.mem.heap hds

/-- The double is read before the allocation; it is no pointer. -/
theorem getfloatfield_unnoticed (hr : Relocates rt) (hm : Closed m)
    (hi : m.dom.pool.get m.dom.currentStack = some i)
    (hdouble : ∀ d, field m.mem.heap m.accu m.operand.toInt = .ok d → ∃ w, d = .word w) :
    Unnoticed (getfloatfield (idle rt) m) (getfloatfield rt m) := by
  intro c h
  obtain ⟨d, hd, h⟩ := bind_eq_ok.mp h
  obtain ⟨w, rfl⟩ := hdouble d hd
  have hfollows : Follows { m with toCore := m.toCore.advance } (fun v m => do
      let m ← initFields m v doubleTag [.word w]
      .ok (.next { m with accu := v })) := by
    intro f ma mb b blk c hmv _ hb hs
    have hlast : ∀ m1 m2 : Machine ω, Moved f m1 m2 →
        Moved f { m1 with accu := .ptr b 0 } { m2 with accu := .ptr (f b) 0 } :=
      fun m1 m2 h => ⟨h.pc, h.sp, rfl, h.env, h.extraArgs, h.mem, h.dom⟩
    exact fill_moved hmv hb rfl hlast hs
  obtain ⟨c', f, hc', hcm⟩ := allocSmall_unnoticed (m := { m with toCore := m.toCore.advance }) hr
    hm.advanced hi hfollows c h
  exact ⟨c', f, bind_eq_ok.mpr ⟨_, hd, hc'⟩, hcm⟩

theorem checkSignals_unnoticed (hr : Relocates rt)
    (hi : m.dom.pool.get m.dom.currentStack = some i) :
    Unnoticed (checkSignals (idle rt) m) (checkSignals rt m) := by
  intro c h
  obtain rfl : .next m = c := Except.ok.inj h
  unfold checkSignals
  split
  · obtain ⟨f, m', hm', hmv⟩ := processSignal_moved hr hi
    exact ⟨_, f, hm', m', rfl, hmv⟩
  · exact ⟨_, id, rfl, CtlMoved.refl _⟩

/-- `check_stacks` may replace the stack itself before the actions run. -/
theorem checkStacks_unnoticed (hr : Relocates rt) :
    Unnoticed (checkStacks (idle rt) m) (checkStacks rt m) := by
  refine Unnoticed.bind (x := m.dom.stack m.dom.currentStack) (fun cur hcur => ?_)
  split
  · refine Unnoticed.bind fun dom _ => ?_
    refine Unnoticed.bind (x := camlTryReallocStack rt stackThresholdWords dom)
      (fun grown hgrown => ?_)
    cases grown with
    | none => exact unnoticed_same _
    | some dom' =>
        refine Unnoticed.bind fun sp hsp => ?_
        obtain ⟨j, hj, -⟩ := loadSp_ok hsp
        exact checkSignals_unnoticed (m := { m with sp := sp, dom := dom' }) hr hj
  · exact checkSignals_unnoticed hr (stack_ok hcur)

/-! ## The whole step -/

/-- The instructions that allocate with `Enter_gc`, or check for signals. -/
def mayCallBack : Opcode → Bool
  | .GRAB | .CLOSURE | .CLOSUREREC | .MAKEBLOCK | .MAKEBLOCK1 | .MAKEBLOCK2 | .MAKEBLOCK3
  | .MAKEFLOATBLOCK | .GETFLOATFIELD | .CHECK_SIGNALS => true
  | _ => false

/-- The step from `c` may run pending actions: one of these instructions, or
    `check_stacks`. -/
def MayCallBack (c : Ctl (Machine ω)) : Prop :=
  (∃ op, executing c = some op ∧ mayCallBack op = true) ∨ ∃ m, c = .checkStacks m

/-- What `GETFLOATFIELD` reads is a double. -/
def ReadsDouble (c : Ctl (Machine ω)) : Prop :=
  executing c = some .GETFLOATFIELD →
    ∀ d, field c.state.mem.heap c.state.accu (fetched c).operand.toInt = .ok d → ∃ w, d = .word w

theorem closed_fetched (h : Closed c.state) : Closed (fetched c) := by
  cases c with
  | next m => exact h.advanced
  | dispatch w m => exact h
  | checkStacks m => exact h
  | raiseNotrace m => exact h
  | halted r m => exact h

/-- **PENDING ACTIONS GO UNNOTICED**: with any number of pending actions, which
    may move blocks and the stack, a step ends in the state in which it ends
    without them, moved by an injective renaming of blocks. -/
theorem pending_unnoticed (rt : Runtime ω) (act : Activation) (hr : Relocates rt)
    (c c0 : Ctl (Machine ω)) (i : StackInfo) (hmay : MayCallBack c) (hclosed : Closed c.state)
    (hi : c.state.dom.pool.get c.state.dom.currentStack = some i) (hdouble : ReadsDouble c)
    (h : machineStep (idle rt) act c = .ok c0) :
    ∃ c' f, machineStep rt act c = .ok c' ∧ CtlMoved f c0 c' := by
  have hm := closed_fetched hclosed
  rw [← fetched_dom] at hi
  rcases hmay with ⟨op, hex, hop⟩ | ⟨m, rfl⟩
  · rw [machineStep_executing hex] at h ⊢
    cases op with
    | GRAB => exact grab_unnoticed hr hm hi c0 h
    | CLOSURE => exact closure_unnoticed hr hm hi c0 h
    | CLOSUREREC => exact closurerec_unnoticed hr hm hi c0 h
    | MAKEBLOCK => exact makeblock_unnoticed hr hm hi c0 h
    | MAKEBLOCK1 => exact makeblockN_unnoticed hr hm hi 1 c0 h
    | MAKEBLOCK2 => exact makeblockN_unnoticed hr hm hi 2 c0 h
    | MAKEBLOCK3 => exact makeblockN_unnoticed hr hm hi 3 c0 h
    | MAKEFLOATBLOCK => exact makefloatblock_unnoticed hr hm hi c0 h
    | GETFLOATFIELD =>
        refine getfloatfield_unnoticed hr hm hi (fun d hd => hdouble hex d ?_) c0 h
        rw [← fetched_mem, ← fetched_accu]
        exact hd
    | CHECK_SIGNALS => exact checkSignals_unnoticed hr hi c0 h
    | _ => cases hop
  · exact checkStacks_unnoticed hr c0 h

/-! ## A collector that moves every block -/

/-- Every block one place up. -/
def shift (b : Nat) : Nat := b + 1

def shiftHeap (h : Heap) : Heap := ⟨none :: h.cells.map (Option.map (moveBlock shift))⟩

def shiftStack (i : StackInfo) : StackInfo :=
  { i with
    words := i.words.map (moveVal shift), handleValue := moveVal shift i.handleValue,
    handleExn := moveVal shift i.handleExn, handleEffect := moveVal shift i.handleEffect }

def shiftDom (dom : Domain Unit) : Domain Unit :=
  { dom with pool := ⟨dom.pool.cells.map (Option.map shiftStack)⟩ }

/-- One collection in every allocation, and a signal at every check. -/
def shifting : Runtime Unit :=
  { quiet with
    gcRounds := fun _ _ => 1
    checkPending := fun _ _ => true
    processPendingActions := fun mem dom => .ok (.value valUnit { mem with
      heap := shiftHeap mem.heap, globalData := moveVal shift mem.globalData,
      raiseUnhandled := moveVal shift mem.raiseUnhandled } (shiftDom dom)) }

/-- A map over the cells of a store, seen cell by cell. -/
theorem get_mapped {α : Type} {s : Store α} {b : Nat} {a : α} (f : α → α)
    (h : s.get b = some a) : Store.get ⟨s.cells.map (Option.map f)⟩ b = some (f a) := by
  have hcell : s.cells[b]? = some (some a) := Option.join_eq_some_iff.mp h
  show (((s.cells.map (Option.map f)))[b]?).join = _
  rw [List.getElem?_map, hcell]
  rfl

theorem outline_shiftStack (i : StackInfo) : OutlineMoved shift i (shiftStack i) :=
  ⟨rfl, rfl, rfl, rfl, Nat.le_refl _⟩

/-- Shifting all blocks and stacks is a move. -/
theorem shift_relocates : Relocates shifting := by
  intro mem dom i hi
  have hstack : ∀ {x j}, dom.pool.get x = some j → (shiftDom dom).pool.get x = some (shiftStack j) :=
    fun hj => get_mapped shiftStack hj
  refine ⟨shift, _, _, _, rfl, ⟨⟨?_, fun hb => get_mapped (moveBlock shift) hb⟩, rfl, rfl, rfl⟩,
    ⟨fun hj => ⟨_, hstack hj, outline_shiftStack _⟩,
      fun hx hj => ⟨hx, _, hstack hj, outline_shiftStack _, rfl⟩, rfl, rfl, rfl, rfl, rfl, rfl⟩,
    fun hj hj' => ?_⟩
  · intro b c _ _ _ _ e
    exact Nat.succ.inj e
  · rw [← Option.some.inj ((hstack hj).symm.trans hj')]
    rfl

/-- `MAKEBLOCK2` of the block in `accu` and the block on the stack. -/
def pairing : Machine Unit where
  pc := 0x1000#64
  sp := [.ptr 0 0, valUnit]
  accu := .ptr 1 0
  env := .ptr 0 0
  extraArgs := 0#63
  mem := ⟨⟨[some ⟨0, [valUnit]⟩, some ⟨0, [.ptr 0 0]⟩]⟩,
    assemble 0x1000#64 [Opcode.MAKEBLOCK2.code, 0#32], valUnit, valUnit⟩
  dom := domainOf [mainStack] 0

theorem below_ptr {n b : Nat} {ofs : Int} (h : b < n) : Below n (.ptr b ofs) := by
  intro c ofs' e
  cases e
  exact h

theorem below_word (n : Nat) (w : BitVec 64) : Below n (.word w) := by
  intro c ofs' e
  cases e

/-- Nothing in the machine points outside it. -/
theorem pairing_closed : Closed pairing where
  accu := below_ptr (by decide)
  env := below_ptr (by decide)
  sp := by
    intro v hv
    rcases List.mem_cons.mp hv with rfl | hv
    · exact below_ptr (by decide)
    · rw [List.mem_singleton.mp hv]
      exact below_word _ _
  heap := by
    intro b blk hb v hv
    rcases b with _ | _ | b
    · obtain rfl := Option.some.inj hb
      rw [List.mem_singleton.mp hv]
      exact below_word _ _
    · obtain rfl := Option.some.inj hb
      rw [List.mem_singleton.mp hv]
      exact below_ptr (by decide)
    · cases hb
  globalData := below_word _ _
  raiseUnhandled := below_word _ _
  words := by
    intro x i hx hi
    cases x with
    | zero => exact absurd rfl hx
    | succ x => cases hi
  handlers := by
    intro x i hi
    cases x with
    | zero =>
        obtain rfl := Option.some.inj hi
        exact ⟨below_word _ _, below_word _ _, below_word _ _⟩
    | succ x => cases hi
  parent := by
    intro i hi h
    obtain rfl := Option.some.inj hi
    cases h

/-- The pair that `MAKEBLOCK2` builds while both of its components move. -/
theorem pending_unnoticed_shifting :
    ∃ c0, machineStep (idle shifting) soleActivation (.next pairing) = .ok c0 ∧
      ∃ c' f, machineStep shifting soleActivation (.next pairing) = .ok c' ∧
        CtlMoved f c0 c' :=
  ⟨_, rfl, pending_unnoticed shifting soleActivation shift_relocates (.next pairing) _ mainStack
    (.inl ⟨.MAKEBLOCK2, rfl, rfl⟩) pairing_closed rfl (fun h => by cases h) rfl⟩

end CamlRelocation
