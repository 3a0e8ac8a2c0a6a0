import CamlInterp.ParentChainProofs
import CamlInterp.StepProofs

/-! # Fibers — what the effect instructions do to them

    The parent links of the stack pool, and the stacks the continuation blocks
    of the heap hold.  For every instruction that touches them, for `do_return`,
    `raise_notrace` and the C code in between, one lemma says what it does to
    these two and nothing else. -/

namespace CamlFiber

open CellStore ParentChain CamlValue CamlOpcode CamlMachine CamlControl CamlStep

variable {ω : Type}

/-! ## The fibers of a machine -/

/-- `Stack_parent` of every live stack. -/
def linksOf (pool : Store StackInfo) : Links Nat := fun s => (pool.get s).map StackInfo.parent

/-- The stack in field 0 of a continuation block; `none` once it is taken. -/
def contOf (h : Heap) (b : Nat) : Option Nat :=
  match h.get b with
  | some ⟨tag, .stk s :: _⟩ => if tag = contTag then some s else none
  | _ => none

/-- The fibers are as they were, except that the running stack may have been
    replaced by a copy. -/
structure SameFibers (mem : Mem) (dom : Domain ω) (mem' : Mem) (dom' : Domain ω) : Prop where
  conts : contOf mem'.heap = contOf mem.heap
  links : Renamed (linksOf dom.pool) dom.currentStack dom'.currentStack (linksOf dom'.pool)

/-- The fibers are as they were, the running stack included. -/
structure Untouched (mem : Mem) (dom : Domain ω) (mem' : Mem) (dom' : Domain ω) : Prop where
  conts : contOf mem'.heap = contOf mem.heap
  links : linksOf dom'.pool = linksOf dom.pool
  current : dom'.currentStack = dom.currentStack

/-- C code that runs no fiber of its own: pending actions may move the running
    stack, the debugger does not even do that. -/
structure KeepsFibers (rt : Runtime ω) : Prop where
  value : ∀ {mem dom v mem' dom'},
    rt.processPendingActions mem dom = .ok (.value v mem' dom') → SameFibers mem dom mem' dom'
  raised : ∀ {mem dom e mem' dom'},
    rt.processPendingActions mem dom = .ok (.raised e mem' dom') → SameFibers mem dom mem' dom'
  debugger : ∀ ev mem dom,
    Untouched mem dom (rt.debugger ev mem dom).1 (rt.debugger ev mem dom).2

variable {rt : Runtime ω} {act : Activation} {mem mem' mem'' : Mem}
  {dom dom' dom'' : Domain ω} {m m' : Machine ω} {c c' : Ctl (Machine ω)}

theorem Untouched.refl (mem : Mem) (dom : Domain ω) : Untouched mem dom mem dom :=
  ⟨rfl, rfl, rfl⟩

theorem Untouched.trans (h : Untouched mem dom mem' dom') (h' : Untouched mem' dom' mem'' dom'') :
    Untouched mem dom mem'' dom'' :=
  ⟨h'.conts.trans h.conts, h'.links.trans h.links, h'.current.trans h.current⟩

theorem Untouched.same (h : Untouched mem dom mem' dom') : SameFibers mem dom mem' dom' := by
  refine ⟨h.conts, ?_⟩
  rw [h.current, h.links]
  exact Renamed.refl _ _

theorem SameFibers.trans (h : SameFibers mem dom mem' dom')
    (h' : SameFibers mem' dom' mem'' dom'') : SameFibers mem dom mem'' dom'' :=
  ⟨h'.conts.trans h.conts, h.links.trans h'.links⟩

/-- If the stack that ran still lives, it is the one that runs. -/
theorem SameFibers.untouched (h : SameFibers mem dom mem' dom')
    (hlive : linksOf dom'.pool dom.currentStack ≠ none) : Untouched mem dom mem' dom' := by
  by_cases hcur : dom'.currentStack = dom.currentStack
  · refine ⟨h.conts, ?_, hcur⟩
    have hr := h.links
    rw [hcur] at hr
    funext z
    by_cases hz : z = dom.currentStack
    · rw [hz]; exact hr.moved
    · exact hr.same z hz hz
  · exact absurd (h.links.gone hcur).2 hlive

/-! ## Stack operations -/

theorem linksOf_put {pool : Store StackInfo} {s : Nat} {i : StackInfo}
    (h : pool.get s = some i) (j : StackInfo) :
    linksOf (pool.put s j) = Function.update (linksOf pool) s (some j.parent) := by
  funext z
  unfold linksOf
  by_cases hz : z = s
  · subst hz
    rw [Function.update_self, Store.get_put_self j h]
    rfl
  · rw [Function.update_of_ne hz, Store.get_put_of_ne pool j hz]

theorem linksOf_put_same {pool : Store StackInfo} {s : Nat} {i j : StackInfo}
    (h : pool.get s = some i) (hp : j.parent = i.parent) :
    linksOf (pool.put s j) = linksOf pool := by
  rw [linksOf_put h j, hp]
  refine Function.update_eq_self_iff.mpr ?_
  unfold linksOf
  rw [h]
  rfl

theorem linksOf_free (pool : Store StackInfo) (s : Nat) :
    linksOf (pool.free s) = Function.update (linksOf pool) s none := by
  funext z
  unfold linksOf
  by_cases hz : z = s
  · subst hz
    rw [Function.update_self, Store.get_free_self]
    rfl
  · rw [Function.update_of_ne hz, Store.get_free_of_ne pool hz]

theorem linksOf_alloc (pool : Store StackInfo) (i : StackInfo) :
    linksOf (pool.alloc i) = Function.update (linksOf pool) pool.fresh (some i.parent) := by
  funext z
  unfold linksOf
  by_cases hz : z = pool.fresh
  · subst hz
    rw [Function.update_self, Store.get_alloc_fresh]
    rfl
  · rw [Function.update_of_ne hz, Store.get_alloc_of_ne pool i hz]

/-- The live stacks are those with a link. -/
theorem live_iff (pool : Store StackInfo) (s : Nat) :
    linksOf pool s ≠ none ↔ pool.get s ≠ none := by
  unfold linksOf
  cases pool.get s with
  | none => exact ⟨fun h => absurd rfl h, fun h => absurd rfl h⟩
  | some i => exact ⟨fun _ => nofun, fun _ => nofun⟩

theorem stack_ok {s : Nat} {i : StackInfo} (h : dom.stack s = .ok i) :
    dom.pool.get s = some i :=
  orUndefined_eq_ok.mp h

theorem linksOf_of_stack {s : Nat} {i : StackInfo} (h : dom.stack s = .ok i) :
    linksOf dom.pool s = some i.parent := by
  unfold linksOf
  rw [stack_ok h]
  rfl

theorem saveSp_ok {sp : List Value} (h : dom.saveSp sp = .ok dom') (mem : Mem) :
    Untouched mem dom mem dom' := by
  obtain ⟨i, hi, hd⟩ := bind_eq_ok.mp h
  obtain rfl := Except.ok.inj hd
  exact ⟨rfl, linksOf_put_same (stack_ok hi) rfl, rfl⟩

theorem setSp_ok {n : Int} {sp : List Value} (h : dom.setSp n sp = .ok dom') (mem : Mem) :
    Untouched mem dom mem dom' := by
  obtain ⟨i, hi, hd⟩ := bind_eq_ok.mp h
  obtain rfl := Except.ok.inj hd
  exact ⟨rfl, linksOf_put_same (stack_ok hi) rfl, rfl⟩

theorem setWords_ok {s : Nat} {sp : List Value} (h : dom.setWords s sp = .ok dom') :
    linksOf dom.pool s ≠ none ∧ linksOf dom'.pool = linksOf dom.pool ∧
      dom'.currentStack = dom.currentStack := by
  obtain ⟨i, hi, hd⟩ := bind_eq_ok.mp h
  obtain rfl := Except.ok.inj hd
  exact ⟨by rw [linksOf_of_stack hi]; exact nofun, linksOf_put_same (stack_ok hi) rfl, rfl⟩

theorem setParent_ok {s : Nat} {p : Option Nat} (h : dom.setParent s p = .ok dom') :
    linksOf dom'.pool = Function.update (linksOf dom.pool) s (some p) ∧
      dom'.currentStack = dom.currentStack := by
  obtain ⟨i, hi, hd⟩ := bind_eq_ok.mp h
  obtain rfl := Except.ok.inj hd
  exact ⟨linksOf_put (stack_ok hi) _, rfl⟩

/-- The walk to the last parent follows a chain to its end. -/
theorem lastParent_of_linked {pool : Store StackInfo} {s t fuel : Nat} {l : List Nat}
    (h : Linked (linksOf pool) (s :: l)) (ht : (s :: l).getLast? = some t)
    (hfuel : l.length < fuel) : lastParent pool fuel s = .ok t := by
  induction l generalizing s fuel with
  | nil =>
      obtain ⟨fuel, rfl⟩ := Nat.exists_eq_succ_of_ne_zero (Nat.ne_zero_of_lt hfuel)
      obtain ⟨i, hi, hp⟩ := Option.map_eq_some_iff.mp h.1
      have hp : i.parent = none := hp
      obtain rfl : s = t := Option.some.inj ht
      unfold lastParent
      simp only [hi, orUndefined, bind, Except.bind, hp]
  | cons q l ih =>
      obtain ⟨fuel, rfl⟩ := Nat.exists_eq_succ_of_ne_zero (Nat.ne_zero_of_lt hfuel)
      obtain ⟨i, hi, hp⟩ := Option.map_eq_some_iff.mp h.1
      have hp : i.parent = some q := hp
      rw [List.getLast?_cons_cons] at ht
      unfold lastParent
      simp only [hi, orUndefined, bind, Except.bind, hp]
      exact ih h.2 ht (Nat.lt_of_succ_lt_succ hfuel)

/-- A walk to the last fiber has gone along a chain. -/
theorem linked_of_lastParent {pool : Store StackInfo} {s t fuel : Nat}
    (h : lastParent pool fuel s = .ok t) :
    ∃ l, Linked (linksOf pool) (s :: l) ∧ (s :: l).getLast? = some t := by
  induction fuel generalizing s with
  | zero => exact nomatch h
  | succ fuel ih =>
      unfold lastParent at h
      obtain ⟨i, hi, hrest⟩ := bind_eq_ok.mp h
      have hlink : linksOf pool s = some i.parent := by
        unfold linksOf
        rw [orUndefined_eq_ok.mp hi]
        rfl
      cases hp : i.parent with
      | none =>
          rw [hp] at hrest hlink
          obtain rfl := Except.ok.inj hrest
          exact ⟨[], ⟨hlink, trivial⟩, rfl⟩
      | some q =>
          rw [hp] at hrest hlink
          obtain ⟨l, hl, ht⟩ := ih hrest
          exact ⟨q :: l, ⟨hlink, hl⟩, by rw [List.getLast?_cons_cons]; exact ht⟩

/-- The pool is larger than any chain in it. -/
theorem length_lt_fresh {pool : Store StackInfo} {s : Nat} {l : List Nat}
    (h : Linked (linksOf pool) (s :: l)) : l.length < pool.fresh := by
  have hsub : ∀ x ∈ s :: l, x ∈ List.range pool.fresh := by
    intro x hx
    obtain ⟨p, hp⟩ := Option.ne_none_iff_exists'.mp (h.live hx)
    obtain ⟨i, hi, -⟩ := Option.map_eq_some_iff.mp hp
    exact List.mem_range.mpr (Store.lt_fresh_of_get hi)
  have hle := h.nodup.length_le_of_subset hsub
  rw [List.length_range] at hle
  exact hle

/-! ## Heap operations -/

theorem contOf_alloc (h : Heap) (tag n : Nat) :
    contOf (h.alloc ⟨tag, List.replicate n .undef⟩) = contOf h := by
  funext b
  unfold contOf
  by_cases hb : b = h.fresh
  · subst hb
    rw [Store.get_alloc_fresh, Store.get_fresh]
    cases n <;> rfl
  · rw [Store.get_alloc_of_ne h _ hb]

/-- A new closure is no continuation. -/
theorem contOf_new_closure (h : Heap) (n : Nat) (fields : List Value) :
    contOf ((h.alloc ⟨closureTag, List.replicate n .undef⟩).put h.fresh ⟨closureTag, fields⟩)
      = contOf h := by
  funext b
  by_cases hb : b = h.fresh
  · subst hb
    unfold contOf
    rw [Store.get_put_self _ (Store.get_alloc_fresh _ _), Store.get_fresh]
    split
    · next heq =>
        obtain ⟨rfl, -⟩ := Block.mk.inj (Option.some.inj heq)
        exact if_neg (by decide)
    · rfl
  · rw [← contOf_alloc h closureTag n]
    unfold contOf
    rw [Store.get_put_of_ne _ _ hb]

/-- Storing a stack in a continuation. -/
theorem contOf_put_cont {h : Heap} {b s : Nat} {blk : Block} (hb : h.get b = some blk) :
    contOf (h.put b ⟨contTag, [.stk s]⟩) = Function.update (contOf h) b (some s) := by
  funext b'
  by_cases hbb : b' = b
  · subst hbb
    rw [Function.update_self]
    unfold contOf
    rw [Store.get_put_self _ hb]
    rfl
  · rw [Function.update_of_ne hbb]
    unfold contOf
    rw [Store.get_put_of_ne h _ hbb]

/-! ## C code -/

theorem checkTrapBarrier_untouched (hk : KeepsFibers rt) (m : Machine ω) :
    Untouched m.mem m.dom (checkTrapBarrier rt m).mem (checkTrapBarrier rt m).dom := by
  unfold checkTrapBarrier
  by_cases h : m.dom.trapBarrierOff.sle m.dom.trapSpOff = true
  · rw [if_pos h]
    exact hk.debugger .trapBarrier m.mem m.dom
  · rw [if_neg h]
    exact Untouched.refl _ _

/-- Raising an exception stops at `raise_notrace` with the fibers as they were. -/
theorem raiseException_ok (hk : KeepsFibers rt) {reraise : Bool}
    (h : raiseException rt reraise m = .ok c') :
    ∃ m', c' = .raiseNotrace m' ∧ Untouched m.mem m.dom m'.mem m'.dom := by
  have hbar := checkTrapBarrier_untouched hk m
  unfold raiseException at h
  by_cases hb : (checkTrapBarrier rt m).dom.backtraceActive = true
  · simp only [hb, if_true] at h
    exact ⟨_, (Except.ok.inj h).symm, ⟨hbar.conts, hbar.links, hbar.current⟩⟩
  · simp only [hb] at h
    exact ⟨_, (Except.ok.inj h).symm, hbar⟩

/-- So does an exception of C code. -/
theorem reenter_ok (hk : KeepsFibers rt) {e : Value} (h : reenter rt m e mem dom = .ok c') :
    ∃ m', c' = .raiseNotrace m' ∧ Untouched mem dom m'.mem m'.dom := by
  obtain ⟨sp, -, hrest⟩ := bind_eq_ok.mp h
  have hbar := checkTrapBarrier_untouched hk { m with sp := sp, accu := e, mem := mem, dom := dom }
  by_cases hb : (checkTrapBarrier rt
      { m with sp := sp, accu := e, mem := mem, dom := dom }).dom.backtraceActive = true
  · simp only [hb, if_true] at hrest
    exact ⟨_, (Except.ok.inj hrest).symm, ⟨hbar.conts, hbar.links, hbar.current⟩⟩
  · simp only [hb] at hrest
    exact ⟨_, (Except.ok.inj hrest).symm, hbar⟩

/-- A stop for pending actions, whether it returns or raises, leaves the fibers alone. -/
theorem enterGc_ok (hk : KeepsFibers rt) {r : Machine ω ⊕ Value × Mem × Domain ω}
    (h : enterGc rt m = .ok r) :
    (∃ m', r = .inl m' ∧ SameFibers m.mem m.dom m'.mem m'.dom) ∨
      (∃ e mem dom, r = .inr (e, mem, dom) ∧ SameFibers m.mem m.dom mem dom) := by
  obtain ⟨dom, hdom, hrest⟩ := bind_eq_ok.mp h
  obtain ⟨res, hres, hrest⟩ := bind_eq_ok.mp hrest
  have hsave := (saveSp_ok hdom m.mem).same
  cases res with
  | raised e mem' dom' =>
      exact Or.inr ⟨e, mem', dom', (Except.ok.inj hrest).symm, hsave.trans (hk.raised hres)⟩
  | value v mem' dom' =>
      obtain ⟨sp, -, hrest⟩ := bind_eq_ok.mp hrest
      obtain ⟨accu, -, hrest⟩ := bind_eq_ok.mp hrest
      obtain ⟨env, -, hrest⟩ := bind_eq_ok.mp hrest
      obtain ⟨sp', -, hrest⟩ := bind_eq_ok.mp hrest
      exact Or.inl ⟨_, (Except.ok.inj hrest).symm, hsave.trans (hk.value hres)⟩

/-- So do all the stops of one allocation. -/
theorem gcLoop_ok (hk : KeepsFibers rt) {n : Nat} {r : Machine ω ⊕ Value × Mem × Domain ω}
    (h : gcLoop rt n m = .ok r) :
    (∃ m', r = .inl m' ∧ SameFibers m.mem m.dom m'.mem m'.dom) ∨
      (∃ e mem dom, r = .inr (e, mem, dom) ∧ SameFibers m.mem m.dom mem dom) := by
  refine gcLoop_respects (R := fun m r =>
    (∃ m', r = .inl m' ∧ SameFibers m.mem m.dom m'.mem m'.dom) ∨
      (∃ e mem dom, r = .inr (e, mem, dom) ∧ SameFibers m.mem m.dom mem dom))
    (fun m => Or.inl ⟨m, rfl, (Untouched.refl _ _).same⟩) (fun h => enterGc_ok hk h) ?_ h
  intro m m1 r h1 h2
  rcases enterGc_ok hk h1 with ⟨m', hm', hs⟩ | ⟨e, mem, dom, hr, -⟩
  · obtain rfl := Sum.inl.inj hm'
    rcases h2 with ⟨m'', rfl, hs'⟩ | ⟨e, mem, dom, rfl, hs'⟩
    · exact Or.inl ⟨m'', rfl, hs.trans hs'⟩
    · exact Or.inr ⟨e, mem, dom, rfl, hs.trans hs'⟩
  · cases hr

/-- An allocation: an exception of a pending action, or the block. -/
theorem allocSmall_ok (hk : KeepsFibers rt) {wosize tag : Nat}
    {k : Value → Machine ω → C (Ctl (Machine ω))}
    (h : allocSmall rt m wosize tag k = .ok c') :
    (∃ m', c' = .raiseNotrace m' ∧ SameFibers m.mem m.dom m'.mem m'.dom) ∨
      (∃ m' : Machine ω, SameFibers m.mem m.dom m'.mem m'.dom ∧
        k (.ptr m'.mem.heap.fresh 0) { m' with
          mem := { m'.mem with
            heap := m'.mem.heap.alloc ⟨tag, List.replicate wosize .undef⟩ } } = .ok c') := by
  obtain ⟨-, -, h⟩ := bind_eq_ok.mp h
  obtain ⟨-, -, h⟩ := bind_eq_ok.mp h
  obtain ⟨-, -, h⟩ := bind_eq_ok.mp h
  obtain ⟨r, hr, h⟩ := bind_eq_ok.mp h
  rcases gcLoop_ok hk hr with ⟨m', rfl, hm'⟩ | ⟨e, mem, dom, rfl, hs⟩
  · exact Or.inr ⟨m', hm', h⟩
  · obtain ⟨m', rfl, hm'⟩ := reenter_ok hk h
    exact Or.inl ⟨m', rfl, hs.trans hm'.same⟩

/-! ## Growing a stack -/

/-- The doubling loop ends with a size that is large enough. -/
theorem growSize_le {maxSize need fuel size size' : Nat}
    (h : growSize maxSize need fuel size = .ok (some size')) : need ≤ size' := by
  induction fuel generalizing size with
  | zero => cases h
  | succ fuel ih =>
      unfold growSize at h
      split at h
      · cases h
      · split at h
        · exact ih h
        · next hge =>
            obtain rfl := Option.some.inj (Except.ok.inj h)
            omega

/-- A stack that has grown: `stack_used` is the number of its words, and there is room
    for them and for what was required. -/
theorem realloc_grown {required : Nat}
    (h : camlTryReallocStack rt required dom = .ok (some dom')) :
    ∃ old size, dom.pool.get dom.currentStack = some old ∧
      (BitVec.ofNat 32 old.words.length).toInt = old.words.length ∧
      (old.words.length + required) % 18446744073709551616 ≤ size ∧
      dom' = { dom with
        pool := (dom.pool.alloc { old with size := size }).free dom.currentStack
        currentStack := dom.pool.fresh } := by
  obtain ⟨old, hold, h⟩ := bind_eq_ok.mp h
  obtain ⟨grown, hgrown, h⟩ := bind_eq_ok.mp h
  cases grown with
  | none => exact nomatch Except.ok.inj h
  | some size =>
      dsimp only at h
      split at h
      · split at h
        · next hused =>
            have hsize := growSize_le hgrown
            rw [mlsize_of_nonneg (by omega), hused, Int.toNat_natCast] at hsize
            obtain ⟨dom1, hdom1, h⟩ := bind_eq_ok.mp h
            obtain ⟨i1, -, hd⟩ := bind_eq_ok.mp hdom1
            obtain rfl := Except.ok.inj hd
            obtain rfl := Option.some.inj (Except.ok.inj h)
            exact ⟨old, size, stack_ok hold, hused, hsize, rfl⟩
        · exact nomatch h
      · exact nomatch Except.ok.inj h

/-- What `caml_try_realloc_stack` leaves when it succeeds. -/
theorem realloc_eq {required : Nat}
    (h : camlTryReallocStack rt required dom = .ok (some dom')) :
    ∃ old size, dom.pool.get dom.currentStack = some old ∧
      dom' = { dom with
        pool := (dom.pool.alloc { old with size := size }).free dom.currentStack
        currentStack := dom.pool.fresh } := by
  obtain ⟨old, size, hold, -, -, rfl⟩ := realloc_grown h
  exact ⟨old, size, hold, rfl⟩

/-- `caml_try_realloc_stack` moves the running stack. -/
theorem camlTryReallocStack_ok {required : Nat}
    (h : camlTryReallocStack rt required dom = .ok (some dom')) (mem : Mem) :
    SameFibers mem dom mem dom' := by
  obtain ⟨old, size, hold, rfl⟩ := realloc_eq h
  have hne : dom.pool.fresh ≠ dom.currentStack := Nat.ne_of_gt (Store.lt_fresh_of_get hold)
  refine ⟨rfl, ?_, fun _ => ⟨?_, ?_⟩, fun z hz hz' => ?_⟩
  · show linksOf (Store.free _ _) _ = _
    rw [linksOf_free, Function.update_of_ne hne, linksOf_alloc, Function.update_self]
    exact (linksOf_of_stack (orUndefined_eq_ok.mpr hold)).symm
  · show linksOf _ dom.pool.fresh = none
    unfold linksOf
    rw [Store.get_fresh]
    rfl
  · show linksOf (Store.free _ _) _ = _
    rw [linksOf_free, Function.update_self]
  · show linksOf (Store.free _ _) _ = _
    rw [linksOf_free, Function.update_of_ne hz, linksOf_alloc, Function.update_of_ne hz']

/-- So does `CHECK_SIGNALS`. -/
theorem checkSignals_ok (hk : KeepsFibers rt) (h : checkSignals rt m = .ok c') :
    SameFibers m.mem m.dom c'.state.mem c'.state.dom := by
  unfold checkSignals at h
  split at h
  · obtain ⟨dom, hdom, h⟩ := bind_eq_ok.mp h
    obtain ⟨res, hres, h⟩ := bind_eq_ok.mp h
    have hsave := (saveSp_ok hdom m.mem).same
    cases res with
    | raised e mem' dom' =>
        obtain ⟨m', rfl, hm'⟩ := reenter_ok hk h
        exact (hsave.trans (hk.raised hres)).trans hm'.same
    | value v mem' dom' =>
        obtain ⟨sp, -, h⟩ := bind_eq_ok.mp h
        obtain ⟨w0, -, h⟩ := bind_eq_ok.mp h
        obtain ⟨w3, -, h⟩ := bind_eq_ok.mp h
        obtain ⟨pc, -, h⟩ := bind_eq_ok.mp h
        obtain ⟨w4, -, h⟩ := bind_eq_ok.mp h
        obtain ⟨w5, -, h⟩ := bind_eq_ok.mp h
        obtain ⟨extra, -, h⟩ := bind_eq_ok.mp h
        obtain ⟨sp', -, h⟩ := bind_eq_ok.mp h
        obtain rfl := Except.ok.inj h
        exact hsave.trans (hk.value hres)
  · obtain rfl := Except.ok.inj h
    exact (Untouched.refl _ _).same

/-- `check_stacks` with the stack large enough, or grown. -/
theorem checkStacks_ok (hk : KeepsFibers rt)
    (hroom : ∀ dom, m.dom.saveSp m.sp = .ok dom →
      camlTryReallocStack rt stackThresholdWords dom ≠ .ok none)
    (h : checkStacks rt m = .ok c') :
    SameFibers m.mem m.dom c'.state.mem c'.state.dom := by
  obtain ⟨cur, -, h⟩ := bind_eq_ok.mp h
  split at h
  · obtain ⟨dom, hdom, h⟩ := bind_eq_ok.mp h
    obtain ⟨grown, hgrown, h⟩ := bind_eq_ok.mp h
    cases grown with
    | none => exact absurd hgrown (hroom dom hdom)
    | some dom' =>
        obtain ⟨sp, -, h⟩ := bind_eq_ok.mp h
        exact ((saveSp_ok hdom m.mem).same.trans (camlTryReallocStack_ok hgrown m.mem)).trans
          (checkSignals_ok hk h)
  · exact checkSignals_ok hk h

/-! ## Leaving a fiber -/

/-- The running fiber is left for its parent and freed. -/
structure Leaves (mem : Mem) (dom : Domain ω) (mem' : Mem) (dom' : Domain ω) : Prop where
  conts : contOf mem'.heap = contOf mem.heap
  parent : linksOf dom.pool dom.currentStack = some (some dom'.currentStack)
  links : linksOf dom'.pool = Function.update (linksOf dom.pool) dom.currentStack none

theorem Untouched.leaves (h : Untouched mem dom mem' dom') (h' : Leaves mem' dom' mem'' dom'') :
    Leaves mem dom mem'' dom'' := by
  refine ⟨h'.conts.trans h.conts, ?_, ?_⟩
  · rw [← h.links, ← h.current]; exact h'.parent
  · rw [← h.links, ← h.current]; exact h'.links

theorem leaveStack_ok {p : Nat} {sp : List Value} {old : StackInfo}
    (hold : m.dom.stack m.dom.currentStack = .ok old) (hp : old.parent = some p)
    (h : leaveStack m p = .ok (m', sp)) : Leaves m.mem m.dom m'.mem m'.dom := by
  obtain ⟨sp', -, h⟩ := bind_eq_ok.mp h
  obtain ⟨dom, hdom, h⟩ := bind_eq_ok.mp h
  obtain ⟨i, -, hd⟩ := bind_eq_ok.mp hdom
  obtain rfl := Except.ok.inj hd
  obtain ⟨rfl, -⟩ := Prod.mk.inj (Except.ok.inj h)
  exact ⟨rfl, by rw [linksOf_of_stack hold, hp], linksOf_free _ _⟩

theorem enterParent_ok {h : Value} {sp : List Value} (he : enterParent m h sp = .ok c') :
    c'.state.mem = m.mem ∧ c'.state.dom.pool = m.dom.pool ∧
      c'.state.dom.currentStack = m.dom.currentStack := by
  obtain ⟨w0, -, he⟩ := bind_eq_ok.mp he
  obtain ⟨trap, -, he⟩ := bind_eq_ok.mp he
  obtain ⟨w1, -, he⟩ := bind_eq_ok.mp he
  obtain ⟨extra, -, he⟩ := bind_eq_ok.mp he
  obtain ⟨rest, -, he⟩ := bind_eq_ok.mp he
  obtain ⟨pc, -, he⟩ := bind_eq_ok.mp he
  obtain rfl := Except.ok.inj he
  exact ⟨rfl, rfl, rfl⟩

theorem Leaves.enterParent {h : Value} {sp : List Value} (hl : Leaves mem dom m.mem m.dom)
    (he : enterParent m h sp = .ok c') : Leaves mem dom c'.state.mem c'.state.dom := by
  obtain ⟨hmem, hst, hcur⟩ := enterParent_ok he
  refine ⟨by rw [hmem]; exact hl.conts, by rw [hcur]; exact hl.parent, by rw [hst]; exact hl.links⟩

/-- `do_return` inside a fiber touches no fiber; at its end it leaves it. -/
theorem doReturn_ok (h : doReturn m = .ok c') :
    Untouched m.mem m.dom c'.state.mem c'.state.dom ∨
      Leaves m.mem m.dom c'.state.mem c'.state.dom := by
  unfold doReturn at h
  split at h
  · obtain ⟨old, hold, h⟩ := bind_eq_ok.mp h
    obtain ⟨-, -, h⟩ := bind_eq_ok.mp h
    obtain ⟨p, hp, h⟩ := bind_eq_ok.mp h
    obtain ⟨⟨m', sp⟩, hleave, h⟩ := bind_eq_ok.mp h
    exact Or.inr ((leaveStack_ok hold (orUndefined_eq_ok.mp hp) hleave).enterParent h)
  · obtain ⟨pc, -, h⟩ := bind_eq_ok.mp h
    obtain ⟨extra, -, h⟩ := bind_eq_ok.mp h
    obtain rfl := Except.ok.inj h
    exact Or.inl (Untouched.refl _ _)
  · exact nomatch h

/-- `raise_notrace` finds a trap frame, leaves the fiber, or returns from the
    interpreter. -/
theorem raiseNotrace_ok (h : raiseNotrace act m = .ok c') :
    Untouched m.mem m.dom c'.state.mem c'.state.dom ∨
      Leaves m.mem m.dom c'.state.mem c'.state.dom := by
  unfold raiseNotrace at h
  by_cases htrap : (0#63).slt m.dom.trapSpOff = true
  · simp only [htrap, if_true] at h
    obtain ⟨old, hold, h⟩ := bind_eq_ok.mp h
    cases hp : old.parent with
    | none =>
        rw [hp] at h
        obtain ⟨dom, hdom, h⟩ := bind_eq_ok.mp h
        obtain rfl := Except.ok.inj h
        have hsave := setSp_ok hdom m.mem
        exact Or.inl ⟨rfl, hsave.links, hsave.current⟩
    | some p =>
        rw [hp] at h
        obtain ⟨dom, hdom, h⟩ := bind_eq_ok.mp h
        obtain ⟨⟨m', sp⟩, hleave, h⟩ := bind_eq_ok.mp h
        have hsave := saveSp_ok hdom m.mem
        -- saving `sp` keeps the parent of the stack that is left
        have hlink : linksOf dom.pool dom.currentStack = some (some p) := by
          rw [hsave.links, hsave.current, linksOf_of_stack hold, hp]
        obtain ⟨i, hi, hip⟩ := Option.map_eq_some_iff.mp hlink
        refine Or.inr (hsave.leaves ?_)
        exact (leaveStack_ok (m := { m with dom := dom }) (orUndefined_eq_ok.mpr hi) hip
          hleave).enterParent h
  · simp only [htrap] at h
    obtain ⟨sp, -, h⟩ := bind_eq_ok.mp h
    split at h
    · obtain ⟨pc, -, h⟩ := bind_eq_ok.mp h
      obtain ⟨extra, -, h⟩ := bind_eq_ok.mp h
      obtain ⟨trap, -, h⟩ := bind_eq_ok.mp h
      obtain rfl := Except.ok.inj h
      exact Or.inl ⟨rfl, rfl, rfl⟩
    · exact nomatch h

theorem onCore_pop_ok (h : onCore CamlInstr.pop m = .ok m') :
    Untouched m.mem m.dom m'.mem m'.dom := by
  obtain ⟨core, hcore, h⟩ := bind_eq_ok.mp h
  obtain ⟨sp, -, hcore⟩ := bind_eq_ok.mp hcore
  obtain rfl := Except.ok.inj hcore
  obtain rfl := Except.ok.inj h
  exact ⟨rfl, rfl, rfl⟩

/-- `RETURN`. -/
theorem ret_ok (h : CamlUpstream.ret m = .ok c') :
    Untouched m.mem m.dom c'.state.mem c'.state.dom ∨
      Leaves m.mem m.dom c'.state.mem c'.state.dom := by
  obtain ⟨m', hpop, h⟩ := bind_eq_ok.mp h
  have hm' := onCore_pop_ok hpop
  by_cases hx : (0#63).slt m'.extraArgs = true
  · simp only [hx, if_true] at h
    obtain ⟨m'', hon, h⟩ := bind_eq_ok.mp h
    obtain ⟨core, hcore, hon⟩ := bind_eq_ok.mp hon
    obtain ⟨pc, -, rfl⟩ := enterClosure_ok hcore
    obtain rfl := Except.ok.inj hon
    obtain rfl := Except.ok.inj h
    exact Or.inl (hm'.trans ⟨rfl, rfl, rfl⟩)
  · simp only [hx] at h
    rcases doReturn_ok h with hu | hl
    · exact Or.inl (hm'.trans hu)
    · exact Or.inr (hm'.leaves hl)

/-- The fibers may be left after the running stack has been replaced. -/
def MayLeave (mem : Mem) (dom : Domain ω) (mem' : Mem) (dom' : Domain ω) : Prop :=
  SameFibers mem dom mem' dom' ∨
    ∃ mem1 dom1, SameFibers mem dom mem1 dom1 ∧ Leaves mem1 dom1 mem' dom'

theorem mayLeave_of_or (h : Untouched mem dom mem' dom' ∨ Leaves mem dom mem' dom') :
    MayLeave mem dom mem' dom' :=
  h.imp Untouched.same (fun hl => ⟨mem, dom, (Untouched.refl _ _).same, hl⟩)

/-- `GRAB`. -/
theorem grab_ok (hk : KeepsFibers rt) (h : grab rt m = .ok c') :
    MayLeave m.mem m.dom c'.state.mem c'.state.dom := by
  unfold grab at h
  simp only at h
  split at h
  · obtain rfl := Except.ok.inj h
    exact Or.inl (Untouched.refl _ _).same
  · rcases allocSmall_ok hk h with ⟨m', rfl, hs⟩ | ⟨m', hs, h⟩
    · exact Or.inl hs
    · obtain ⟨args, -, h⟩ := bind_eq_ok.mp h
      obtain ⟨m'', hinit, h⟩ := bind_eq_ok.mp h
      obtain rfl := Except.ok.inj hinit
      rcases doReturn_ok h with hu | hl
      · exact Or.inl ((hs.trans (Untouched.same ⟨contOf_new_closure _ _ _, rfl, rfl⟩)).trans hu.same)
      · exact Or.inr ⟨_, _, hs.trans (Untouched.same ⟨contOf_new_closure _ _ _, rfl, rfl⟩), hl⟩

/-! ## Effect instructions -/

/-- A stack is resumed: the last fiber of its chain gets the running one as its
    parent. -/
structure Resumes (s : Nat) (mem : Mem) (dom : Domain ω) (mem' : Mem) (dom' : Domain ω) :
    Prop where
  conts : contOf mem'.heap = contOf mem.heap
  current : dom'.currentStack = s
  links : ∃ l last, Linked (linksOf dom.pool) (s :: l) ∧ (s :: l).getLast? = some last ∧
    linksOf dom'.pool =
      Function.update (linksOf dom.pool) last (some (some dom.currentStack))

theorem doResume_null (hk : KeepsFibers rt) {fn arg : Value} (hacc : m.accu = valPtr none)
    (h : doResume rt fn arg m = .ok c') :
    Untouched m.mem m.dom c'.state.mem c'.state.dom := by
  unfold doResume at h
  rw [hacc, ptrVal_valPtr] at h
  obtain ⟨p, hp, h⟩ := bind_eq_ok.mp h
  obtain rfl := Except.ok.inj hp
  obtain ⟨e, -, h⟩ := bind_eq_ok.mp h
  obtain ⟨m', rfl, hm'⟩ := raiseException_ok hk h
  exact hm'

/-- `do_resume` puts the chain in front of the running fiber. -/
theorem doResume_ok {fn arg : Value} {s : Nat} (hacc : m.accu = valPtr (some s))
    (h : doResume rt fn arg m = .ok c') :
    Resumes s m.mem m.dom c'.state.mem c'.state.dom := by
  unfold doResume at h
  rw [hacc, ptrVal_valPtr] at h
  obtain ⟨p, hp, h⟩ := bind_eq_ok.mp h
  obtain rfl := Except.ok.inj hp
  obtain ⟨last, hlast, h⟩ := bind_eq_ok.mp h
  obtain ⟨dom1, hdom1, h⟩ := bind_eq_ok.mp h
  obtain ⟨dom2, hdom2, h⟩ := bind_eq_ok.mp h
  obtain ⟨sp, -, h⟩ := bind_eq_ok.mp h
  obtain ⟨w0, -, h⟩ := bind_eq_ok.mp h
  obtain ⟨trap, -, h⟩ := bind_eq_ok.mp h
  obtain ⟨sp', -, h⟩ := bind_eq_ok.mp h
  obtain ⟨pc, -, h⟩ := bind_eq_ok.mp h
  obtain rfl := Except.ok.inj h
  obtain ⟨l, hl, ht⟩ := linked_of_lastParent hlast
  refine ⟨rfl, rfl, l, last, hl, ht, ?_⟩
  exact (saveSp_ok hdom2 m.mem).links.trans (setParent_ok hdom1).1

/-- `RESUME`. -/
theorem resume_ok (h : resume rt m = .ok c') :
    ∃ fn arg sp, doResume rt fn arg { m with sp := sp } = .ok c' := by
  obtain ⟨fn, -, h⟩ := bind_eq_ok.mp h
  obtain ⟨arg, -, h⟩ := bind_eq_ok.mp h
  obtain ⟨rest, -, h⟩ := bind_eq_ok.mp h
  exact ⟨fn, arg, _, h⟩

/-- `RESUMETERM`. -/
theorem resumeterm_ok (h : resumeterm rt m = .ok c') :
    ∃ fn arg sp, doResume rt fn arg { m with sp := sp } = .ok c' := by
  obtain ⟨fn, -, h⟩ := bind_eq_ok.mp h
  obtain ⟨arg, -, h⟩ := bind_eq_ok.mp h
  obtain ⟨below, -, h⟩ := bind_eq_ok.mp h
  obtain ⟨rest, -, h⟩ := bind_eq_ok.mp h
  exact ⟨fn, arg, _, h⟩

/-- The continuation and the last fiber a handler has just been entered with. -/
def handlerPair : Ctl (Machine ω) → Option (Nat × Nat)
  | .checkStacks m =>
      match m.sp with
      | _ :: .ptr b _ :: .stk s :: _ => some (b, s)
      | _ => none
  | _ => none

/-- The effect handler is entered with the continuation and the last fiber, and leaves
    the fibers as they are. -/
theorem enterEffectHandler_ok {eff handler : Value} {b child : Nat} {sp : List Value}
    (h : enterEffectHandler m eff (.ptr b 0) child handler sp = .ok c') :
    handlerPair c' = some (b, child) ∧ c'.state.mem = m.mem ∧
      c'.state.dom.pool = m.dom.pool ∧ c'.state.dom.currentStack = m.dom.currentStack := by
  obtain ⟨w0, -, h⟩ := bind_eq_ok.mp h
  obtain ⟨trap, -, h⟩ := bind_eq_ok.mp h
  obtain ⟨w1, -, h⟩ := bind_eq_ok.mp h
  obtain ⟨extra, -, h⟩ := bind_eq_ok.mp h
  obtain ⟨rest, -, h⟩ := bind_eq_ok.mp h
  obtain ⟨pc, -, h⟩ := bind_eq_ok.mp h
  obtain rfl := Except.ok.inj h
  exact ⟨rfl, rfl, rfl, rfl⟩

/-- The running fiber is captured in the new continuation `b`. -/
structure Performs (b : Nat) (mem : Mem) (dom : Domain ω) (mem' : Mem) (dom' : Domain ω) :
    Prop where
  parent : linksOf dom.pool dom.currentStack = some (some dom'.currentStack)
  new : contOf mem.heap b = none
  conts : contOf mem'.heap = Function.update (contOf mem.heap) b (some dom.currentStack)
  links : linksOf dom'.pool =
    Function.update (linksOf dom.pool) dom.currentStack (some none)

/-- `PERFORM`: an exception, or the handler of the running fiber is entered. -/
theorem perform_ok (hk : KeepsFibers rt) (h : perform rt m = .ok c') :
    (handlerPair c' = none ∧ SameFibers m.mem m.dom c'.state.mem c'.state.dom) ∨
      (∃ b, handlerPair c' = some (b, m.dom.currentStack) ∧
        Performs b m.mem m.dom c'.state.mem c'.state.dom) := by
  obtain ⟨old, hold, h⟩ := bind_eq_ok.mp h
  cases hp : old.parent with
  | none =>
      rw [hp] at h
      obtain ⟨e, -, h⟩ := bind_eq_ok.mp h
      obtain ⟨m', rfl, hm'⟩ := raiseException_ok hk h
      exact Or.inl ⟨rfl, hm'.same⟩
  | some p =>
      rw [hp] at h
      rcases allocSmall_ok hk h with ⟨m', rfl, hs⟩ | ⟨m', hs, h⟩
      · exact Or.inl ⟨rfl, hs⟩
      · obtain ⟨dom1, hdom1, h⟩ := bind_eq_ok.mp h
        obtain ⟨sp, -, h⟩ := bind_eq_ok.mp h
        obtain ⟨dom2, hdom2, h⟩ := bind_eq_ok.mp h
        obtain ⟨m'', hinit, h⟩ := bind_eq_ok.mp h
        obtain ⟨i, -, h⟩ := bind_eq_ok.mp h
        obtain rfl := Except.ok.inj hinit
        obtain ⟨hlive, hlinks1, -⟩ := setWords_ok hdom1
        obtain ⟨hlinks2, hcur2⟩ := setParent_ok hdom2
        -- the stack noted before the allocation must still be the running one
        have hu := hs.untouched hlive
        obtain ⟨hpair, hmem, hst, hcur⟩ := enterEffectHandler_ok h
        refine Or.inr ⟨m'.mem.heap.fresh, hpair, ?_, ?_, ?_, ?_⟩
        · rw [linksOf_of_stack hold, hp, hcur]
          exact congrArg (fun s => some (some s)) hcur2.symm
        · rw [← hu.conts]
          unfold contOf
          rw [Store.get_fresh]
        · rw [hmem]
          show contOf (Store.put _ _ _) = _
          rw [valPtr, contOf_put_cont (Store.get_alloc_fresh _ _), contOf_alloc, hu.conts]
        · rw [hst]
          exact hlinks2.trans (by rw [hlinks1, hu.links])

/-- `PERFORM` in the main fiber raises. -/
theorem perform_main (hk : KeepsFibers rt)
    (hroot : linksOf m.dom.pool m.dom.currentStack = some none)
    (h : perform rt m = .ok c') : Untouched m.mem m.dom c'.state.mem c'.state.dom := by
  obtain ⟨old, hold, h⟩ := bind_eq_ok.mp h
  have hp : old.parent = none := by
    rw [linksOf_of_stack hold] at hroot
    exact Option.some.inj hroot
  rw [hp] at h
  obtain ⟨e, -, h⟩ := bind_eq_ok.mp h
  obtain ⟨m', rfl, hm'⟩ := raiseException_ok hk h
  exact hm'

/-- The stack a continuation word stands for. -/
def stackIn : Value → Option Nat
  | .stk s => some s
  | _ => none

/-- `caml_continuation_use_noexc` empties the block and returns what it held. -/
theorem camlContinuationUseNoexc_ok {b : Nat} {v : Value}
    (h : camlContinuationUseNoexc (.ptr b 0) mem = .ok (v, mem')) :
    contOf mem.heap b = stackIn v ∧
      contOf mem'.heap = Function.update (contOf mem.heap) b none := by
  obtain ⟨isb, -, h⟩ := bind_eq_ok.mp h
  obtain ⟨-, -, h⟩ := bind_eq_ok.mp h
  obtain ⟨tag, htag, h⟩ := bind_eq_ok.mp h
  obtain ⟨u, hu, h⟩ := bind_eq_ok.mp h
  obtain ⟨w, hw, h⟩ := bind_eq_ok.mp h
  obtain ⟨heap, hheap, h⟩ := bind_eq_ok.mp h
  obtain ⟨rfl, rfl⟩ := Prod.mk.inj (Except.ok.inj h)
  have htag' : tag = contTag := of_decide_eq_true (camlAssert_eq_ok.mp hu)
  cases hb : mem.heap.get b with
  | none => simp [tagVal, hb] at htag
  | some blk =>
      obtain ⟨t, fields⟩ := blk
      have ht : t = contTag := by
        simp only [tagVal, hb] at htag
        exact (Except.ok.inj htag).trans htag'
      cases fields with
      | nil => simp [field, locate, hb] at hw
      | cons x fields =>
          have hx : x = w := by
            simp [field, locate, hb, orUndefined] at hw
            exact hw
          have hput : heap = mem.heap.put b ⟨t, valPtr none :: fields⟩ := by
            simp [setField, locate, hb] at hheap
            exact hheap.symm
          subst hx ht
          constructor
          · unfold contOf
            rw [hb]
            cases x <;> rfl
          · show contOf heap = _
            rw [hput]
            funext b'
            by_cases hbb : b' = b
            · subst hbb
              rw [Function.update_self]
              unfold contOf
              rw [Store.get_put_self _ hb]
              rfl
            · rw [Function.update_of_ne hbb]
              unfold contOf
              rw [Store.get_put_of_ne _ _ hbb]

/-- The running fiber joins the end of a continuation's chain. -/
structure Reperforms (tail : Nat) (mem : Mem) (dom : Domain ω) (mem' : Mem)
    (dom' : Domain ω) : Prop where
  parent : linksOf dom.pool dom.currentStack = some (some dom'.currentStack)
  conts : contOf mem'.heap = contOf mem.heap
  links : linksOf dom'.pool = Function.update
    (Function.update (linksOf dom.pool) dom.currentStack (some none)) tail
    (some (some dom.currentStack))

/-- `REPERFORMTERM` in a fiber with a parent. -/
theorem reperformterm_parent {b tail p : Nat} {rest : List Value}
    (hsp : m.sp = .ptr b 0 :: .stk tail :: rest)
    (hparent : linksOf m.dom.pool m.dom.currentStack = some (some p))
    (h : reperformterm rt m = .ok c') :
    handlerPair c' = some (b, m.dom.currentStack) ∧
      Reperforms tail m.mem m.dom c'.state.mem c'.state.dom := by
  unfold reperformterm at h
  rw [hsp] at h
  obtain ⟨cont, hcont, h⟩ := bind_eq_ok.mp h
  obtain ⟨w1, hw1, h⟩ := bind_eq_ok.mp h
  obtain ⟨ct, hct, h⟩ := bind_eq_ok.mp h
  obtain ⟨i, hi, h⟩ := bind_eq_ok.mp h
  obtain ⟨below, -, h⟩ := bind_eq_ok.mp h
  obtain ⟨rest', -, h⟩ := bind_eq_ok.mp h
  obtain rfl : Value.ptr b 0 = cont := Except.ok.inj hcont
  obtain rfl : Value.stk tail = w1 := Except.ok.inj hw1
  obtain rfl : some tail = ct := Except.ok.inj hct
  have hip : i.parent = some p := by
    rw [linksOf_of_stack hi] at hparent
    exact Option.some.inj hparent
  simp only [hip] at h
  obtain ⟨dom1, hdom1, h⟩ := bind_eq_ok.mp h
  obtain ⟨sp, -, h⟩ := bind_eq_ok.mp h
  obtain ⟨t, ht, h⟩ := bind_eq_ok.mp h
  obtain rfl : tail = t := Except.ok.inj ht
  obtain ⟨j, -, h⟩ := bind_eq_ok.mp h
  obtain ⟨-, -, h⟩ := bind_eq_ok.mp h
  obtain ⟨dom2, hdom2, h⟩ := bind_eq_ok.mp h
  obtain ⟨dom3, hdom3, h⟩ := bind_eq_ok.mp h
  obtain ⟨k, -, h⟩ := bind_eq_ok.mp h
  obtain ⟨-, hlinks1, -⟩ := setWords_ok hdom1
  obtain ⟨hlinks2, hcur2⟩ := setParent_ok hdom2
  obtain ⟨hlinks3, hcur3⟩ := setParent_ok hdom3
  obtain ⟨hpair, hmem, hst, hcur⟩ := enterEffectHandler_ok h
  refine ⟨hpair, ?_, ?_, ?_⟩
  · rw [hparent, hcur]
    exact congrArg (fun s => some (some s)) (hcur3.trans hcur2).symm
  · rw [hmem]
  · rw [hst]
    exact hlinks3.trans (by rw [hlinks2, hlinks1])

/-- `REPERFORMTERM` in the main fiber takes the continuation and resumes it with
    `raise_unhandled`. -/
theorem reperformterm_main {b tail s : Nat} {rest : List Value}
    (hsp : m.sp = .ptr b 0 :: .stk tail :: rest) (hb : contOf m.mem.heap b = some s)
    (hparent : linksOf m.dom.pool m.dom.currentStack = some none)
    (h : reperformterm rt m = .ok c') :
    ∃ mem1 e below rest', contOf mem1.heap = Function.update (contOf m.mem.heap) b none ∧
      field mem1.heap mem1.globalData unhandledExn = .ok e ∧
      spDrop m.sp (m.operand.toInt - 2) = .ok below ∧ spDrop below 2 = .ok rest' ∧
      doResume rt mem1.raiseUnhandled e { m with
        sp := valLong m.dom.trapSpOff :: valLong m.extraArgs :: rest', mem := mem1,
        accu := .stk s } = .ok c' := by
  unfold reperformterm at h
  obtain ⟨cont, hcont, h⟩ := bind_eq_ok.mp h
  obtain ⟨w1, -, h⟩ := bind_eq_ok.mp h
  obtain ⟨ct, -, h⟩ := bind_eq_ok.mp h
  obtain ⟨i, hi, h⟩ := bind_eq_ok.mp h
  obtain ⟨below, hbelow, h⟩ := bind_eq_ok.mp h
  obtain ⟨rest', hrest', hm⟩ := bind_eq_ok.mp h
  have hip : i.parent = none := by
    rw [linksOf_of_stack hi] at hparent
    exact Option.some.inj hparent
  rw [hsp] at hcont
  obtain rfl : Value.ptr b 0 = cont := Except.ok.inj hcont
  simp only [hip] at hm
  obtain ⟨⟨v, mem1⟩, huse, hm⟩ := bind_eq_ok.mp hm
  obtain ⟨hv, hconts⟩ := camlContinuationUseNoexc_ok huse
  rw [hb] at hv
  have hvs : v = .stk s := by
    cases v with
    | stk t => exact congrArg Value.stk (Option.some.inj hv).symm
    | undef => exact nomatch hv
    | word w => exact nomatch hv
    | ptr b ofs => exact nomatch hv
    | atom t => exact nomatch hv
  rw [hvs] at hm
  have hnn : Value.stk s ≠ valPtr none := nofun
  simp only [hnn, if_false] at hm
  obtain ⟨e, he, hm⟩ := bind_eq_ok.mp hm
  exact ⟨mem1, e, below, rest', hconts, he, hbelow, hrest', hm⟩

end CamlFiber
