import CamlInterp.BystanderProofs
import CamlInterp.UnhandledProofs

/-! # A resumed fiber ends like a call

    `RESUME` and `RESUMETERM` park the resuming fiber and switch to the chain
    they resume; the last fiber of that chain is the child.  While the child has
    not ended, the parked words stay where they are and the child, which may be
    moved, keeps its parent and its handlers.  When it returns, or raises an
    exception it does not catch, the parent is in the state in which an apply
    instruction enters the child's handler. -/

namespace CamlHandlerCall

open CellStore ParentChain CamlValue CamlOpcode CamlMachine CamlControl CamlStep CamlFiber
  CamlEffect CamlUnhandled CamlPassage CamlBystander Runs

variable {ω : Type}

/-! ## A fiber that waits -/

/-- The value and the exception handler of a stack. -/
def handlersOf (dom : Domain ω) (s : Nat) : Option (Value × Value) :=
  (dom.pool.get s).map (fun i => (i.handleValue, i.handleExn))

def wordsOf (dom : Domain ω) (s : Nat) : Option (List Value) :=
  (dom.pool.get s).map StackInfo.words

/-- The fiber `p` is parked with `words`, and a fiber reached from the running
    one, with these handlers, has it as its parent. -/
structure Waits (p : Nat) (words : List Value) (handlers : Value × Value) (dom : Domain ω) :
    Prop where
  words : wordsOf dom p = some words
  child : ∃ x, Reaches (linksOf dom.pool) dom.currentStack x ∧
    linksOf dom.pool x = some (some p) ∧ handlersOf dom x = some handlers

variable {rt : Runtime ω} {act : Activation} {m : Machine ω} {c c' : Ctl (Machine ω)}
  {dom dom' : Domain ω} {p : Nat} {words : List Value} {handlers : Value × Value}

theorem handlersOf_held (dom : Domain ω) (s : Nat) :
    handlersOf dom s = (heldBy dom s).map (fun h => (h.2.1, h.2.2.1)) := by
  unfold handlersOf heldBy
  rw [Option.map_map]
  rfl

theorem handlersOf_outline (dom : Domain ω) (s : Nat) :
    handlersOf dom s = (outlineOf dom s).map (fun o => (o.2.1, o.2.2.1)) := by
  unfold handlersOf outlineOf
  rw [Option.map_map]
  rfl

theorem wordsOf_held (dom : Domain ω) (s : Nat) :
    wordsOf dom s = (heldBy dom s).map Prod.fst := by
  unfold wordsOf heldBy
  rw [Option.map_map]
  rfl

/-- The waiting fiber is around the running one. -/
theorem Waits.around (h : Waits p words handlers dom) (hp : dom.currentStack ≠ p) :
    Around (linksOf dom.pool) dom.currentStack p := by
  obtain ⟨x, hx, hlink, -⟩ := h.child
  rcases hx.next hlink with he | ha
  · exact absurd he.symm hp
  · exact ha

/-- A fiber that waits still does where the stacks but the running one are spared. -/
theorem Waits.spares (h : Waits p words handlers dom) (hp : dom.currentStack ≠ p)
    (hs : Spares dom dom') : Waits p words handlers dom' ∧ dom'.currentStack ≠ p := by
  obtain ⟨i, hi, hiw⟩ := Option.map_eq_some_iff.mp h.words
  obtain ⟨hi', hne⟩ := hs.around (h.around hp) hi
  refine ⟨⟨?_, ?_⟩, fun e => hne e.symm⟩
  · unfold wordsOf
    rw [hi']
    exact congrArg some hiw
  · obtain ⟨x, hx, hlink, hhand⟩ := h.child
    rcases hx with rfl | hx
    · -- the child is running, and may have been moved
      refine ⟨dom'.currentStack, Or.inl rfl, hs.links_running.trans hlink, ?_⟩
      rw [handlersOf_outline, hs.running, ← handlersOf_outline]
      exact hhand
    · obtain ⟨j, hj, hjp⟩ := linksOf_get hlink
      have hj' := (hs.around hx hj).1
      refine ⟨x, Or.inr (hs.still_around hx hj), ?_, ?_⟩
      · rw [linksOf_some hj', hjp]
      · unfold handlersOf at hhand ⊢
        rw [hj', ← hj]
        exact hhand

/-- The parent of a fiber that is given up is the running one: the child has not
    been given up as long as that is not `p`. -/
theorem Waits.climbs (h : Waits p words handlers m.dom) (hp : m.dom.currentStack ≠ p)
    (hc : Climbs m c') (hp' : c'.state.dom.currentStack ≠ p) :
    Waits p words handlers c'.state.dom := by
  constructor
  · rw [wordsOf_held, hc.kept hp.symm, ← wordsOf_held]
    exact h.words
  · obtain ⟨x, hx, hlink, hhand⟩ := h.child
    have hxc : x ≠ m.dom.currentStack := by
      rintro rfl
      exact hp' (Option.some.inj (Option.some.inj (hc.parent.symm.trans hlink)))
    have hget := hc.others hxc hlink
    refine ⟨x, ?_, (linksOf_of_get hget).trans hlink, ?_⟩
    · rcases hx with he | hx
      · exact absurd he hxc
      · refine hx.climb hc.parent (fun y z hy hyz => ?_)
        rw [linksOf_of_get (hc.others hy hyz)]
        exact hyz
    · unfold handlersOf at hhand ⊢
      rw [hget]
      exact hhand

/-- The chain that is put on top reaches down to what was running. -/
theorem Descends.keeps {s : Nat} (hd : Descends s m c') {y z : Nat}
    (hy : linksOf m.dom.pool y = some (some z)) :
    linksOf c'.state.dom.pool y = some (some z) := by
  obtain ⟨l, last, hl, hlast, hlinks⟩ := hd.links
  rw [hlinks, Function.update_of_ne (fun e => ?_)]
  · exact hy
  · rw [e, hl.getLast hlast] at hy
    cases hy

theorem Descends.reaches {s : Nat} (hd : Descends s m c') :
    Reaches (linksOf c'.state.dom.pool) c'.state.dom.currentStack m.dom.currentStack := by
  obtain ⟨l, last, hl, hlast, hlinks⟩ := hd.links
  have hfirst : Reaches (linksOf m.dom.pool) s last :=
    hl.reaches (List.mem_of_getLast? hlast)
  have hchain : Reaches (linksOf c'.state.dom.pool) s last :=
    hfirst.through (Or.inl rfl) (fun y z => Descends.keeps hd)
  rw [hd.current]
  refine hchain.next ?_
  rw [hlinks, Function.update_self]

/-- It still waits when a chain is resumed on top of it. -/
theorem Waits.descends {s : Nat} (h : Waits p words handlers m.dom)
    (hp : m.dom.currentStack ≠ p) (hd : Descends s m c') :
    Waits p words handlers c'.state.dom := by
  constructor
  · rw [wordsOf_held, hd.kept hp.symm, ← wordsOf_held]
    exact h.words
  · obtain ⟨x, hx, hlink, hhand⟩ := h.child
    refine ⟨x, hx.through (Descends.reaches hd) (fun y z => Descends.keeps hd),
      Descends.keeps hd hlink, ?_⟩
    by_cases hxc : x = m.dom.currentStack
    · obtain ⟨i, hi, hparked⟩ := hd.parked
      rw [hxc] at hhand ⊢
      rw [handlersOf_held, hparked, ← hhand]
      unfold handlersOf
      rw [hi]
      rfl
    · rw [handlersOf_held, hd.kept hxc, ← handlersOf_held]
      exact hhand

/-- One step of a run in which `p` is not running. -/
theorem Waits.step (hk : Considerate rt) (h : Waits p words handlers c.state.dom)
    (hp : c.state.dom.currentStack ≠ p) (hp' : c'.state.dom.currentStack ≠ p)
    (hs : machineStep rt act c = .ok c') : Waits p words handlers c'.state.dom := by
  cases step_switches hk hs with
  | stays hsp => exact (h.spares hp hsp).1
  | climbs hsp hcl _ =>
      obtain ⟨hw, hne⟩ := h.spares hp hsp
      exact hw.climbs hne hcl hp'
  | descends hdom hd _ =>
      rw [← hdom] at h hp
      exact h.descends hp hd

/-- **A WHOLE RUN** in which `p` is not running. -/
theorem Waits.run (hk : Considerate rt) {c0 : Ctl (Machine ω)} {past : List (Ctl (Machine ω))}
    (h0 : Waits p words handlers c0.state.dom) (hrun : Run (machineStep rt act) c0 past c)
    (haway : ∀ x ∈ c :: past, x.state.dom.currentStack ≠ p) :
    Waits p words handlers c.state.dom := by
  have hinv : c.state.dom.currentStack ≠ p → Waits p words handlers c.state.dom := by
    refine Run.invariant (G := fun x => x.state.dom.currentStack ≠ p)
      (P := fun _ x => x.state.dom.currentStack ≠ p → Waits p words handlers x.state.dom)
      (fun _ => h0) (fun _ t u ht hG hs hu => (ht hG).step hk hG hu hs) hrun
      (fun x hx => haway x (List.mem_cons_of_mem _ hx))
  exact hinv (haway c List.mem_cons_self)

/-! ## The end of the child -/

/-- The step from `c` goes through `do_return` with the registers `m`: `RETURN`
    without surplus arguments, or `GRAB` with too few. -/
inductive AtDoReturn (rt : Runtime ω) (c : Ctl (Machine ω)) : Machine ω → Prop where
  | ret {m : Machine ω} : executing c = some .RETURN →
      onCore CamlInstr.pop (fetched c) = .ok m → (0#63).slt m.extraArgs = false →
      AtDoReturn rt c m
  | grab {m1 : Machine ω} {n : Nat} {args : List Value} : executing c = some .GRAB →
      (fetched c).extraArgs.toInt < (fetched c).operand.toInt →
      (1 + (fetched c).extraArgs).toNat = n → n + 3 ≤ maxYoungWosize →
      gcLoop rt (rt.gcRounds c.state.mem c.state.dom)
        { fetched c with toCore := (fetched c).toCore.advance } = .ok (.inl m1) →
      spTake m1.sp n = .ok args →
      AtDoReturn rt c { m1 with
        accu := .ptr m1.mem.heap.fresh 0, sp := m1.sp.drop n,
        mem := { m1.mem with
          heap := (m1.mem.heap.alloc ⟨closureTag, List.replicate (n + 3) .undef⟩).put
            m1.mem.heap.fresh ⟨closureTag, ofCode (m1.pc - 12#64) ::
              .word (makeClosinfo 0 2) :: m1.env :: args⟩ } }

/-- Whichever instruction gets to `do_return`, the rest of the step is `do_return`. -/
theorem AtDoReturn.step (act : Activation) (h : AtDoReturn rt c m) :
    machineStep rt act c = doReturn m := by
  cases h with
  | ret hop hpop hx =>
      rw [machineStep_executing hop]
      show CamlUpstream.ret (fetched c) = _
      unfold CamlUpstream.ret
      rw [hpop]
      show (if _ then _ else _) = _
      rw [hx]
      rfl
  | @grab m1 n args hop hfew hn hsmall hgc hargs =>
      rw [machineStep_executing hop]
      show CamlControl.grab rt (fetched c) = _
      have hnot : ¬ (fetched c).operand.toInt ≤ (fetched c).extraArgs.toInt := Int.not_le.mpr hfew
      unfold CamlControl.grab
      refine (if_neg hnot).trans ?_
      rw [← fetched_mem, ← fetched_dom] at hgc
      subst hn
      refine (allocSmall_eq (m := { fetched c with toCore := (fetched c).toCore.advance }) _
        (by omega) hsmall (by decide) hgc).trans ?_
      show (spTake m1.sp (1 + (fetched c).extraArgs).toNat >>= _) = _
      rw [hargs]
      rfl

theorem AtDoReturn.spares (hk : Considerate rt) (h : AtDoReturn rt c m) :
    Spares c.state.dom m.dom := by
  rw [← fetched_dom]
  cases h with
  | ret _ hpop _ =>
      rw [onCore_dom hpop]
      exact Spares.refl _
  | grab _ _ _ _ hgc _ => exact gcLoop_within hk.survives hgc

/-- The fiber above `p` is the running one. -/
def OnTopOf (p : Nat) (dom : Domain ω) : Prop :=
  ∀ x, linksOf dom.pool x = some (some p) → x = dom.currentStack

/-- What `do_return` and `raise_notrace` make of a parked parent. -/
theorem leaveFor_parked {h : Value} {t e : Long} {rest : List Value} {i : StackInfo}
    (hi : m.dom.pool.get m.dom.currentStack = some i)
    (hp : wordsOf m.dom p = some (valLong t :: valLong e :: rest)) :
    leaveFor m p h = (do
      let pc ← codeVal m.mem.heap h
      .ok (.checkStacks { m with
        sp := m.accu :: rest, extraArgs := e, accu := h, pc := pc, env := h,
        dom := { m.dom with
          pool := m.dom.pool.free m.dom.currentStack, currentStack := p, trapSpOff := t } })) := by
  obtain ⟨j, hj, hw⟩ := Option.map_eq_some_iff.mp hp
  unfold leaveFor
  rw [leaveStack_of_get hj hi, hw]
  exact enterParent_parked _ h t e rest

theorem doReturn_leaves {i : StackInfo} (hsp : m.sp = [])
    (hi : m.dom.pool.get m.dom.currentStack = some i) (hp : i.parent = some p) :
    doReturn m = leaveFor m p i.handleValue := by
  unfold doReturn
  rw [hsp]
  show (orUndefined (m.dom.pool.get m.dom.currentStack) >>= _) = _
  rw [hi]
  show (camlAssert i.parent.isSome >>= _) = _
  rw [hp]
  rfl

/-- `trap_sp_off > 0`: the fiber has no trap frame. -/
theorem slt_of_pos {t : Long} (h : 0 < t.toInt) : (0#63).slt t = true := by
  rw [BitVec.slt_iff_toInt_lt]
  exact h

/-- Without a trap frame, a raise leaves for the parent. -/
theorem raiseNotrace_leaves {i : StackInfo} (htrap : 0 < m.dom.trapSpOff.toInt)
    (hi : m.dom.pool.get m.dom.currentStack = some i) (hp : i.parent = some p) :
    raiseNotrace act m = leaveFor { m with dom := { m.dom with
      pool := m.dom.pool.put m.dom.currentStack { i with words := m.sp } } } p i.handleExn := by
  obtain ⟨w, hval, hexn, heff, pa, sz, ab⟩ := i
  obtain rfl : pa = some p := hp
  unfold raiseNotrace
  rw [if_pos (slt_of_pos htrap)]
  show (orUndefined (m.dom.pool.get m.dom.currentStack) >>= _) = _
  rw [hi]
  show (m.dom.saveSp m.sp >>= _) = _
  rw [saveSp_of_get m.sp hi]
  rfl

/-! ## The same as a call -/

/-- The registers of the fiber that resumed in `m0`, with `sp` in place of its
    stack, `v` pushed and `h` in `accu`, after the running fiber of `m` has
    ended. -/
def takeOver (m0 m : Machine ω) (h v : Value) (sp : List Value) : Machine ω :=
  { m0 with
    sp := v :: sp, accu := h, mem := m.mem,
    dom := { m.dom with
      pool := m.dom.pool.free m.dom.currentStack, currentStack := m0.dom.currentStack,
      trapSpOff := m0.dom.trapSpOff } }

/-- `x` is what follows when the fiber that resumed at `c0`, with the operands
    popped, applies `h` to `v` itself: by `APPLY1` at a `RESUME`, by `APPTERM1` at
    a `RESUMETERM n`.  On top of the frame there is then one word, `v`, instead of
    the two operands; what else is in the frame does not matter. -/
structure LikeCall (rt : Runtime ω) (act : Activation) (c0 : Ctl (Machine ω))
    (popped : List Value) (h v : Value) (m : Machine ω) (x : C (Ctl (Machine ω))) : Prop where
  resume : executing c0 = some .RESUME →
    x = CamlUpstream.exec rt act .APPLY1 (takeOver (fetched c0) m h v popped)
  resumeterm : executing c0 = some .RESUMETERM →
    ∃ below, spDrop popped ((fetched c0).operand.toInt - 2) = .ok below ∧
      ∀ (frame : List Value) (a : Machine ω), a.operand.toInt = frame.length + 1 →
        a.sp = v :: (frame ++ below) → a.accu = h → a.extraArgs = (fetched c0).extraArgs →
        a.mem = m.mem → a.dom = (takeOver (fetched c0) m h v popped).dom →
        x = CamlUpstream.exec rt act .APPTERM1 a

/-- `APPLY1` of a handler where the resuming fiber has been taken over. -/
theorem apply1_takeOver (m0 : Machine ω) (h v : Value) (sp : List Value) :
    CamlUpstream.exec rt act .APPLY1 (takeOver m0 m h v sp) = (do
      let pc ← codeVal m.mem.heap h
      .ok (.checkStacks { takeOver m0 m h v sp with
        sp := v :: ofCode m0.pc :: m0.env :: valLong m0.extraArgs :: sp,
        extraArgs := 0#63, pc := pc, env := h })) := by
  have htake : spTake (v :: sp) 1 = .ok [v] := by
    unfold spTake
    rw [if_pos (by simp)]
    rfl
  show CamlUpstream.enter apply1 (takeOver m0 m h v sp) = _
  unfold CamlUpstream.enter onCore apply1 applyArgs
  show ((spTake (v :: sp) 1 >>= _) >>= _) >>= _ = _
  rw [htake]
  show ((codeVal m.mem.heap h >>= _) >>= _) >>= _ = _
  cases codeVal m.mem.heap h with
  | ok pc => rfl
  | error err => rfl

/-- `APPTERM1` drops the frame and enters the handler. -/
theorem appterm1_frame {a : Machine ω} {v : Value} {frame below : List Value}
    (hop : a.operand.toInt = frame.length + 1) (hsp : a.sp = v :: (frame ++ below)) :
    CamlUpstream.exec rt act .APPTERM1 a = (do
      let pc ← codeVal a.mem.heap a.accu
      .ok (.checkStacks { a with sp := v :: below, pc := pc, env := a.accu })) := by
  have htake : spTake a.sp 1 = .ok [v] := by
    rw [hsp]
    unfold spTake
    rw [if_pos (by simp)]
    rfl
  -- `sp + *pc - 1` points to the last word of the frame, which `v` overwrites
  obtain ⟨front, w, hfront⟩ : ∃ front w, v :: frame = front ++ [w] :=
    ⟨_, _, (List.dropLast_concat_getLast (List.cons_ne_nil v frame)).symm⟩
  have hlen : (front.length : Int) = a.operand.toInt - (1 : Nat) := by
    have := congrArg List.length hfront
    simp only [List.length_cons, List.length_append, List.length_nil] at this
    rw [hop]
    omega
  have hdrop : spDrop a.sp (a.operand.toInt - (1 : Nat)) = .ok (w :: below) := by
    rw [← hlen, hsp, ← List.cons_append, hfront, List.append_assoc]
    exact spDrop_append
  have hrest : spDrop (w :: below) (1 : Nat) = .ok below := by
    rw [← List.singleton_append]
    exact spDrop_append
  have hextra : a.extraArgs + BitVec.ofNat 63 (1 - 1) = a.extraArgs := BitVec.add_zero _
  show CamlUpstream.enter appterm1 a = _
  unfold CamlUpstream.enter onCore appterm1 apptermArgs enterClosure
  simp only [htake, hdrop, hrest, hextra, bind, Except.bind]
  cases codeVal a.mem.heap a.accu with
  | ok pc => rfl
  | error err => rfl

/-- The child of a fiber that resumed at `c0` is running, and ends: the parent
    goes on as after a call of the handler it is ended with. -/
theorem leaves_likeCall (c0 : Ctl (Machine ω)) (popped : List Value) (h : Value)
    {i : StackInfo} {t : Long}
    (hp : c0.state.dom.currentStack = p) (ht : c0.state.dom.trapSpOff = t)
    (hi : m.dom.pool.get m.dom.currentStack = some i)
    (hresume : executing c0 = some .RESUME → wordsOf m.dom p = some
      (valLong t :: valLong 0#63 :: ofCode (fetched c0).pc :: (fetched c0).env ::
        valLong (fetched c0).extraArgs :: popped))
    (hterm : executing c0 = some .RESUMETERM → ∃ below,
      spDrop popped ((fetched c0).operand.toInt - 2) = .ok below ∧
      wordsOf m.dom p = some (valLong t :: valLong (fetched c0).extraArgs :: below)) :
    LikeCall rt act c0 popped h m.accu m (leaveFor m p h) := by
  have hcur : (fetched c0).dom.currentStack = p := by rw [fetched_dom]; exact hp
  have htrap : (fetched c0).dom.trapSpOff = t := by rw [fetched_dom]; exact ht
  constructor
  · intro hop
    rw [leaveFor_parked hi (hresume hop), apply1_takeOver]
    unfold takeOver
    rw [hcur, htrap]
  · intro hop
    obtain ⟨below, hbelow, hw⟩ := hterm hop
    refine ⟨below, hbelow, fun frame a hn hsp hacc hextra hmem hdom => ?_⟩
    rw [leaveFor_parked hi hw, appterm1_frame hn hsp]
    obtain ⟨⟨pc, sp, accu, env, extra, mem⟩, dom⟩ := a
    obtain rfl : accu = h := hacc
    obtain rfl : mem = m.mem := hmem
    obtain rfl : extra = (fetched c0).extraArgs := hextra
    obtain rfl := hdom
    unfold takeOver
    rw [hcur, htrap]

/-- Words saved in a fiber that ends are gone with it. -/
theorem likeCall_saved {c0 : Ctl (Machine ω)} {popped : List Value} {h v : Value}
    {i : StackInfo} {x : C (Ctl (Machine ω))}
    (hl : LikeCall rt act c0 popped h v { m with dom := { m.dom with
      pool := m.dom.pool.put m.dom.currentStack i } } x) :
    LikeCall rt act c0 popped h v m x := by
  have hsame : takeOver (fetched c0) { m with dom := { m.dom with
      pool := m.dom.pool.put m.dom.currentStack i } } h v popped
      = takeOver (fetched c0) m h v popped := by
    unfold takeOver
    simp only [Store.free_put]
  constructor
  · intro hop
    rw [hl.resume hop, hsame]
  · intro hop
    obtain ⟨below, hbelow, ha⟩ := hl.resumeterm hop
    rw [hsame] at ha
    exact ⟨below, hbelow, ha⟩

/-- Once a chain has been resumed, its last fiber is the child of the fiber that
    has been parked. -/
theorem waits_of_doResume {fn arg : Value} {s child : Nat} {l : List Nat}
    (hacc : m.accu = .stk s) (hchain : Linked (linksOf m.dom.pool) (s :: l))
    (hlast : (s :: l).getLast? = some child) (hnot : m.dom.currentStack ∉ s :: l)
    (hhand : handlersOf m.dom child = some handlers) (h : doResume rt fn arg m = .ok c') :
    Waits m.dom.currentStack m.sp handlers c'.state.dom := by
  have hd := doResume_descends hacc h
  obtain ⟨i, -, hparked⟩ := hd.parked
  constructor
  · rw [wordsOf_held, hparked]
    rfl
  · obtain ⟨l', last, hl, hlast', hlinks⟩ := hd.links
    obtain rfl : l = l' := (List.cons.inj (hchain.eq_of_head hl rfl)).2
    obtain rfl : child = last := Option.some.inj (hlast.symm.trans hlast')
    have hmem := List.mem_of_getLast? hlast
    refine ⟨child, ?_, ?_, ?_⟩
    · rw [hd.current]
      exact (hl.reaches hmem).through (Or.inl rfl) (fun y z => Descends.keeps hd)
    · rw [hlinks, Function.update_self]
    · rw [handlersOf_held, hd.kept (fun e => hnot (e ▸ hmem)), ← handlersOf_held]
      exact hhand

/-- The words under two operands and a frame, dropped in either order. -/
theorem spDrop_below {w0 w1 : Value} {sp below rest : List Value} {n : Int}
    (h1 : spDrop (w0 :: w1 :: sp) n = .ok below) (h2 : spDrop below 2 = .ok rest) :
    spDrop sp n = .ok rest := by
  obtain ⟨fr, hfr, rfl⟩ := spDrop_ok h1
  obtain ⟨fr2, rfl, hlen2⟩ := spDrop_ok h2
  have hsp : sp = (fr ++ fr2).drop 2 ++ rest := by
    have hdrop := congrArg (List.drop 2) hfr
    rw [← List.append_assoc, List.drop_append_of_le_length (by rw [List.length_append]; omega)]
      at hdrop
    exact hdrop
  have hlen : ((fr ++ fr2).drop 2).length = fr.length := by
    rw [List.length_drop, List.length_append]
    omega
  rw [hsp, ← hlen]
  exact spDrop_append

/-- The running fiber above a waiting one is its child. -/
theorem Waits.running (h : Waits p words handlers dom) (htop : OnTopOf p dom) :
    ∃ i, dom.pool.get dom.currentStack = some i ∧ i.parent = some p ∧
      (i.handleValue, i.handleExn) = handlers := by
  obtain ⟨x, -, hlink, hhand⟩ := h.child
  obtain rfl := htop x hlink
  obtain ⟨i, hi, hip⟩ := linksOf_get hlink
  unfold handlersOf at hhand
  rw [hi] at hhand
  exact ⟨i, hi, hip, Option.some.inj hhand⟩

/-- What the two resume instructions park. -/
theorem resume_waits {c0 c1 : Ctl (Machine ω)} {fn arg : Value} {s child : Nat} {l : List Nat}
    {popped : List Value}
    (hop : executing c0 = some .RESUME ∨ executing c0 = some .RESUMETERM)
    (hsp : c0.state.sp = fn :: arg :: popped) (hacc : c0.state.accu = .stk s)
    (hchain : Linked (linksOf c0.state.dom.pool) (s :: l))
    (hlast : (s :: l).getLast? = some child) (hnot : c0.state.dom.currentStack ∉ s :: l)
    (hhand : handlersOf c0.state.dom child = some handlers)
    (hs : machineStep rt act c0 = .ok c1) :
    ∃ words, Waits c0.state.dom.currentStack words handlers c1.state.dom ∧
      (executing c0 = some .RESUME → words =
        valLong c0.state.dom.trapSpOff :: valLong 0#63 :: ofCode (fetched c0).pc ::
          (fetched c0).env :: valLong (fetched c0).extraArgs :: popped) ∧
      (executing c0 = some .RESUMETERM → ∃ below,
        spDrop popped ((fetched c0).operand.toInt - 2) = .ok below ∧
        words = valLong c0.state.dom.trapSpOff :: valLong (fetched c0).extraArgs :: below) := by
  rw [← fetched_sp] at hsp
  rw [← fetched_accu] at hacc
  rw [← fetched_dom] at hchain hnot hhand ⊢
  rcases hop with hop | hop
  · rw [machineStep_executing hop] at hs
    obtain ⟨f, -, hs⟩ := bind_eq_ok.mp hs
    obtain ⟨a, -, hs⟩ := bind_eq_ok.mp hs
    obtain ⟨rest, hrest, hs⟩ := bind_eq_ok.mp hs
    rw [hsp] at hrest
    obtain rfl : popped = rest := Except.ok.inj hrest
    have hw := waits_of_doResume (m := { fetched c0 with
      sp := valLong (fetched c0).dom.trapSpOff :: valLong 0#63 :: ofCode (fetched c0).pc ::
        (fetched c0).env :: valLong (fetched c0).extraArgs :: popped })
      hacc hchain hlast hnot hhand hs
    refine ⟨_, hw, fun _ => rfl, fun h => ?_⟩
    rw [hop] at h
    cases h
  · rw [machineStep_executing hop] at hs
    obtain ⟨f, -, hs⟩ := bind_eq_ok.mp hs
    obtain ⟨a, -, hs⟩ := bind_eq_ok.mp hs
    obtain ⟨below, hbelow, hs⟩ := bind_eq_ok.mp hs
    obtain ⟨rest, hrest, hs⟩ := bind_eq_ok.mp hs
    rw [hsp] at hbelow
    have hw := waits_of_doResume (m := { fetched c0 with
      sp := valLong (fetched c0).dom.trapSpOff :: valLong (fetched c0).extraArgs :: rest })
      hacc hchain hlast hnot hhand hs
    refine ⟨_, hw, fun h => ?_, fun _ => ⟨rest, spDrop_below hbelow hrest, rfl⟩⟩
    rw [hop] at h
    cases h

/-- **A RESUMED FIBER ENDS LIKE A CALL**: in a run in which the fiber that
    resumed is not running, the child returns a value, or raises an exception it
    does not catch, and the parent goes on exactly as if it had applied the
    child's value or exception handler where it resumed. -/
theorem resumed_fiber_ends (rt : Runtime ω) (act : Activation) (hk : Considerate rt)
    (c0 c1 c : Ctl (Machine ω)) (past : List (Ctl (Machine ω))) (s child : Nat) (l : List Nat)
    (fn arg hval hexn : Value) (popped : List Value)
    (hop : executing c0 = some .RESUME ∨ executing c0 = some .RESUMETERM)
    (hsp : c0.state.sp = fn :: arg :: popped) (hacc : c0.state.accu = .stk s)
    (hchain : Linked (linksOf c0.state.dom.pool) (s :: l))
    (hlast : (s :: l).getLast? = some child) (hnot : c0.state.dom.currentStack ∉ s :: l)
    (hhand : handlersOf c0.state.dom child = some (hval, hexn))
    (hs : machineStep rt act c0 = .ok c1) (hrun : Run (machineStep rt act) c1 past c)
    (haway : ∀ x ∈ c :: past, x.state.dom.currentStack ≠ c0.state.dom.currentStack) :
    (∀ m, AtDoReturn rt c m → m.sp = [] → OnTopOf c0.state.dom.currentStack m.dom →
      LikeCall rt act c0 popped hval m.accu m (machineStep rt act c)) ∧
    ∀ m, c = .raiseNotrace m → 0 < m.dom.trapSpOff.toInt →
      OnTopOf c0.state.dom.currentStack m.dom →
      LikeCall rt act c0 popped hexn m.accu m (machineStep rt act c) := by
  obtain ⟨words, hwaits, hresume, hterm⟩ :=
    resume_waits hop hsp hacc hchain hlast hnot hhand hs
  have hend := hwaits.run hk hrun haway
  have hcur := haway c List.mem_cons_self
  constructor
  · intro m hat hnil htop
    obtain ⟨hw, -⟩ := hend.spares hcur (hat.spares hk)
    obtain ⟨i, hi, hp, hh⟩ := hw.running htop
    obtain ⟨rfl, rfl⟩ := Prod.mk.inj hh
    rw [hat.step act, doReturn_leaves hnil hi hp]
    refine leaves_likeCall c0 popped i.handleValue rfl rfl hi (fun h => ?_) (fun h => ?_)
    · rw [hw.words, hresume h]
    · obtain ⟨below, hbelow, hwords⟩ := hterm h
      exact ⟨below, hbelow, by rw [hw.words, hwords]⟩
  · rintro m rfl htrap htop
    obtain ⟨i, hi, hp, hh⟩ := hend.running htop
    obtain ⟨rfl, rfl⟩ := Prod.mk.inj hh
    show LikeCall rt act c0 popped i.handleExn m.accu m (raiseNotrace act m)
    rw [raiseNotrace_leaves htrap hi hp]
    have hwords : wordsOf { m.dom with
        pool := m.dom.pool.put m.dom.currentStack { i with words := m.sp } }
        c0.state.dom.currentStack = some words := by
      have hne : c0.state.dom.currentStack ≠ m.dom.currentStack := fun e => hcur e.symm
      show (Store.get (Store.put _ _ _) _).map _ = _
      rw [Store.get_put_of_ne _ _ hne]
      exact hend.words
    refine likeCall_saved (i := { i with words := m.sp }) ?_
    refine leaves_likeCall c0 popped i.handleExn (m := { m with dom := { m.dom with
      pool := m.dom.pool.put m.dom.currentStack { i with words := m.sp } } }) rfl rfl
      (Store.get_put_self _ hi) (fun h => ?_) (fun h => ?_)
    · rw [hwords, hresume h]
    · obtain ⟨below, hbelow, hb⟩ := hterm h
      exact ⟨below, hbelow, by rw [hwords, hb]⟩

/-! ## A fiber that returns at once -/

theorem considerate_quiet : Considerate quiet := by
  constructor
  · intro mem dom r h
    obtain rfl := Except.ok.inj h
    exact Spares.refl dom
  · intro w args mem dom r h
    obtain rfl := Except.ok.inj h
    exact Spares.refl dom
  · exact fun _ _ dom => Spares.refl dom
  · exact fun _ _ dom => Spares.refl dom

/-- A fresh fiber whose handlers are both the closure `h`. -/
def freshFiber (h : Value) : StackInfo where
  words := [valLong 1#63]
  handleValue := h
  handleExn := h
  handleEffect := h
  parent := none
  size := 4096

/-- `RESUME; STOP` at 0x1000, about to run `RETURN 1` at 0x1008 in a fresh fiber
    with its handler at 0x1010. -/
def resuming : Ctl (Machine Unit) :=
  .next {
    pc := 0x1000#64
    sp := [.ptr 0 0, valUnit]
    accu := .stk 1
    env := .atom 0
    extraArgs := 0#63
    mem := {
      heap := ⟨[some ⟨closureTag, [ofCode 0x1008#64, .word (makeClosinfo 0 2)]⟩,
        some ⟨closureTag, [ofCode 0x1010#64, .word (makeClosinfo 0 2)]⟩]⟩
      code := assemble 0x1000#64
        [Opcode.RESUME.code, Opcode.STOP.code, Opcode.RETURN.code, 1#32, Opcode.STOP.code]
      globalData := valUnit
      raiseUnhandled := valUnit }
    dom := domainOf [mainStack, freshFiber (.ptr 1 0)] 0 }

/-- Where that machine is after `n` steps. -/
def resumingAt (n : Nat) : Ctl (Machine Unit) :=
  match follow (machineStep quiet soleActivation) n resuming with
  | .ok (_, c) => c
  | .error _ => resuming

/-- The resumed fiber returns, and its value handler is applied. -/
theorem resumed_fiber_ends_returning :
    ∃ m, AtDoReturn quiet (resumingAt 2) m ∧
      machineStep quiet soleActivation (resumingAt 2)
        = CamlUpstream.exec quiet soleActivation .APPLY1
          (takeOver (fetched resuming) m (.ptr 1 0) (.ptr 0 0) []) := by
  have hat : AtDoReturn quiet (resumingAt 2) { (fetched (resumingAt 2)) with
      toCore := { (fetched (resumingAt 2)).toCore.advance with sp := [] } } :=
    .ret rfl rfl rfl
  have haway : ∀ x ∈ [resumingAt 2, resumingAt 1],
      x.state.dom.currentStack ≠ resuming.state.dom.currentStack := by
    intro x hx
    rcases List.mem_cons.mp hx with rfl | hx
    · decide
    · obtain rfl := List.mem_singleton.mp hx
      decide
  have htop : OnTopOf 0 (resumingAt 2).state.dom := by
    intro x hx
    match x, hx with
    | 1, _ => rfl
    | 0, hx => cases hx
    | n + 2, hx => cases hx
  have hends := (resumed_fiber_ends quiet soleActivation considerate_quiet resuming
    (resumingAt 1) (resumingAt 2) [resumingAt 1] 1 1 [] (.ptr 0 0) valUnit (.ptr 1 0) (.ptr 1 0) []
    (Or.inl rfl) rfl rfl ⟨rfl, trivial⟩ rfl (by decide) rfl rfl (run_of_follow (n := 1) rfl)
    haway).1 _ hat rfl htop
  exact ⟨_, hat, hends.resume rfl⟩

end CamlHandlerCall
