import CamlInterp.GenerationProofs

/-! # Instructions both generations have

    The instructions that allocate, call C, return or stop are not core bodies, and
    each source has its own text for them.  One lemma for each says that both do the
    same from states that correspond, as long as no link is reached. -/

namespace CamlAgreement

open CellStore CamlValue CamlOpcode CamlMachine CamlInstr CamlControl CamlStep CamlEffect
  CamlLocal CamlTower CamlGeneration Related Runs
open CamlAli (AliMachine AliRuntime AliActivation AliResult CamlState popFrame allocated
  fillPartial fillClosure fillClosures fillBlock fillFloats fillFloat)

variable {ω : Type} {out : Outside ω} {base room : Nat} {act : Activation} {act' : AliActivation}
  {d : Core} {s s' top : List Value} {fs : List Nat} {dom : Domain ω} {state : CamlState ω}

/-! ## Allocation -/

theorem alike_same {α : Type} (x : C α) : Alike Eq x x := by
  cases x with
  | error e => exact Alike.fault e e
  | ok a => exact Alike.ok rfl

/-- The fill of `interp.c` does what the one of `interp-ali.c` does, up to the kind of
    fault. -/
def Fills (dom : Domain ω) (k : Value → Machine ω → C (Ctl (Machine ω)))
    (fill : Value → Core → C Core) : Prop :=
  ∀ v c, Alike Eq (k v ⟨c, dom⟩) (thenNext (fill v) ⟨c, dom⟩)

theorem allocated_steps (ht : Tower base s s' dom.trapSpOff state.trapsp fs)
    (har : Around room dom state) {k : Value → Machine ω → C (Ctl (Machine ω))}
    {fill : Value → Core → C Core} (hk : Fills dom k fill)
    (hfill : fs ≠ [] → ∀ v mem, Local (fill v) { d with mem := mem }) (wosize tag : Nat) :
    Steps base room
      (k (allocBlock d.mem.heap tag (List.replicate wosize .undef)).1
        { (⟨atop s d, dom⟩ : Machine ω) with mem := { d.mem with
          heap := (allocBlock d.mem.heap tag (List.replicate wosize .undef)).2 } })
      (CamlAli.next (allocated wosize tag fill) ⟨atop s' d, state⟩) := by
  refine Alike.trans_eq ?_ (next_steps ht har fun hne => allocated_local (hfill hne))
  exact hk _ _

/-- Allocation in the major heap agrees if filling the block does. -/
theorem allocShr_steps (ht : Tower base s s' dom.trapSpOff state.trapsp fs)
    (har : Around room dom state) {k : Value → Machine ω → C (Ctl (Machine ω))}
    {fill : Value → Core → C Core} (hk : Fills dom k fill)
    (hfill : fs ≠ [] → ∀ v mem, Local (fill v) { d with mem := mem }) (wosize tag : Nat) :
    Steps base room (camlAllocShr ⟨atop s d, dom⟩ wosize tag k)
      (if maxWosize < wosize then .error .undefined
        else CamlAli.next (allocated wosize tag fill) ⟨atop s' d, state⟩) := by
  unfold camlAllocShr
  by_cases hhuge : maxWosize < wosize
  · rw [if_pos hhuge, if_pos hhuge]
    exact Alike.fault _ _
  · rw [if_neg hhuge, if_neg hhuge]
    exact allocated_steps ht har hk hfill wosize tag

/-- Nothing is pending, so that `Alloc_small` allocates at once. -/
theorem allocSmall_steps (ht : Tower base s s' dom.trapSpOff state.trapsp fs)
    (har : Around room dom state) {k : Value → Machine ω → C (Ctl (Machine ω))}
    {fill : Value → Core → C Core} (hk : Fills dom k fill)
    (hfill : fs ≠ [] → ∀ v mem, Local (fill v) { d with mem := mem }) (wosize tag : Nat) :
    Steps base room (allocSmall out.runtime ⟨atop s d, dom⟩ wosize tag k)
      (CamlAli.allocSmall (out.aliRuntime base) wosize tag fill ⟨atop s' d, state⟩) := by
  unfold allocSmall CamlAli.allocSmall
  refine Alike.bind (Both.same _) (fun _ _ _ => ?_)
  refine Alike.bind (Both.same _) (fun _ _ _ => ?_)
  refine Alike.bind (Both.same _) (fun _ _ _ => ?_)
  exact allocated_steps ht har hk hfill wosize tag

theorem allocEither_steps (ht : Tower base s s' dom.trapSpOff state.trapsp fs)
    (har : Around room dom state) {k : Value → Machine ω → C (Ctl (Machine ω))}
    {fill : Value → Core → C Core} (hk : Fills dom k fill)
    (hfill : fs ≠ [] → ∀ v mem, Local (fill v) { d with mem := mem }) (small : Bool)
    (wosize tag : Nat) :
    Steps base room (allocEither out.runtime ⟨atop s d, dom⟩ small wosize tag k)
      (CamlAli.allocEither (out.aliRuntime base) small wosize tag fill ⟨atop s' d, state⟩) := by
  unfold allocEither CamlAli.allocEither
  cases small with
  | true => exact allocSmall_steps ht har hk hfill wosize tag
  | false => exact allocShr_steps ht har hk hfill wosize tag

/-- Neither has a block of a negative number of words. -/
theorem allocEither_neg_steps {n : OpcodeWord} (hneg : n.toInt < 0) (m : Machine ω)
    (a : AliMachine ω) (k : Value → Machine ω → C (Ctl (Machine ω)))
    (fill : Value → Core → C Core) (tag : Nat) :
    Steps base room (allocEither out.runtime m (mlsize n ≤ maxYoungWosize) (mlsize n) tag k)
      (CamlAli.allocEither (out.aliRuntime base) (mlsize n ≤ maxYoungWosize) (mlsize n) tag
        fill a) := by
  have hhuge := mlsize_of_neg hneg
  have hsmall : ¬ mlsize n ≤ maxYoungWosize := by
    unfold maxWosize at hhuge
    unfold maxYoungWosize
    omega
  unfold allocEither CamlAli.allocEither camlAllocShr
  rw [decide_eq_false hsmall, if_pos hhuge, if_pos hhuge]
  exact Alike.fault _ _

/-- Filling a block with words from the stack, and going on from there. -/
theorem fills_of (n tag : Nat) {g : Core → List Value → C (List Value)}
    {km : Value → Machine ω → C (Ctl (Machine ω))} {kc : Value → Core → C Core}
    (hkm : Fills dom km kc) :
    Fills dom
      (fun v m => do
        let args ← spTake m.sp n
        let m ← initFields m v tag (← g m.toCore args)
        km v m)
      (fun v c => do
        let args ← spTake c.sp n
        let c ← CamlAli.initBlock c v tag (← g c args)
        kc v c) := by
  intro v c
  unfold thenNext onCore
  dsimp only
  cases spTake c.sp n with
  | error e => exact Alike.fault e e
  | ok args =>
      show Alike Eq (g c args >>= _) ((g c args >>= _ >>= _) >>= _)
      cases g c args with
      | error e => exact Alike.fault e e
      | ok fields =>
          cases v with
          | ptr b ofs => exact hkm (.ptr b ofs) _
          | undef => exact Alike.fault _ _
          | word w => exact Alike.fault _ _
          | atom t => exact Alike.fault _ _
          | stk t => exact Alike.fault _ _

/-- Code that goes to the top of the loop. -/
theorem fills_next (f : Value → Core → Core) :
    Fills dom (fun v m => .ok (.next { m with toCore := f v m.toCore }))
      (fun v c => .ok (f v c)) :=
  fun _ _ => Alike.ok rfl

/-- A check in front of the filling. -/
theorem fills_checked {km : Value → Machine ω → C (Ctl (Machine ω))}
    {kc : Value → Core → C Core} (x : C Unit) (h : Fills dom km kc) :
    Fills dom (fun v m => x >>= fun _ => km v m) (fun v c => x >>= fun _ => kc v c) := by
  intro v c
  cases x with
  | error e => exact Alike.fault e e
  | ok u => exact h v c

/-- `*--sp = accu`. -/
def pushed (c : Core) : Core := { c with sp := c.accu :: c.sp }

/-- The registers of `CLOSURE` and `CLOSUREREC` once `accu` is pushed, if it is. -/
theorem pushed_steps (s s' : List Value) (dom : Domain ω) (state : CamlState ω) (c : Core)
    (nvars : Int) :
    ∃ d' : Core,
      (if 0 < nvars then (⟨atop s (pushed c), dom⟩ : Machine ω) else ⟨atop s c, dom⟩)
        = ⟨atop s d', dom⟩ ∧
      (if 0 < nvars then (⟨atop s' (pushed c), state⟩ : AliMachine ω) else ⟨atop s' c, state⟩)
        = ⟨atop s' d', state⟩ ∧
      (nvars.toNat - 1 ≤ c.sp.length → nvars.toNat ≤ d'.sp.length) := by
  by_cases hpos : 0 < nvars
  · refine ⟨pushed c, if_pos hpos, if_pos hpos, fun h => ?_⟩
    show _ ≤ (c.accu :: c.sp).length
    rw [List.length_cons]
    omega
  · exact ⟨c, if_neg hpos, if_neg hpos, fun _ => by omega⟩

/-- `CLOSURE` agrees where its variables are above the trap frames. -/
theorem closure_steps (ht : Tower base s s' dom.trapSpOff state.trapsp fs)
    (har : Around room dom state) (hreach : fs ≠ [] → d.operand.toInt.toNat - 1 ≤ d.sp.length) :
    Steps base room (closure out.runtime ⟨atop s d, dom⟩)
      (CamlAli.closure (out.aliRuntime base) ⟨atop s' d, state⟩) := by
  have hfill : Fills dom _ (fillClosure d.operand) :=
    fills_checked _ (fills_of _ _ (g := fun c args =>
        .ok (ofCode (c.codeAt c.operand) :: .word (makeClosinfo 0 2) :: args))
      (fills_next (fun v c =>
        { c with accu := v, sp := c.sp.drop d.operand.toInt.toNat, pc := c.pc + 4#64 })))
  obtain ⟨d', hnew, hold, hlen⟩ := pushed_steps s s' dom state d.advance d.operand.toInt
  show Steps base room
    (allocEither out.runtime (if 0 < d.operand.toInt then
      (⟨atop s (pushed d.advance), dom⟩ : Machine ω) else ⟨atop s d.advance, dom⟩) _ _ _ _)
    (CamlAli.allocEither _ _ _ _ _ (if 0 < d.operand.toInt then
      (⟨atop s' (pushed d.advance), state⟩ : AliMachine ω) else ⟨atop s' d.advance, state⟩))
  rw [hnew, hold]
  exact allocEither_steps ht har hfill
    (fun hne v mem => fillClosure_local v (hlen (hreach hne))) _ _ _

/-- `CLOSUREREC` fills its block alike in both. -/
theorem fills_rec (nfuncs nvars : OpcodeWord) :
    Fills dom (finishRec nfuncs nvars) (fillClosures nfuncs nvars) := by
  intro v c
  have hfault := fills_checked (withinBlock (roomForRec nfuncs nvars))
    (fills_of nvars.toInt.toNat closureTag (g := closureFields nfuncs)
      (show Fills dom (fun _ _ => .error .undefined) (fun _ _ => .error .undefined) from
        fun _ _ => Alike.fault _ _))
  cases v with
  | ptr b ofs =>
      exact fills_checked (withinBlock (roomForRec nfuncs nvars))
        (fills_of _ _ (g := closureFields nfuncs) (fills_next (fun v c => { c with
          accu := v
          sp := infixClosures b (nfuncs.toInt.toNat - 1) 1 (v :: c.sp.drop nvars.toInt.toNat)
          pc := c.pc + BitVec.ofInt 64 (4 * nfuncs.toInt) }))) (.ptr b ofs) c
  | undef => exact hfault .undef c
  | word w => exact hfault (.word w) c
  | atom t => exact hfault (.atom t) c
  | stk s => exact hfault (.stk s) c

/-- `CLOSUREREC` agrees where its variables are above the trap frames. -/
theorem closurerec_steps (ht : Tower base s s' dom.trapSpOff state.trapsp fs)
    (har : Around room dom state)
    (hreach : fs ≠ [] → d.advance.operand.toInt.toNat - 1 ≤ d.sp.length) :
    Steps base room (closurerec out.runtime ⟨atop s d, dom⟩)
      (CamlAli.closurerec (out.aliRuntime base) ⟨atop s' d, state⟩) := by
  obtain ⟨d', hnew, hold, hlen⟩ :=
    pushed_steps s s' dom state d.advance.advance d.advance.operand.toInt
  show Steps base room
    (allocEither out.runtime (if 0 < d.advance.operand.toInt then
      (⟨atop s (pushed d.advance.advance), dom⟩ : Machine ω)
      else ⟨atop s d.advance.advance, dom⟩) _ _ _ _)
    (CamlAli.allocEither _ _ _ _ _ (if 0 < d.advance.operand.toInt then
      (⟨atop s' (pushed d.advance.advance), state⟩ : AliMachine ω)
      else ⟨atop s' d.advance.advance, state⟩))
  rw [hnew, hold]
  exact allocEither_steps ht har (fills_rec _ _)
    (fun hne v mem => fillClosures_local v (hlen (hreach hne))) _ _ _

theorem makeblockOf_steps (ht : Tower base s s' dom.trapSpOff state.trapsp fs)
    (har : Around room dom state) (small : Bool) {wosize tag : Nat}
    (hreach : fs ≠ [] → wosize - 1 ≤ d.sp.length) :
    Steps base room (makeblockOf out.runtime small wosize tag ⟨atop s d, dom⟩)
      (CamlAli.allocEither (out.aliRuntime base) small wosize tag (fillBlock wosize tag)
        ⟨atop s' d, state⟩) := by
  have hfill : Fills dom _ (fillBlock wosize tag) :=
    fills_of _ _ (g := fun c args => .ok (c.accu :: args))
      (fills_next (fun v c => { c with accu := v, sp := c.sp.drop (wosize - 1) }))
  exact allocEither_steps ht har hfill (fun hne v mem => fillBlock_local v (hreach hne)) _ _ _

theorem makeblock_steps (ht : Tower base s s' dom.trapSpOff state.trapsp fs)
    (har : Around room dom state) (hreach : fs ≠ [] → d.operand.toInt.toNat - 1 ≤ d.sp.length) :
    Steps base room (makeblock out.runtime ⟨atop s d, dom⟩)
      (CamlAli.makeblock (out.aliRuntime base) ⟨atop s' d, state⟩) := by
  by_cases hneg : d.operand.toInt < 0
  · exact allocEither_neg_steps hneg _ _ _ _ _
  · refine makeblockOf_steps (d := d.advance.advance) ht har _ fun hne => ?_
    show mlsize d.operand - 1 ≤ d.sp.length
    rw [mlsize_of_nonneg (by omega)]
    exact hreach hne

theorem makeblockN_steps (ht : Tower base s s' dom.trapSpOff state.trapsp fs)
    (har : Around room dom state) {n : Nat} (hreach : fs ≠ [] → n - 1 ≤ d.sp.length) :
    Steps base room (makeblockN out.runtime n ⟨atop s d, dom⟩)
      (CamlAli.makeblockN (out.aliRuntime base) n ⟨atop s' d, state⟩) :=
  makeblockOf_steps (d := d.advance) ht har true hreach

/-- `MAKEFLOATBLOCK` agrees where its fields are above the trap frames. -/
theorem makefloatblock_steps (ht : Tower base s s' dom.trapSpOff state.trapsp fs)
    (har : Around room dom state) (hreach : fs ≠ [] → d.operand.toInt.toNat - 1 ≤ d.sp.length) :
    Steps base room (makefloatblock out.runtime ⟨atop s d, dom⟩)
      (CamlAli.makefloatblock (out.aliRuntime base) ⟨atop s' d, state⟩) := by
  by_cases hneg : d.operand.toInt < 0
  · exact allocEither_neg_steps hneg _ _ _ _ _
  · have hfill : Fills dom _ (fillFloats (mlsize d.operand)) :=
      fills_of _ _ (g := fun c args => doubleVals c.mem.heap (c.accu :: args))
        (fills_next (fun v c => { c with accu := v, sp := c.sp.drop (mlsize d.operand - 1) }))
    refine allocEither_steps (d := d.advance) ht har hfill
      (fun hne v mem => fillFloats_local v ?_) _ _ _
    show mlsize d.operand - 1 ≤ d.sp.length
    rw [mlsize_of_nonneg (by omega)]
    exact hreach hne

/-- `GETFLOATFIELD` agrees: it reads the heap and `accu` only. -/
theorem getfloatfield_steps (ht : Tower base s s' dom.trapSpOff state.trapsp fs)
    (har : Around room dom state) :
    Steps base room (getfloatfield out.runtime ⟨atop s d, dom⟩)
      (CamlAli.getfloatfield (out.aliRuntime base) ⟨atop s' d, state⟩) := by
  unfold getfloatfield CamlAli.getfloatfield
  refine Alike.bind (Both.same _) (fun x _ hx => ?_)
  subst hx
  refine allocSmall_steps (d := d.advance) ht har ?_ (fun _ v mem => fillFloat_local x v _) 1
    doubleTag
  intro v c
  cases v with
  | ptr b ofs => exact Alike.ok rfl
  | undef => exact Alike.fault _ _
  | word w => exact Alike.fault _ _
  | atom t => exact Alike.fault _ _
  | stk t => exact Alike.fault _ _

/-! ## Returning and grabbing -/

/-- Without a parent `do_return` is the end of `RETURN` in `interp-ali.c`. -/
theorem doReturn_alike {i : StackInfo} (hi : dom.pool.get dom.currentStack = some i)
    (hp : i.parent = none) (c : Core) :
    Alike Eq (doReturn ⟨c, dom⟩) (thenNext popFrame ⟨c, dom⟩) := by
  obtain ⟨pc, sp, accu, env, extraArgs, mem⟩ := c
  match sp with
  | [] =>
      have hret : doReturn (⟨⟨pc, [], accu, env, extraArgs, mem⟩, dom⟩ : Machine ω)
          = .error .camlAssert := by
        unfold doReturn Domain.stack
        rw [hi]
        show (camlAssert i.parent.isSome >>= _) = _
        rw [hp]
        rfl
      rw [hret]
      exact Alike.fault _ _
  | [_] => exact Alike.fault _ _
  | [_, _] => exact Alike.fault _ _
  | w0 :: w1 :: w2 :: rest =>
      show Alike Eq (codeOf w0 >>= fun pc => longVal w2 >>= _)
        (((codeOf w0 >>= fun pc => longVal w2 >>= _) >>= _) >>= _)
      cases codeOf w0 with
      | error e => exact Alike.fault e e
      | ok a =>
          show Alike Eq (longVal w2 >>= _) (((longVal w2 >>= _) >>= _) >>= _)
          cases longVal w2 with
          | error e => exact Alike.fault e e
          | ok n => exact Alike.ok rfl

/-- With no parent fiber, `RETURN` does what it does without fibers. -/
theorem ret_alike {i : StackInfo} (hi : dom.pool.get dom.currentStack = some i)
    (hp : i.parent = none) (c : Core) :
    Alike Eq (CamlUpstream.ret ⟨c, dom⟩) (thenNext CamlAli.ret ⟨c, dom⟩) := by
  unfold CamlUpstream.ret thenNext onCore CamlAli.ret
  dsimp only
  cases pop c with
  | error e => exact Alike.fault e e
  | ok c' =>
      simp only [bind, Except.bind]
      by_cases hx : (0#63).slt c'.extraArgs = true
      · rw [if_pos hx, if_pos hx]
        exact alike_same _
      · rw [if_neg hx, if_neg hx]
        exact doReturn_alike hi hp c'

/-- How far `RETURN` reaches. -/
def reachReturn (c : Core) : Nat :=
  if (0#63).slt c.extraArgs then c.operand.toInt.toNat else c.operand.toInt.toNat + 3

/-- `RETURN` looks no deeper into the stack than `reachReturn` says. -/
theorem ret_local (h : reachReturn d ≤ d.sp.length) : Local CamlAli.ret d := by
  intro rest
  unfold reachReturn at h
  have hpop : d.operand.toInt.toNat ≤ d.sp.length := by
    split at h
    · exact h
    · omega
  unfold CamlAli.ret
  rw [pop_local hpop rest, bind_map, map_bind]
  cases hc : pop d with
  | error e => rfl
  | ok c =>
      obtain ⟨sp, hsp, heq⟩ := bind_eq_ok.mp hc
      obtain rfl := Except.ok.inj heq
      show (if (0#63).slt d.extraArgs = true then _ else _)
        = Except.map (atop rest) (if (0#63).slt d.extraArgs = true then _ else _)
      -- surplus arguments stay on the stack, else the return frame is popped as well
      by_cases hx : (0#63).slt d.extraArgs = true
      · rw [if_pos hx, if_pos hx]
        exact returnSurplus_local _ rest
      · rw [if_neg hx, if_neg hx]
        rw [if_neg hx] at h
        refine popFrame_local ?_ rest
        show 3 ≤ sp.length
        unfold spDrop at hsp
        split at hsp
        · rw [← Except.ok.inj hsp, List.length_drop]
          omega
        · cases hsp

theorem ret_steps (ht : Tower base s s' dom.trapSpOff state.trapsp fs)
    (har : Around room dom state) (hreach : fs ≠ [] → reachReturn d ≤ d.sp.length) :
    Steps base room (CamlUpstream.ret ⟨atop s d, dom⟩)
      (CamlAli.next CamlAli.ret ⟨atop s' d, state⟩) := by
  obtain ⟨i, hi, hp, -⟩ := har.stack
  exact Alike.trans_eq (ret_alike hi hp _) (next_steps ht har (fun hne => ret_local (hreach hne)))

/-- How far `GRAB` reaches. -/
def reachGrab (c : Core) : Nat :=
  if c.operand.toInt ≤ c.extraArgs.toInt then 0 else (1 + c.extraArgs).toNat + 3

/-- `GRAB` agrees where the frame it may return through is above the trap frames. -/
theorem grab_steps (ht : Tower base s s' dom.trapSpOff state.trapsp fs)
    (har : Around room dom state) (hreach : fs ≠ [] → reachGrab d ≤ d.sp.length) :
    Steps base room (grab out.runtime ⟨atop s d, dom⟩)
      (CamlAli.grab (out.aliRuntime base) ⟨atop s' d, state⟩) := by
  obtain ⟨i, hi, hp, -⟩ := id har.stack
  unfold reachGrab at hreach
  show Steps base room (if d.operand.toInt ≤ d.extraArgs.toInt then _ else _)
    (if d.operand.toInt ≤ d.extraArgs.toInt then _ else _)
  by_cases hle : d.operand.toInt ≤ d.extraArgs.toInt
  · rw [if_pos hle, if_pos hle]
    exact Alike.ok (Meets.next ⟨{ d.advance with
      extraArgs := d.extraArgs - BitVec.ofInt 63 d.operand.toInt }, s, s', fs, rfl, rfl, ht, har⟩)
  · rw [if_neg hle] at hreach
    rw [if_neg hle, if_neg hle]
    have hkm : Fills dom
        (fun v m => doReturn { m with accu := v, sp := m.sp.drop (1 + d.extraArgs).toNat })
        (fun v c => popFrame { c with accu := v, sp := c.sp.drop (1 + d.extraArgs).toNat }) :=
      fun v c => doReturn_alike hi hp
        { c with accu := v, sp := c.sp.drop (1 + d.extraArgs).toNat }
    have hfill : Fills dom _ (fillPartial (1 + d.extraArgs).toNat) :=
      fills_of _ _ (g := fun c args =>
        .ok (ofCode (c.pc - 12#64) :: .word (makeClosinfo 0 2) :: c.env :: args)) hkm
    exact allocSmall_steps (d := d.advance) ht har hfill
      (fun hne v mem => fillPartial_local v (hreach hne)) _ _

/-! ## C calls -/

/-- Reading above the links gives the same on both sides. -/
theorem spTake_twin {off : Long} {t : Int} (ht : Tower base s s' off t fs) {n : Nat}
    (h : fs ≠ [] → n ≤ top.length) : spTake (top ++ s') n = spTake (top ++ s) n := by
  cases fs with
  | nil =>
      obtain ⟨rfl, rfl⟩ := ht.nil
      rfl
  | cons x fs =>
      have hle := h (List.cons_ne_nil _ _)
      rw [spTake_append hle, spTake_append hle]

theorem spAt_twin {off : Long} {t : Int} (ht : Tower base s s' off t fs) {i : Int}
    (h : fs ≠ [] → i.toNat < top.length) : spAt (top ++ s') i = spAt (top ++ s) i := by
  cases fs with
  | nil =>
      obtain ⟨rfl, rfl⟩ := ht.nil
      rfl
  | cons x fs =>
      have hlt := h (List.cons_ne_nil _ _)
      rw [spAt_append hlt, spAt_append hlt]

/-- The same words are left on top of both sides. -/
def Tops (s s' l l' : List Value) : Prop := ∃ t, l = t ++ s ∧ l' = t ++ s'

theorem spDrop_twin {off : Long} {t : Int} (ht : Tower base s s' off t fs) {n : Int}
    (h : fs ≠ [] → n.toNat ≤ top.length) :
    Both (Tops s s') (spDrop (top ++ s) n) (spDrop (top ++ s') n) := by
  cases fs with
  | nil =>
      obtain ⟨rfl, rfl⟩ := ht.nil
      exact Both.refl (fun l => ⟨l, (List.append_nil l).symm, (List.append_nil l).symm⟩) _
  | cons x fs =>
      have hle := h (List.cons_ne_nil _ _)
      rw [spDrop_append hle, spDrop_append hle]
      exact Both.map (fun l => ⟨l, rfl, rfl⟩) _

/-- Saving the words on the stack leaves everything else alone. -/
theorem around_saved (har : Around room dom state) (sp sp' : List Value) :
    ∃ dom', dom.saveSp sp = .ok dom' ∧ dom'.loadSp = .ok sp ∧
      dom'.trapSpOff = dom.trapSpOff ∧ Around room dom' { state with externSp := sp' } := by
  obtain ⟨i, hi, hp, hsz⟩ := har.stack
  have hget : (dom.pool.put dom.currentStack { i with words := sp }).get dom.currentStack
      = some { i with words := sp } := Store.get_put_self _ hi
  refine ⟨_, saveSp_of_get sp hi, ?_, rfl, har.backtraceActive, har.world,
    ⟨_, hget, hp, hsz⟩, har.threshold⟩
  unfold Domain.loadSp Domain.stack
  rw [hget]
  rfl

/-- The frame of a C call. -/
def called (c : Core) : Core := { c with sp := c.env :: ofCode (c.pc + 4#64) :: c.sp }

theorem setupForCCall_eq {dom' : Domain ω}
    (hsave : dom.saveSp ((called d).sp ++ s) = .ok dom') :
    setupForCCall (⟨atop s d, dom⟩ : Machine ω) = .ok ⟨atop s (called d), dom'⟩ := by
  show (dom.saveSp ((called d).sp ++ s) >>= _) = _
  rw [hsave]
  rfl

/-- A C call agrees if its arguments are read alike and what it pops is above the trap
    frames. -/
theorem cCall_steps (args : List Value → C (List Value)) {popped : Int}
    (ht : Tower base s s' dom.trapSpOff state.trapsp fs) (har : Around room dom state)
    (hargs : args ((called d).sp ++ s') = args ((called d).sp ++ s))
    (hreach : fs ≠ [] → popped.toNat ≤ d.sp.length) :
    Steps base room (cCall out.runtime args popped ⟨atop s d, dom⟩)
      (CamlAli.cCall (out.aliRuntime base) args popped ⟨atop s' d, state⟩) := by
  obtain ⟨dom', hsave, hload, htrap, har'⟩ :=
    around_saved har ((called d).sp ++ s) ((called d).sp ++ s')
  rw [← htrap] at ht
  unfold cCall CamlAli.cCall
  rw [setupForCCall_eq hsave]
  show Steps base room (args ((called d).sp ++ s) >>= _) (args ((called d).sp ++ s') >>= _)
  rw [hargs]
  refine Alike.bind (Both.same _) (fun as _ has => ?_)
  subst has
  show Steps base room
    ((out.primitive d.operand as d.mem dom'.backtraceActive dom'.world >>= _) >>= _)
    ((out.primitive d.operand as d.mem state.backtraceActive state.world >>= _) >>= _)
  rw [show state.backtraceActive = _ from har'.backtraceActive,
    show state.world = _ from har'.world]
  cases out.primitive d.operand as d.mem dom'.backtraceActive dom'.world with
  | error e => exact Alike.fault e e
  | ok r =>
      obtain ⟨raised, v, mem, backtraceActive, world⟩ := r
      have har'' : Around room { dom' with backtraceActive := backtraceActive, world := world }
          { state with
            externSp := (called d).sp ++ s', backtraceActive := backtraceActive,
            world := world } := ⟨rfl, rfl, har'.stack, har'.threshold⟩
      cases raised with
      -- `siglongjmp` to the interpreter, which loads the words saved before the call
      | true => exact reenter_steps (d := called d) ht har'' hload rfl
      | false =>
          have hload' : Domain.loadSp { dom' with
              backtraceActive := backtraceActive, world := world } = _ := hload
          show Steps base room (Domain.loadSp { dom' with
            backtraceActive := backtraceActive, world := world } >>= _) (_ >>= _)
          rw [hload']
          show Steps base room (spDrop ((called d).sp ++ s) (2 + popped) >>= _)
            (spDrop ((called d).sp ++ s') (2 + popped) >>= _)
          refine Alike.bind (spDrop_twin ht fun hne => ?_) ?_
          · have := hreach hne
            show (2 + popped).toNat ≤ (d.env :: ofCode (d.pc + 4#64) :: d.sp).length
            rw [List.length_cons, List.length_cons]
            omega
          · rintro _ _ ⟨sp, rfl, rfl⟩
            exact Alike.ok (Meets.next ⟨{ called d with
              accu := v, sp := sp, pc := d.pc + 4#64, mem := mem }, s, s', fs, rfl, rfl, ht, har''⟩)

/-- `C_CALL1` to `C_CALL5`. -/
theorem cCallN_steps (ht : Tower base s s' dom.trapSpOff state.trapsp fs)
    (har : Around room dom state) {n : Nat} (hreach : fs ≠ [] → n - 1 ≤ d.sp.length) :
    Steps base room (cCallN out.runtime n ⟨atop s d, dom⟩)
      (CamlAli.cCallN (out.aliRuntime base) n ⟨atop s' d, state⟩) := by
  refine cCall_steps (fun sp => do .ok (d.accu :: (← spTake (sp.drop 2) (n - 1)))) ht har ?_
    (fun hne => ?_)
  · show (spTake (d.sp ++ s') (n - 1) >>= _) = (spTake (d.sp ++ s) (n - 1) >>= _)
    rw [spTake_twin ht hreach]
  · have := hreach hne
    omega

/-- `C_CALLN`. -/
theorem cCalln_steps (ht : Tower base s s' dom.trapSpOff state.trapsp fs)
    (har : Around room dom state) (hreach : fs ≠ [] → d.operand.toInt.toNat - 1 ≤ d.sp.length) :
    Steps base room (cCalln out.runtime ⟨atop s d, dom⟩)
      (CamlAli.cCalln (out.aliRuntime base) ⟨atop s' d, state⟩) := by
  have hpushed : fs ≠ [] → d.operand.toInt.toNat ≤ (d.accu :: d.sp).length := by
    intro hne
    have := hreach hne
    rw [List.length_cons]
    omega
  refine cCall_steps (d := { d.advance with sp := d.accu :: d.sp })
    (fun sp => if 0 ≤ d.operand.toInt then spTake (sp.drop 2) d.operand.toInt.toNat
      else .error .undefined) ht har ?_ hpushed
  dsimp only
  split
  · exact spTake_twin ht hpushed
  · rfl

/-- `DIVINT` and `MODINT`. -/
theorem divide_steps (ht : Tower base s s' dom.trapSpOff state.trapsp fs)
    (har : Around room dom state) (f : BitVec 64 → BitVec 64 → BitVec 64)
    (hreach : fs ≠ [] → 1 ≤ d.sp.length) :
    Steps base room (divide out.runtime f ⟨atop s d, dom⟩)
      (CamlAli.divide (out.aliRuntime base) f ⟨atop s' d, state⟩) := by
  have hat : spAt (d.sp ++ s') 0 = spAt (d.sp ++ s) 0 := spAt_twin ht hreach
  unfold divide CamlAli.divide
  show Steps base room (spAt (d.sp ++ s) 0 >>= _) (spAt (d.sp ++ s') 0 >>= _)
  rw [hat]
  refine Alike.bind (Both.same _) (fun v _ hv => ?_)
  subst hv
  refine Alike.bind (Both.same _) (fun w _ hw => ?_)
  subst hw
  show Steps base room (spDrop (d.sp ++ s) 1 >>= _) (spDrop (d.sp ++ s') 1 >>= _)
  refine Alike.bind (spDrop_twin ht hreach) ?_
  rintro _ _ ⟨sp, rfl, rfl⟩
  by_cases hzero : longVal64 w = 0#64
  · -- `caml_raise_zero_divide`, set up like a C call
    rw [if_pos hzero, if_pos hzero]
    obtain ⟨dom', hsave, hload, htrap, har'⟩ := around_saved har
      ((called { d with sp := sp }).sp ++ s) ((called { d with sp := sp }).sp ++ s')
    rw [← htrap] at ht
    have hnew := setupForCCall_eq hsave
    show Steps base room (setupForCCall (⟨atop s { d with sp := sp }, dom⟩ : Machine ω) >>= _)
      (field d.mem.heap d.mem.globalData zeroDivideExn >>= _)
    rw [hnew]
    show Steps base room (field d.mem.heap d.mem.globalData zeroDivideExn >>= _) (_ >>= _)
    refine Alike.bind (Both.same _) (fun e _ he => ?_)
    subst he
    exact reenter_steps (d := called { d with sp := sp }) ht har' hload rfl
  · rw [if_neg hzero, if_neg hzero]
    show Steps base room (wordOf d.accu >>= _) (wordOf d.accu >>= _)
    refine Alike.bind (Both.same _) (fun a _ ha => ?_)
    subst ha
    exact Alike.ok (Meets.next ⟨{ d with
      sp := sp, accu := .word (valLong64 (f (longVal64 a) (longVal64 w))) }, s, s', fs,
      rfl, rfl, ht, har⟩)

/-! ## Machine control -/

theorem stop_steps (ht : Tower base s s' dom.trapSpOff state.trapsp fs)
    (har : Around room dom state) :
    Steps base room (stop act ⟨atop s d, dom⟩) (CamlAli.stop act' ⟨atop s' d, state⟩) := by
  obtain ⟨dom', hsave, -⟩ := around_saved har (d.sp ++ s) (d.sp ++ s')
  unfold stop CamlAli.stop
  show Steps base room (dom.saveSp (d.sp ++ s) >>= _) _
  rw [hsave]
  exact Alike.ok (Meets.halted _ ⟨d, s, s', _, fs, rfl, rfl, ht⟩)

/-- What is saved for the debugger. -/
def shown (c : Core) : List Value :=
  c.accu :: ofCode (c.pc - 4#64) :: c.env :: valLong c.extraArgs :: c.sp

/-- A debugger that does nothing. -/
theorem callDebugger_steps (ht : Tower base s s' dom.trapSpOff state.trapsp fs)
    (har : Around room dom state) (ev : DebuggerEvent) :
    Alike (Linked base room) (callDebugger out.runtime ev ⟨atop s d, dom⟩)
      (CamlAli.callDebugger (out.aliRuntime base) ev ⟨atop s' d, state⟩) := by
  obtain ⟨dom', hsave, hload, htrap, har'⟩ := around_saved har (shown d ++ s) (shown d ++ s')
  have hself : ∀ sp : List Value, camlAssert (decide (sp = sp)) = .ok () :=
    fun sp => by rw [decide_eq_true rfl]; rfl
  have hnew : callDebugger out.runtime ev (⟨atop s d, dom⟩ : Machine ω)
      = .ok ⟨atop s d, dom'⟩ := by
    unfold callDebugger
    show (dom.saveSp (shown d ++ s) >>= _) = _
    rw [hsave]
    show (dom'.loadSp >>= fun sp => camlAssert (decide (sp = shown d ++ s)) >>= _) = _
    rw [hload]
    show (camlAssert (decide (shown d ++ s = shown d ++ s)) >>= _) = _
    rw [hself]
    rfl
  have hold : CamlAli.callDebugger (out.aliRuntime base) ev (⟨atop s' d, state⟩ : AliMachine ω)
      = .ok ⟨atop s' d, { state with externSp := shown d ++ s' }⟩ := by
    unfold CamlAli.callDebugger
    show (camlAssert (decide (shown d ++ s' = shown d ++ s')) >>= _) = _
    rw [hself]
    rfl
  rw [hnew, hold]
  rw [← htrap] at ht
  exact Alike.ok ⟨d, s, s', fs, rfl, rfl, ht, har'⟩

/-- The instruction under the one the debugger or an event put there. -/
theorem restart_steps {m : Machine ω} {a : AliMachine ω} (h : Linked base room m a) :
    Meets (Linked base room) (Ended base) (restartCurrInstr out.runtime m)
      (CamlAli.restartCurrInstr (out.aliRuntime base) a) := by
  obtain ⟨d, s, s', fs, hm, ha, ht, har⟩ := id h
  have hpc : m.pc = a.pc := (congrArg Core.pc hm).trans (congrArg Core.pc ha).symm
  unfold restartCurrInstr CamlAli.restartCurrInstr
  show Meets _ _ (.dispatch (out.savedInstruction (m.pc - 4#64) m.dom.world) m)
    (.dispatch (out.savedInstruction (a.pc - 4#64) a.state.world) a)
  rw [hpc, har.world]
  exact Meets.dispatch _ h

theorem restarted_steps {x : C (Machine ω)} {y : C (AliMachine ω)}
    (h : Alike (Linked base room) x y) :
    Steps base room (x >>= fun m => .ok (restartCurrInstr out.runtime m))
      (y >>= fun a => .ok (CamlAli.restartCurrInstr (out.aliRuntime base) a)) := by
  cases h with
  | fault e e' => exact Alike.fault e e'
  | ok h => exact Alike.ok (restart_steps h)

theorem breakInstr_steps (ht : Tower base s s' dom.trapSpOff state.trapsp fs)
    (har : Around room dom state) :
    Steps base room (breakInstr out.runtime ⟨atop s d, dom⟩)
      (CamlAli.breakInstr (out.aliRuntime base) ⟨atop s' d, state⟩) :=
  restarted_steps (callDebugger_steps ht har .breakpoint)

/-- `EVENT` agrees, whether it stops for the debugger or not. -/
theorem event_steps (ht : Tower base s s' dom.trapSpOff state.trapsp fs)
    (har : Around room dom state) :
    Steps base room (event out.runtime ⟨atop s d, dom⟩)
      (CamlAli.event (out.aliRuntime base) ⟨atop s' d, state⟩) := by
  obtain ⟨hit, world, hevent⟩ : ∃ b w, out.eventCountHit dom.world = (b, w) := ⟨_, _, rfl⟩
  have har' : Around room { dom with world := world } { state with world := world } :=
    ⟨har.backtraceActive, rfl, har.stack, har.threshold⟩
  have hnew : event out.runtime (⟨atop s d, dom⟩ : Machine ω) = if hit then
      callDebugger out.runtime .eventCount ⟨atop s d, { dom with world := world }⟩ >>=
        fun m => .ok (restartCurrInstr out.runtime m)
      else .ok (restartCurrInstr out.runtime ⟨atop s d, { dom with world := world }⟩) := by
    have hout : out.runtime.eventCountHit dom = (hit, world) := hevent
    simp only [event, hout]
  have hold : CamlAli.event (out.aliRuntime base) (⟨atop s' d, state⟩ : AliMachine ω) = if hit then
      CamlAli.callDebugger (out.aliRuntime base) .eventCount
        ⟨atop s' d, { state with world := world }⟩ >>=
        fun a => .ok (CamlAli.restartCurrInstr (out.aliRuntime base) a)
      else .ok (CamlAli.restartCurrInstr (out.aliRuntime base)
        ⟨atop s' d, { state with world := world }⟩) := by
    have hout : (out.aliRuntime base).eventCountHit state = (hit, world) := by
      show out.eventCountHit state.world = _
      rw [har.world, hevent]
    simp only [CamlAli.event, hout]
  rw [hnew, hold]
  cases hit with
  | true =>
      have ht' : Tower base s s' (Domain.trapSpOff { dom with world := world })
        (CamlState.trapsp { state with world := world }) fs := ht
      exact restarted_steps (callDebugger_steps ht' har' .eventCount)
  | false => exact Alike.ok (restart_steps ⟨d, s, s', fs, rfl, rfl, ht, har'⟩)

/-- Nothing is pending. -/
theorem checkSignals_steps {m : Machine ω} {a : AliMachine ω} (h : Linked base room m a) :
    Steps base room (checkSignals out.runtime m)
      (CamlAli.checkSignals (out.aliRuntime base) a) :=
  Alike.ok (Meets.next h)

/-- The stacks are large enough. -/
theorem checkStacks_steps {m : Machine ω} {a : AliMachine ω} (h : Linked base room m a)
    (hroom : m.sp.length ≤ room) :
    Steps base room (checkStacks out.runtime m)
      (CamlAli.checkStacks (out.aliRuntime base) a) := by
  obtain ⟨d, s, s', fs, hm, ha, ht, har⟩ := id h
  obtain ⟨i, hi, -, hsize⟩ := har.stack
  have hlen : a.sp.length = m.sp.length := by
    rw [show m.sp = d.sp ++ s from congrArg Core.sp hm,
      show a.sp = d.sp ++ s' from congrArg Core.sp ha,
      List.length_append, List.length_append, ht.length_eq]
  have hnew : checkStacks out.runtime m = checkSignals out.runtime m := by
    unfold checkStacks Domain.stack
    rw [hi]
    show (if i.size < m.sp.length + stackThresholdWords then _ else _) = _
    rw [if_neg (by omega)]
  have hold : CamlAli.checkStacks (out.aliRuntime base) a
      = CamlAli.checkSignals (out.aliRuntime base) a := by
    unfold CamlAli.checkStacks
    rw [if_neg (by have := har.threshold; omega)]
  rw [hnew, hold]
  exact checkSignals_steps h

end CamlAgreement
