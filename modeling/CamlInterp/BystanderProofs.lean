import CamlInterp.PassageProofs

/-! # Bystanders — the fibers around the running one

    C code called by the interpreter may run OCaml code of its own on the
    running stack, even replace that stack by a larger copy; the fibers around
    it wait.  With such C code a step of the interpreter does one of three
    things: it stays on the running fiber and leaves the ones around it alone,
    it climbs to the parent, or it descends into a resumed chain. -/

namespace CamlBystander

open CellStore ParentChain CamlValue CamlOpcode CamlMachine CamlControl CamlStep CamlFiber
  CamlEffect CamlPassage

variable {ω : Type}

/-- The running fiber, which may have been moved, keeps its parent and its
    handlers; the fibers around it are as they were, and what was freed is. -/
structure Spares (dom dom' : Domain ω) : Prop where
  running : outlineOf dom' dom'.currentStack = outlineOf dom dom.currentStack
  around : ∀ {x i}, Around (linksOf dom.pool) dom.currentStack x → dom.pool.get x = some i →
    dom'.pool.get x = some i ∧ x ≠ dom'.currentStack
  freed : dom.currentStack < dom.pool.fresh → dom'.currentStack ≠ dom.currentStack →
    dom'.pool.get dom.currentStack = none
  fresh : dom.pool.fresh ≤ dom'.pool.fresh
  dead : ∀ {x}, x < dom.pool.fresh → dom.pool.get x = none → dom'.pool.get x = none

/-- C code that leaves the fibers around the running one alone. -/
structure Considerate (rt : Runtime ω) : Prop where
  pending : ∀ {mem dom r}, rt.processPendingActions mem dom = .ok r → Spares dom (domOf r)
  primitive : ∀ {w args mem dom r}, rt.primitive w args mem dom = .ok r → Spares dom (domOf r)
  raising : ∀ e mem dom, Spares dom (rt.signalsAtRaise e mem dom).2.2
  debugger : ∀ ev mem dom, Spares dom (rt.debugger ev mem dom).2

variable {rt : Runtime ω} {act : Activation} {m : Machine ω} {c c' : Ctl (Machine ω)}
  {dom dom' dom'' : Domain ω}

theorem linksOf_get {x : Nat} {p : Option Nat} (h : linksOf dom.pool x = some p) :
    ∃ i, dom.pool.get x = some i ∧ i.parent = p :=
  Option.map_eq_some_iff.mp h

theorem linksOf_some {x : Nat} {i : StackInfo} (h : dom.pool.get x = some i) :
    linksOf dom.pool x = some i.parent := by
  unfold linksOf
  rw [h]
  rfl

/-! ## Leaving the fibers around alone -/

theorem Spares.refl (dom : Domain ω) : Spares dom dom :=
  ⟨rfl, fun hx hi => ⟨hi, hx.ne⟩, fun _ h => absurd rfl h, Nat.le_refl _, fun _ h => h⟩

theorem Spares.links_running (h : Spares dom dom') :
    linksOf dom'.pool dom'.currentStack = linksOf dom.pool dom.currentStack := by
  rw [linksOf_eq_outline, h.running, ← linksOf_eq_outline]

/-- A fiber around the running one still is around it. -/
theorem Spares.still_around (h : Spares dom dom') {x : Nat} {i : StackInfo}
    (hx : Around (linksOf dom.pool) dom.currentStack x) (hi : dom.pool.get x = some i) :
    Around (linksOf dom'.pool) dom'.currentStack x := by
  induction hx generalizing i with
  | parent hlink hne =>
      refine .parent ?_ (h.around (.parent hlink hne) hi).2
      rw [h.links_running]
      exact hlink
  | next hy hlink hne ih =>
      obtain ⟨j, hj, hjp⟩ := linksOf_get hlink
      refine .next (ih hj) ?_ (h.around (.next hy hlink hne) hi).2
      rw [linksOf_some (h.around hy hj).1, hjp]

theorem Spares.trans (h : Spares dom dom') (h' : Spares dom' dom'') : Spares dom dom'' := by
  refine ⟨h'.running.trans h.running, fun hx hi => ?_, fun hlt hne => ?_,
    Nat.le_trans h.fresh h'.fresh, fun hlt hx => ?_⟩
  · exact h'.around (h.still_around hx hi) (h.around hx hi).1
  · by_cases hcur : dom'.currentStack = dom.currentStack
    · rw [← hcur]
      refine h'.freed ?_ (fun e => hne (e.trans hcur))
      rw [hcur]
      exact Nat.lt_of_lt_of_le hlt h.fresh
    · exact h'.dead (Nat.lt_of_lt_of_le hlt h.fresh) (h.freed hlt hcur)
  · exact h'.dead (Nat.lt_of_lt_of_le hlt h.fresh) (h.dead hlt hx)

/-- What is written to the running stack's descriptor, its parent and handlers apart. -/
theorem spares_put {i j : StackInfo} (hi : dom.pool.get dom.currentStack = some i)
    (hj : outline j = outline i) :
    Spares dom { dom with pool := dom.pool.put dom.currentStack j } := by
  refine ⟨?_, fun {x k} hx hk => ?_, fun _ hne => absurd rfl hne, ?_, fun {x} _ hx => ?_⟩
  · unfold outlineOf
    show (Store.get (Store.put _ _ _) _).map outline = _
    rw [Store.get_put_self _ hi, hi]
    exact congrArg some hj
  · show Store.get (Store.put _ _ _) x = _ ∧ _
    rw [Store.get_put_of_ne _ _ hx.ne]
    exact ⟨hk, hx.ne⟩
  · show _ ≤ (Store.put _ _ _).fresh
    rw [Store.fresh_put]
  · show Store.get (Store.put _ _ _) x = _
    rw [Store.get_put_of_ne _ _ (fun e => by rw [e, hi] at hx; cases hx)]
    exact hx

theorem spares_saveSp {sp : List Value} (h : dom.saveSp sp = .ok dom') : Spares dom dom' := by
  obtain ⟨i, hi, hd⟩ := bind_eq_ok.mp h
  obtain rfl := Except.ok.inj hd
  exact spares_put (stack_ok hi) rfl

theorem spares_setSp {n : Int} {sp : List Value} (h : dom.setSp n sp = .ok dom') :
    Spares dom dom' := by
  obtain ⟨i, hi, hd⟩ := bind_eq_ok.mp h
  obtain rfl := Except.ok.inj hd
  exact spares_put (stack_ok hi) rfl

/-- Replacing the running stack spares the others. -/
theorem spares_realloc {n : Nat} (h : camlTryReallocStack rt n dom = .ok (some dom')) :
    Spares dom dom' := by
  obtain ⟨old, size, hold, rfl⟩ := realloc_eq h
  have hne : dom.pool.fresh ≠ dom.currentStack := Nat.ne_of_gt (Store.lt_fresh_of_get hold)
  have hnew : ((dom.pool.alloc { old with size := size }).free dom.currentStack).get
      dom.pool.fresh = some { old with size := size } := by
    rw [Store.get_free_of_ne _ hne, Store.get_alloc_fresh]
  refine ⟨?_, fun {x j} hx hj => ⟨?_, ?_⟩, fun _ _ => Store.get_free_self _ _, ?_,
    fun {x} hlt hx => ?_⟩
  · unfold outlineOf
    rw [hnew, hold]
    rfl
  · show Store.get (Store.free _ _) x = _
    rw [Store.get_free_of_ne _ hx.ne]
    exact Store.get_alloc_of_get _ hj
  · exact Nat.ne_of_lt (Store.lt_fresh_of_get hj)
  · show _ ≤ (Store.free _ _).fresh
    rw [Store.fresh_free, Store.fresh_alloc]
    exact Nat.le_succ _
  · show Store.get (Store.free _ _) x = _
    rw [Store.get_free_of_ne _ (fun e => by rw [e, hold] at hx; cases hx),
      Store.get_alloc_of_ne _ _ (Nat.ne_of_lt hlt)]
    exact hx

/-- What considerate C code does spares the stacks but the running one. -/
theorem Considerate.survives (hk : Considerate rt) : Survives rt Spares where
  refl := Spares.refl
  trans := Spares.trans
  saved := spares_saveSp
  returned := spares_setSp
  grown := spares_realloc
  world := fun _ _ => ⟨rfl, fun hx hi => ⟨hi, hx.ne⟩, fun _ h => absurd rfl h, Nat.le_refl _,
    fun _ h => h⟩
  pending := hk.pending
  primitive := hk.primitive
  raising := hk.raising
  debugger := hk.debugger

/-! ## One step -/

/-- What a step does to the fibers. -/
inductive Switch (c c' : Ctl (Machine ω)) : Prop where
  | stays : Spares c.state.dom c'.state.dom → Switch c c'
  | climbs {m : Machine ω} : Spares c.state.dom m.dom → Climbs m c' →
      ((∃ op, executing c = some op ∧ isEffect op = true) ∨ ∀ x, x ≠ m.dom.currentStack →
        c'.state.dom.pool.get x = m.dom.pool.get x) → Switch c c'
  | descends {s : Nat} {m : Machine ω} : m.dom = c.state.dom → Descends s m c' →
      (∃ op, executing c = some op ∧ isEffect op = true) → Switch c c'

/-- `PERFORM` after an allocation that has not moved the running stack. -/
theorem perform_switches (hk : Considerate rt) (hop : executing c = some .PERFORM)
    (hc : c.state.dom = m.dom) (h : perform rt m = .ok c') : Switch c c' := by
  rcases perform_passes hk.survives h with ⟨-, hr⟩ | ⟨i, p, cont, m1, hi, hp, hr, hfin⟩
  · refine .stays ?_
    rw [hc]
    exact hr
  · have hcur : m1.dom.currentStack = m.dom.currentStack := by
      by_contra hne
      have hgone := hr.freed (Store.lt_fresh_of_get hi) hne
      rw [CamlPerform.finishPerform_freed cont hgone] at hfin
      cases hfin
    obtain ⟨j, hj, hjp⟩ := linksOf_get (hr.links_running.trans (linksOf_some hi))
    rw [← hcur] at hfin
    refine .climbs ?_ (finishPerform_climbs hj (hjp.trans hp) hfin) (Or.inl ⟨_, hop, rfl⟩)
    rw [hc]
    exact hr

/-- **ONE STEP**, as far as the fibers are concerned. -/
theorem step_switches (hk : Considerate rt) (h : machineStep rt act c = .ok c') :
    Switch c c' := by
  have hdom : c.state.dom = (fetched c).dom := (fetched_dom c).symm
  have hraise : ((∃ m', c' = .raiseNotrace m') ∧ Spares (fetched c).dom c'.state.dom) →
      Switch c c' := by
    rintro ⟨-, hr⟩
    refine .stays ?_
    rw [hdom]
    exact hr
  have hother : (∀ op, executing c = some op → isEffect op = false) → Switch c c' := by
    intro hop
    cases step_passes hk.survives hop h with
    | within hr => exact .stays hr
    | retraps _ hd =>
        refine .stays ?_
        rw [hd]
        exact ⟨rfl, fun hx hi => ⟨hi, hx.ne⟩, fun _ hne => absurd rfl hne, Nat.le_refl _,
          fun _ hx => hx⟩
    | halts hr hd _ =>
        refine .stays ?_
        rw [hd]
        exact ⟨hr.running, hr.around, hr.freed, hr.fresh, hr.dead⟩
    | leaves hr hi hp hl =>
        exact .climbs hr (leaveFor_climbs hi hp hl) (Or.inr (fun x hx => leaveFor_get hl hx))
  rcases machineStep_cases h with ⟨op, hex, hs⟩ | ⟨m, rfl, -⟩ | ⟨m, rfl, -⟩
  · cases hop : isEffect op with
    | false =>
        refine hother (fun op' hex' => ?_)
        rw [← Option.some.inj (hex.symm.trans hex')]
        exact hop
    | true =>
        cases op with
        | PERFORM => exact perform_switches hk hex hdom hs
        | RESUME =>
            rcases resume_passes hk.survives hs with hr | ⟨s, w0, w1, parked, -, hd⟩
            · exact hraise hr
            · refine .descends ?_ hd ⟨_, hex, hop⟩
              exact hdom.symm
        | RESUMETERM =>
            rcases resumeterm_passes hk.survives hs with hr | ⟨s, w0, w1, parked, -, hd⟩
            · exact hraise hr
            · refine .descends ?_ hd ⟨_, hex, hop⟩
              exact hdom.symm
        | REPERFORMTERM =>
            rcases reperformterm_passes hk.survives hs with hr | hcl | ⟨-, s, w0, w1, parked, hd⟩
            · exact hraise hr
            · refine .climbs ?_ hcl (Or.inl ⟨_, hex, hop⟩)
              rw [hdom]
              exact Spares.refl _
            · refine .descends ?_ hd ⟨_, hex, hop⟩
              exact hdom.symm
        | _ => cases hop
  · exact hother (fun op hex => nomatch hex)
  · exact hother (fun op hex => nomatch hex)

end CamlBystander
