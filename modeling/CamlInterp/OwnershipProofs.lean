import Mathlib.Logic.Relation
import CamlInterp.CustodyProofs
import CamlInterp.FiberProofs

/-! # Ownership — the fibers are partitioned in every reachable world

    A world is a machine at a label, together with what `Custody` remembers
    beside it.  Every effect instruction, a return at `do_return` and a raise at
    `raise_notrace` is a step of custody, two, or none; so the fibers stay owned
    in every world that can be reached. -/

namespace CamlOwnership

open CellStore ParentChain CamlCustody CamlValue CamlOpcode CamlMachine CamlControl CamlStep
  CamlFiber

variable {ω : Type} {rt : Runtime ω} {act : Activation} {c c' : Ctl (Machine ω)}

/-! ## Worlds -/

/-- A machine at a label, with what `Custody` remembers beside it. -/
structure World (ω : Type) where
  ctl : Ctl (Machine ω)
  main : Nat
  hand : List Nat
  tickets : List (Nat × Nat)

namespace World

/-- The custody of the fibers in a world. -/
def custody (w : World ω) : Custody where
  links := linksOf w.ctl.state.dom.pool
  current := w.ctl.state.dom.currentStack
  conts := contOf w.ctl.state.mem.heap
  main := w.main
  hand := w.hand
  tickets := w.tickets

/-- Go on at `c'`; if the running stack was the main one, it still is. -/
def goOn (w : World ω) (c' : Ctl (Machine ω)) : World ω :=
  { w with
    ctl := c',
    main := if w.main = w.ctl.state.dom.currentStack then c'.state.dom.currentStack
      else w.main }

end World

/-- Where the interpreter may leave the running fiber. -/
def mayLeave : Ctl (Machine ω) → Bool
  | .raiseNotrace _ => true
  | c => executing c = some .RETURN || executing c = some .GRAB

/-- Steps that matter to fibers, and any others that do not. -/
inductive FiberStep (rt : Runtime ω) (act : Activation) (w : World ω) : World ω → Prop where
  /-- anything that leaves the fibers alone; the running stack may be replaced -/
  | idle {c' : Ctl (Machine ω)} :
      SameFibers w.ctl.state.mem w.ctl.state.dom c'.state.mem c'.state.dom →
      FiberStep rt act w (w.goOn c')
  /-- `caml_alloc_stack` -/
  | alloc {hval hexn heff : Value} :
      FiberStep rt act w { w with
        ctl := w.ctl.map (fun m => { m with
          accu := (camlAllocStack hval hexn heff m.dom).1,
          dom := (camlAllocStack hval hexn heff m.dom).2 }),
        hand := w.ctl.state.dom.pool.fresh :: w.hand }
  /-- `caml_continuation_use_noexc` -/
  | take {b : Nat} {v : Value} {mem' : Mem} :
      camlContinuationUseNoexc (.ptr b 0) w.ctl.state.mem = .ok (v, mem') →
      FiberStep rt act w { w with
        ctl := w.ctl.map (fun m => { m with accu := v, mem := mem' }),
        hand := (stackIn v).toList ++ w.hand }
  /-- `RESUME` and `RESUMETERM` on such a stack, or on NULL -/
  | resume {p : Option Nat} {c' : Ctl (Machine ω)} :
      executing w.ctl = some .RESUME ∨ executing w.ctl = some .RESUMETERM →
      w.ctl.state.accu = valPtr p → (∀ s, p = some s → s ∈ w.hand) →
      machineStep rt act w.ctl = .ok c' →
      FiberStep rt act w { w with
        ctl := c', hand := w.hand.filter (fun t => some t ≠ p) }
  /-- `PERFORM`; there is no such step where the pending actions of its allocation
      replace the running stack, since writing to the freed one is undefined -/
  | perform {c' : Ctl (Machine ω)} : executing w.ctl = some .PERFORM →
      machineStep rt act w.ctl = .ok c' →
      FiberStep rt act w { w with
        ctl := c',
        tickets := (handlerPair c').elim w.tickets (fun t => issue t.1 t.2 w.tickets) }
  /-- `REPERFORMTERM` with the pair its handler was entered with, not yet taken -/
  | reperform {b tail p : Nat} {rest : List Value} {c' : Ctl (Machine ω)} :
      executing w.ctl = some .REPERFORMTERM →
      w.ctl.state.sp = .ptr b 0 :: .stk tail :: rest → (b, tail) ∈ w.tickets →
      contOf w.ctl.state.mem.heap b ≠ none →
      linksOf w.ctl.state.dom.pool w.ctl.state.dom.currentStack = some (some p) →
      machineStep rt act w.ctl = .ok c' →
      FiberStep rt act w { w with
        ctl := c', tickets := issue b w.ctl.state.dom.currentStack w.tickets }
  /-- the same in the main fiber -/
  | reperformMain {b tail : Nat} {rest : List Value} {c' : Ctl (Machine ω)} :
      executing w.ctl = some .REPERFORMTERM →
      w.ctl.state.sp = .ptr b 0 :: .stk tail :: rest → (b, tail) ∈ w.tickets →
      contOf w.ctl.state.mem.heap b ≠ none →
      linksOf w.ctl.state.dom.pool w.ctl.state.dom.currentStack = some none →
      machineStep rt act w.ctl = .ok c' →
      FiberStep rt act w { w with ctl := c' }
  /-- `do_return` and `raise_notrace` -/
  | leave {c' : Ctl (Machine ω)} : mayLeave w.ctl = true →
      machineStep rt act w.ctl = .ok c' → FiberStep rt act w (w.goOn c')

variable {w w' : World ω} {chain : Owner → List Nat}

open Relation

/-- `check_stacks`, unless it finds the stack overflown, is such a step. -/
theorem FiberStep.checkStacks (hk : KeepsFibers rt) {m : Machine ω} {main : Nat}
    {hand : List Nat} {tickets : List (Nat × Nat)}
    (hroom : ∀ dom, m.dom.saveSp m.sp = .ok dom →
      camlTryReallocStack rt stackThresholdWords dom ≠ .ok none)
    (h : machineStep rt act (.checkStacks m) = .ok c') :
    FiberStep rt act ⟨.checkStacks m, main, hand, tickets⟩
      (World.goOn ⟨.checkStacks m, main, hand, tickets⟩ c') :=
  FiberStep.idle (checkStacks_ok hk hroom h)

/-- The steps of custody, one or several. -/
abbrev Steps := ReflTransGen CamlCustody.Step

/-- A step that leaves the fibers alone, but may have moved the running stack. -/
theorem steps_same {c' : Ctl (Machine ω)}
    (h : SameFibers w.ctl.state.mem w.ctl.state.dom c'.state.mem c'.state.dom) :
    Steps w.custody (w.goOn c').custody := by
  have hstep := CamlCustody.Step.rename (c := w.custody) h.links
  have hgoal : (w.goOn c').custody = { w.custody with
      links := linksOf c'.state.dom.pool, current := c'.state.dom.currentStack,
      main := if w.custody.main = w.custody.current then c'.state.dom.currentStack
        else w.custody.main } := by
    unfold World.custody World.goOn
    rw [h.conts]
  rw [hgoal]
  exact ReflTransGen.single hstep

/-- A machine whose fibers are untouched changes nothing but the ghosts. -/
theorem custody_untouched {c' : Ctl (Machine ω)} {hand : List Nat} {tickets : List (Nat × Nat)}
    (h : Untouched w.ctl.state.mem w.ctl.state.dom c'.state.mem c'.state.dom) :
    ({ w with ctl := c', hand := hand, tickets := tickets } : World ω).custody
      = { w.custody with hand := hand, tickets := tickets } := by
  unfold World.custody
  rw [h.conts, h.links, h.current]

/-- A fiber with a parent is not the main one. -/
theorem main_ne_current {c : Custody} (ho : Owned c chain) {p : Nat}
    (hp : c.links c.current = some (some p)) : c.main ≠ c.current := by
  intro e
  have hroot := (ho.partition.linked .current).getLast ho.main
  rw [e, hp] at hroot
  exact nomatch hroot

/-- A step that may leave the running fiber for its parent. -/
theorem steps_mayLeave {c' : Ctl (Machine ω)} (ho : Owned w.custody chain)
    (h : MayLeave w.ctl.state.mem w.ctl.state.dom c'.state.mem c'.state.dom) :
    Steps w.custody (w.goOn c').custody := by
  rcases h with hs | ⟨mem1, dom1, hs, hl⟩
  · exact steps_same hs
  · -- the running stack is replaced, then left
    have hp : linksOf w.ctl.state.dom.pool w.ctl.state.dom.currentStack
        = some (some c'.state.dom.currentStack) := by
      rw [← hs.links.moved]
      exact hl.parent
    have hmain : w.main ≠ w.ctl.state.dom.currentStack := main_ne_current ho hp
    have h1 := CamlCustody.Step.rename (c := w.custody) hs.links
    have h2 := CamlCustody.Step.leave (c := { w.custody with
      links := linksOf dom1.pool, current := dom1.currentStack,
      main := if w.custody.main = w.custody.current then dom1.currentStack
        else w.custody.main }) hl.parent
    refine (ReflTransGen.single h1).tail ?_
    have hgoal : (w.goOn c').custody = { w.custody with
        links := Function.update (linksOf dom1.pool) dom1.currentStack none,
        current := c'.state.dom.currentStack,
        main := if w.custody.main = w.custody.current then dom1.currentStack
          else w.custody.main } := by
      unfold World.custody World.goOn
      simp only [hmain, if_false]
      rw [hl.conts, hs.conts, hl.links]
    rw [hgoal]
    exact h2

/-- `do_return` and `raise_notrace` leave the fibers alone or leave for the parent. -/
theorem mayLeave_ok (hk : KeepsFibers rt) (hm : mayLeave c = true)
    (h : machineStep rt act c = .ok c') :
    MayLeave c.state.mem c.state.dom c'.state.mem c'.state.dom := by
  have hexec : (executing c = some .RETURN ∨ executing c = some .GRAB) →
      MayLeave c.state.mem c.state.dom c'.state.mem c'.state.dom := by
    rintro (hop | hop)
    · rw [machineStep_executing hop] at h
      rw [← fetched_mem, ← fetched_dom]
      exact mayLeave_of_or (ret_ok h)
    · rw [machineStep_executing hop] at h
      rw [← fetched_mem, ← fetched_dom]
      exact grab_ok hk h
  cases c with
  | raiseNotrace m => exact mayLeave_of_or (raiseNotrace_ok h)
  | next m => exact hexec (by simpa [mayLeave] using hm)
  | dispatch w m => exact hexec (by simpa [mayLeave] using hm)
  | checkStacks m => exact hexec (by simpa [mayLeave] using hm)
  | halted r m => exact hexec (by simpa [mayLeave] using hm)

/-- A stack at hand is resumed: its chain comes to the front of the current one. -/
theorem steps_resumes {s : Nat} {c' : Ctl (Machine ω)} (hs : s ∈ w.hand)
    (h : Resumes s w.ctl.state.mem w.ctl.state.dom c'.state.mem c'.state.dom) :
    Steps w.custody ({ w with
      ctl := c', hand := w.hand.filter (fun t => t ≠ s) } : World ω).custody := by
  obtain ⟨l, last, hl, ht, hlinks⟩ := h.links
  have hstep := CamlCustody.Step.resume (c := w.custody) hs hl ht
  have hgoal : ({ w with
      ctl := c', hand := w.hand.filter (fun t => t ≠ s) } : World ω).custody
      = { w.custody with
        links := Function.update w.custody.links last (some (some w.custody.current)),
        current := s, hand := w.custody.hand.filter (fun t => t ≠ s) } := by
    unfold World.custody
    simp only
    rw [h.conts, h.current, hlinks]
  rw [hgoal]
  exact ReflTransGen.single hstep

theorem fetched_same (c : Ctl (Machine ω)) :
    Untouched c.state.mem c.state.dom (fetched c).mem (fetched c).dom := by
  rw [fetched_mem, fetched_dom]
  exact Untouched.refl _ _

/-- `RESUME` and `RESUMETERM`, on a stack at hand or on NULL. -/
theorem steps_resume (hk : KeepsFibers rt) {p : Option Nat}
    (hop : executing w.ctl = some .RESUME ∨ executing w.ctl = some .RESUMETERM)
    (hacc : w.ctl.state.accu = valPtr p) (hhand : ∀ s, p = some s → s ∈ w.hand)
    (h : machineStep rt act w.ctl = .ok c') :
    Steps w.custody ({ w with
      ctl := c', hand := w.hand.filter (fun t => some t ≠ p) } : World ω).custody := by
  have hbody : ∃ fn arg sp, doResume rt fn arg { fetched w.ctl with sp := sp } = .ok c' := by
    rcases hop with hop | hop
    · rw [machineStep_executing hop] at h
      exact resume_ok h
    · rw [machineStep_executing hop] at h
      exact resumeterm_ok h
  obtain ⟨fn, arg, sp, hbody⟩ := hbody
  have hacc' : (fetched w.ctl).accu = valPtr p := by rw [fetched_accu]; exact hacc
  cases p with
  | none =>
      have hu := doResume_null hk (m := { fetched w.ctl with sp := sp }) hacc' hbody
      have hall : w.hand.filter (fun t => some t ≠ none) = w.hand :=
        List.filter_eq_self.mpr (fun t _ => rfl)
      rw [hall, custody_untouched ((fetched_same w.ctl).trans hu)]
      exact ReflTransGen.refl
  | some s =>
      have hr := doResume_ok (m := { fetched w.ctl with sp := sp }) hacc' hbody
      have hfilter : w.hand.filter (fun t => some t ≠ some s) = w.hand.filter (fun t => t ≠ s) := by
        congr 1
        funext t
        simp only [ne_eq, Option.some.injEq]
      rw [hfilter]
      refine steps_resumes (hhand s rfl) ?_
      rw [← fetched_mem, ← fetched_dom]
      exact hr

/-- `PERFORM` raises in the main fiber, and elsewhere hands the running fiber to a new
    continuation. -/
theorem steps_perform (hk : KeepsFibers rt) (ho : Owned w.custody chain)
    (hop : executing w.ctl = some .PERFORM) (h : machineStep rt act w.ctl = .ok c') :
    Steps w.custody ({ w with
      ctl := c',
      tickets := (handlerPair c').elim w.tickets (fun t => issue t.1 t.2 w.tickets) } :
        World ω).custody := by
  rw [machineStep_executing hop] at h
  rcases perform_ok hk h with ⟨hnone, hs⟩ | ⟨b, hpair, hp⟩
  · rw [hnone]
    rw [fetched_mem, fetched_dom] at hs
    have hsteps := steps_same (w := w) hs
    by_cases hm : w.main = w.ctl.state.dom.currentStack
    · -- in the main fiber `PERFORM` raises at once
      have hroot : linksOf w.ctl.state.dom.pool w.ctl.state.dom.currentStack = some none := by
        rw [← hm]
        exact (ho.partition.linked .current).getLast ho.main
      have hu := perform_main hk (m := fetched w.ctl) (by rw [fetched_dom]; exact hroot) h
      rw [fetched_mem, fetched_dom] at hu
      show Steps _ ({ w with ctl := c', hand := w.hand, tickets := w.tickets } : World ω).custody
      rw [custody_untouched hu]
      exact ReflTransGen.refl
    · unfold World.goOn at hsteps
      rw [if_neg hm] at hsteps
      exact hsteps
  · rw [hpair]
    rw [fetched_mem, fetched_dom] at hp
    have hstep := CamlCustody.Step.perform (c := w.custody) hp.parent hp.new
    have hgoal : ({ w with
        ctl := c', tickets := issue b (fetched w.ctl).dom.currentStack w.tickets } :
          World ω).custody
        = { w.custody with
          links := Function.update w.custody.links w.custody.current (some none),
          current := c'.state.dom.currentStack,
          conts := Function.update w.custody.conts b (some w.custody.current),
          tickets := issue b w.custody.current w.custody.tickets } := by
      unfold World.custody
      simp only [fetched_dom]
      rw [hp.conts, hp.links]
    show Steps _ ({ w with
        ctl := c', tickets := issue b (fetched w.ctl).dom.currentStack w.tickets } :
          World ω).custody
    rw [hgoal]
    exact ReflTransGen.single hstep

/-- `REPERFORMTERM` in a fiber with a parent adds it to the chain of the continuation. -/
theorem steps_reperform {b tail p : Nat} {rest : List Value}
    (hop : executing w.ctl = some .REPERFORMTERM)
    (hsp : w.ctl.state.sp = .ptr b 0 :: .stk tail :: rest) (ht : (b, tail) ∈ w.tickets)
    (hb : contOf w.ctl.state.mem.heap b ≠ none)
    (hp : linksOf w.ctl.state.dom.pool w.ctl.state.dom.currentStack = some (some p))
    (h : machineStep rt act w.ctl = .ok c') :
    Steps w.custody ({ w with
      ctl := c', tickets := issue b w.ctl.state.dom.currentStack w.tickets } :
        World ω).custody := by
  rw [machineStep_executing hop] at h
  obtain ⟨-, hr⟩ := reperformterm_parent (m := fetched w.ctl)
    (by rw [fetched_sp]; exact hsp) (by rw [fetched_dom]; exact hp) h
  rw [fetched_mem, fetched_dom] at hr
  have hstep := CamlCustody.Step.reperform (c := w.custody) ht hb hr.parent
  have hgoal : ({ w with
      ctl := c', tickets := issue b w.ctl.state.dom.currentStack w.tickets } :
        World ω).custody
      = { w.custody with
        links := Function.update (Function.update w.custody.links w.custody.current (some none))
          tail (some (some w.custody.current)),
        current := c'.state.dom.currentStack,
        tickets := issue b w.custody.current w.custody.tickets } := by
    unfold World.custody
    simp only
    rw [hr.conts, hr.links]
  rw [hgoal]
  exact ReflTransGen.single hstep

/-- `REPERFORMTERM` in the main fiber takes the continuation and resumes it. -/
theorem steps_reperformMain (ho : Owned w.custody chain) {b tail : Nat} {rest : List Value}
    (hop : executing w.ctl = some .REPERFORMTERM)
    (hsp : w.ctl.state.sp = .ptr b 0 :: .stk tail :: rest)
    (hb : contOf w.ctl.state.mem.heap b ≠ none)
    (hp : linksOf w.ctl.state.dom.pool w.ctl.state.dom.currentStack = some none)
    (h : machineStep rt act w.ctl = .ok c') :
    Steps w.custody ({ w with ctl := c' } : World ω).custody := by
  obtain ⟨s, hs⟩ := Option.ne_none_iff_exists'.mp hb
  rw [machineStep_executing hop] at h
  obtain ⟨mem1, e, _, _, hmem1, -, -, -, hdo⟩ := reperformterm_main (m := fetched w.ctl)
    (by rw [fetched_sp]; exact hsp) (by rw [fetched_mem]; exact hs)
    (by rw [fetched_dom]; exact hp) h
  have hr := doResume_ok (s := s) rfl hdo
  rw [fetched_dom] at hr
  rw [fetched_mem] at hmem1
  -- the stack of an un-taken continuation is in nobody's hand
  have hnot : s ∉ w.hand := by
    obtain ⟨l, -, hl, -⟩ := ho.last_of_cont (b := b) hs
    refine ho.not_in_hand (fun o hmem e => ?_)
    have hown : Owner.cont b = o :=
      ho.partition.unique (by rw [hl]; exact List.mem_cons_self) hmem
    rw [← hown] at e
    exact nomatch e
  have htake := CamlCustody.Step.take (c := w.custody) (b := b) hs
  obtain ⟨l, last, hl, hlast, hlinks⟩ := hr.links
  have hres := CamlCustody.Step.resume (c := { w.custody with
    conts := Function.update w.custody.conts b none, hand := s :: w.custody.hand })
    List.mem_cons_self hl hlast
  refine (ReflTransGen.single htake).tail ?_
  have hfilter : (s :: w.hand).filter (fun t => t ≠ s) = w.hand := by
    rw [List.filter_cons_of_neg (by simp)]
    refine List.filter_eq_self.mpr (fun t ht => decide_eq_true (fun e => hnot (e ▸ ht)))
  have hgoal : ({ w with ctl := c' } : World ω).custody = { w.custody with
      links := Function.update w.custody.links last (some (some w.custody.current)),
      current := s, conts := Function.update w.custody.conts b none,
      hand := (s :: w.custody.hand).filter (fun t => t ≠ s) } := by
    show _ = { w.custody with
      links := Function.update w.custody.links last (some (some w.custody.current)),
      current := s, conts := Function.update w.custody.conts b none,
      hand := (s :: w.hand).filter (fun t => t ≠ s) }
    rw [hfilter]
    unfold World.custody
    simp only
    rw [hr.conts, hmem1, hr.current, hlinks]
  rw [hgoal]
  exact hres

/-- **REFINEMENT**: every step of the machine is steps of custody. -/
theorem FiberStep.refines (hk : KeepsFibers rt) (ho : Owned w.custody chain)
    (h : FiberStep rt act w w') : Steps w.custody w'.custody := by
  cases h with
  | idle hs => exact steps_same hs
  | alloc =>
      refine ReflTransGen.single ?_
      have hfresh : linksOf w.ctl.state.dom.pool w.ctl.state.dom.pool.fresh = none := by
        unfold linksOf
        rw [Store.get_fresh]
        rfl
      have hstep := CamlCustody.Step.alloc (c := w.custody) hfresh
      unfold World.custody at hstep ⊢
      simp only [Ctl.state_map, camlAllocStack]
      rw [linksOf_alloc]
      exact hstep
  | @take b v mem' huse =>
      obtain ⟨hv, hconts⟩ := camlContinuationUseNoexc_ok huse
      have hgoal : ∀ hand, ({ w with
          ctl := w.ctl.map (fun m => { m with accu := v, mem := mem' }), hand := hand } :
            World ω).custody
          = { w.custody with
            conts := Function.update w.custody.conts b none, hand := hand } := by
        intro hand
        unfold World.custody
        simp only [Ctl.state_map]
        rw [hconts]
      rw [hgoal]
      cases hs : stackIn v with
      | some s => exact ReflTransGen.single (CamlCustody.Step.take (hv.trans hs))
      | none =>
          have hsame : Function.update w.custody.conts b none = w.custody.conts :=
            Function.update_eq_self_iff.mpr (hv.trans hs).symm
          rw [hsame]
          exact ReflTransGen.refl
  | resume hop hacc hhand hstep => exact steps_resume hk hop hacc hhand hstep
  | perform hop hstep => exact steps_perform hk ho hop hstep
  | reperform hop hsp ht hb hp hstep => exact steps_reperform hop hsp ht hb hp hstep
  | reperformMain hop hsp _ hb hp hstep => exact steps_reperformMain ho hop hsp hb hp hstep
  | leave hm hstep => exact steps_mayLeave ho (mayLeave_ok hk hm hstep)

theorem FiberStep.owned (hk : KeepsFibers rt) (ho : Owned w.custody chain)
    (h : FiberStep rt act w w') : ∃ chain', Owned w'.custody chain' := by
  have hsteps := h.refines hk ho
  revert hsteps
  generalize w'.custody = c
  intro hsteps
  induction hsteps with
  | refl => exact ⟨chain, ho⟩
  | tail _ hs ih =>
      obtain ⟨chain', ho'⟩ := ih
      exact ho'.step hs

/-! ## Ownership in every reachable world -/

/-- One main stack with NULL parent, and nothing else. -/
structure Initial (w : World ω) : Prop where
  pool : ∀ s, linksOf w.ctl.state.dom.pool s = if s = w.main then some none else none
  current : w.ctl.state.dom.currentStack = w.main
  conts : ∀ b, contOf w.ctl.state.mem.heap b = none
  hand : w.hand = []
  tickets : w.tickets = []

/-- The one main stack is the current chain. -/
theorem Initial.owned (h : Initial w) : ∃ chain, Owned w.custody chain := by
  have hlink : w.custody.links w.main = some none := by
    show linksOf _ _ = _
    rw [h.pool, if_pos rfl]
  refine ⟨fun o => if o = .current then [w.main] else [], ⟨?_, ?_, ?_⟩, ?_, rfl, ?_, ?_, ?_⟩
  · intro o
    by_cases ho : o = .current
    · rw [if_pos ho]
      exact ⟨hlink, trivial⟩
    · rw [if_neg ho]
      trivial
  · intro x hx
    have hmain : x = w.main := by
      by_cases hm : x = w.main
      · exact hm
      · exact absurd ((h.pool x).trans (if_neg hm)) hx
    exact ⟨.current, by rw [if_pos rfl, hmain]; exact List.mem_singleton_self _⟩
  · intro o o' x hx hx'
    have hcur : ∀ {o : Owner}, x ∈ (if o = .current then [w.main] else []) → o = .current := by
      intro o hx
      by_cases ho : o = .current
      · exact ho
      · rw [if_neg ho] at hx
        exact nomatch hx
    rw [hcur hx, hcur hx']
  · exact congrArg some h.current.symm
  · exact fun b => (h.conts b).symm
  · intro s
    show _ = if s ∈ w.hand then some s else none
    rw [h.hand, if_neg (List.not_mem_nil)]
    rfl
  · intro b l ht
    change (b, l) ∈ w.tickets at ht
    rw [h.tickets] at ht
    exact nomatch ht

/-- The fibers of a world, as the stack pool and the heap have them. -/
structure FiberOwnership (w : World ω) (chain : Owner → List Nat) : Prop where
  /-- the current chain goes from `current_stack` to the main stack -/
  current : (chain .current).head? = some w.ctl.state.dom.currentStack ∧
    (chain .current).getLast? = some w.main
  /-- an un-taken continuation has the chain of the stack it holds -/
  conts : ∀ b, (chain (.cont b)).head? = contOf w.ctl.state.mem.heap b
  /-- so has a stack on its way to a resume -/
  hand : ∀ s, (chain (.hand s)).head? = if s ∈ w.hand then some s else none
  /-- every chain follows `Stack_parent` and ends with NULL -/
  linked : ∀ o, Linked (linksOf w.ctl.state.dom.pool) (chain o)
  acyclic : ∀ o, (chain o).Nodup
  /-- the stacks that have not been freed are those of the chains -/
  live : ∀ s, w.ctl.state.dom.pool.get s ≠ none ↔ ∃ o, s ∈ chain o
  disjoint : ∀ {o o' s}, s ∈ chain o → s ∈ chain o' → o = o'
  /-- with no stack on its way, the owners are the current chain and the
      un-taken continuations -/
  settled : w.hand = [] → ∀ s, w.ctl.state.dom.pool.get s ≠ none →
    s ∈ chain .current ∨ ∃ b, contOf w.ctl.state.mem.heap b ≠ none ∧ s ∈ chain (.cont b)
  /-- the last-fiber word, and with it the assertion of `REPERFORMTERM` -/
  last : ∀ {b l}, (b, l) ∈ w.tickets → contOf w.ctl.state.mem.heap b ≠ none →
    (chain (.cont b)).getLast? = some l ∧
      (w.ctl.state.dom.pool.get l).map StackInfo.parent = some none
  notParent : ∀ s i, w.ctl.state.dom.pool.get s = some i →
    i.parent ≠ some w.ctl.state.dom.currentStack
  /-- the loop of `do_resume` stops at the last fiber of the chain -/
  walk : ∀ o s, (chain o).head? = some s → ∃ last, (chain o).getLast? = some last ∧
    lastParent w.ctl.state.dom.pool w.ctl.state.dom.pool.fresh s = .ok last

/-- What the partition of the abstract model says of the world itself. -/
theorem FiberOwnership.of_owned (h : Owned w.custody chain) : FiberOwnership w chain := by
  have hcover : ∀ s, w.ctl.state.dom.pool.get s ≠ none → ∃ o, s ∈ chain o :=
    fun s hs => h.partition.covered s ((live_iff _ s).mpr hs)
  refine ⟨⟨h.current, h.main⟩, h.conts, h.hand, h.partition.linked,
    fun o => (h.partition.linked o).nodup, fun s => ⟨hcover s, ?_⟩, h.partition.unique,
    ?_, ?_, ?_, ?_⟩
  · rintro ⟨o, ho⟩
    exact (live_iff _ s).mp ((h.partition.linked o).live ho)
  · intro hhand s hs
    obtain ⟨o, ho⟩ := hcover s hs
    cases o with
    | current => exact Or.inl ho
    | cont b =>
        refine Or.inr ⟨b, fun hb => ?_, ho⟩
        rw [h.cont_eq_nil hb] at ho
        exact nomatch ho
    | hand t =>
        have hnil : chain (.hand t) = [] := by
          refine h.hand_eq_nil ?_
          show t ∉ w.hand
          rw [hhand]
          exact List.not_mem_nil
        rw [hnil] at ho
        exact nomatch ho
  · intro b l ht hb
    exact ⟨h.tickets ht hb, h.ticket_root ht hb⟩
  · intro s i hi hp
    refine h.not_parent s ?_
    show linksOf _ _ = _
    unfold linksOf
    rw [hi]
    exact congrArg some hp
  · intro o s hs
    obtain ⟨l, hl⟩ := List.head?_eq_some_iff.mp hs
    have hlinked := h.partition.linked o
    rw [hl] at hlinked ⊢
    exact ⟨_, List.getLast?_cons,
      lastParent_of_linked hlinked List.getLast?_cons (length_lt_fresh hlinked)⟩

/-- **FIBER OWNERSHIP**: from one main stack, in any order and number of steps,
    the live fibers stay partitioned into the current chain, one chain for each
    un-taken continuation, and the stacks on their way to a resume.  A `PERFORM` whose
    own allocation replaces the running stack has no successor here. -/
theorem fiber_ownership (rt : Runtime ω) (act : Activation) (w0 w : World ω)
    (hk : KeepsFibers rt) (h0 : Initial w0)
    (h : Relation.ReflTransGen (FiberStep rt act) w0 w) :
    ∃ chain, FiberOwnership w chain := by
  have howned : ∃ chain, Owned w.custody chain := by
    induction h with
    | refl => exact h0.owned
    | tail _ hs ih =>
        obtain ⟨chain, ho⟩ := ih
        exact hs.owned hk ho
  obtain ⟨chain, ho⟩ := howned
  exact ⟨chain, FiberOwnership.of_owned ho⟩

/-! ## A fiber that performs -/

theorem keepsFibers_quiet : KeepsFibers quiet := by
  refine ⟨fun h => ?_, nofun, fun _ _ _ => Untouched.refl _ _⟩
  obtain ⟨-, rfl, rfl⟩ := CResult.value.inj (Except.ok.inj h)
  exact (Untouched.refl _ _).same

/-- `RESUME` at 0x1000; at 0x1004 a function that performs; at 0x1008 a handler. -/
def performing : World Unit where
  ctl := .next {
    pc := 0x1000#64
    sp := [.ptr 0 0, valUnit]
    accu := valUnit
    env := .atom 0
    extraArgs := 0#63
    mem := {
      heap := ⟨[some ⟨closureTag, [ofCode 0x1004#64, .word (makeClosinfo 0 2)]⟩,
        some ⟨closureTag, [ofCode 0x1008#64, .word (makeClosinfo 0 2)]⟩]⟩
      code := assemble 0x1000#64
        [Opcode.RESUME.code, Opcode.PERFORM.code, Opcode.STOP.code]
      globalData := valUnit
      raiseUnhandled := valUnit }
    dom := domainOf [mainStack] 0 }
  main := 0
  hand := []
  tickets := []

theorem performing_initial : Initial performing := by
  refine ⟨fun s => ?_, rfl, fun b => ?_, rfl, rfl⟩
  · cases s with
    | zero => rfl
    | succ s => rfl
  · match b with
    | 0 => rfl
    | 1 => rfl
    | b + 2 => rfl

set_option maxRecDepth 8000 in
/-- After the resume and the perform the main fiber runs the handler, and the
    other fiber is the chain of the new continuation. -/
theorem fiber_ownership_performing :
    ∃ w, Relation.ReflTransGen (FiberStep quiet soleActivation) performing w ∧
      w.tickets = [(2, 1)] ∧ w.hand = [] ∧ ∃ chain, FiberOwnership w chain := by
  have h1 := Relation.ReflTransGen.single
    (@FiberStep.alloc Unit quiet soleActivation performing (.ptr 1 0) (.ptr 1 0) (.ptr 1 0))
  have h2 := h1.tail (FiberStep.resume (p := some 1) (Or.inl rfl) rfl
    (fun s hs => Option.some.inj hs ▸ List.mem_singleton_self 1) rfl)
  have h3 := h2.tail (FiberStep.checkStacks keepsFibers_quiet
    (fun dom hdom => by obtain rfl := Except.ok.inj hdom; exact nofun) rfl)
  have h4 := h3.tail (FiberStep.perform rfl rfl)
  exact ⟨_, h4, rfl, rfl,
    fiber_ownership quiet soleActivation performing _ keepsFibers_quiet performing_initial h4⟩

end CamlOwnership
