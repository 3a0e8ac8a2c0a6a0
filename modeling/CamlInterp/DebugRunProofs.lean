import CamlInterp.ProfilerProofs
import CamlInterp.StepProofs

/-! # Runs of the DEBUG build

    A step of the DEBUG build posts to the ledger: it charges the instruction
    it fetches, and then enters a function, leaves one, or does neither.  So
    every run from a new profile has a ledger, the asserts of the profiler hold
    at every dispatch, and what is left when its state is erased is the other
    source. -/

namespace CamlDebug

open CamlValue CamlOpcode CamlMachine CamlInterp CamlStep CamlProfiler CamlHashTable Runs
open CamlUpstream (checkSp OpCounts)

variable {ω : Type}

/-- No request for memory has been refused. -/
def Granted (c : Ctl (State ω Profile)) : Prop := c.state.prof.alloc.failed = false

/-- The closure about to be applied, if any, has a code pointer. -/
def AppliesCode (c : Ctl (State ω Profile)) : Prop :=
  ∀ f, applied (machineOf c) = some f → f ≠ nullCode

/-! ## Posting to the ledger -/

/-- Charge the instruction fetched at this label, if it is at the top of the
    loop. -/
def fetch (c : Ctl (Machine ω)) (L : Ledger) : Ledger :=
  match fetching c with
  | some op => L.charge op
  | none => L

/-- What the instruction executed at `c` posts to the ledger. -/
inductive Posts (c : Ctl (Machine ω)) (L : Ledger) : Ledger → Prop where
  | stay : (∀ op, executing c = some op → isApply op = false ∧ op ≠ .RETURN) →
      Posts c L L
  | apply {f : CodePtr} (hf : f ≠ nullCode) : applied c = some f →
      Posts c L (L.apply f hf)
  /-- a NULL code pointer, on a full stack -/
  | refused : applied c = some nullCode → L.max ≤ L.stack.length → Posts c L L
  | ret : executing c = some .RETURN → Posts c L L.ret

variable {rt : Runtime ω} {act : Activation} {c c' : Ctl (State ω Profile)} {L : Ledger}

/-- The block at the top of the loop, before an instruction that exists. -/
theorem topBlock_spec (h : Refines c.state.prof L) {p : Profile}
    (htop : topBlock debug c = .ok p) {cm : Ctl (Machine ω)}
    (hm : machineStep rt act (machineOf c) = .ok cm) :
    p.alloc = c.state.prof.alloc ∧ Refines p (fetch (machineOf c) L) := by
  cases c with
  | next s =>
      cases hop : decode s.machine.operand with
      | none =>
          simp only [machineOf, Ctl.map, machineStep, CamlUpstream.execWord, hop] at hm
          exact nomatch hm
      | some op =>
          obtain ⟨_, hsp, _⟩ := bind_eq_ok.mp htop
          obtain ⟨p', hp', ha, hr⟩ := h.onDispatch_spec hsp hop
          have hpp : p' = p := Except.ok.inj (hp'.symm.trans htop)
          subst hpp
          have hf : fetch (machineOf (.next s)) L = L.charge op := by
            simp [fetch, fetching, machineOf, Ctl.map, hop]
          rw [hf]
          exact ⟨ha, hr⟩
  | dispatch w s => rw [← Except.ok.inj htop]; exact ⟨rfl, h⟩
  | checkStacks s => rw [← Except.ok.inj htop]; exact ⟨rfl, h⟩
  | raiseNotrace s => rw [← Except.ok.inj htop]; exact ⟨rfl, h⟩
  | halted r s => rw [← Except.ok.inj htop]; exact ⟨rfl, h⟩

/-- **ONE STEP** of the DEBUG build posts to the ledger. -/
theorem step_posts (h : Refines c.state.prof L) (hs : step debug rt act c = .ok c')
    (hgr : Granted c') :
    ∃ L', Posts (machineOf c) (fetch (machineOf c) L) L' ∧ Refines c'.state.prof L' := by
  obtain ⟨hm, p, htop, hmv⟩ := step_ok hs
  obtain ⟨-, hp⟩ := topBlock_spec h htop hm
  generalize hp' : c'.state.prof = p' at hmv
  cases hmv with
  | stay hno => exact ⟨_, Posts.stay hno, hp⟩
  | @apply f _ happ hap =>
      by_cases hf : f = nullCode
      · subst hf
        obtain ⟨hfull, rfl⟩ := hp.onApply_null hap
        exact ⟨_, Posts.refused happ hfull, hp⟩
      · obtain ⟨p'', hp'', -, hpost⟩ := hp.onApply_spec hf
        have hpp : p'' = p' := Except.ok.inj (hp''.symm.trans hap)
        subst hpp
        unfold Granted at hgr
        rw [hp'] at hgr
        exact ⟨_, Posts.apply hf happ, (hpost hgr).2⟩
  | ret hret hrp =>
      obtain ⟨p'', hp'', -, -, hpost⟩ := hp.onReturn_spec
      have hpp : p'' = p' := Except.ok.inj (hp''.symm.trans hrp)
      subst hpp
      exact ⟨_, Posts.ret hret, hpost⟩

/-- The state in which `caml_interprete` enters its loop. -/
def start (m : Machine ω) (p : Profile) : Ctl (State ω Profile) := .next ⟨m, p⟩

variable {m : Machine ω} {a : Allocator} {p₀ : Profile} {past : List (Ctl (State ω Profile))}

/-- **EVERY RUN HAS A LEDGER**, with any fact about it that postings keep. -/
theorem ledger_of_run {P : List (Ctl (State ω Profile)) → Ctl (State ω Profile) →
      Ledger → Prop}
    (h0 : initProfile a = .ok p₀)
    (hstart : Refines p₀ (Ledger.fresh 1024 (by decide)) →
      P [] (start m p₀) (Ledger.fresh 1024 (by decide)))
    (hpost : ∀ past c c' L L', P past c L → Refines c.state.prof L → Refines c'.state.prof L' →
      step debug rt act c = .ok c' →
      Posts (machineOf c) (fetch (machineOf c) L) L' → P (c :: past) c' L')
    (hrun : Run (step debug rt act) (start m p₀) past c)
    (hgr : ∀ d ∈ c :: past, Granted d) :
    ∃ L, Refines c.state.prof L ∧ P past c L := by
  refine hrun.invariant (G := Granted)
    (P := fun past d => Granted d → ∃ L, Refines d.state.prof L ∧ P past d L)
    ?_ ?_ ?_ (hgr c List.mem_cons_self)
  · intro hg
    exact ⟨_, refines_init h0 hg, hstart (refines_init h0 hg)⟩
  · intro past d d' hP hG hs hg'
    obtain ⟨L, hL, hPL⟩ := hP hG
    obtain ⟨L', hpo, hL'⟩ := step_posts hL hs hg'
    exact ⟨L', hL', hpost past d d' L L' hPL hL hL' hs hpo⟩
  · exact fun d hd => hgr d (List.mem_cons_of_mem _ hd)

/-! ## The function stack along a run

    What happens to `local_func_stack` does not depend on the table, nor on
    whether memory is granted. -/

/-- A state that a run of the DEBUG build reaches from a new profile. -/
def Reached (rt : Runtime ω) (act : Activation) (past : List (Ctl (State ω Profile)))
    (c : Ctl (State ω Profile)) : Prop :=
  ∃ m a p₀, initProfile a = .ok p₀ ∧ Run (step debug rt act) (start m p₀) past c

/-- The functions on `local_func_stack`, top first. -/
def functions (c : Ctl (State ω Profile)) : List CodePtr :=
  CamlFuncStack.contents c.state.prof.localFuncStack

/-- What one instruction does to a function stack with room for `max`. -/
def shadow (max : Nat) (c : Ctl (Machine ω)) (l : List CodePtr) : List CodePtr :=
  match applied c with
  | some f => if l.length < max then f :: l else l
  | none => if executing c = some .RETURN then l.tail else l

/-- Only an apply instruction has an applied closure. -/
theorem isApply_of_applied {cm : Ctl (Machine ω)} {f : CodePtr} (h : applied cm = some f) :
    ∃ op, executing cm = some op ∧ isApply op = true ∧
      codeVal cm.state.mem.heap cm.state.accu = .ok f := by
  unfold applied at h
  cases hop : executing cm with
  | none => rw [hop] at h; exact nomatch h
  | some op =>
      simp only [hop] at h
      split at h
      · rename_i ha
        refine ⟨op, rfl, ha, ?_⟩
        cases hc : codeVal cm.state.mem.heap cm.state.accu with
        | error e => rw [hc] at h; exact nomatch h
        | ok f' => rw [hc] at h; rw [Option.some.inj h]
      · exact nomatch h

theorem applied_eq_none {cm : Ctl (Machine ω)}
    (h : ∀ op, executing cm = some op → isApply op = false) : applied cm = none := by
  cases ha : applied cm with
  | none => rfl
  | some f =>
      obtain ⟨op, hop, hap, -⟩ := isApply_of_applied ha
      exact nomatch (h op hop).symm.trans hap

theorem shadow_of_not {cm : Ctl (Machine ω)} (ha : applied cm = none)
    (hr : executing cm ≠ some .RETURN) (max : Nat) (l : List CodePtr) :
    shadow max cm l = l := by
  unfold shadow
  rw [ha]
  exact if_neg hr

/-- An instruction without profiling code leaves the function stack. -/
theorem shadow_stay {cm : Ctl (Machine ω)}
    (h : ∀ op, executing cm = some op → isApply op = false ∧ op ≠ .RETURN) (max : Nat)
    (l : List CodePtr) : shadow max cm l = l :=
  shadow_of_not (applied_eq_none (fun op hop => (h op hop).1)) (fun hr => (h _ hr).2 rfl) max l

theorem shadow_return {cm : Ctl (Machine ω)} (h : executing cm = some .RETURN) (max : Nat)
    (l : List CodePtr) : shadow max cm l = l.tail := by
  unfold shadow
  rw [applied_eq_none (fun op hop => by rw [h] at hop; rw [← Option.some.inj hop]; rfl)]
  exact if_pos h

theorem shadow_applied {cm : Ctl (Machine ω)} {f : CodePtr} (h : applied cm = some f)
    (max : Nat) (l : List CodePtr) :
    shadow max cm l = if l.length < max then f :: l else l := by
  unfold shadow
  rw [h]

/-- A stack of `create_func_stack(1024)` with these functions on it. -/
def Holds (p : Profile) (l : List CodePtr) : Prop :=
  CamlFuncStack.Represents p.localFuncStack l ∧
    p.localFuncStack.maxItems = localFuncStackSize

theorem holds_init (h : initProfile a = .ok p₀) : Holds p₀ [] := by
  unfold initProfile at h
  simp only at h
  split at h
  · split at h
    · split at h
      · rw [← Except.ok.inj h]
        exact ⟨CamlFuncStack.represents_create (by decide), rfl⟩
      · exact nomatch h
    · exact nomatch h
  · exact nomatch h

/-- Counting an instruction leaves the function stack alone. -/
theorem htCurrIncOpcount_stack {p p' : Profile} {w : OpcodeWord}
    (h : htCurrIncOpcount p w = .ok p') : p'.localFuncStack = p.localFuncStack := by
  unfold htCurrIncOpcount at h
  obtain ⟨f, -, h⟩ := bind_eq_ok.mp h
  obtain ⟨_, -, h⟩ := bind_eq_ok.mp h
  obtain ⟨t, -, h⟩ := bind_eq_ok.mp h
  obtain ⟨o, -, h⟩ := bind_eq_ok.mp h
  obtain ⟨_, -, h⟩ := bind_eq_ok.mp h
  obtain ⟨b, -, h⟩ := bind_eq_ok.mp h
  split at h
  · obtain ⟨r, -, h⟩ := bind_eq_ok.mp h
    rw [← Except.ok.inj h]
  · split at h
    · exact nomatch h
    · rw [← Except.ok.inj h]

theorem onDispatch_stack {p p' : Profile} {m : Machine ω} (h : onDispatch m p = .ok p') :
    p'.localFuncStack = p.localFuncStack := by
  unfold onDispatch at h
  obtain ⟨_, -, h⟩ := bind_eq_ok.mp h
  split at h
  · obtain ⟨n, -, h⟩ := bind_eq_ok.mp h
    simp only at h
    split at h
    · rw [← Except.ok.inj h]
    · rw [htCurrIncOpcount_stack h]
  · rw [← Except.ok.inj h]

/-- So does growing the array of counts. -/
theorem arrayAllocOpCounts_stack {p p' : Profile} (h : arrayAllocOpCounts p = .ok p') :
    p'.localFuncStack = p.localFuncStack := by
  unfold arrayAllocOpCounts at h
  obtain ⟨f, -, h⟩ := bind_eq_ok.mp h
  obtain ⟨t, -, h⟩ := bind_eq_ok.mp h
  obtain ⟨o, -, h⟩ := bind_eq_ok.mp h
  split at h
  · rw [← Except.ok.inj h]
  · obtain ⟨_, -, h⟩ := bind_eq_ok.mp h
    split at h
    · obtain ⟨r, -, h⟩ := bind_eq_ok.mp h
      rw [← Except.ok.inj h]
    · rw [← Except.ok.inj h]

/-- The blocks move the function stack as `shadow` says. -/
theorem holds_moves {cm : Ctl (Machine ω)} {p p' : Profile} {l : List CodePtr}
    (h : Holds p l) (hmv : Moves debug cm p p') : Holds p' (shadow 1024 cm l) := by
  obtain ⟨hrep, hmax⟩ := h
  have hsize : p.localFuncStack.maxItems.toNat = 1024 := by rw [hmax]; rfl
  cases hmv with
  | stay hno => rw [shadow_stay hno]; exact ⟨hrep, hmax⟩
  | @apply f _ happ hap =>
      rw [shadow_applied happ]
      change onApply f p = .ok p' at hap
      unfold onApply at hap
      obtain ⟨⟨r, s'⟩, hpush, harr⟩ := bind_eq_ok.mp hap
      have hsame := arrayAllocOpCounts_stack harr
      unfold Holds
      rw [hsame]
      by_cases hroom : l.length < 1024
      · rw [if_pos hroom]
        obtain ⟨s'', hpush', hmax', hrep'⟩ := hrep.push_ok (by omega) f
        have hss := (Prod.mk.inj (Except.ok.inj (hpush'.symm.trans hpush))).2
        subst hss
        exact ⟨hrep', hmax'.trans hmax⟩
      · rw [if_neg hroom]
        have hbound := hrep.bound
        have hss := (Prod.mk.inj (Except.ok.inj
          ((hrep.push_full (by omega) f).symm.trans hpush))).2
        subst hss
        exact ⟨hrep, hmax⟩
  | ret hret hrp =>
      rw [shadow_return hret]
      change onReturn p = .ok p' at hrp
      unfold onReturn at hrp
      obtain ⟨⟨r, s'⟩, hpop, hp'⟩ := bind_eq_ok.mp hrp
      rw [← Except.ok.inj hp']
      unfold Holds
      cases l with
      | nil =>
          have hss := (Prod.mk.inj (Except.ok.inj (hrep.pop_empty.symm.trans hpop))).2
          subst hss
          exact ⟨hrep, hmax⟩
      | cons f rest =>
          obtain ⟨s'', hpop', hmax', hrep'⟩ := hrep.pop_ok
          have hss := (Prod.mk.inj (Except.ok.inj (hpop'.symm.trans hpop))).2
          subst hss
          exact ⟨hrep', hmax'.trans hmax⟩

theorem topBlock_stack {p : Profile} (h : topBlock debug c = .ok p) :
    p.localFuncStack = c.state.prof.localFuncStack := by
  cases c with
  | next s => exact onDispatch_stack h
  | dispatch w s => rw [← Except.ok.inj h]
  | checkStacks s => rw [← Except.ok.inj h]
  | raiseNotrace s => rw [← Except.ok.inj h]
  | halted r s => rw [← Except.ok.inj h]

theorem holds_step {l : List CodePtr} (h : Holds c.state.prof l)
    (hs : step debug rt act c = .ok c') :
    Holds c'.state.prof (shadow 1024 (machineOf c) l) := by
  obtain ⟨-, p, htop, hmv⟩ := step_ok hs
  refine holds_moves ?_ hmv
  unfold Holds
  rw [topBlock_stack htop]
  exact h

theorem Reached.holds (h : Reached rt act past c) : Holds c.state.prof (functions c) := by
  obtain ⟨m, a, p₀, h0, hrun⟩ := h
  have hex : ∃ l, Holds c.state.prof l :=
    hrun.invariant (G := fun _ => True) (P := fun _ d => ∃ l, Holds d.state.prof l)
      ⟨[], holds_init h0⟩ (fun _ _ _ hl _ hs => hl.elim fun l hl => ⟨_, holds_step hl hs⟩)
      (fun _ _ => trivial)
  obtain ⟨l, hl⟩ := hex
  unfold functions
  rw [hl.1.contents_eq]
  exact hl

theorem Reached.step (h : Reached rt act past c) (hs : step debug rt act c = .ok c') :
    Reached rt act (c :: past) c' := by
  obtain ⟨m, a, p₀, h0, hrun⟩ := h
  exact ⟨m, a, p₀, h0, Run.snoc hrun hs⟩

/-- What is reached can be extended. -/
theorem Reached.run {mid : List (Ctl (State ω Profile))} (h : Reached rt act past c)
    (hrun : Run (CamlInterp.step debug rt act) c mid c') :
    Reached rt act (mid ++ past) c' := by
  obtain ⟨m, a, p₀, h0, hrun0⟩ := h
  exact ⟨m, a, p₀, h0, hrun0.trans hrun⟩

/-- The function stack never holds more than 1024 functions. -/
theorem Reached.length_functions (h : Reached rt act past c) :
    (functions c).length ≤ 1024 := by
  obtain ⟨hrep, hmax⟩ := h.holds
  have hbound := hrep.bound
  rw [hmax] at hbound
  exact hbound

/-- **THE FUNCTION STACK FOLLOWS THE INSTRUCTIONS**: a step of the DEBUG build
    moves the machine by its own step and the functions by `shadow`. -/
theorem Reached.functions_step (h : Reached rt act past c)
    (hs : CamlInterp.step debug rt act c = .ok c') :
    functions c' = shadow 1024 (machineOf c) (functions c) ∧
      machineStep rt act (machineOf c) = .ok (machineOf c') :=
  ⟨(holds_step h.holds hs).1.contents_eq, (step_ok hs).1⟩

/-- A label that executes nothing leaves the function stack. -/
theorem shadow_idle {cm : Ctl (Machine ω)} (h : executing cm = none) (max : Nat)
    (l : List CodePtr) : shadow max cm l = l :=
  shadow_stay (fun op hop => by rw [h] at hop; exact nomatch hop) max l

/-- Between two instructions the function stack does not change. -/
theorem Reached.functions_idle {mid : List (Ctl (State ω Profile))}
    (h : Reached rt act past c) (hrun : Run (CamlInterp.step debug rt act) c mid c')
    (hidle : ∀ d ∈ mid, executing (machineOf d) = none) : functions c' = functions c := by
  induction hrun with
  | start => rfl
  | snoc hprev hs ih =>
      rw [((h.run hprev).functions_step hs).1, shadow_idle (hidle _ List.mem_cons_self)]
      exact ih (fun d hd => hidle d (List.mem_cons_of_mem _ hd))

/-- `f` is a key of `func_hash_table`, with counters. -/
def IsKey (c : Ctl (State ω Profile)) (f : CodePtr) : Prop :=
  ∃ t a, c.state.prof.funcHashTable = some t ∧ htGet t f = .ok (some a)

/-- As long as memory is granted, every function on the stack is a key of the
    table. -/
theorem Reached.isKey (h : Reached rt act past c) (hgr : ∀ d ∈ c :: past, Granted d)
    {f : CodePtr} (hf : f ∈ functions c) : IsKey c f := by
  obtain ⟨m, a, p₀, h0, hrun⟩ := h
  obtain ⟨L, hL, -⟩ := ledger_of_run (P := fun _ _ _ => True) h0 (fun _ => trivial)
    (fun _ _ _ _ _ _ _ _ _ _ => trivial) hrun hgr
  unfold functions at hf
  rw [hL.stack.contents_eq] at hf
  obtain ⟨t, addr, hb, hrow⟩ := hL.books
  obtain ⟨b, r, hb', -, -⟩ := hb.top hrow hf
  exact ⟨t, b, hb.table, by rw [hb.keys.htGet_eq, hb']⟩

/-! ## Erasing the profiler -/

/-- What is left of a state without `local_func_stack` and `func_hash_table`. -/
def erase (c : Ctl (State ω Profile)) : Ctl (CamlUpstream.State ω) :=
  c.map (fun s => ⟨s.machine, s.prof.counts⟩)

theorem erase_eq (c : Ctl (State ω Profile)) :
    erase c = (machineOf c).map (fun m => ⟨m, c.state.prof.counts⟩) := by
  cases c <;> rfl

/-- `checkSp` fails only as a `CAMLassert` or on a dangling stack. -/
theorem checkSp_error {m : Machine ω} {e : Fault} (h : checkSp m = .error e) :
    e ≠ .assertFailed := by
  unfold checkSp Domain.stack orUndefined camlAssert at h
  cases hget : m.dom.pool.get m.dom.currentStack with
  | none =>
      rw [hget] at h
      rw [← Except.error.inj h]
      exact fun he => nomatch he
  | some i =>
      rw [hget] at h
      simp only [bind, Except.bind] at h
      split at h
      · exact nomatch h
      · rw [← Except.error.inj h]
        exact fun he => nomatch he

/-- The block at the top of the loop fails only where the other source fails in
    the same way; otherwise it counts the same. -/
theorem topBlock_cases (rt : Runtime ω) (act : Activation) (h : Refines c.state.prof L) :
    (∃ p L', topBlock debug c = .ok p ∧ Refines p L' ∧
      CamlUpstream.step rt act (erase c)
        = CamlUpstream.keep p.counts (machineStep rt act (machineOf c))) ∨
    (∃ e, e ≠ .assertFailed ∧ topBlock debug c = .error e ∧
      CamlUpstream.step rt act (erase c) = .error e) := by
  cases c with
  | next s =>
      have htop : topBlock debug (.next s) = onDispatch s.machine s.prof := rfl
      have hup : CamlUpstream.step rt act (erase (.next s))
          = (do checkSp s.machine
                let counts ← s.prof.counts.count s.machine.operand
                CamlUpstream.keep counts (machineStep rt act (machineOf (.next s)))) := rfl
      rw [htop, hup]
      cases hsp : checkSp s.machine with
      | error e =>
          exact Or.inr ⟨e, checkSp_error hsp, by simp only [onDispatch, hsp]; rfl, rfl⟩
      | ok u =>
          cases hop : decode s.machine.operand with
          | some op =>
              obtain ⟨p, hp, -, hr⟩ := h.onDispatch_spec hsp hop
              refine Or.inl ⟨p, _, hp, hr, ?_⟩
              simp only [OpCounts.count, hop, bind, Except.bind]
              rw [hr.counts_eq]
              show CamlUpstream.keep (s.prof.counts.bump op) _
                = CamlUpstream.keep (L.counts.bump op) _
              have hc : s.prof.counts = L.counts := h.counts_eq
              rw [hc]
          | none =>
              by_cases hneg : s.machine.operand.toInt < 0
              · -- a negative word passes the range test and indexes out of bounds
                have hlt : s.machine.operand.toInt < firstUnimplementedOp := by omega
                refine Or.inr ⟨.undefined, by decide, ?_, ?_⟩
                · simp only [onDispatch, hsp, bind, Except.bind, if_pos hlt, OpCounts.count, hop,
                    if_pos hneg]
                · simp only [bind, Except.bind, OpCounts.count, hop, if_pos hneg]
              · have hge : ¬ s.machine.operand.toInt < firstUnimplementedOp := by
                  intro hlt
                  have hnone := (decode_isSome_iff s.machine.operand).mpr (by
                    have hi := BitVec.toInt_eq_toNat_cond s.machine.operand
                    unfold firstUnimplementedOp at hlt ⊢
                    split at hi <;> omega)
                  rw [hop] at hnone
                  cases hnone
                refine Or.inl ⟨s.prof, L, ?_, h, ?_⟩
                · simp only [onDispatch, hsp, bind, Except.bind, if_neg hge]
                · simp only [bind, Except.bind, OpCounts.count, hop, if_neg hneg]
  | dispatch w s => exact Or.inl ⟨s.prof, L, rfl, h, rfl⟩
  | checkStacks s => exact Or.inl ⟨s.prof, L, rfl, h, rfl⟩
  | raiseNotrace s => exact Or.inl ⟨s.prof, L, rfl, h, rfl⟩
  | halted r s => exact Or.inl ⟨s.prof, L, rfl, h, rfl⟩

/-- The apply and return blocks count nothing. -/
theorem counts_of_moves {cm : Ctl (Machine ω)} {p p' : Profile} (h : Refines p L)
    (hmv : Moves debug cm p p') : p'.counts = p.counts := by
  cases hmv with
  | stay => rfl
  | @apply f _ happ hap =>
      by_cases hf : f = nullCode
      · subst hf
        rw [(h.onApply_null hap).2]
      · obtain ⟨p'', hp'', hc, -⟩ := h.onApply_spec hf
        rw [← Except.ok.inj (hp''.symm.trans hap)]
        exact hc
  | ret _ hrp =>
      obtain ⟨p'', hp'', hc, -⟩ := h.onReturn_spec
      rw [← Except.ok.inj (hp''.symm.trans hrp)]
      exact hc

/-- **ONE STEP, ERASED**: a step that succeeds is a step of the other source. -/
theorem erase_step_ok (h : Refines c.state.prof L) (hs : step debug rt act c = .ok c') :
    CamlUpstream.step rt act (erase c) = .ok (erase c') := by
  obtain ⟨hm, p, htop, hmv⟩ := step_ok hs
  rcases topBlock_cases rt act h with
    ⟨p', L', htop', hp, hup⟩ | ⟨e, -, htop', -⟩
  · have hpp : p' = p := Except.ok.inj (htop'.symm.trans htop)
    subst hpp
    rw [hup, hm, erase_eq, counts_of_moves hp hmv]
    rfl
  · exact nomatch htop'.symm.trans htop

/-- The same for a step that fails: where the asserts of the profiler hold, it
    fails as the other source does. -/
theorem erase_step (h : Refines c.state.prof L) (hcode : AppliesCode c) :
    (step debug rt act c).map erase = CamlUpstream.step rt act (erase c) := by
  cases hs : step debug rt act c with
  | ok c' => exact (erase_step_ok h hs).symm
  | error e =>
      rcases topBlock_cases rt act h with
        ⟨p, L', htop, hp, hup⟩ | ⟨e', -, htop, hup⟩
      · have hmap : (step debug rt act c).map machineOf = machineStep rt act (machineOf c) := by
          refine map_step htop (fun f hf => ?_) (fun _ => ?_)
          · obtain ⟨p', hp', -⟩ := hp.onApply_spec (hcode f hf)
            exact ⟨p', hp'⟩
          · obtain ⟨p', hp', -⟩ := hp.onReturn_spec
            exact ⟨p', hp'⟩
        rw [hup, ← hmap, hs]
        rfl
      · cases c with
        | next s =>
            have hd : onDispatch s.machine s.prof = .error e' := htop
            have hstep : step debug rt act (.next s) = .error e' := by
              show (onDispatch s.machine s.prof >>= _) = _
              rw [hd]
              rfl
            rw [hup, Except.error.inj (hs.symm.trans hstep)]
            rfl
        | dispatch w s => exact nomatch htop
        | checkStacks s => exact nomatch htop
        | raiseNotrace s => exact nomatch htop
        | halted r s => exact nomatch htop

/-- **TRANSPARENCY**: along every run from a new profile, no assert of the
    profiler fires, and erasing the profiler turns the run and the next step
    into those of the other source. -/
theorem instrumentation_transparent (rt : Runtime ω) (act : Activation) (m : Machine ω)
    (a : Allocator) (p₀ : Profile) (h0 : initProfile a = .ok p₀)
    (past : List (Ctl (State ω Profile))) (c : Ctl (State ω Profile))
    (hrun : Run (step debug rt act) (start m p₀) past c)
    (hgr : ∀ d ∈ c :: past, Granted d) (hcode : AppliesCode c) :
    topBlock debug c ≠ .error .assertFailed ∧
    (∀ p f, topBlock debug c = .ok p → applied (machineOf c) = some f →
      onApply f p ≠ .error .assertFailed) ∧
    (step debug rt act c).map erase = CamlUpstream.step rt act (erase c) ∧
    Run (CamlUpstream.step rt act) (erase (start m p₀)) (past.map erase) (erase c) := by
  obtain ⟨L, hL, hup⟩ := ledger_of_run (P := fun past d _ =>
      Run (CamlUpstream.step rt act) (erase (start m p₀)) (past.map erase) (erase d))
    h0 (fun _ => Run.start)
    (fun _ _ _ _ _ hP hL _ hs _ => Run.snoc hP (erase_step_ok hL hs)) hrun hgr
  refine ⟨?_, ?_, erase_step hL hcode, hup⟩
  · intro hbad
    rcases topBlock_cases rt act hL with ⟨p, L', htop, -⟩ | ⟨e, he, htop, -⟩
    · exact nomatch htop.symm.trans hbad
    · exact he (Except.error.inj (htop.symm.trans hbad))
  · intro p f htop hf hbad
    rcases topBlock_cases rt act hL with ⟨p', L', htop', hp, -⟩ | ⟨e, -, htop', -⟩
    · have hpp : p' = p := Except.ok.inj (htop'.symm.trans htop)
      subst hpp
      obtain ⟨p'', hp'', -⟩ := hp.onApply_spec (hcode f hf)
      exact nomatch hp''.symm.trans hbad
    · exact nomatch htop'.symm.trans htop

/-! ## A call on an empty stack -/

/-- With no function on the stack, a dispatch only counts globally. -/
theorem step_of_isEmpty {m : Machine ω} {p : Profile} {op : Opcode}
    (hop : decode m.operand = some op) (hsp : checkSp m = .ok ())
    (he : CamlFuncStack.isEmpty p.localFuncStack = true) :
    step debug rt act (start m p) = exec debug rt act op
      ⟨{ m with toCore := m.toCore.advance }, { p with counts := p.counts.bump op }⟩ := by
  have htop : onDispatch m p = .ok { p with counts := p.counts.bump op } := by
    simp only [onDispatch, hsp, bind, Except.bind, if_pos (toInt_lt_of_decode hop),
      OpCounts.count, hop, if_pos he]
  show (onDispatch m p >>= _) = _
  rw [htop]
  show execWord debug rt act m.operand _ = _
  simp only [execWord, hop]

/-- An allocator that grants every request of a sane size. -/
def granting : Allocator := ⟨fun _ _ => true, 0, false⟩

/-- The profile `caml_interprete` starts with when memory is granted. -/
def newProfile : Profile where
  counts := OpCounts.zero
  localFuncStack := CamlFuncStack.createFuncStack localFuncStackSize
  funcHashTable := some (zeroed 16#64 0#64)
  arrays := CellStore.Store.empty
  alloc := ⟨fun _ _ => true, 5, false⟩

/-- About to execute `APPLY1` at 0x1000 on a closure with code at 0x2000. -/
def callMachine : Machine Unit where
  pc := 0x1000#64
  sp := [valUnit]
  accu := .ptr 0 0
  env := .atom 0
  extraArgs := 0#63
  mem :=
    { heap := ⟨[some ⟨closureTag, [ofCode 0x2000#64, .word (makeClosinfo 0 2)]⟩]⟩
      code := assemble 0x1000#64 [Opcode.APPLY1.code]
      globalData := valUnit
      raiseUnhandled := valUnit }
  dom := domainOf [mainStack] 0

theorem applied_callMachine : applied (machineOf (start callMachine newProfile))
    = some 0x2000#64 := by
  rfl

/-- The first step of `callMachine`. -/
theorem instrumentation_transparent_call :
    initProfile granting = .ok newProfile ∧
    (step debug quiet soleActivation (start callMachine newProfile)).map erase
      = CamlUpstream.step quiet soleActivation (erase (start callMachine newProfile)) := by
  have h0 : initProfile granting = .ok newProfile := rfl
  refine ⟨h0, (instrumentation_transparent quiet soleActivation callMachine granting newProfile h0
    [] (start callMachine newProfile) Run.start ?_ ?_).2.2.1⟩
  · intro d hd
    rw [List.mem_singleton.mp hd]
    rfl
  · intro f hf
    rw [applied_callMachine] at hf
    rw [← Option.some.inj hf]
    decide

end CamlDebug
