import CamlInterp.DebugRunProofs
import Mathlib.Data.BitVec

/-! # What the counters count

    Along a run of the DEBUG build the counters are determined by the past: the
    row of a function counts, opcode by opcode, the instructions fetched while
    it was on top of `local_func_stack`, `op_counts` counts all of them, and
    only functions that were on top have a row.  The counters are `unsigned
    long`s, so they count modulo 2^64. -/

namespace CamlMatrix

open CamlValue CamlOpcode CamlMachine CamlInterp CamlStep CamlFuncStack CamlProfiler CamlDebug
open CamlHashTable Runs
open CamlUpstream (OpCounts)

variable {ω : Type}

/-- The top of `local_func_stack`. -/
def topOf (p : Profile) : Option CodePtr :=
  if isEmpty p.localFuncStack then none else (peek p.localFuncStack).toOption

theorem topOf_eq {p : Profile} {L : Ledger} (h : Refines p L) : topOf p = L.stack.head? := by
  unfold topOf
  cases hs : L.stack with
  | nil => rw [if_pos (h.stack.isEmpty_iff.mpr hs)]; rfl
  | cons f rest =>
      rw [if_neg (fun he => by rw [h.stack.isEmpty_iff.mp he] at hs; exact nomatch hs),
        h.stack.peek_eq, hs]
      rfl

/-- At `d` the instruction `o` is dispatched from the top of the loop. -/
def fetches (o : Opcode) (d : Ctl (State ω Profile)) : Bool :=
  decide (fetching (machineOf d) = some o)

/-- The number of past dispatches of `o`. -/
def dispatches (o : Opcode) (past : List (Ctl (State ω Profile))) : Nat :=
  past.countP (fetches o)

/-- The number of past dispatches of `o` made while `f` was on top. -/
def dispatchesIn (f : CodePtr) (o : Opcode) (past : List (Ctl (State ω Profile))) : Nat :=
  past.countP (fun d => fetches o d && decide (topOf d.state.prof = some f))

/-- `f` is or has been the top of `local_func_stack`. -/
def EverTop (f : CodePtr) (past : List (Ctl (State ω Profile)))
    (c : Ctl (State ω Profile)) : Prop :=
  ∃ d ∈ c :: past, topOf d.state.prof = some f

/-- The counters agree with the past, for a reading of the counters as
    numbers. -/
structure Matrix (agree : BitVec 64 → Nat → Prop) (past : List (Ctl (State ω Profile)))
    (c : Ctl (State ω Profile)) : Prop where
  entered : ∀ f, EverTop f past c → ∃ t a r,
    c.state.prof.funcHashTable = some t ∧ htGet t f = .ok (some a) ∧
    c.state.prof.arrays.get a = some r ∧ ∀ o, agree (r o) (dispatchesIn f o past)
  others : ∀ f, ¬ EverTop f past c → ∃ t,
    c.state.prof.funcHashTable = some t ∧ htGet t f = .ok none
  counted : ∀ o, agree (c.state.prof.counts.opCounts o) (dispatches o past)
  total : agree c.state.prof.counts.totalOpCount
    ((opcodes.map (fun o => (c.state.prof.counts.opCounts o).toNat)).sum)

/-- The counter holds the number itself. -/
def Exactly (w : BitVec 64) (n : Nat) : Prop := w.toNat = n

/-- The counter holds the number modulo 2^64. -/
def Modulo (w : BitVec 64) (n : Nat) : Prop := w = BitVec.ofNat 64 n

/-! ## Sums of counters -/

theorem opcodes_nodup : opcodes.Nodup := by decide +kernel

theorem mem_opcodes (op : Opcode) : op ∈ opcodes := List.mem_of_getElem? (decode_code op)

theorem sum_of_not_mem {op : Opcode} {l : List Opcode} (f : Opcode → BitVec 64)
    (h : op ∉ l) : (l.map (fun o => if o = op then f o + 1#64 else f o)).sum
      = (l.map f).sum := by
  congr 1
  refine List.map_congr_left (fun o ho => ?_)
  have hne : o ≠ op := by
    intro hoo
    subst hoo
    exact h ho
  rw [if_neg hne]

/-- One increment adds one to the sum. -/
theorem sum_bump {op : Opcode} {l : List Opcode} (f : Opcode → BitVec 64)
    (hl : l.Nodup) (h : op ∈ l) :
    (l.map (fun o => if o = op then f o + 1#64 else f o)).sum = (l.map f).sum + 1#64 := by
  induction l with
  | nil => exact nomatch h
  | cons o rest ih =>
      obtain ⟨hno, hrest⟩ := List.nodup_cons.mp hl
      rw [List.map_cons, List.sum_cons, List.map_cons, List.sum_cons]
      by_cases ho : o = op
      · subst ho
        rw [if_pos rfl, sum_of_not_mem f hno]
        grind
      · rw [if_neg ho, ih hrest (List.mem_of_ne_of_mem (fun hh => ho hh.symm) h)]
        grind

theorem ofNat_sum (l : List Opcode) (f : Opcode → BitVec 64) :
    BitVec.ofNat 64 ((l.map (fun o => (f o).toNat)).sum) = (l.map f).sum := by
  induction l with
  | nil => rfl
  | cons o rest ih =>
      rw [List.map_cons, List.sum_cons, List.map_cons, List.sum_cons, BitVec.ofNat_add, ih]
      simp

/-! ## The ledger remembers the past -/

/-- What the ledger holds is determined by the past. -/
structure History (past : List (Ctl (State ω Profile))) (c : Ctl (State ω Profile))
    (L : Ledger) : Prop where
  top : topOf c.state.prof = L.stack.head?
  stacked : ∀ f ∈ L.stack, EverTop f past c
  entered : ∀ f, EverTop f past c →
    L.row f = some (fun o => BitVec.ofNat 64 (dispatchesIn f o past))
  others : ∀ f, ¬ EverTop f past c → L.row f = none
  counted : ∀ o, L.counts.opCounts o = BitVec.ofNat 64 (dispatches o past)
  total : L.counts.totalOpCount = (opcodes.map L.counts.opCounts).sum

variable {past : List (Ctl (State ω Profile))} {c c' : Ctl (State ω Profile)}
  {L L' : Ledger} {cm : Ctl (Machine ω)}

theorem everTop_cons {f : CodePtr} : EverTop f (c :: past) c' ↔
    topOf c'.state.prof = some f ∨ EverTop f past c := by
  unfold EverTop
  constructor
  · rintro ⟨d, hd, ht⟩
    rcases List.mem_cons.mp hd with rfl | hd
    · exact Or.inl ht
    · exact Or.inr ⟨d, hd, ht⟩
  · rintro (ht | ⟨d, hd, ht⟩)
    · exact ⟨c', List.mem_cons_self, ht⟩
    · exact ⟨d, List.mem_cons_of_mem _ hd, ht⟩

/-- A function that was never on top was charged nothing. -/
theorem dispatchesIn_eq_zero {f : CodePtr} (h : ¬ EverTop f past c) (o : Opcode) :
    dispatchesIn f o (c :: past) = 0 := by
  unfold dispatchesIn
  rw [List.countP_eq_zero]
  intro d hd hp
  rw [Bool.and_eq_true, decide_eq_true_iff] at hp
  exact h ⟨d, hd, hp.2⟩

/-- The rows and the stack after a posting, in one form for its three cases. -/
theorem posts_spec (h : Posts cm L L') : L'.counts = L.counts ∧
    (∀ g, L'.row g =
      if L'.stack.head? = some g then some ((L.row g).getD Row.zero) else L.row g) ∧
    ∀ g ∈ L'.stack, g ∈ L.stack ∨ L'.stack.head? = some g := by
  -- a function on the stack has a row already
  have hknown : ∀ {M : Ledger} {g : CodePtr}, M.stack.head? = some g →
      M.row g = some ((M.row g).getD Row.zero) := by
    intro M g hg
    obtain ⟨r, hr⟩ := Option.isSome_iff_exists.mp (M.known g (List.mem_of_mem_head? hg)).2
    rw [hr]
    rfl
  cases h with
  | stay =>
      refine ⟨rfl, fun g => ?_, fun g hg => Or.inl hg⟩
      split
      · rename_i hg
        exact hknown hg
      · rfl
  | apply hf _ =>
      refine ⟨rfl, fun g => rfl, fun g hg => ?_⟩
      have hg' : g ∈ L.pushed _ := hg
      show _ ∨ (L.pushed _).head? = some g
      unfold Ledger.pushed at hg' ⊢
      split at hg'
      · rename_i hroom
        rw [if_pos hroom]
        rcases List.mem_cons.mp hg' with rfl | hg'
        · exact Or.inr rfl
        · exact Or.inl hg'
      · exact Or.inl hg'
  | refused =>
      refine ⟨rfl, fun g => ?_, fun g hg => Or.inl hg⟩
      split
      · rename_i hg
        exact hknown hg
      · rfl
  | ret =>
      refine ⟨rfl, fun g => ?_, fun g hg => Or.inl (List.mem_of_mem_tail hg)⟩
      split
      · rename_i hg
        exact hknown (M := L.ret) hg
      · rfl

/-- The row of a function after the fetch. -/
theorem fetch_row (h : History past c L) {f : CodePtr} (hf : EverTop f past c) :
    (fetch (machineOf c) L).row f
      = some (fun o => BitVec.ofNat 64 (dispatchesIn f o (c :: past))) := by
  have hrow := h.entered f hf
  unfold fetch
  cases hop : fetching (machineOf c) with
  | none =>
      show L.row f = _
      rw [hrow]
      congr 1
      funext o
      unfold dispatchesIn
      rw [List.countP_cons_of_neg (by simp [fetches, hop])]
  | some op =>
      show (if L.stack.head? = some f then (L.row f).map (fun r => r.bump op) else L.row f) = _
      rw [← h.top, hrow]
      by_cases ht : topOf c.state.prof = some f
      · rw [if_pos ht]
        show some _ = some _
        congr 1
        funext o
        show (if o = op then BitVec.ofNat 64 (dispatchesIn f o past) + 1#64
          else BitVec.ofNat 64 (dispatchesIn f o past)) = _
        unfold dispatchesIn
        by_cases ho : o = op
        · subst ho
          rw [if_pos rfl, List.countP_cons_of_pos (by simp [fetches, hop, ht]), BitVec.ofNat_add]
        · rw [if_neg ho, List.countP_cons_of_neg
            (by simp [fetches, hop]; exact fun hh => absurd hh.symm ho)]
      · rw [if_neg ht]
        congr 1
        funext o
        unfold dispatchesIn
        rw [List.countP_cons_of_neg (by simp [ht])]

/-- A row is not opened by a fetch. -/
theorem fetch_row_none (h : History past c L) {f : CodePtr} (hf : ¬ EverTop f past c) :
    (fetch (machineOf c) L).row f = none := by
  have hrow := h.others f hf
  unfold fetch
  split
  · show (if L.stack.head? = some f then (L.row f).map _ else L.row f) = none
    rw [hrow]
    split <;> rfl
  · exact hrow

theorem fetch_stack (cm : Ctl (Machine ω)) (L : Ledger) : (fetch cm L).stack = L.stack := by
  unfold fetch
  split <;> rfl

/-- The global counters after the fetch. -/
theorem fetch_counts (h : History past c L) :
    (∀ o, (fetch (machineOf c) L).counts.opCounts o
      = BitVec.ofNat 64 (dispatches o (c :: past))) ∧
    (fetch (machineOf c) L).counts.totalOpCount
      = (opcodes.map (fetch (machineOf c) L).counts.opCounts).sum := by
  unfold fetch
  cases hop : fetching (machineOf c) with
  | none =>
      refine ⟨fun o => ?_, h.total⟩
      show L.counts.opCounts o = _
      rw [h.counted o]
      unfold dispatches
      rw [List.countP_cons_of_neg (by simp [fetches, hop])]
  | some op =>
      refine ⟨fun o => ?_, ?_⟩
      · show (if o = op then L.counts.opCounts o + 1#64 else L.counts.opCounts o) = _
        rw [h.counted o]
        unfold dispatches
        by_cases ho : o = op
        · subst ho
          rw [if_pos rfl, List.countP_cons_of_pos (by simp [fetches, hop]), BitVec.ofNat_add]
        · rw [if_neg ho, List.countP_cons_of_neg
            (by simp [fetches, hop]; exact fun hh => ho hh.symm)]
      · show L.counts.totalOpCount + 1#64 = (opcodes.map
          (fun o => if o = op then L.counts.opCounts o + 1#64 else L.counts.opCounts o)).sum
        rw [sum_bump _ opcodes_nodup (mem_opcodes op), h.total]

/-- **ONE STEP** extends the history. -/
theorem history_step (h : History past c L) (hL' : Refines c'.state.prof L')
    (hpost : Posts (machineOf c) (fetch (machineOf c) L) L') :
    History (c :: past) c' L' := by
  obtain ⟨hcounts, hrow, hstack⟩ := posts_spec hpost
  have htop := topOf_eq hL'
  obtain ⟨hcounted, htotal⟩ := fetch_counts h
  refine ⟨htop, ?_, ?_, ?_, ?_, ?_⟩
  · intro f hf
    rw [everTop_cons, htop]
    rcases hstack f hf with hold | hnew
    · rw [fetch_stack] at hold
      exact Or.inr (h.stacked f hold)
    · exact Or.inl hnew
  · intro f hf
    rw [hrow f]
    by_cases hever : EverTop f past c
    · rw [fetch_row h hever]
      split <;> rfl
    · rcases everTop_cons.mp hf with ht | hold
      · rw [if_pos (htop ▸ ht), fetch_row_none h hever]
        show some Row.zero = _
        congr 1
        funext o
        rw [dispatchesIn_eq_zero hever o]
        rfl
      · exact absurd hold hever
  · intro f hf
    rw [everTop_cons, not_or] at hf
    rw [hrow f, if_neg (htop ▸ hf.1), fetch_row_none h hf.2]
  · intro o
    rw [hcounts]
    exact hcounted o
  · rw [hcounts]
    exact htotal

/-- What the ledger remembers is what the C structures hold. -/
theorem matrix_of_history (hL : Refines c.state.prof L) (h : History past c L) :
    Matrix Modulo past c := by
  obtain ⟨t, addr, hb, hrow⟩ := hL.books
  refine ⟨?_, ?_, ?_, ?_⟩
  · intro f hf
    have hr := (hrow f).symm.trans (h.entered f hf)
    obtain ⟨a, ha, har⟩ := Option.bind_eq_some_iff.mp hr
    exact ⟨t, a, _, hb.table, by rw [hb.keys.htGet_eq, ha], har, fun o => rfl⟩
  · intro f hf
    refine ⟨t, hb.table, ?_⟩
    rw [hb.keys.htGet_eq]
    cases ha : addr f with
    | none => rfl
    | some a =>
        obtain ⟨r, hr⟩ := hb.live f a ha
        have hnone := (hrow f).symm.trans (h.others f hf)
        rw [ha] at hnone
        exact nomatch hr.symm.trans hnone
  · intro o
    rw [hL.counts_eq]
    exact h.counted o
  · show _ = _
    rw [ofNat_sum, hL.counts_eq]
    exact h.total

/-- **THE PROFILE MATRIX**: at every point of every run in which memory is
    granted and applied closures have code, each counter equals, modulo 2^64,
    the number of dispatches it stands for, and exactly the functions that were
    on top have counters. -/
theorem profile_matrix (rt : Runtime ω) (act : Activation) (m : Machine ω)
    (a : Allocator) (p₀ : Profile) (h0 : initProfile a = .ok p₀)
    (past : List (Ctl (State ω Profile))) (c : Ctl (State ω Profile))
    (hrun : Run (step debug rt act) (start m p₀) past c)
    (hgr : ∀ d ∈ c :: past, Granted d) : Matrix Modulo past c := by
  have hstart : Refines p₀ (Ledger.fresh 1024 (by decide)) →
      History [] (start m p₀) (Ledger.fresh 1024 (by decide)) := by
    intro hfresh
    have htop : topOf (start m p₀).state.prof = none := topOf_eq hfresh
    have hnever : ∀ f, ¬ EverTop f [] (start m p₀) := by
      rintro f ⟨d, hd, ht⟩
      rw [List.mem_singleton.mp hd, htop] at ht
      exact nomatch ht
    refine ⟨htop, fun f hf => (nomatch hf), fun f hf => absurd hf (hnever f),
      fun f _ => rfl, fun o => rfl, ?_⟩
    decide +kernel
  obtain ⟨L, hL, hist⟩ := ledger_of_run (P := History) h0 hstart
    (fun _ _ _ _ _ hist _ hL' _ hpost => history_step hist hL' hpost) hrun hgr
  exact matrix_of_history hL hist

set_option maxRecDepth 8000 in
/-- The matrix after one call of a function that was not known before. -/
theorem profile_matrix_call : ∃ c,
    step debug quiet soleActivation (start callMachine newProfile) = .ok c ∧
      Matrix Modulo [start callMachine newProfile] c := by
  have hstep : step debug quiet soleActivation (start callMachine newProfile)
      = .ok (.checkStacks _) :=
    (step_of_isEmpty (m := callMachine) (decode_code .APPLY1) rfl rfl).trans rfl
  refine ⟨_, hstep, profile_matrix quiet soleActivation callMachine granting newProfile rfl _ _
    (Run.snoc Run.start hstep) ?_⟩
  intro d hd
  rcases List.mem_cons.mp hd with rfl | hd
  · rfl
  · rw [List.mem_singleton.mp hd]
    rfl

/-! ## The counters wrap -/

/-- `BRANCH` to itself, at 0x1000. -/
def spinMachine : Machine Unit where
  pc := 0x1000#64
  sp := []
  accu := valInt 0
  env := .atom 0
  extraArgs := 0#63
  mem :=
    { heap := CellStore.Store.empty
      code := assemble 0x1000#64 [Opcode.BRANCH.code, -1#32]
      globalData := valUnit
      raiseUnhandled := valUnit }
  dom := domainOf [mainStack] 0

/-- The profile of the loop, up to its global counters. -/
def spinProfile (counts : OpCounts) : Profile := { newProfile with counts := counts }

theorem decode_spinMachine : decode spinMachine.operand = some .BRANCH :=
  decode_code .BRANCH

theorem spin_step (counts : OpCounts) :
    step debug quiet soleActivation (start spinMachine (spinProfile counts))
      = .ok (start spinMachine (spinProfile (counts.bump .BRANCH))) := by
  have hpc : spinMachine.toCore.advance.codeAt spinMachine.toCore.advance.operand
      = 0x1000#64 := by decide +kernel
  rw [step_of_isEmpty decode_spinMachine rfl rfl]
  show Except.ok (Ctl.next (State.mk { spinMachine with
    pc := spinMachine.toCore.advance.codeAt spinMachine.toCore.advance.operand } _)) = _
  rw [hpc]
  rfl

/-- The loop can be followed for any number of rounds. -/
theorem spin_run (n : Nat) : ∃ counts past,
    Run (step debug quiet soleActivation) (start spinMachine newProfile) past
      (start spinMachine (spinProfile counts)) ∧
    counts.opCounts .BRANCH = BitVec.ofNat 64 n ∧ dispatches .BRANCH past = n ∧
    ∀ d ∈ start spinMachine (spinProfile counts) :: past, Granted d ∧ AppliesCode d := by
  have hgood : ∀ counts, Granted (start spinMachine (spinProfile counts)) ∧
      AppliesCode (start spinMachine (spinProfile counts)) := by
    intro counts
    refine ⟨rfl, fun f hf => ?_⟩
    have hnone : applied (machineOf (start spinMachine (spinProfile counts))) = none := by
      simp [applied, executing, machineOf, start, Ctl.map, decode_spinMachine, isApply]
    cases hnone.symm.trans hf
  induction n with
  | zero =>
      refine ⟨OpCounts.zero, [], Run.start, rfl, rfl, fun d hd => ?_⟩
      rw [List.mem_singleton.mp hd]
      exact hgood _
  | succ n ih =>
      obtain ⟨counts, past, hrun, hcount, hdis, hall⟩ := ih
      refine ⟨_, _, Run.snoc hrun (spin_step counts), ?_, ?_, ?_⟩
      · show counts.opCounts .BRANCH + 1#64 = _
        rw [hcount, ← BitVec.ofNat_add]
      · unfold dispatches at hdis ⊢
        have hf : fetches .BRANCH (start spinMachine (spinProfile counts)) = true :=
          decide_eq_true decode_spinMachine
        rw [List.countP_cons_of_pos hf, hdis]
      · intro d hd
        rcases List.mem_cons.mp hd with rfl | hd
        · exact hgood _
        · exact hall d hd

/-- After 2^64 rounds the counter of `BRANCH` is 0 again. -/
theorem profile_matrix_wraps : ¬ (∀ past c,
    Run (step debug quiet soleActivation) (start spinMachine newProfile) past c →
    (∀ d ∈ c :: past, Granted d) → (∀ d ∈ past, AppliesCode d) →
    Matrix Exactly past c) := by
  intro hall
  obtain ⟨counts, past, hrun, hcount, hdis, hgood⟩ := spin_run (2 ^ 64)
  have hm := hall past _ hrun (fun d hd => (hgood d hd).1)
    (fun d hd => (hgood d (List.mem_cons_of_mem _ hd)).2)
  have hc : (counts.opCounts .BRANCH).toNat = dispatches .BRANCH past := hm.counted .BRANCH
  rw [hcount, hdis, BitVec.toNat_ofNat, Nat.mod_self] at hc
  exact absurd hc (by decide)

end CamlMatrix
