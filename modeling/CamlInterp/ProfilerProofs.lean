import CamlInterp.FuncStackProofs
import CamlInterp.HashTableProofs
import CamlInterp.UpstreamProofs
import CamlInterp.InterpProofs

/-! # The profiler

    The code `#ifdef DEBUG` adds to `interp.c`: every opcode dispatched is
    counted globally and in the array of the function on top of
    `local_func_stack`; the arrays hang off `func_hash_table`.

    A `Ledger` is what that is for: a bounded stack of functions and a row of
    counters for each function that was ever on top.  Each hook refines one
    operation of the ledger, whatever the table has to do for it. -/

namespace CamlProfiler

open CellStore CamlValue CamlOpcode CamlMachine CamlFuncStack CamlHashTable CamlUpstream
open CamlInterp (Hooks)

variable {ω : Type}

/-- A row of `FIRST_UNIMPLEMENTED_OP` counters. -/
abbrev Row := Opcode → BitVec 64

/-- After `memset`. -/
def Row.zero : Row := fun _ => 0#64

/-- `row[op]++`. -/
def Row.bump (r : Row) (op : Opcode) : Row := fun o => if o = op then r o + 1#64 else r o

/-- The locals of `caml_interprete` under DEBUG, and what they point to. -/
structure Profile where
  counts : OpCounts
  localFuncStack : FunctionStack
  /-- NULL when `ht_create` failed -/
  funcHashTable : Option (Ht Nat)
  /-- the arrays obtained from `malloc` -/
  arrays : Store Row
  alloc : Allocator

/-- `FIRST_UNIMPLEMENTED_OP * sizeof(unsigned long)`. -/
def sizeofRow : Nat := firstUnimplementedOp * 8

/-- `assert(b)`. -/
def assert (b : Bool) : C Unit := if b then .ok () else .error .assertFailed

/-- `ht_curr_inc_opcount(func_hash_table, local_func_stack, opcode)`. -/
def htCurrIncOpcount (p : Profile) (opcode : OpcodeWord) : C Profile := do
  let currFunc ← peek p.localFuncStack
  assert (currFunc ≠ nullCode)
  let table ← orUndefined p.funcHashTable
  let found ← htGet table currFunc
  assert found.isSome
  let array ← orUndefined found
  match decode opcode with
  | some op =>
      let row ← orUndefined (p.arrays.get array)
      .ok { p with arrays := p.arrays.put array (row.bump op) }
  | none => if opcode.toInt < 0 then .error .undefined else .ok p

/-- `array_alloc_op_counts(func_hash_table, local_func_stack)`. -/
def arrayAllocOpCounts (p : Profile) : C Profile := do
  let currFunc ← peek p.localFuncStack
  let table ← orUndefined p.funcHashTable
  let found ← htGet table currFunc
  if found.isSome then .ok p
  else
    let (granted, alloc) := p.alloc.request sizeofRow
    assert (currFunc ≠ nullCode)
    if granted then
      let (_, table, alloc) ← htSet alloc table currFunc (some p.arrays.fresh)
      .ok { p with
        funcHashTable := some table, arrays := p.arrays.alloc Row.zero, alloc := alloc }
    else .ok { p with alloc := alloc }

/-- The DEBUG block at the top of the loop. -/
def onDispatch (m : Machine ω) (p : Profile) : C Profile := do
  checkSp m
  if m.operand.toInt < firstUnimplementedOp then
    let p := { p with counts := ← p.counts.count m.operand }
    if isEmpty p.localFuncStack then .ok p else htCurrIncOpcount p m.operand
  else .ok p

/-- The DEBUG block of the four apply instructions. -/
def onApply (pc : CodePtr) (p : Profile) : C Profile := do
  let (_, stack) ← funcStackPush p.localFuncStack pc
  arrayAllocOpCounts { p with localFuncStack := stack }

/-- The DEBUG blocks of `RETURN`. -/
def onReturn (p : Profile) : C Profile := do
  let (_, stack) ← funcStackPop p.localFuncStack
  .ok { p with localFuncStack := stack }

/-- The DEBUG build. -/
def debug : Hooks ω Profile where
  onDispatch := onDispatch
  onApply := onApply
  onReturn := onReturn

/-- `create_func_stack(1024)`, when both `malloc`s succeed. -/
def localFuncStackSize : BitVec 64 := 1024#64

/-- The DEBUG block before the loop. -/
def initProfile (a : Allocator) : C Profile :=
  let (granted, a) := a.request sizeofRow
  if granted then
    let (granted, a) := a.request (1024 * 8)
    if granted then
      let (granted, a) := a.request 40
      if granted then
        let (table, a) := htCreate a
        .ok ⟨OpCounts.zero, createFuncStack localFuncStackSize, table, Store.empty, a⟩
      else .error .exited
    else .error .exited
  else .error .exited

/-! ## The ledger -/

/-- A bounded stack of functions and their rows.  Every function on the stack
    has a code pointer and a row. -/
structure Ledger where
  counts : OpCounts
  max : Nat
  stack : List CodePtr
  row : CodePtr → Option Row
  pos : 0 < max
  bounded : stack.length ≤ max
  known : ∀ f ∈ stack, f ≠ nullCode ∧ (row f).isSome = true

namespace Ledger

/-- Count one dispatch of `op`, and charge it to the function on top. -/
def charge (L : Ledger) (op : Opcode) : Ledger where
  counts := L.counts.bump op
  max := L.max
  stack := L.stack
  row := fun f => if L.stack.head? = some f then (L.row f).map (fun r => r.bump op) else L.row f
  pos := L.pos
  bounded := L.bounded
  known := by
    intro f hf
    refine ⟨(L.known f hf).1, ?_⟩
    split
    · rw [Option.isSome_map]
      exact (L.known f hf).2
    · exact (L.known f hf).2

/-- The stack after an attempt to push. -/
def pushed (L : Ledger) (f : CodePtr) : List CodePtr :=
  if L.stack.length < L.max then f :: L.stack else L.stack

/-- Enter `f`: push it if there is room, and open a row for the function on
    top if it has none. -/
def apply (L : Ledger) (f : CodePtr) (hf : f ≠ nullCode) : Ledger where
  counts := L.counts
  max := L.max
  stack := L.pushed f
  row := fun g =>
    if (L.pushed f).head? = some g then some ((L.row g).getD Row.zero) else L.row g
  pos := L.pos
  bounded := by
    unfold pushed
    split
    · rename_i h
      exact h
    · exact L.bounded
  known := by
    intro g hg
    unfold pushed at hg ⊢
    by_cases hroom : L.stack.length < L.max
    · rw [if_pos hroom] at hg ⊢
      by_cases hgf : f = g
      · subst hgf
        exact ⟨hf, by simp⟩
      · obtain ⟨h0, h1⟩ := L.known g (List.mem_of_ne_of_mem (fun h => hgf h.symm) hg)
        refine ⟨h0, ?_⟩
        rw [if_neg (fun h : (f :: L.stack).head? = some g => hgf (Option.some.inj h))]
        exact h1
    · rw [if_neg hroom] at hg ⊢
      refine ⟨(L.known g hg).1, ?_⟩
      split
      · rfl
      · exact (L.known g hg).2

/-- Leave the function on top. -/
def ret (L : Ledger) : Ledger where
  counts := L.counts
  max := L.max
  stack := L.stack.tail
  row := L.row
  pos := L.pos
  bounded := by
    rw [List.length_tail]
    have := L.bounded
    omega
  known := fun f hf => L.known f (List.mem_of_mem_tail hf)

/-- Nothing counted and nothing entered. -/
def fresh (max : Nat) (h : 0 < max) : Ledger where
  counts := OpCounts.zero
  max := max
  stack := []
  row := fun _ => none
  pos := h
  bounded := Nat.zero_le _
  known := fun _ hf => nomatch hf

end Ledger

/-! ## The hooks refine the ledger -/

/-- The arrays behind a table: which array belongs to which function. -/
structure Books (p : Profile) (t : Ht Nat) (addr : CodePtr → Option Nat) : Prop where
  table : p.funcHashTable = some t
  keys : CamlHashTable.Represents t addr
  live : ∀ f a, addr f = some a → ∃ r, p.arrays.get a = some r
  separate : ∀ f g a, addr f = some a → addr g = some a → f = g

/-- The profile holds exactly what the ledger says. -/
structure Refines (p : Profile) (L : Ledger) : Prop where
  counts_eq : p.counts = L.counts
  max_eq : p.localFuncStack.maxItems.toNat = L.max
  stack : CamlFuncStack.Represents p.localFuncStack L.stack
  books : ∃ t addr, Books p t addr ∧ ∀ f, L.row f = (addr f).bind p.arrays.get

variable {p : Profile} {L : Ledger}

/-- The profile before the loop refines the fresh ledger. -/
theorem refines_init {a : Allocator} (h : initProfile a = .ok p)
    (hf : p.alloc.failed = false) :
    Refines p (Ledger.fresh 1024 (by decide)) := by
  unfold initProfile at h
  simp only at h
  split at h
  · split at h
    · split at h
      · obtain rfl := Except.ok.inj h
        refine ⟨rfl, rfl, represents_create (by decide), ?_⟩
        obtain ⟨t, ht, hrep⟩ := htCreate_spec hf
        exact ⟨t, fun _ => none,
          ⟨ht, hrep, fun _ _ h => (nomatch h), fun _ _ _ h => (nomatch h)⟩, fun _ => rfl⟩
      · exact nomatch h
    · exact nomatch h
  · exact nomatch h

/-- The function on top is a key, and its array is live. -/
theorem Books.top {t : Ht Nat} {addr : CodePtr → Option Nat} (hb : Books p t addr)
    (hrow : ∀ f, L.row f = (addr f).bind p.arrays.get) {f : CodePtr} (hf : f ∈ L.stack) :
    ∃ a r, addr f = some a ∧ p.arrays.get a = some r ∧ L.row f = some r := by
  have hk := (L.known f hf).2
  rw [hrow f] at hk
  cases ha : addr f with
  | none => rw [ha] at hk; exact nomatch hk
  | some a =>
      obtain ⟨r, hr⟩ := hb.live f a ha
      exact ⟨a, r, rfl, hr, by rw [hrow f, ha]; exact hr⟩

/-- The increment, when the function on top has a live array. -/
theorem htCurrIncOpcount_eq {t : Ht Nat} {f : CodePtr} {a : Nat} {r : Row} {op : Opcode}
    {w : OpcodeWord} (hpeek : peek p.localFuncStack = .ok f) (hf : f ≠ nullCode)
    (ht : p.funcHashTable = some t) (hget : htGet t f = .ok (some a))
    (hr : p.arrays.get a = some r) (hop : decode w = some op) :
    htCurrIncOpcount p w = .ok { p with arrays := p.arrays.put a (r.bump op) } := by
  unfold htCurrIncOpcount
  simp [hpeek, ht, hget, hr, hop, orUndefined, assert, bind, Except.bind, hf]

/-- **DISPATCH**: the block at the top of the loop charges the opcode. -/
theorem Refines.onDispatch_spec (h : Refines p L) {m : Machine ω} {op : Opcode}
    (hsp : checkSp m = .ok ()) (hop : decode m.operand = some op) :
    ∃ p', onDispatch m p = .ok p' ∧ p'.alloc = p.alloc ∧ Refines p' (L.charge op) := by
  unfold onDispatch
  simp only [hsp, bind, Except.bind, if_pos (toInt_lt_of_decode hop), OpCounts.count, hop]
  obtain ⟨t, addr, hb, hrow⟩ := h.books
  cases hstack : L.stack with
  | nil =>
      rw [if_pos (h.stack.isEmpty_iff.mpr hstack)]
      refine ⟨_, rfl, rfl, ?_, h.max_eq, h.stack, t, addr,
        ⟨hb.table, hb.keys, hb.live, hb.separate⟩, ?_⟩
      · show p.counts.bump op = L.counts.bump op
        rw [h.counts_eq]
      · intro f
        show (if L.stack.head? = some f then _ else L.row f) = _
        rw [hstack, if_neg (fun hf => nomatch hf)]
        exact hrow f
  | cons f rest =>
      have hmem : f ∈ L.stack := by rw [hstack]; exact List.mem_cons_self
      obtain ⟨a, r, ha, hr, hrowf⟩ := hb.top hrow hmem
      have hpeek : peek p.localFuncStack = .ok f := by rw [h.stack.peek_eq, hstack]; rfl
      rw [if_neg (fun he => by rw [h.stack.isEmpty_iff.mp he] at hstack; exact nomatch hstack)]
      rw [htCurrIncOpcount_eq (p := { p with counts := p.counts.bump op }) hpeek
        (L.known f hmem).1 hb.table (by rw [hb.keys.htGet_eq, ha]) hr hop]
      refine ⟨_, rfl, rfl, ?_, h.max_eq, h.stack, t, addr,
        ⟨hb.table, hb.keys, ?_, hb.separate⟩, ?_⟩
      · show p.counts.bump op = L.counts.bump op
        rw [h.counts_eq]
      · intro g b hg
        by_cases hba : b = a
        · subst hba
          exact ⟨_, Store.get_put_self _ hr⟩
        · obtain ⟨r', hr'⟩ := hb.live g b hg
          exact ⟨r', by rw [Store.get_put_of_ne _ _ hba]; exact hr'⟩
      · intro g
        show (if L.stack.head? = some g then (L.row g).map (fun r => r.bump op) else L.row g)
          = (addr g).bind (p.arrays.put a (r.bump op)).get
        rw [hstack]
        by_cases hgf : f = g
        · subst hgf
          rw [if_pos List.head?_cons, hrowf, ha]
          exact (Store.get_put_self _ hr).symm
        · rw [if_neg (fun hh : (f :: rest).head? = some g => hgf (Option.some.inj hh)), hrow g]
          cases hg : addr g with
          | none => rfl
          | some b =>
              -- no other function shares the array
              have hba : b ≠ a := fun hba => hgf (hb.separate f g a ha (hba ▸ hg))
              exact (Store.get_put_of_ne _ _ hba).symm

/-- After an attempt to push, some function is on top. -/
theorem Ledger.pushed_cons (L : Ledger) {f : CodePtr} (hf : f ≠ nullCode) :
    ∃ g rest, L.pushed f = g :: rest ∧ g ≠ nullCode := by
  unfold Ledger.pushed
  by_cases hroom : L.stack.length < L.max
  · rw [if_pos hroom]
    exact ⟨f, L.stack, rfl, hf⟩
  · rw [if_neg hroom]
    cases hs : L.stack with
    | nil =>
        have hpos := L.pos
        rw [hs] at hroom
        exact absurd hpos hroom
    | cons g rest =>
        exact ⟨g, rest, rfl, (L.known g (by rw [hs]; exact List.mem_cons_self)).1⟩

/-- `func_stack_push`, whether it is refused or not. -/
theorem Refines.push_spec (h : Refines p L) (f : CodePtr) :
    ∃ r s', funcStackPush p.localFuncStack f = .ok (r, s') ∧
      s'.maxItems = p.localFuncStack.maxItems ∧
      CamlFuncStack.Represents s' (L.pushed f) := by
  unfold Ledger.pushed
  by_cases hroom : L.stack.length < L.max
  · rw [if_pos hroom]
    obtain ⟨s', hpush, hmax, hrep⟩ := h.stack.push_ok (by rw [h.max_eq]; exact hroom) f
    exact ⟨0, s', hpush, hmax, hrep⟩
  · rw [if_neg hroom]
    have hbound := L.bounded
    exact ⟨-1, _, h.stack.push_full (by rw [h.max_eq]; omega) f, rfl, h.stack⟩

/-- Binding a new array to a function keeps the arrays live and separate. -/
theorem Books.open_row {t t' : Ht Nat} {addr : CodePtr → Option Nat} (hb : Books p t addr)
    {g : CodePtr} {s' : FunctionStack} {al : Allocator}
    (hkeys : CamlHashTable.Represents t' (update addr g p.arrays.fresh)) :
    Books { p with
      localFuncStack := s', funcHashTable := some t', arrays := p.arrays.alloc Row.zero,
      alloc := al } t' (update addr g p.arrays.fresh) := by
  have hold : ∀ k a, addr k = some a → a ≠ p.arrays.fresh := by
    intro k a hk
    obtain ⟨r, hr⟩ := hb.live k a hk
    exact Nat.ne_of_lt (Store.lt_fresh_of_get hr)
  refine ⟨rfl, hkeys, ?_, ?_⟩
  · intro k a hk
    unfold update at hk
    by_cases hkg : k = g
    · rw [if_pos hkg] at hk
      rw [← Option.some.inj hk]
      exact ⟨_, Store.get_alloc_fresh _ _⟩
    · rw [if_neg hkg] at hk
      obtain ⟨r, hr⟩ := hb.live k a hk
      exact ⟨r, Store.get_alloc_of_get _ hr⟩
  · intro k l a hk hl
    unfold update at hk hl
    by_cases hkg : k = g
    · by_cases hlg : l = g
      · exact hkg.trans hlg.symm
      · rw [if_pos hkg] at hk
        rw [if_neg hlg, ← Option.some.inj hk] at hl
        exact absurd rfl (hold l _ hl)
    · rw [if_neg hkg] at hk
      by_cases hlg : l = g
      · rw [if_pos hlg] at hl
        exact absurd (Option.some.inj hl).symm (hold k a hk)
      · rw [if_neg hlg] at hl
        exact hb.separate k l a hk hl

/-- **ENTRY**: the block of the apply instructions enters the function in the
    ledger, unless an allocation fails. -/
theorem Refines.onApply_spec (h : Refines p L) {f : CodePtr} (hf : f ≠ nullCode) :
    ∃ p', onApply f p = .ok p' ∧ p'.counts = p.counts ∧
      (p'.alloc.failed = false →
        p.alloc.failed = false ∧ Refines p' (L.apply f hf)) := by
  obtain ⟨r, s', hpush, hmax, hstack⟩ := h.push_spec f
  obtain ⟨g, rest, hpushed, hg⟩ := L.pushed_cons hf
  obtain ⟨t, addr, hb, hrow⟩ := h.books
  have hpeek : peek s' = .ok g := by rw [hstack.peek_eq, hpushed]; rfl
  have hmax' : s'.maxItems.toNat = L.max := by rw [hmax]; exact h.max_eq
  have hhead : (L.pushed f).head? = some g := by rw [hpushed]; rfl
  unfold onApply arrayAllocOpCounts
  simp only [hpush, hpeek, hb.table, hb.keys.htGet_eq, orUndefined, bind, Except.bind]
  cases ha : addr g with
  | some a =>
      -- a function that was on top before keeps its array
      rw [if_pos (Option.isSome_some)]
      refine ⟨_, rfl, rfl, fun hfail => ⟨hfail, h.counts_eq, hmax', hstack, t, addr,
        ⟨rfl, hb.keys, hb.live, hb.separate⟩, fun k => ?_⟩⟩
      show (if (L.pushed f).head? = some k then some ((L.row k).getD Row.zero) else L.row k) = _
      by_cases hk : g = k
      · subst hk
        obtain ⟨row, hr⟩ := hb.live g a ha
        rw [if_pos hhead, hrow g, ha]
        simp [hr]
      · rw [hhead, if_neg (fun hh => hk (Option.some.inj hh))]
        exact hrow k
  | none =>
      rw [if_neg (by simp)]
      simp only [assert, hg, ne_eq, not_false_eq_true, decide_true, if_true]
      by_cases hgr : (p.alloc.request sizeofRow).1 = true
      · simp only [if_pos hgr]
        obtain ⟨res, t', al, hset, hcase⟩ :=
          hb.keys.htSet_spec hg p.arrays.fresh (p.alloc.request sizeofRow).2
        rw [hset]
        refine ⟨_, rfl, rfl, fun hfail => ?_⟩
        rcases hcase with ⟨-, hkeys, -, hmono⟩ | ⟨-, -, hfailed⟩
        · refine ⟨(Allocator.request_of_not_failed (hmono hfail)).1, h.counts_eq, hmax', hstack,
            t', _, hb.open_row hkeys, fun k => ?_⟩
          show (if (L.pushed f).head? = some k then some ((L.row k).getD Row.zero)
            else L.row k) = _
          rw [hhead]
          unfold update
          by_cases hk : g = k
          · subst hk
            rw [if_pos rfl, if_pos rfl, hrow g, ha]
            exact (Store.get_alloc_fresh _ _).symm
          · rw [if_neg (fun hh => hk (Option.some.inj hh)), if_neg (fun hh => hk hh.symm), hrow k]
            cases hak : addr k with
            | none => rfl
            | some b =>
                obtain ⟨row, hr⟩ := hb.live k b hak
                exact hr.trans (Store.get_alloc_of_get _ hr).symm
        · cases hfailed.symm.trans hfail
      · simp only [if_neg hgr]
        refine ⟨_, rfl, rfl, fun hfail => ?_⟩
        exact absurd (Allocator.request_of_not_failed hfail).2.1 hgr

/-- Entering a function that has a row allocates nothing. -/
theorem Refines.onApply_known (h : Refines p L) {f : CodePtr} (hf : f ≠ nullCode)
    (hrow : (L.row f).isSome = true) :
    ∃ s', onApply f p = .ok { p with localFuncStack := s' } := by
  obtain ⟨r, s', hpush, -, hstack⟩ := h.push_spec f
  obtain ⟨g, rest, hpushed, -⟩ := L.pushed_cons hf
  obtain ⟨t, addr, hb, hrows⟩ := h.books
  have hpeek : peek s' = .ok g := by rw [hstack.peek_eq, hpushed]; rfl
  have hg : (L.row g).isSome = true := by
    unfold Ledger.pushed at hpushed
    split at hpushed
    · rw [← (List.cons.inj hpushed).1]
      exact hrow
    · exact (L.known g (by rw [hpushed]; exact List.mem_cons_self)).2
  have ha : (addr g).isSome = true := by
    rw [hrows g] at hg
    cases ha : addr g with
    | none => rw [ha] at hg; exact nomatch hg
    | some a => rfl
  refine ⟨s', ?_⟩
  unfold onApply arrayAllocOpCounts
  simp only [hpush, hpeek, hb.table, hb.keys.htGet_eq, orUndefined, bind, Except.bind, ha,
    if_true]

/-- A NULL code pointer trips the assert, unless the stack is full and the
    function on top is looked up in its place. -/
theorem Refines.onApply_null (h : Refines p L) {p' : Profile}
    (hok : onApply nullCode p = .ok p') : L.max ≤ L.stack.length ∧ p' = p := by
  obtain ⟨t, addr, hb, hrow⟩ := h.books
  unfold onApply arrayAllocOpCounts at hok
  by_cases hroom : L.stack.length < L.max
  · obtain ⟨s', hpush, -, hstack⟩ := h.stack.push_ok (by rw [h.max_eq]; exact hroom) nullCode
    have hnull : addr nullCode = none := by
      rw [← hb.keys.find_eq nullCode, Option.eq_none_iff_forall_ne_some]
      intro a ha
      obtain ⟨e, ⟨-, -, hk⟩, -⟩ := (find_eq_some hb.keys.placed).mp ha
      exact (entryKey_eq_some.mp hk).2 rfl
    simp only [hpush, hstack.peek_eq, hb.table, hb.keys.htGet_eq, orUndefined, bind,
      Except.bind, List.headD_cons, hnull, assert] at hok
    cases hok
  · have hbound := L.bounded
    have hfull := h.stack.push_full (by rw [h.max_eq]; omega) nullCode
    cases hs : L.stack with
    | nil =>
        have hpos := L.pos
        rw [hs] at hroom
        exact absurd hpos hroom
    | cons g rest =>
        obtain ⟨a, r, ha, -, -⟩ := hb.top hrow (f := g) (by rw [hs]; exact List.mem_cons_self)
        have hpeek : peek p.localFuncStack = .ok g := by rw [h.stack.peek_eq, hs]; rfl
        simp only [hfull, hpeek, hb.table, hb.keys.htGet_eq, ha, orUndefined, bind,
          Except.bind, Option.isSome_some, if_true] at hok
        rw [← hs]
        refine ⟨by omega, ?_⟩
        rw [← Except.ok.inj hok, ← hb.table]

/-- **EXIT**: the block of `RETURN` leaves the function on top. -/
theorem Refines.onReturn_spec (h : Refines p L) :
    ∃ p', onReturn p = .ok p' ∧ p'.counts = p.counts ∧ p'.alloc = p.alloc ∧
      Refines p' L.ret := by
  obtain ⟨t, addr, hb, hrow⟩ := h.books
  have hbooks : ∀ s', Books { p with localFuncStack := s' } t addr :=
    fun s' => ⟨hb.table, hb.keys, hb.live, hb.separate⟩
  have hrep := h.stack
  unfold onReturn
  cases hs : L.stack with
  | nil =>
      rw [hs] at hrep
      rw [hrep.pop_empty]
      refine ⟨_, rfl, rfl, rfl, h.counts_eq, h.max_eq, ?_, t, addr, hbooks _, hrow⟩
      show CamlFuncStack.Represents p.localFuncStack L.stack.tail
      rw [hs]
      exact hrep
  | cons f rest =>
      rw [hs] at hrep
      obtain ⟨s', hpop, hmax, hrep'⟩ := hrep.pop_ok
      rw [hpop]
      refine ⟨_, rfl, rfl, rfl, h.counts_eq, ?_, ?_, t, addr, hbooks s', hrow⟩
      · show s'.maxItems.toNat = L.max
        rw [hmax]
        exact h.max_eq
      · show CamlFuncStack.Represents s' L.stack.tail
        rw [hs]
        exact hrep'

end CamlProfiler
