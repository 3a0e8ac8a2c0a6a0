import CamlInterp.SkipMapProofs
import Mathlib.Data.List.Perm.Subperm
import Mathlib.Logic.Function.Basic

/-! # Several skip lists in one memory

    The lists of a program share the allocator and the random generator.
    `Laid` says which cells each list has; an operation on one list leaves the
    cells of the others as they are, and needs no more rounds than there are
    addresses in use and levels. -/

namespace CamlSkipList

open Function (update)

variable {ι : Type}

/-- Addresses from `next` on have not been allocated. -/
structure Arena (ι : Type) where
  cells : Addr → Option Skipcell
  next : Addr
  heads : ι → Skiplist
  seed : BitVec 32

namespace Arena

/-- Lists initialised statically. -/
def init (ι : Type) : Arena ι := ⟨fun _ => none, 0, fun _ => emptyList, 0⟩

def list (A : Arena ι) (w : ι) : State := ⟨A.cells, A.heads w, A.seed⟩

def rounds (A : Arena ι) : Nat := A.next + numLevels

/-- The cells of the lists, and that they are apart. -/
structure Laid (A : Arena ι) (nodes : ι → List Node) : Prop where
  rep : ∀ w, Rep (A.list w) (nodes w)
  bound : ∀ w, ∀ x ∈ nodes w, x.addr < A.next
  apart : ∀ {w w'}, w ≠ w' → ∀ x ∈ nodes w, ∀ y ∈ nodes w', x.addr ≠ y.addr
  fresh : ∀ b, A.next ≤ b → A.cells b = none

theorem init_laid : Laid (init ι) fun _ => [] where
  rep := fun _ => emptyList_rep _ _
  bound := fun _ _ hx => absurd hx List.not_mem_nil
  apart := fun _ _ hx => absurd hx List.not_mem_nil
  fresh := fun _ _ => rfl

variable {A : Arena ι} {nodes : ι → List Node}

theorem Laid.rounds (h : Laid A nodes) (w : ι) : (nodes w).length + numLevels ≤ A.rounds := by
  have hsub : (nodes w).map Node.addr ⊆ List.range A.next := by
    intro a ha
    obtain ⟨x, hx, rfl⟩ := List.mem_map.mp ha
    exact List.mem_range.mpr (h.bound w x hx)
  have hlen := ((h.rep w).linked.addrs.subperm hsub).length_le
  rw [List.length_map, List.length_range] at hlen
  exact Nat.add_le_add_right hlen _

/-! ## Lookup and traversals -/

def find (w : ι) (key : Nat) (A : Arena ι) : Option (Option Nat) :=
  CamlSkipList.find A.rounds (A.list w) key

theorem find_laid (h : Laid A nodes) (w : ι) (key : Nat) :
    A.find w key = some (lookup (nodes w) key) :=
  find_rep (h.rep w) (h.rounds w)

/-- `FOREACH_SKIPLIST_ELEMENT`: the pointer to the next cell is read before the
    action, which may use the key and the data. -/
def foreachFrom {σ : Type} (arena : σ → Arena ι) (action : Nat → Nat → σ → Option σ) :
    Nat → Link → σ → Option σ
  | _, none, s => some s
  | 0, some _, _ => none
  | n + 1, some a, s => do
      let e ← (arena s).cells a
      let next ← e.forward[0]?
      foreachFrom arena action n next (← action e.key e.data s)

def foreach {σ : Type} (arena : σ → Arena ι) (w : ι) (action : Nat → Nat → σ → Option σ) (s : σ) :
    Option σ := do
  foreachFrom arena action (arena s).rounds (← ((arena s).heads w).forward[0]?) s

/-- An invariant over the elements visited is kept along a traversal, when the
    action leaves the elements that are still to come where they are; it may
    remove the current one. -/
theorem foreach_inv {σ : Type} (arena : σ → Arena ι) (w : ι) (action : Nat → Nat → σ → Option σ)
    {l : List Node} (I : List Node → σ → Prop) {s : σ} (h0 : I [] s)
    (hstart : ∃ nodes, Laid (arena s) nodes ∧ nodes w = l)
    (hlaid : ∀ {done rest s}, l = done ++ rest → I done s →
      ∃ nodes kept, Laid (arena s) nodes ∧ nodes w = kept ++ rest)
    (hact : ∀ {done nd rest s}, l = done ++ nd :: rest → I done s →
      ∃ s', action nd.key nd.data s = some s' ∧ I (done ++ [nd]) s') :
    ∃ s', foreach arena w action s = some s' ∧ I l s' := by
  have hfrom : ∀ rest done n s, l = done ++ rest → I done s → rest.length ≤ n →
      ∃ s', foreachFrom arena action n (nextAt 0 rest) s = some s' ∧ I l s' := by
    intro rest
    induction rest with
    | nil =>
        intro done n s hl hI _
        rw [List.append_nil] at hl
        refine ⟨s, ?_, hl ▸ hI⟩
        cases n <;> rfl
    | cons nd rest ih =>
        intro done n s hl hI hn
        cases n with
        | zero => exact absurd hn (Nat.not_succ_le_zero _)
        | succ n =>
            obtain ⟨nodes, kept, hn1, hw⟩ := hlaid hl hI
            have hrep := hn1.rep w
            rw [hw] at hrep
            obtain ⟨hlo, hhi, -⟩ := hrep.whole nd (by simp)
            have hat : nd.At 0 := ⟨Nat.le_of_eq hlo, hhi⟩
            obtain ⟨c, hcell, hkey, hdata, -, hf⟩ := hrep.linked.chain.holds
            have hcell : (arena s).cells nd.addr = some c := hcell
            obtain ⟨s1, hs1, hI1⟩ := hact hl hI
            obtain ⟨s', hs', hI'⟩ := ih (done ++ [nd]) n s1 (by simpa using hl) hI1
              (Nat.le_of_succ_le_succ hn)
            refine ⟨s', ?_, hI'⟩
            rw [nextAt, if_pos hat, foreachFrom]
            simp [hcell, hf 0 hat, hkey, hdata, hs1, hs']
  obtain ⟨nodes, hn, hw⟩ := hstart
  have hhead := (hn.rep w).linked.head 0 (by decide)
  rw [hw] at hhead
  obtain ⟨s', hs', hI⟩ := hfrom l [] _ s rfl h0
    (Nat.le_of_add_right_le (hw ▸ hn.rounds w))
  refine ⟨s', ?_, hI⟩
  unfold foreach
  have hfwd : ((arena s).heads w).forward[0]? = some (nextAt 0 l) := hhead
  rw [hfwd]
  exact hs'

/-! ## Operations -/

variable [DecidableEq ι]

def put (A : Arena ι) (w : ι) (st : State) : Arena ι :=
  { A with cells := st.cells, heads := update A.heads w st.sk, seed := st.seed }

def insert (w : ι) (key data : Nat) (A : Arena ι) : Option (Bool × Arena ι) := do
  let (b, st) ← CamlSkipList.insert A.rounds A.next key data (A.list w)
  return (b, { A.put w st with next := A.next + 1 })

def remove (w : ι) (key : Nat) (A : Arena ι) : Option (Bool × Arena ι) := do
  let (b, st) ← CamlSkipList.remove A.rounds key (A.list w)
  return (b, A.put w st)

def empty (w : ι) (A : Arena ι) : Option (Arena ι) := do
  return A.put w (← CamlSkipList.empty A.rounds (A.list w))

theorem rep_congr {st st' : State} {l : List Node} (h : Rep st l) (hsk : st'.sk = st.sk)
    (hc : ∀ x ∈ l, st'.cells x.addr = st.cells x.addr) : Rep st' l where
  linked := ⟨hsk ▸ h.linked.length, hsk ▸ h.linked.head, h.linked.chain.congr hc, h.linked.addrs,
    h.linked.below⟩
  whole := hsk ▸ h.whole
  level := hsk ▸ h.level
  sorted := h.sorted

/-- An operation on list `w` whose cells then are `l`: it touches cells of that
    list only, or one that is new. -/
theorem Laid.put (h : Laid A nodes) {w : ι} {st : State} {l : List Node} {next : Addr}
    (hrep : Rep st l) (hnext : A.next ≤ next)
    (hl : ∀ x ∈ l, x.addr < next ∧ (A.next ≤ x.addr ∨ ∃ y ∈ nodes w, y.addr = x.addr))
    (hfr : ∀ b, (∀ x ∈ nodes w, x.addr ≠ b) → b < A.next ∨ next ≤ b → st.cells b = A.cells b) :
    Laid { A.put w st with next := next } (update nodes w l) where
  rep := by
    intro v
    by_cases hv : v = w
    · subst hv
      rw [Function.update_self]
      refine rep_congr hrep ?_ fun _ _ => rfl
      exact Function.update_self ..
    · rw [Function.update_of_ne hv]
      refine rep_congr (h.rep v) ?_ fun x hx => ?_
      · exact Function.update_of_ne hv ..
      · exact hfr _ (fun y hy => h.apart (Ne.symm hv) y hy x hx) (.inl (h.bound v x hx))
  bound := by
    intro v x hx
    by_cases hv : v = w
    · subst hv
      rw [Function.update_self] at hx
      exact (hl x hx).1
    · rw [Function.update_of_ne hv] at hx
      exact Nat.lt_of_lt_of_le (h.bound v x hx) hnext
  apart := by
    have hmain : ∀ {v}, v ≠ w → ∀ x ∈ l, ∀ y ∈ nodes v, x.addr ≠ y.addr := by
      intro v hv x hx y hy heq
      rcases (hl x hx).2 with hnew | ⟨z, hz, hzx⟩
      · exact Nat.not_lt_of_le hnew (heq ▸ h.bound v y hy)
      · exact h.apart (Ne.symm hv) z hz y hy (hzx.trans heq)
    intro v v' hne x hx y hy
    by_cases hv : v = w
    · subst hv
      rw [Function.update_self] at hx
      rw [Function.update_of_ne (Ne.symm hne)] at hy
      exact hmain (Ne.symm hne) x hx y hy
    · rw [Function.update_of_ne hv] at hx
      by_cases hv' : v' = w
      · subst hv'
        rw [Function.update_self] at hy
        exact (hmain hv y hy x hx).symm
      · rw [Function.update_of_ne hv'] at hy
        exact h.apart hne x hx y hy
  fresh := by
    intro b hb
    have hb' : A.next ≤ b := Nat.le_trans hnext hb
    exact (hfr b (fun x hx => Nat.ne_of_lt (Nat.lt_of_lt_of_le (h.bound w x hx) hb'))
      (.inr hb)).trans (h.fresh b hb')

/-- An insertion in one list leaves the others alone. -/
theorem insert_laid (h : Laid A nodes) (w : ι) (key data : Nat) :
    ∃ A' l, A.insert w key data = some ((lookup (nodes w) key).isSome, A') ∧
      Laid A' (update nodes w l) ∧
      ∀ k, lookup l k = if k = key then some data else lookup (nodes w) k := by
  obtain ⟨st, l, heq, hrep, hlook, hmem, hfr⟩ :=
    insert_rep key data (h.rep w) (h.fresh _ (Nat.le_refl _)) (h.rounds w)
  refine ⟨_, l, ?_, h.put hrep (Nat.le_succ A.next) (fun x hx => ?_) fun b hb hlt => ?_, hlook⟩
  · unfold insert
    rw [heq]
    rfl
  · rcases hmem x hx with ha | ⟨y, hy, hyx⟩
    · exact ⟨ha ▸ Nat.lt_succ_self _, .inl (Nat.le_of_eq ha.symm)⟩
    · exact ⟨hyx ▸ Nat.lt_succ_of_lt (h.bound w y hy), .inr ⟨y, hy, hyx⟩⟩
  · refine hfr b hb fun heq => ?_
    subst heq
    exact hlt.elim (Nat.lt_irrefl _) (Nat.not_succ_le_self _)

/-- So does a removal. -/
theorem remove_laid (h : Laid A nodes) (w : ι) (key : Nat) :
    ∃ A' l, A.remove w key = some ((lookup (nodes w) key).isSome, A') ∧
      Laid A' (update nodes w l) ∧ l = (nodes w).filter (fun x => x.key ≠ key) ∧
      ∀ k, lookup l k = if k = key then none else lookup (nodes w) k := by
  obtain ⟨st, l, heq, hrep, hlook, hfil, hfr⟩ := remove_rep key (h.rep w) (h.rounds w)
  refine ⟨A.put w st, l, ?_, h.put hrep (Nat.le_refl A.next) (fun x hx => ?_)
    fun b hb _ => hfr b hb, hfil, hlook⟩
  · unfold remove
    rw [heq]
    rfl
  · rw [hfil] at hx
    have hmem := List.mem_of_mem_filter hx
    exact ⟨h.bound w x hmem, .inr ⟨x, hmem, rfl⟩⟩

theorem empty_laid (h : Laid A nodes) (w : ι) :
    ∃ A', A.empty w = some A' ∧ Laid A' (update nodes w []) := by
  obtain ⟨st, heq, hrep, -, hfr⟩ := empty_rep (h.rep w) (Nat.le_of_add_right_le (h.rounds w))
  refine ⟨A.put w st, ?_, h.put hrep (Nat.le_refl A.next) (fun x hx => absurd hx List.not_mem_nil)
    fun b hb _ => hfr b hb⟩
  unfold empty
  rw [heq]
  rfl

end Arena

end CamlSkipList
