import Mathlib.Data.List.Basic
import Mathlib.Data.List.Induction
import Mathlib.Data.List.Nodup
import Mathlib.Data.List.TakeWhile

/-! # Skip lists — `runtime/skiplist.c`

    Cells live in a store; a null pointer is `none`, a load through a null or
    freed pointer or behind the end of an array is an error.  The loops that
    follow pointers take a bound on their rounds.

    The pointers of a skip list are determined by the list of its cells, each
    with the levels it is linked at (`Linked`): at level `i` a cell points to
    the next one that is linked there.  Insertion links a new cell one level
    after the other, removal unlinks it in the same order, and one lemma
    (`Linked.relink`) says what either does to the pointers. -/

namespace CamlSkipList

abbrev Addr := Nat

/-- `struct skipcell *` -/
abbrev Link := Option Addr

/-- `NUM_LEVELS` -/
def numLevels : Nat := 17

/-- `struct skipcell` -/
structure Skipcell where
  key : Nat
  data : Nat
  forward : List Link
deriving DecidableEq

/-- `struct skiplist` -/
structure Skiplist where
  forward : List Link
  level : Nat
deriving DecidableEq

/-- A list, the memory of its cells, and `random_seed`. -/
structure State where
  cells : Addr → Option Skipcell
  sk : Skiplist
  seed : BitVec 32

/-- What `e` points to: the forward array of the list, or that of a cell. -/
inductive Place where
  | head
  | cell (a : Addr)
deriving DecidableEq

/-- `SKIPLIST_STATIC_INITIALIZER`, and what `caml_skiplist_init` leaves. -/
def emptyList : Skiplist := ⟨List.replicate numLevels none, 0⟩

namespace State

/-- `e[i]` -/
def forwardAt (st : State) : Place → Nat → Option Link
  | .head, i => st.sk.forward[i]?
  | .cell a, i => (st.cells a).bind fun f => f.forward[i]?

def setCell (st : State) (a : Addr) (c : Option Skipcell) : State :=
  { st with cells := fun b => if b = a then c else st.cells b }

/-- `e[i] = v` -/
def setForward (st : State) (e : Place) (i : Nat) (v : Link) : State :=
  match e with
  | .head => { st with sk := { st.sk with forward := st.sk.forward.set i v } }
  | .cell a =>
      st.setCell a ((st.cells a).map fun f => { f with forward := f.forward.set i v })

end State

/-! ## Random levels -/

/-- The loop of `random_level`: how many pairs of ones `r` begins with. -/
def levelOf : Nat → BitVec 32 → Option Nat
  | 0, _ => none
  | n + 1, r =>
      if r &&& 0xC0000000#32 = 0xC0000000#32 then (levelOf n (r <<< 2)).map (· + 1) else some 0

/-- `random_level`, with the new seed. -/
def randomLevel (seed : BitVec 32) : Option (Nat × BitVec 32) :=
  let r := seed * 69069#32 + 25173#32
  (levelOf numLevels r).map fun level => (level, r)

/-! ## Searching -/

/-- One round of an inner loop: the cell to move to, if it does not break. -/
def advance (st : State) (stop : Nat → Bool) (e : Place) (i : Nat) : Option Link := do
  match ← st.forwardAt e i with
  | none => return none
  | some a =>
      let f ← st.cells a
      return if stop f.key then none else some a

/-- The two loops of `caml_skiplist_insert` and `caml_skiplist_remove`, with the
    array `update`; `caml_skiplist_find_below` has the same loops. -/
def descend (st : State) (stop : Nat → Bool) : Nat → Nat → Place → List Place →
    Option (Place × List Place)
  | 0, _, _, _ => none
  | n + 1, i, e, update => do
      match ← advance st stop e i with
      | some a => descend st stop n i (.cell a) update
      | none =>
          match i with
          | 0 => return (e, e :: update)
          | i + 1 => descend st stop n i e (e :: update)

/-- How a round of the inner loop of `caml_skiplist_find` ends. -/
inductive Round where
  | stop
  | found (data : Nat)
  | move (a : Addr)

def probe (st : State) (key : Nat) (e : Place) (i : Nat) : Option Round := do
  match ← st.forwardAt e i with
  | none => return .stop
  | some a =>
      let f ← st.cells a
      return if key < f.key then .stop else if f.key = key then .found f.data else .move a

/-- The loops of `caml_skiplist_find`. -/
def findFrom (st : State) (key : Nat) : Nat → Nat → Place → Option (Option Nat)
  | 0, _, _ => none
  | n + 1, i, e => do
      match ← probe st key e i with
      | .found data => return some data
      | .move a => findFrom st key n i (.cell a)
      | .stop =>
          match i with
          | 0 => return none
          | i + 1 => findFrom st key n i e

/-- `caml_skiplist_find` -/
def find (n : Nat) (st : State) (key : Nat) : Option (Option Nat) :=
  findFrom st key n st.sk.level .head

/-- `caml_skiplist_find_below` -/
def findBelow (n : Nat) (st : State) (k : Nat) : Option (Option (Nat × Nat)) := do
  let (last, _) ← descend st (fun key => k < key) n st.sk.level .head []
  match last with
  | .head => return none
  | .cell a =>
      let f ← st.cells a
      return some (f.key, f.data)

/-! ## Insertion and deletion -/

/-- Link the cell `a` at the levels from `i` on. -/
def linkLevels (a : Addr) : Nat → List Place → State → Option State
  | _, [], st => some st
  | i, e :: update, st => do
      let next ← st.forwardAt e i
      linkLevels a (i + 1) update ((st.setForward (.cell a) i next).setForward e i (some a))

/-- Insertion of an element that is not there; `a` is what `caml_stat_alloc`
    returned. -/
def insertCell (a : Addr) (key data : Nat) (update : List Place) (st : State) : Option State := do
  let (newLevel, seed) ← randomLevel st.seed
  let update := update ++ List.replicate (newLevel - st.sk.level) .head
  let st := { st with sk := { st.sk with level := max st.sk.level newLevel }, seed := seed }
  let st := st.setCell a (some ⟨key, data, List.replicate (newLevel + 1) none⟩)
  linkLevels a 0 (update.take (newLevel + 1)) st

/-- `caml_skiplist_insert` -/
def insert (n : Nat) (a : Addr) (key data : Nat) (st : State) : Option (Bool × State) := do
  let (e, update) ← descend st (fun k => key ≤ k) n st.sk.level .head []
  match ← st.forwardAt e 0 with
  | none => return (false, ← insertCell a key data update st)
  | some b =>
      let f ← st.cells b
      if f.key = key then return (true, st.setCell b (some { f with data := data }))
      else return (false, ← insertCell a key data update st)

/-- Unlink the cell `a` at the levels from `i` on. -/
def unlinkLevels (a : Addr) : Nat → List Place → State → Option State
  | _, [], st => some st
  | i, e :: update, st => do
      if (← st.forwardAt e i) = some a then
        unlinkLevels a (i + 1) update (st.setForward e i (← st.forwardAt (.cell a) i))
      else unlinkLevels a (i + 1) update st

/-- The last loop of `caml_skiplist_remove`. -/
def correctLevel (forward : List Link) : Nat → Option Nat
  | 0 => some 0
  | level + 1 => do
      if (← forward[level + 1]?) = none then correctLevel forward level else return level + 1

/-- `caml_skiplist_remove` -/
def remove (n : Nat) (key : Nat) (st : State) : Option (Bool × State) := do
  let (e, update) ← descend st (fun k => key ≤ k) n st.sk.level .head []
  match ← st.forwardAt e 0 with
  | none => return (false, st)
  | some a =>
      let f ← st.cells a
      if f.key ≠ key then return (false, st)
      else
        let st ← unlinkLevels a 0 update st
        let st := st.setCell a none
        let level ← correctLevel st.sk.forward st.sk.level
        return (true, { st with sk := { st.sk with level := level } })

/-! ## Whole lists -/

/-- The elements that `FOREACH_SKIPLIST_ELEMENT` visits. -/
def elementsFrom (st : State) : Nat → Link → Option (List (Nat × Nat))
  | _, none => some []
  | 0, some _ => none
  | n + 1, some a => do
      let f ← st.cells a
      let rest ← elementsFrom st n (← f.forward[0]?)
      return (f.key, f.data) :: rest

def elements (n : Nat) (st : State) : Option (List (Nat × Nat)) := do
  elementsFrom st n (← st.sk.forward[0]?)

/-- Free the cells from `e` on. -/
def freeFrom : Nat → Link → State → Option State
  | _, none, st => some st
  | 0, some _, _ => none
  | n + 1, some a, st => do
      let f ← st.cells a
      freeFrom n (← f.forward[0]?) (st.setCell a none)

/-- `caml_skiplist_empty` -/
def empty (n : Nat) (st : State) : Option State := do
  let st ← freeFrom n (← st.sk.forward[0]?) st
  return { st with
    sk := ⟨List.replicate (st.sk.level + 1) none ++ st.sk.forward.drop (st.sk.level + 1), 0⟩ }

/-! ## The pointers of a list -/

/-- A cell of a list, linked at the levels from `lo` to below `hi`. -/
structure Node where
  addr : Addr
  key : Nat
  data : Nat
  lo : Nat
  hi : Nat

def Node.At (nd : Node) (i : Nat) : Prop := nd.lo ≤ i ∧ i < nd.hi

instance (nd : Node) (i : Nat) : Decidable (nd.At i) := inferInstanceAs (Decidable (_ ∧ _))

/-- The first of the cells that is linked at level `i`. -/
def nextAt (i : Nat) : List Node → Link
  | [] => none
  | nd :: rest => if nd.At i then some nd.addr else nextAt i rest

/-- The place of the last of the cells that is linked at level `i`, starting from `e`. -/
def predAt (i : Nat) : Place → List Node → Place
  | e, [] => e
  | e, nd :: rest => predAt i (if nd.At i then .cell nd.addr else e) rest

/-- The cell of `nd`, with `rest` behind it. -/
def Holds (st : State) (nd : Node) (rest : List Node) : Prop :=
  ∃ c, st.cells nd.addr = some c ∧ c.key = nd.key ∧ c.data = nd.data ∧
    nd.hi ≤ c.forward.length ∧ ∀ i, nd.At i → c.forward[i]? = some (nextAt i rest)

def Chain (st : State) : List Node → Prop
  | [] => True
  | nd :: rest => Holds st nd rest ∧ Chain st rest

/-- The cells of `nodes` are in the store and linked as they say. -/
structure Linked (st : State) (nodes : List Node) : Prop where
  length : st.sk.forward.length = numLevels
  head : ∀ i < numLevels, st.sk.forward[i]? = some (nextAt i nodes)
  chain : Chain st nodes
  addrs : (nodes.map Node.addr).Nodup
  below : ∀ nd ∈ nodes, nd.hi ≤ numLevels

theorem nextAt_append (i : Nat) (l r : List Node) :
    nextAt i (l ++ r) = (nextAt i l).or (nextAt i r) := by
  induction l with
  | nil => rfl
  | cons nd l ih =>
      rw [List.cons_append, nextAt, nextAt]
      split
      · rfl
      · exact ih

theorem predAt_append (i : Nat) (e : Place) (l r : List Node) :
    predAt i e (l ++ r) = predAt i (predAt i e l) r := by
  induction l generalizing e with
  | nil => rfl
  | cons nd l ih => exact ih _

/-- Without a cell at level `i` the predecessor is where one started. -/
theorem predAt_of_none {i : Nat} {l : List Node} (h : nextAt i l = none) (e : Place) :
    predAt i e l = e := by
  induction l generalizing e with
  | nil => rfl
  | cons nd l ih =>
      rw [nextAt] at h
      rw [predAt]
      split at h
      · cases h
      · rw [if_neg (by assumption)]
        exact ih h e

/-- With one it is among the cells. -/
theorem predAt_of_some {i : Nat} {l : List Node} {b : Addr} (h : nextAt i l = some b) :
    ∃ nd ∈ l, ∀ e, predAt i e l = .cell nd.addr := by
  induction l generalizing b with
  | nil => cases h
  | cons nd l ih =>
      rw [nextAt] at h
      cases hl : nextAt i l with
      | some b' =>
          obtain ⟨x, hx, hp⟩ := ih hl
          exact ⟨x, List.mem_cons_of_mem _ hx, fun e => hp _⟩
      | none =>
          rw [hl] at h
          split at h
          · refine ⟨nd, List.mem_cons_self .., fun e => ?_⟩
            rw [predAt, if_pos (by assumption)]
            exact predAt_of_none hl _
          · cases h

theorem predAt_ne (i : Nat) {l : List Node} {a : Addr} (h : ∀ x ∈ l, x.addr ≠ a) :
    predAt i .head l ≠ .cell a := by
  cases hl : nextAt i l with
  | none =>
      rw [predAt_of_none hl]
      exact fun heq => by cases heq
  | some b =>
      obtain ⟨y, hy, hp⟩ := predAt_of_some hl
      rw [hp]
      exact fun heq => h y hy (Place.cell.inj heq)

/-! ## Relinking one level -/

namespace State

@[simp] theorem setCell_same (st : State) (a : Addr) (c : Option Skipcell) :
    (st.setCell a c).cells a = c := if_pos rfl

theorem setCell_other {st : State} {a b : Addr} {c : Option Skipcell} (h : b ≠ a) :
    (st.setCell a c).cells b = st.cells b := if_neg h

@[simp] theorem setCell_sk (st : State) (a : Addr) (c : Option Skipcell) :
    (st.setCell a c).sk = st.sk := rfl

theorem setForward_other {st : State} {e : Place} {i : Nat} {v : Link} {b : Addr}
    (h : e ≠ .cell b) : (st.setForward e i v).cells b = st.cells b := by
  cases e with
  | head => rfl
  | cell a => exact setCell_other fun hb => h (hb ▸ rfl)

theorem setForward_cell {st : State} {a : Addr} {c : Skipcell} (h : st.cells a = some c) (i : Nat)
    (v : Link) : (st.setForward (.cell a) i v).cells a =
      some { c with forward := c.forward.set i v } := by
  show (st.setCell a _).cells a = _
  rw [setCell_same, h]
  rfl

end State

theorem Holds.congr {st st' : State} {nd : Node} {rest : List Node} (h : Holds st nd rest)
    (hc : st'.cells nd.addr = st.cells nd.addr) : Holds st' nd rest := by
  unfold Holds
  rw [hc]
  exact h

theorem Chain.congr {st st' : State} {l : List Node} (h : Chain st l)
    (hc : ∀ nd ∈ l, st'.cells nd.addr = st.cells nd.addr) : Chain st' l := by
  induction l with
  | nil => trivial
  | cons nd l ih =>
      exact ⟨h.1.congr (hc nd (List.mem_cons_self ..)),
        ih h.2 fun x hx => hc x (List.mem_cons_of_mem _ hx)⟩

theorem Chain.append {st : State} {l r : List Node} (h : Chain st (l ++ r)) : Chain st r := by
  induction l with
  | nil => exact h
  | cons nd l ih => exact ih h.2

/-- The node `nd` is replaced by `nd'`, which differs in being linked at level `i`. -/
structure Relinks (i : Nat) (nd nd' : Node) : Prop where
  addr : nd'.addr = nd.addr
  other : ∀ j, j ≠ i → (nd'.At j ↔ nd.At j)

theorem Relinks.nextAt {i : Nat} {nd nd' : Node} (h : Relinks i nd nd') {j : Nat} (hj : j ≠ i)
    (l r : List Node) : nextAt j (l ++ nd' :: r) = CamlSkipList.nextAt j (l ++ nd :: r) := by
  rw [nextAt_append, nextAt_append, CamlSkipList.nextAt, CamlSkipList.nextAt, h.addr]
  simp only [h.other j hj]

/-- The part of `relink` about the cells: `e` is where the search for the
    predecessor starts, and none of the cells. -/
theorem Chain.relink {st : State} {i : Nat} {nd nd' : Node} {r : List Node} (hr : Relinks i nd nd')
    (hnd : Holds st nd' r) {l : List Node} {e : Place} (h : Chain st (l ++ nd :: r))
    (ha : ((l ++ nd :: r).map Node.addr).Nodup) (he : ∀ x ∈ l ++ nd :: r, e ≠ .cell x.addr) :
    Chain (st.setForward (predAt i e l) i (nextAt i (nd' :: r))) (l ++ nd' :: r) := by
  induction l generalizing e with
  | nil =>
      refine ⟨hnd.congr ?_, h.2.congr ?_⟩
      · exact State.setForward_other (hr.addr ▸ he nd (List.mem_cons_self ..))
      · exact fun x hx => State.setForward_other (he x (List.mem_cons_of_mem _ hx))
  | cons x l ih =>
      rw [List.cons_append] at h ⊢
      rw [List.cons_append, List.map_cons, List.nodup_cons] at ha
      have hx : ∀ y ∈ l ++ nd :: r, x.addr ≠ y.addr := fun y hy heq =>
        ha.1 (heq ▸ List.mem_map_of_mem hy)
      refine ⟨?_, ih h.2 ha.2 ?_⟩
      · obtain ⟨c, hc, hkey, hdata, hlen, hfwd⟩ := h.1
        by_cases hpred : predAt i e (x :: l) = .cell x.addr
        · -- the pointer of `x` is the one that changes
          rw [hpred]
          refine ⟨_, State.setForward_cell hc i _, hkey, hdata, ?_, ?_⟩
          · rw [List.length_set]
            exact hlen
          · intro j hj
            by_cases hji : j = i
            · subst hji
              have hnone : nextAt j l = none := by
                cases hl : nextAt j l with
                | none => rfl
                | some b =>
                    obtain ⟨y, hy, hp⟩ := predAt_of_some hl
                    rw [predAt, hp] at hpred
                    exact absurd (Place.cell.inj hpred).symm
                      (hx y (List.mem_append_left _ hy))
              rw [List.getElem?_set_self (Nat.lt_of_lt_of_le hj.2 hlen), nextAt_append, hnone]
              rfl
            · rw [List.getElem?_set_ne (Ne.symm hji), hr.nextAt hji]
              exact hfwd j hj
        · refine Holds.congr ⟨c, hc, hkey, hdata, hlen, ?_⟩ (State.setForward_other hpred)
          intro j hj
          rw [hfwd j hj]
          by_cases hji : j = i
          · subst hji
            -- a cell of `l` is linked there, so `x` points into `l`
            cases hl : nextAt j l with
            | none =>
                rw [predAt, if_pos hj, predAt_of_none hl] at hpred
                exact absurd rfl hpred
            | some b => rw [nextAt_append, nextAt_append, hl, Option.some_or, Option.some_or]
          · rw [hr.nextAt hji]
      · intro y hy
        split
        · exact fun heq => hx y hy (Place.cell.inj heq)
        · exact he y (List.mem_cons_of_mem _ hy)

/-- A cell is linked or unlinked at level `i` by storing in its predecessor
    there what comes next. -/
theorem Linked.relink {st : State} {i : Nat} {nd nd' : Node} {l r : List Node}
    (h : Linked st (l ++ nd :: r)) (hr : Relinks i nd nd') (hnd : Holds st nd' r)
    (hi : i < numLevels) (hb : nd'.hi ≤ numLevels) :
    Linked (st.setForward (predAt i .head l) i (nextAt i (nd' :: r))) (l ++ nd' :: r) := by
  have haddrs : (l ++ nd' :: r).map Node.addr = (l ++ nd :: r).map Node.addr := by
    rw [List.map_append, List.map_append, List.map_cons, List.map_cons, hr.addr]
  refine ⟨?_, ?_, ?_, haddrs ▸ h.addrs, ?_⟩
  · cases hp : predAt i .head l with
    | head => exact List.length_set.trans h.length
    | cell a => exact h.length
  · intro j hj
    cases hl : nextAt i l with
    | none =>
        rw [predAt_of_none hl]
        show (st.sk.forward.set i _)[j]? = _
        by_cases hji : j = i
        · subst hji
          rw [List.getElem?_set_self (h.length ▸ hj), nextAt_append, hl]
          rfl
        · rw [List.getElem?_set_ne (Ne.symm hji), hr.nextAt hji]
          exact h.head j hj
    | some b =>
        obtain ⟨y, -, hp⟩ := predAt_of_some hl
        rw [hp]
        refine (h.head j hj).trans ?_
        by_cases hji : j = i
        · subst hji
          rw [nextAt_append, nextAt_append, hl, Option.some_or, Option.some_or]
        · rw [hr.nextAt hji]
  · exact h.chain.relink hr hnd h.addrs fun x _ heq => by cases heq
  · intro x hx
    rw [List.mem_append, List.mem_cons] at hx
    rcases hx with hx | rfl | hx
    · exact h.below _ (List.mem_append_left _ hx)
    · exact hb
    · exact h.below _ (List.mem_append_right _ (List.mem_cons_of_mem _ hx))

/-! ## Searching a list -/

/-- Between two operations: every cell is linked at its levels from 0 on, and the
    keys increase. -/
structure Rep (st : State) (nodes : List Node) : Prop where
  linked : Linked st nodes
  whole : ∀ nd ∈ nodes, nd.lo = 0 ∧ 0 < nd.hi ∧ nd.hi ≤ st.sk.level + 1
  level : st.sk.level < numLevels
  sorted : nodes.Pairwise fun x y => x.key < y.key

/-- `e` is the head, or the last cell of `pre`, which is linked at level `i`. -/
inductive Cursor (i : Nat) : List Node → Place → Prop where
  | head : Cursor i [] .head
  | cell (p : List Node) {nd : Node} (h : nd.At i) : Cursor i (p ++ [nd]) (.cell nd.addr)

theorem Chain.holds {st : State} {p r : List Node} {nd : Node} (h : Chain st (p ++ nd :: r)) :
    Holds st nd r :=
  h.append.1

/-- The forward pointer of a place leads to the next cell at the level. -/
theorem Cursor.forwardAt {st : State} {i : Nat} {pre rest : List Node} {e : Place}
    (h : Cursor i pre e) (hl : Linked st (pre ++ rest)) (hi : i < numLevels) :
    st.forwardAt e i = some (nextAt i rest) := by
  cases h with
  | head => exact hl.head i hi
  | cell p hat =>
      rename_i nd
      have hchain := hl.chain
      rw [List.append_assoc] at hchain
      obtain ⟨c, hc, -, -, -, hf⟩ := hchain.holds
      show (st.cells nd.addr).bind _ = _
      rw [hc]
      exact hf i hat

theorem Cursor.predAt_eq {i : Nat} {pre : List Node} {e : Place} (h : Cursor i pre e) :
    predAt i .head pre = e := by
  cases h with
  | head => rfl
  | cell p hat =>
      rw [predAt_append, predAt, if_pos hat]
      rfl

/-- The next cell at level `i`, with what lies before it. -/
theorem nextAt_split {i : Nat} {l : List Node} {a : Addr} (h : nextAt i l = some a) :
    ∃ l1 nd l2, l = l1 ++ nd :: l2 ∧ nextAt i l1 = none ∧ nd.At i ∧ nd.addr = a := by
  induction l with
  | nil => cases h
  | cons x l ih =>
      rw [nextAt] at h
      split at h
      · next hat => exact ⟨[], x, l, rfl, rfl, hat, Option.some.inj h⟩
      · next hat =>
          obtain ⟨l1, nd, l2, rfl, h1, h2, h3⟩ := ih h
          refine ⟨x :: l1, nd, l2, rfl, ?_, h2, h3⟩
          rw [nextAt, if_neg hat]
          exact h1

/-- There is nothing to advance to. -/
theorem advance_none {st : State} {stop : Nat → Bool} {e : Place} {i : Nat} {pre rest : List Node}
    (hc : Cursor i pre e) (hl : Linked st (pre ++ rest)) (hi : i < numLevels)
    (h : ∀ nd ∈ rest, nd.At i → stop nd.key) : advance st stop e i = some none := by
  unfold advance
  rw [hc.forwardAt hl hi]
  cases hn : nextAt i rest with
  | none => rfl
  | some a =>
      obtain ⟨l1, nd, l2, rfl, -, hat, rfl⟩ := nextAt_split hn
      have hchain := hl.chain
      rw [← List.append_assoc] at hchain
      obtain ⟨c, hcell, hkey, -⟩ := hchain.holds
      have hstop := h nd (List.mem_append_right _ (List.mem_cons_self ..)) hat
      simp [hcell, hkey, hstop]

/-- The cursor advances to the next cell at the level. -/
theorem advance_some {st : State} {stop : Nat → Bool} {e : Place} {i : Nat}
    {pre m1 : List Node} (m2 : List Node) {nd : Node} (hc : Cursor i pre e)
    (hl : Linked st (pre ++ (m1 ++ nd :: m2))) (hi : i < numLevels) (hm : nextAt i m1 = none)
    (hat : nd.At i) (h : ¬ stop nd.key) : advance st stop e i = some (some nd.addr) := by
  unfold advance
  have hn : nextAt i (m1 ++ nd :: m2) = some nd.addr := by
    rw [nextAt_append, hm, Option.none_or, nextAt, if_pos hat]
  have hchain := hl.chain
  rw [← List.append_assoc] at hchain
  obtain ⟨c, hcell, hkey, -⟩ := hchain.holds
  rw [hc.forwardAt hl hi, hn]
  simp [hcell, hkey, h]

/-- A cell linked at a level is linked at the ones below. -/
theorem Cursor.down {st : State} {i : Nat} {pre rest : List Node} {e : Place}
    (h : Cursor (i + 1) pre e) (hr : Rep st (pre ++ rest)) : Cursor i pre e := by
  cases h with
  | head => exact .head
  | cell p hat =>
      rename_i nd
      have hlo := (hr.whole nd (by simp)).1
      exact .cell p ⟨by omega, Nat.lt_of_succ_lt hat.2⟩

/-- The loops end at the predecessors, at each level, of the point where the keys
    begin to stop them. -/
theorem descend_eq {st : State} {stop : Nat → Bool} {R : List Node} {n i : Nat}
    (pre : List Node) {mid : List Node} {e : Place} (update : List Place)
    (hr : Rep st (pre ++ (mid ++ R))) (hc : Cursor i pre e) (hi : i < numLevels) (hmid : ∀ nd ∈ mid, ¬ stop nd.key)
    (hR : ∀ nd ∈ R, stop nd.key) (hn : mid.length + i < n) :
    descend st stop n i e update = some (predAt 0 .head (pre ++ mid),
      (List.range (i + 1)).map (fun j => predAt j .head (pre ++ mid)) ++ update) := by
  induction n generalizing i pre mid e update with
  | zero => exact absurd hn (Nat.not_lt_zero _)
  | succ n ih =>
      unfold descend
      cases hm : nextAt i mid with
      | none =>
          have hadv : advance st stop e i = some none := by
            refine advance_none hc hr.linked hi fun nd hnd hat => ?_
            rcases List.mem_append.mp hnd with hnd | hnd
            · obtain ⟨l1, l2, rfl⟩ := List.append_of_mem hnd
              rw [nextAt_append, nextAt, if_pos hat] at hm
              cases h1 : nextAt i l1 <;> rw [h1] at hm <;> cases hm
            · exact hR nd hnd
          have hpred : predAt i .head (pre ++ mid) = e := by
            rw [predAt_append, hc.predAt_eq, predAt_of_none hm]
          rw [hadv]
          cases i with
          | zero =>
              rw [← hpred]
              rfl
          | succ i =>
              have h1 := ih pre (e :: update) hr (hc.down hr) (Nat.lt_of_succ_lt hi) hmid
                (by omega)
              refine h1.trans ?_
              rw [List.range_succ (n := i + 1), List.map_append, List.append_assoc, ← hpred]
              rfl
      | some a =>
          obtain ⟨m1, nd, m2, rfl, h1, hat, rfl⟩ := nextAt_split hm
          have hkey := hmid nd (List.mem_append_right _ (List.mem_cons_self ..))
          have hadv : advance st stop e i = some (some nd.addr) := by
            refine advance_some (m2 ++ R) hc ?_ hi h1 hat hkey
            rw [← List.cons_append, ← List.append_assoc m1]
            exact hr.linked
          have heq : pre ++ (m1 ++ nd :: m2) = (pre ++ m1 ++ [nd]) ++ m2 := by simp
          rw [hadv, heq]
          refine ih _ update ?_ (.cell _ hat) hi ?_ ?_
          · rw [← List.append_assoc, ← heq, List.append_assoc]
            exact hr
          · exact fun x hx => hmid x (List.mem_append_right _ (List.mem_cons_of_mem _ hx))
          · rw [List.length_append, List.length_cons] at hn
            omega

/-! ## Changes that leave the links alone -/

theorem Holds.data {st st' : State} {nd nd' : Node} {r : List Node} (h : Holds st nd r)
    (ha : nd'.addr = nd.addr) (hk : nd'.key = nd.key) (hat : ∀ j, nd'.At j ↔ nd.At j)
    (hhi : nd'.hi = nd.hi)
    (hc : ∀ c, st.cells nd.addr = some c → st'.cells nd.addr = some { c with data := nd'.data }) :
    Holds st' nd' r := by
  obtain ⟨c, hcell, hkey, -, hlen, hf⟩ := h
  refine ⟨{ c with data := nd'.data }, ha ▸ hc c hcell, hkey.trans hk.symm, rfl, hhi ▸ hlen,
    fun i hi => ?_⟩
  exact hf i ((hat i).mp hi)

theorem Chain.holds_mem {st : State} {l : List Node} (h : Chain st l) {nd : Node} (hn : nd ∈ l) :
    ∃ c, st.cells nd.addr = some c := by
  obtain ⟨l1, l2, rfl⟩ := List.append_of_mem hn
  obtain ⟨c, hc, -⟩ := h.holds
  exact ⟨c, hc⟩

/-- Replace one node by another that is linked at the same levels. -/
theorem Chain.replace {st st' : State} {nd nd' : Node} {l r : List Node}
    (h : Chain st (l ++ nd :: r)) (hat : ∀ j, nd'.At j ↔ nd.At j) (ha : nd'.addr = nd.addr)
    (hnd : Holds st' nd' r)
    (hc : ∀ x ∈ l ++ r, st'.cells x.addr = st.cells x.addr) : Chain st' (l ++ nd' :: r) := by
  induction l with
  | nil => exact ⟨hnd, h.2.congr hc⟩
  | cons x l ih =>
      refine ⟨?_, ih h.2 fun y hy => hc y (List.mem_cons_of_mem _ hy)⟩
      obtain ⟨c, hcell, hkey, hdata, hlen, hf⟩ := h.1
      refine ⟨c, (hc x (List.mem_cons_self ..)).trans hcell, hkey, hdata, hlen, fun j hj => ?_⟩
      have hn : nextAt j (l ++ nd' :: r) = nextAt j (l ++ nd :: r) := by
        rw [nextAt_append, nextAt_append, nextAt, nextAt, ha]
        simp only [hat]
      exact (hf j hj).trans (congrArg some hn.symm)

/-- A cell is replaced by one at the same address. -/
theorem Linked.replace {st st' : State} {nd nd' : Node} {l r : List Node}
    (h : Linked st (l ++ nd :: r)) (hat : ∀ j, nd'.At j ↔ nd.At j) (ha : nd'.addr = nd.addr)
    (hhi : nd'.hi = nd.hi) (hnd : Holds st' nd' r) (hsk : st'.sk.forward = st.sk.forward)
    (hc : ∀ x ∈ l ++ r, st'.cells x.addr = st.cells x.addr) : Linked st' (l ++ nd' :: r) := by
  have haddrs : (l ++ nd' :: r).map Node.addr = (l ++ nd :: r).map Node.addr := by
    rw [List.map_append, List.map_append, List.map_cons, List.map_cons, ha]
  refine ⟨hsk ▸ h.length, ?_, h.chain.replace hat ha hnd hc, haddrs ▸ h.addrs, ?_⟩
  · intro j hj
    have hn : nextAt j (l ++ nd' :: r) = nextAt j (l ++ nd :: r) := by
      rw [nextAt_append, nextAt_append, nextAt, nextAt, ha]
      simp only [hat]
    rw [hsk, hn]
    exact h.head j hj
  · intro x hx
    rw [List.mem_append, List.mem_cons] at hx
    rcases hx with hx | rfl | hx
    · exact h.below _ (List.mem_append_left _ hx)
    · exact hhi ▸ h.below _ (List.mem_append_right _ (List.mem_cons_self ..))
    · exact h.below _ (List.mem_append_right _ (List.mem_cons_of_mem _ hx))

/-- A node that is linked nowhere can be left out, or put in. -/
theorem nextAt_unlinked {nd : Node} (hno : ∀ j, ¬ nd.At j) (j : Nat) (l r : List Node) :
    nextAt j (l ++ nd :: r) = nextAt j (l ++ r) := by
  rw [nextAt_append, nextAt_append, nextAt, if_neg (hno j)]

theorem Chain.drop {st : State} {nd : Node} {l r : List Node} (h : Chain st (l ++ nd :: r))
    (hno : ∀ j, ¬ nd.At j) : Chain st (l ++ r) := by
  induction l with
  | nil => exact h.2
  | cons x l ih =>
      obtain ⟨c, hcell, hkey, hdata, hlen, hf⟩ := h.1
      refine ⟨⟨c, hcell, hkey, hdata, hlen, fun j hj => ?_⟩, ih h.2⟩
      exact (hf j hj).trans (congrArg some (nextAt_unlinked hno j l r))

theorem Chain.put {st : State} {nd : Node} {l r : List Node} (h : Chain st (l ++ r))
    (hno : ∀ j, ¬ nd.At j) (hnd : Holds st nd r) : Chain st (l ++ nd :: r) := by
  induction l with
  | nil => exact ⟨hnd, h⟩
  | cons x l ih =>
      obtain ⟨c, hcell, hkey, hdata, hlen, hf⟩ := h.1
      refine ⟨⟨c, hcell, hkey, hdata, hlen, fun j hj => ?_⟩, ih h.2⟩
      exact (hf j hj).trans (congrArg some (nextAt_unlinked hno j l r).symm)

theorem nodup_middle {l r : List Node} {nd : Node} :
    ((l ++ nd :: r).map Node.addr).Nodup ↔
      (∀ x ∈ l ++ r, x.addr ≠ nd.addr) ∧ ((l ++ r).map Node.addr).Nodup := by
  have hp : ((l ++ nd :: r).map Node.addr).Perm (nd.addr :: (l ++ r).map Node.addr) :=
    List.perm_middle.map Node.addr
  rw [hp.nodup_iff, List.nodup_cons]
  refine and_congr_left fun _ => ⟨fun h x hx heq => ?_, fun h hm => ?_⟩
  · exact h (heq ▸ List.mem_map_of_mem hx)
  · obtain ⟨x, hx, heq⟩ := List.mem_map.mp hm
    exact h x hx heq

/-- The pointer of the predecessor is to what comes next. -/
theorem Linked.forwardAt_pred {st : State} {i : Nat} {l rest : List Node}
    (h : Linked st (l ++ rest)) (hi : i < numLevels) :
    st.forwardAt (predAt i .head l) i = some (nextAt i rest) := by
  have hsplit : ∃ pre mid e, l = pre ++ mid ∧ Cursor i pre e ∧ nextAt i mid = none := by
    clear h
    induction l using List.reverseRecOn with
    | nil => exact ⟨[], [], .head, rfl, .head, rfl⟩
    | append_singleton l nd ih =>
        by_cases hat : nd.At i
        · exact ⟨l ++ [nd], [], .cell nd.addr, (List.append_nil _).symm, .cell l hat, rfl⟩
        · obtain ⟨pre, mid, e, rfl, hc, hm⟩ := ih
          refine ⟨pre, mid ++ [nd], e, List.append_assoc .., hc, ?_⟩
          rw [nextAt_append, hm, nextAt, if_neg hat]
          rfl
  obtain ⟨pre, mid, e, rfl, hc, hm⟩ := hsplit
  rw [List.append_assoc] at h
  rw [predAt_append, hc.predAt_eq, predAt_of_none hm, hc.forwardAt h hi, nextAt_append, hm]
  rfl

end CamlSkipList
