import CamlInterp.SkipArenaProofs

/-! # Global roots — `runtime/globroots.c`

    A C variable registered as a root is in one of three skip lists.  The file
    states an invariant of the two lists of generational roots.  Two thirds of it
    hold after any sequence of registrations, removals, assignments and minor
    collections, and make a minor collection, which looks at two of the three
    lists, update every root.  The last third, that a root with an integer is in
    neither list, is broken by a minor collection that short-circuits a forced
    lazy value to an integer: the root goes to the old list all the same, and
    stays there when it is removed. -/

namespace CamlGlobalRoots

open CamlSkipList CamlSkipList.Arena
open Function (update)

/-- The bounds of the minor heaps. -/
structure MinorHeaps where
  start : Nat
  stop : Nat

/-- `Is_block` -/
def isBlock (v : Nat) : Bool := v % 2 = 0

/-- `Is_young` -/
def MinorHeaps.isYoung (h : MinorHeaps) (v : Nat) : Bool := v < h.stop && h.start < v

inductive RootList where
  | caml_global_roots
  | caml_global_roots_young
  | caml_global_roots_old
deriving DecidableEq

/-- `enum gc_root_class` -/
inductive GcRootClass where
  | YOUNG
  | OLD
  | UNTRACKED
deriving DecidableEq

/-- The lists, and the words that roots are: `vals r` is `*r`. -/
structure Roots where
  arena : Arena RootList
  vals : Nat → Nat

def Roots.init (vals : Nat → Nat) : Roots := ⟨Arena.init RootList, vals⟩

section

variable (h : MinorHeaps)

/-- `classify_gc_root` -/
def classifyGcRoot (v : Nat) : GcRootClass :=
  if ¬ isBlock v then .UNTRACKED else if h.isYoung v then .YOUNG else .OLD

/-- `caml_insert_global_root` -/
def insertGlobalRoot (list : RootList) (r : Nat) (s : Roots) : Option Roots := do
  let (_, arena) ← s.arena.insert list r 0
  return { s with arena := arena }

/-- `caml_delete_global_root` -/
def deleteGlobalRoot (list : RootList) (r : Nat) (s : Roots) : Option Roots := do
  let (_, arena) ← s.arena.remove list r
  return { s with arena := arena }

/-- `caml_register_global_root` -/
def registerGlobalRoot (r : Nat) (s : Roots) : Option Roots :=
  insertGlobalRoot .caml_global_roots r s

/-- `caml_remove_global_root` -/
def removeGlobalRoot (r : Nat) (s : Roots) : Option Roots :=
  deleteGlobalRoot .caml_global_roots r s

/-- `caml_register_generational_global_root` -/
def registerGenerationalGlobalRoot (r : Nat) (s : Roots) : Option Roots :=
  match classifyGcRoot h (s.vals r) with
  | .YOUNG => insertGlobalRoot .caml_global_roots_young r s
  | .OLD => insertGlobalRoot .caml_global_roots_old r s
  | .UNTRACKED => some s

/-- `caml_remove_generational_global_root` -/
def removeGenerationalGlobalRoot (r : Nat) (s : Roots) : Option Roots :=
  match classifyGcRoot h (s.vals r) with
  | .OLD => do
      -- the root can be in the young list while being in the major heap
      deleteGlobalRoot .caml_global_roots_young r (← deleteGlobalRoot .caml_global_roots_old r s)
  | .YOUNG => deleteGlobalRoot .caml_global_roots_young r s
  | .UNTRACKED => some s

def setVal (r v : Nat) (s : Roots) : Roots := { s with vals := update s.vals r v }

/-- `caml_modify_generational_global_root` -/
def modifyGenerationalGlobalRoot (r newval : Nat) (s : Roots) : Option Roots := do
  let c := classifyGcRoot h (s.vals r)
  match classifyGcRoot h newval with
  | .YOUNG =>
      let s ← if c = .OLD then deleteGlobalRoot .caml_global_roots_old r s else some s
      let s ← if c ≠ .YOUNG then insertGlobalRoot .caml_global_roots_young r s else some s
      return setVal r newval s
  | .OLD =>
      let s ← if c = .UNTRACKED then insertGlobalRoot .caml_global_roots_old r s else some s
      return setVal r newval s
  | .UNTRACKED => return setVal r newval (← removeGenerationalGlobalRoot h r s)

/-- `caml_iterate_global_roots`, for a scanning action that stores `f v` in a
    root that holds `v`. -/
def iterateGlobalRoots (f : Nat → Nat) (rootlist : RootList) (s : Roots) : Option Roots :=
  foreach Roots.arena rootlist (fun r _ s => some (setVal r (f (s.vals r)) s)) s

/-- `caml_scan_global_young_roots` -/
def scanGlobalYoungRoots (f : Nat → Nat) (s : Roots) : Option Roots := do
  let s ← iterateGlobalRoots f .caml_global_roots s
  let s ← iterateGlobalRoots f .caml_global_roots_young s
  -- move young roots to old roots
  let s ← foreach Roots.arena .caml_global_roots_young
    (fun r _ s => insertGlobalRoot .caml_global_roots_old r s) s
  return { s with arena := ← s.arena.empty .caml_global_roots_young }

end

/-! ## The lists as sets -/

/-- Which roots the lists hold. -/
abbrev Sets := RootList → Nat → Prop

def Sets.add (S : Sets) (list : RootList) (r : Nat) : Sets := fun l k => S l k ∨ l = list ∧ k = r

def Sets.erase (S : Sets) (list : RootList) (r : Nat) : Sets :=
  fun l k => S l k ∧ ¬ (l = list ∧ k = r)

/-- The lists are skip lists, and hold `S`. -/
def Models (s : Roots) (S : Sets) : Prop :=
  ∃ nodes, Laid s.arena nodes ∧ ∀ l k, S l k ↔ (lookup (nodes l) k).isSome

variable {s : Roots} {S : Sets}

/-- A root is put in a list. -/
theorem insertGlobalRoot_models (hm : Models s S) (list : RootList) (r : Nat) :
    ∃ s', insertGlobalRoot list r s = some s' ∧ Models s' (S.add list r) ∧ s'.vals = s.vals := by
  obtain ⟨nodes, hl, hS⟩ := hm
  obtain ⟨A, n, heq, hA, hlook⟩ := insert_laid hl list r 0
  refine ⟨{ s with arena := A }, ?_, ⟨_, hA, fun l k => ?_⟩, rfl⟩
  · unfold insertGlobalRoot
    rw [heq]
    rfl
  · rw [Sets.add, hS]
    by_cases hlist : l = list
    · subst hlist
      rw [Function.update_self, hlook]
      by_cases hk : k = r <;> simp [hk]
    · rw [Function.update_of_ne hlist]
      simp [hlist]

/-- A root is taken out of a list, whether it is there or not. -/
theorem deleteGlobalRoot_models (hm : Models s S) (list : RootList) (r : Nat) :
    ∃ s', deleteGlobalRoot list r s = some s' ∧ Models s' (S.erase list r) ∧ s'.vals = s.vals := by
  obtain ⟨nodes, hl, hS⟩ := hm
  obtain ⟨A, n, heq, hA, -, hlook⟩ := remove_laid hl list r
  refine ⟨{ s with arena := A }, ?_, ⟨_, hA, fun l k => ?_⟩, rfl⟩
  · unfold deleteGlobalRoot
    rw [heq]
    rfl
  · rw [Sets.erase, hS]
    by_cases hlist : l = list
    · subst hlist
      rw [Function.update_self, hlook]
      by_cases hk : k = r <;> simp [hk]
    · rw [Function.update_of_ne hlist]
      simp [hlist]

theorem Models.setVal (hm : Models s S) (r v : Nat) : Models (setVal r v s) S := hm

/-- The keys of a list are distinct. -/
theorem key_notMem {A : Arena RootList} {nodes : RootList → List Node} (hl : Laid A nodes)
    {list : RootList} {done rest : List Node} {nd : Node} (h : nodes list = done ++ nd :: rest) :
    ∀ x ∈ done, x.key ≠ nd.key := by
  have hs := (hl.rep list).sorted
  rw [h] at hs
  exact fun x hx => Nat.ne_of_lt ((List.pairwise_append.mp hs).2.2 x hx nd (List.mem_cons_self ..))

theorem lookup_isSome {A : Arena RootList} {nodes : RootList → List Node} (hl : Laid A nodes)
    (list : RootList) (k : Nat) :
    (lookup (nodes list) k).isSome ↔ ∃ nd ∈ nodes list, nd.key = k := by
  constructor
  · intro h
    by_contra hno
    rw [lookup_none fun nd hnd heq => hno ⟨nd, hnd, heq⟩] at h
    cases h
  · rintro ⟨nd, hnd, rfl⟩
    rw [lookup_mem (hl.rep list) nd hnd]
    rfl

/-- The scanning action is run on each root of the list, once. -/
theorem iterateGlobalRoots_models (hm : Models s S) (f : Nat → Nat) (list : RootList) :
    ∃ s', iterateGlobalRoots f list s = some s' ∧ Models s' S ∧
      ∀ r, (S list r → s'.vals r = f (s.vals r)) ∧ (¬ S list r → s'.vals r = s.vals r) := by
  obtain ⟨nodes, hl, hS⟩ := hm
  let I : List Node → Roots → Prop := fun done t => t.arena = s.arena ∧
    ∀ r, ((∃ nd ∈ done, nd.key = r) → t.vals r = f (s.vals r)) ∧
      ((∀ nd ∈ done, nd.key ≠ r) → t.vals r = s.vals r)
  have h0 : I [] s := by
    refine ⟨rfl, fun r => ⟨fun ⟨nd, hnd, _⟩ => ?_, fun _ => rfl⟩⟩
    exact absurd hnd List.not_mem_nil
  obtain ⟨s', heq, hA, hv⟩ := foreach_inv Roots.arena list
    (fun r _ s => some (setVal r (f (s.vals r)) s)) (l := nodes list) I h0
    ⟨nodes, hl, rfl⟩ (fun {done rest t} hsplit ht => ⟨nodes, done, ht.1 ▸ hl, hsplit⟩)
    (by
      intro done nd rest t hsplit ht
      refine ⟨_, rfl, ht.1, fun r => ⟨?_, fun hno => ?_⟩⟩
      · rintro ⟨x, hx, rfl⟩
        rcases List.mem_append.mp hx with hx | hx
        · have hne := key_notMem hl hsplit x hx
          exact (Function.update_of_ne hne ..).trans ((ht.2 _).1 ⟨x, hx, rfl⟩)
        · obtain rfl := List.mem_singleton.mp hx
          refine (Function.update_self ..).trans ?_
          rw [(ht.2 _).2 (key_notMem hl hsplit)]
      · have hne : r ≠ nd.key := fun heq => hno nd (by simp) heq.symm
        exact (Function.update_of_ne hne ..).trans
          ((ht.2 r).2 fun x hx => hno x (List.mem_append_left _ hx)))
  refine ⟨s', heq, ⟨nodes, hA ▸ hl, hS⟩, fun r => ?_⟩
  rw [hS, lookup_isSome hl]
  refine ⟨(hv r).1, fun hno => (hv r).2 fun nd hnd hk => hno ⟨nd, hnd, hk⟩⟩

/-- The sets after a minor collection. -/
def Sets.aged (S : Sets) : Sets
  | .caml_global_roots, r => S .caml_global_roots r
  | .caml_global_roots_young, _ => False
  | .caml_global_roots_old, r => S .caml_global_roots_old r ∨ S .caml_global_roots_young r

/-- The two loops at the end of `caml_scan_global_young_roots`. -/
theorem age_models (hm : Models s S) :
    ∃ t A, foreach Roots.arena .caml_global_roots_young
        (fun r _ s => insertGlobalRoot .caml_global_roots_old r s) s = some t ∧
      t.arena.empty .caml_global_roots_young = some A ∧
      Models { t with arena := A } S.aged ∧ t.vals = s.vals := by
  obtain ⟨nodes, hl, hS⟩ := hm
  let I : List Node → Roots → Prop := fun done t => t.vals = s.vals ∧ ∃ nodes',
    Laid t.arena nodes' ∧ nodes' .caml_global_roots_young = nodes .caml_global_roots_young ∧
    nodes' .caml_global_roots = nodes .caml_global_roots ∧
    ∀ k, (lookup (nodes' .caml_global_roots_old) k).isSome ↔
      (lookup (nodes .caml_global_roots_old) k).isSome ∨ ∃ nd ∈ done, nd.key = k
  have h0 : I [] s := ⟨rfl, nodes, hl, rfl, rfl, fun k => by simp⟩
  obtain ⟨t, heq, hv, nodes', ht, hy, hr, ho⟩ := foreach_inv Roots.arena
    .caml_global_roots_young (fun r _ s => insertGlobalRoot .caml_global_roots_old r s) I h0
    ⟨nodes, hl, rfl⟩ (fun {done rest t} hsplit hI => by
      obtain ⟨-, nodes', ht, hy, -⟩ := hI
      exact ⟨nodes', done, ht, hy.trans hsplit⟩)
    (by
      rintro done nd rest t - ⟨hv, nodes', ht, hy, hr, ho⟩
      obtain ⟨A, n, heq, hA, hlook⟩ := insert_laid ht .caml_global_roots_old nd.key 0
      refine ⟨{ t with arena := A }, ?_, hv, _, hA, hy, hr, fun k => ?_⟩
      · unfold insertGlobalRoot
        rw [heq]
        rfl
      · rw [Function.update_self, hlook]
        by_cases hk : k = nd.key
        · simp [hk]
        · have hk' : nd.key ≠ k := Ne.symm hk
          simp [hk, ho, hk'])
  obtain ⟨A, hempty, hA⟩ := empty_laid ht .caml_global_roots_young
  refine ⟨t, A, heq, hempty, ⟨_, hA, fun l k => ?_⟩, hv⟩
  cases l with
  | caml_global_roots =>
      rw [Function.update_of_ne (by decide), hr]
      exact hS _ k
  | caml_global_roots_young =>
      rw [Function.update_self]
      simp [Sets.aged, lookup]
  | caml_global_roots_old =>
      rw [Function.update_of_ne (by decide), ho, ← lookup_isSome hl, ← hS, ← hS]
      rfl

/-! ## The invariant -/

/-- A scanning action of a minor collection, as `oldify_one`: a young block is moved
    to the major heap or, if it is a forced lazy value, may give way to what it holds,
    which can be an integer.  Any other value stays. -/
structure Promotes (h : MinorHeaps) (f : Nat → Nat) : Prop where
  young : ∀ {v}, classifyGcRoot h v = .YOUNG → classifyGcRoot h (f v) ≠ .YOUNG
  stays : ∀ {v}, classifyGcRoot h v ≠ .YOUNG → f v = v

/-- Scanning a value twice is scanning it once. -/
theorem Promotes.idem {h : MinorHeaps} {f : Nat → Nat} (hf : Promotes h f) (v : Nat) :
    f (f v) = f v := by
  by_cases hy : classifyGcRoot h v = .YOUNG
  · exact hf.stays (hf.young hy)
  · rw [hf.stays hy, hf.stays hy]

/-- `M` are the mutable roots registered, `G` the generational ones, and `L` those in
    which a minor collection has left an integer: the old list may hold them whatever
    becomes of them. -/
structure Inv (h : MinorHeaps) (S : Sets) (vals : Nat → Nat) (M G L : Nat → Prop) : Prop where
  global : ∀ r, S .caml_global_roots r ↔ M r
  young : ∀ {r}, G r → classifyGcRoot h (vals r) = .YOUNG → S .caml_global_roots_young r
  old : ∀ {r}, G r → classifyGcRoot h (vals r) = .OLD →
    S .caml_global_roots_old r ∨ S .caml_global_roots_young r
  inOld : ∀ {r}, S .caml_global_roots_old r → L r ∨ G r ∧ classifyGcRoot h (vals r) = .OLD
  inYoung : ∀ {r}, S .caml_global_roots_young r → G r ∧ classifyGcRoot h (vals r) ≠ .UNTRACKED

variable {h : MinorHeaps} {M G L : Nat → Prop}

theorem init_inv (vals : Nat → Nat) : Models (Roots.init vals) (fun _ _ => False) ∧
    Inv h (fun _ _ => False) vals (fun _ => False) (fun _ => False) fun _ => False := by
  refine ⟨⟨fun _ => [], init_laid, fun l k => by simp [lookup]⟩, ?_⟩
  exact ⟨fun _ => .rfl, fun hf => hf.elim, fun hf => hf.elim, fun hf => hf.elim, fun hf => hf.elim⟩

/-- Registration puts a generational root where its value says. -/
theorem registerGenerational_inv {r : Nat} (hm : Models s S) (hi : Inv h S s.vals M G L) :
    ∃ s' S', registerGenerationalGlobalRoot h r s = some s' ∧ Models s' S' ∧ s'.vals = s.vals ∧
      Inv h S' s.vals M (fun k => G k ∨ k = r) L := by
  unfold registerGenerationalGlobalRoot
  cases hc : classifyGcRoot h (s.vals r) with
  | YOUNG =>
      obtain ⟨s', heq, hm', hv⟩ := insertGlobalRoot_models hm .caml_global_roots_young r
      refine ⟨s', _, heq, hm', hv, ?_⟩
      constructor
      · simpa [Sets.add] using hi.global
      · rintro k (hk | rfl) hcl
        · exact .inl (hi.young hk hcl)
        · exact .inr ⟨rfl, rfl⟩
      · rintro k (hk | rfl) hcl
        · exact (hi.old hk hcl).imp .inl .inl
        · exact .inr (.inr ⟨rfl, rfl⟩)
      · rintro k (hk | ⟨hl, -⟩)
        · exact (hi.inOld hk).imp_right fun ho => ⟨.inl ho.1, ho.2⟩
        · cases hl
      · rintro k (hk | ⟨-, rfl⟩)
        · exact ⟨.inl (hi.inYoung hk).1, (hi.inYoung hk).2⟩
        · exact ⟨.inr rfl, by rw [hc]; decide⟩
  | OLD =>
      obtain ⟨s', heq, hm', hv⟩ := insertGlobalRoot_models hm .caml_global_roots_old r
      refine ⟨s', _, heq, hm', hv, ?_⟩
      constructor
      · simpa [Sets.add] using hi.global
      · rintro k (hk | rfl) hcl
        · exact .inl (hi.young hk hcl)
        · rw [hc] at hcl
          cases hcl
      · rintro k (hk | rfl) hcl
        · exact (hi.old hk hcl).imp .inl .inl
        · exact .inl (.inr ⟨rfl, rfl⟩)
      · rintro k (hk | ⟨-, rfl⟩)
        · exact (hi.inOld hk).imp_right fun ho => ⟨.inl ho.1, ho.2⟩
        · exact .inr ⟨.inr rfl, hc⟩
      · rintro k (hk | ⟨hl, -⟩)
        · exact ⟨.inl (hi.inYoung hk).1, (hi.inYoung hk).2⟩
        · cases hl
  | UNTRACKED =>
      refine ⟨s, S, rfl, hm, rfl, hi.global, ?_, ?_, ?_, ?_⟩
      · rintro k (hk | rfl) hcl
        · exact hi.young hk hcl
        · rw [hc] at hcl
          cases hcl
      · rintro k (hk | rfl) hcl
        · exact hi.old hk hcl
        · rw [hc] at hcl
          cases hcl
      · exact fun hk => (hi.inOld hk).imp_right fun ho => ⟨.inl ho.1, ho.2⟩
      · exact fun hk => ⟨.inl (hi.inYoung hk).1, (hi.inYoung hk).2⟩

/-- What is left in the lists when a root is taken out of those its value tells. -/
theorem removeGenerational_models {r : Nat} (hm : Models s S) (hi : Inv h S s.vals M G L) :
    ∃ s' S', removeGenerationalGlobalRoot h r s = some s' ∧ Models s' S' ∧ s'.vals = s.vals ∧
      (∀ k, S' .caml_global_roots k ↔ M k) ∧
      (∀ k, k ≠ r → (S' .caml_global_roots_old k ↔ S .caml_global_roots_old k)) ∧
      (S' .caml_global_roots_old r → L r) ∧
      ∀ k, S' .caml_global_roots_young k ↔ S .caml_global_roots_young k ∧ k ≠ r := by
  -- a root of the old list that is not old has been left there
  have hleft (hc : classifyGcRoot h (s.vals r) ≠ .OLD) (hs : S .caml_global_roots_old r) : L r :=
    (hi.inOld hs).resolve_right fun ho => hc ho.2
  unfold removeGenerationalGlobalRoot
  cases hc : classifyGcRoot h (s.vals r) with
  | OLD =>
      obtain ⟨s1, heq1, hm1, hv1⟩ := deleteGlobalRoot_models hm .caml_global_roots_old r
      obtain ⟨s2, heq2, hm2, hv2⟩ := deleteGlobalRoot_models hm1 .caml_global_roots_young r
      refine ⟨s2, _, ?_, hm2, hv2.trans hv1, fun k => ?_, fun k hk => ?_, fun hs => ?_,
        fun k => ?_⟩
      · simp only [heq1, Option.bind_eq_bind, Option.bind_some]
        exact heq2
      · simpa [Sets.erase] using hi.global k
      · simp [Sets.erase, hk]
      · exact absurd ⟨rfl, rfl⟩ hs.1.2
      · simp [Sets.erase]
  | YOUNG =>
      obtain ⟨s1, heq1, hm1, hv1⟩ := deleteGlobalRoot_models hm .caml_global_roots_young r
      refine ⟨s1, _, heq1, hm1, hv1, fun k => ?_, fun k _ => ?_, fun hs => ?_, fun k => ?_⟩
      · simpa [Sets.erase] using hi.global k
      · simp [Sets.erase]
      · exact hleft (by rw [hc]; decide) hs.1
      · simp [Sets.erase]
  | UNTRACKED =>
      refine ⟨s, S, rfl, hm, rfl, hi.global, fun _ _ => .rfl, fun hs => ?_, fun k => ?_⟩
      · exact hleft (by rw [hc]; decide) hs
      · refine (and_iff_left_of_imp fun hk heq => ?_).symm
        rw [heq] at hk
        exact (hi.inYoung hk).2 hc

/-- Removal takes it out of the lists its value tells. -/
theorem removeGenerational_inv {r : Nat} (hm : Models s S) (hi : Inv h S s.vals M G L) :
    ∃ s' S', removeGenerationalGlobalRoot h r s = some s' ∧ Models s' S' ∧ s'.vals = s.vals ∧
      Inv h S' s.vals M (fun k => G k ∧ k ≠ r) L := by
  obtain ⟨s', S', heq, hm', hv, hg, ho, hl, hy⟩ := removeGenerational_models (r := r) hm hi
  refine ⟨s', S', heq, hm', hv, hg, ?_, ?_, ?_, ?_⟩
  · exact fun hk hcl => (hy _).mpr ⟨hi.young hk.1 hcl, hk.2⟩
  · exact fun hk hcl => (hi.old hk.1 hcl).imp (ho _ hk.2).mpr fun hs => (hy _).mpr ⟨hs, hk.2⟩
  · intro k hk
    by_cases hkr : k = r
    · subst hkr
      exact .inl (hl hk)
    · exact (hi.inOld ((ho k hkr).mp hk)).imp_right fun h => ⟨⟨h.1, hkr⟩, h.2⟩
  · exact fun hk => ⟨⟨(hi.inYoung ((hy _).mp hk).1).1, ((hy _).mp hk).2⟩,
      (hi.inYoung ((hy _).mp hk).1).2⟩

/-- A value is stored in a generational root, and the lists account for it. -/
theorem Inv.store {r newval : Nat} {S' : Sets} (hi : Inv h S s.vals M G L) (hr : G r)
    (hg : ∀ k, S' .caml_global_roots k ↔ S .caml_global_roots k)
    (ho : ∀ k, k ≠ r → (S' .caml_global_roots_old k ↔ S .caml_global_roots_old k))
    (hy : ∀ k, k ≠ r → (S' .caml_global_roots_young k ↔ S .caml_global_roots_young k))
    (hyoung : classifyGcRoot h newval = .YOUNG → S' .caml_global_roots_young r)
    (hold : classifyGcRoot h newval = .OLD →
      S' .caml_global_roots_old r ∨ S' .caml_global_roots_young r)
    (hinOld : S' .caml_global_roots_old r → L r ∨ classifyGcRoot h newval = .OLD)
    (hinYoung : S' .caml_global_roots_young r → classifyGcRoot h newval ≠ .UNTRACKED) :
    Inv h S' (update s.vals r newval) M G L := by
  constructor
  · exact fun k => (hg k).trans (hi.global k)
  · intro k hk hcl
    by_cases hkr : k = r
    · subst hkr
      rw [Function.update_self] at hcl
      exact hyoung hcl
    · rw [Function.update_of_ne hkr] at hcl
      exact (hy k hkr).mpr (hi.young hk hcl)
  · intro k hk hcl
    by_cases hkr : k = r
    · subst hkr
      rw [Function.update_self] at hcl
      exact hold hcl
    · rw [Function.update_of_ne hkr] at hcl
      exact (hi.old hk hcl).imp (ho k hkr).mpr (hy k hkr).mpr
  · intro k hk
    by_cases hkr : k = r
    · subst hkr
      rw [Function.update_self]
      exact (hinOld hk).imp_right fun ho => ⟨hr, ho⟩
    · rw [Function.update_of_ne hkr]
      exact hi.inOld ((ho k hkr).mp hk)
  · intro k hk
    by_cases hkr : k = r
    · subst hkr
      rw [Function.update_self]
      exact ⟨hr, hinYoung hk⟩
    · rw [Function.update_of_ne hkr]
      exact hi.inYoung ((hy k hkr).mp hk)

/-- An assignment moves it where the new value says, or leaves that to the next minor
    collection. -/
theorem modifyGenerational_inv {r newval : Nat} (hm : Models s S) (hi : Inv h S s.vals M G L)
    (hr : G r) :
    ∃ s' S', modifyGenerationalGlobalRoot h r newval s = some s' ∧ Models s' S' ∧
      s'.vals = update s.vals r newval ∧ Inv h S' s'.vals M G L := by
  unfold modifyGenerationalGlobalRoot
  -- the lists as they are, when they do account for the new value
  have hsame (hyoung : classifyGcRoot h newval = .YOUNG → S .caml_global_roots_young r)
      (hold : classifyGcRoot h newval = .OLD →
        S .caml_global_roots_old r ∨ S .caml_global_roots_young r)
      (hinOld : S .caml_global_roots_old r → L r ∨ classifyGcRoot h newval = .OLD)
      (hinYoung : S .caml_global_roots_young r → classifyGcRoot h newval ≠ .UNTRACKED) :
      Inv h S (update s.vals r newval) M G L :=
    hi.store hr (fun _ => .rfl) (fun _ _ => .rfl) (fun _ _ => .rfl) hyoung hold hinOld hinYoung
  cases hn : classifyGcRoot h newval with
  | YOUNG =>
      -- into the young list, where the root may be already
      have hadd {S1 : Sets} (hS1 : ∀ l k, l ≠ .caml_global_roots_old ∨ k ≠ r → (S1 l k ↔ S l k))
          (hno : S1 .caml_global_roots_old r → L r) :
          Inv h (S1.add .caml_global_roots_young r) (update s.vals r newval) M G L := by
        refine hi.store hr (fun k => ?_) (fun k hk => ?_) (fun k hk => ?_) ?_ ?_ ?_ ?_
        · simpa [Sets.add] using hS1 .caml_global_roots k (.inl (by decide))
        · simpa [Sets.add] using hS1 .caml_global_roots_old k (.inr hk)
        · simpa [Sets.add, hk] using hS1 .caml_global_roots_young k (.inr hk)
        · exact fun _ => .inr ⟨rfl, rfl⟩
        · exact fun _ => .inr (.inr ⟨rfl, rfl⟩)
        · rintro (hs | ⟨hl, -⟩)
          · exact .inl (hno hs)
          · cases hl
        · exact fun _ hu => by rw [hn] at hu; cases hu
      cases hc : classifyGcRoot h (s.vals r) with
      | YOUNG =>
          refine ⟨setVal r newval s, S, by simp, hm, rfl, hsame ?_ ?_ ?_ ?_⟩
          · exact fun _ => hi.young hr hc
          · exact fun _ => .inr (hi.young hr hc)
          · refine fun hs => .inl ((hi.inOld hs).resolve_right fun ho => ?_)
            rw [ho.2] at hc
            cases hc
          · exact fun _ hu => by rw [hn] at hu; cases hu
      | OLD =>
          obtain ⟨s1, heq1, hm1, hv1⟩ := deleteGlobalRoot_models hm .caml_global_roots_old r
          obtain ⟨s2, heq2, hm2, hv2⟩ := insertGlobalRoot_models hm1 .caml_global_roots_young r
          have hv : s2.vals = s.vals := hv2.trans hv1
          refine ⟨setVal r newval s2, _, by simp [heq1, heq2], hm2, ?_, ?_⟩
          · show update s2.vals r newval = _
            rw [hv]
          · show Inv h _ (update s2.vals r newval) M G L
            rw [hv]
            refine hadd (fun l k hlk => ?_) fun hs => absurd ⟨rfl, rfl⟩ hs.2
            refine and_iff_left_of_imp fun _ => ?_
            rintro ⟨rfl, rfl⟩
            exact hlk.elim (fun hf => hf rfl) fun hf => hf rfl
      | UNTRACKED =>
          obtain ⟨s1, heq1, hm1, hv1⟩ := insertGlobalRoot_models hm .caml_global_roots_young r
          refine ⟨setVal r newval s1, _, by simp [heq1], hm1, ?_, ?_⟩
          · show update s1.vals r newval = _
            rw [hv1]
          · show Inv h _ (update s1.vals r newval) M G L
            rw [hv1]
            refine hadd (fun _ _ _ => .rfl) fun hs => (hi.inOld hs).resolve_right fun ho => ?_
            rw [ho.2] at hc
            cases hc
  | OLD =>
      cases hc : classifyGcRoot h (s.vals r) with
      | YOUNG =>
          refine ⟨setVal r newval s, S, by simp, hm, rfl, hsame ?_ ?_ ?_ ?_⟩
          · exact fun _ => hi.young hr hc
          · exact fun _ => .inr (hi.young hr hc)
          · exact fun _ => .inr hn
          · exact fun _ hu => by rw [hn] at hu; cases hu
      | OLD =>
          refine ⟨setVal r newval s, S, by simp, hm, rfl, hsame ?_ ?_ ?_ ?_⟩
          · exact fun hy => by rw [hn] at hy; cases hy
          · exact fun _ => hi.old hr hc
          · exact fun _ => .inr hn
          · exact fun _ hu => by rw [hn] at hu; cases hu
      | UNTRACKED =>
          obtain ⟨s1, heq1, hm1, hv1⟩ := insertGlobalRoot_models hm .caml_global_roots_old r
          refine ⟨setVal r newval s1, _, by simp [heq1], hm1, ?_, ?_⟩
          · show update s1.vals r newval = _
            rw [hv1]
          · show Inv h _ (update s1.vals r newval) M G L
            rw [hv1]
            refine hi.store hr (fun k => ?_) (fun k hk => ?_) (fun k _ => ?_) ?_ ?_ ?_ ?_
            · simp [Sets.add]
            · simp [Sets.add, hk]
            · simp [Sets.add]
            · exact fun hy => by rw [hn] at hy; cases hy
            · exact fun _ => .inl (.inr ⟨rfl, rfl⟩)
            · exact fun _ => .inr hn
            · exact fun _ hu => by rw [hn] at hu; cases hu
  | UNTRACKED =>
      obtain ⟨s1, S1, heq1, hm1, hv1, hg, ho, hl, hy⟩ := removeGenerational_models (r := r) hm hi
      refine ⟨setVal r newval s1, S1, by simp [heq1], hm1, ?_, ?_⟩
      · show update s1.vals r newval = _
        rw [hv1]
      · show Inv h _ (update s1.vals r newval) M G L
        rw [hv1]
        refine hi.store hr (fun k => (hg k).trans (hi.global k).symm) ho
          (fun k hk => ?_) ?_ ?_ ?_ ?_
        · rw [hy, and_iff_left hk]
        · exact fun hf => by rw [hn] at hf; cases hf
        · exact fun hf => by rw [hn] at hf; cases hf
        · exact fun hs => .inl (hl hs)
        · exact fun hs => absurd rfl ((hy r).mp hs).2

/-- The roots in which a minor collection leaves an integer, besides those of `L`. -/
def leftAfter (h : MinorHeaps) (f vals : Nat → Nat) (G L : Nat → Prop) (r : Nat) : Prop :=
  L r ∨ G r ∧ classifyGcRoot h (vals r) = .YOUNG ∧ classifyGcRoot h (f (vals r)) = .UNTRACKED

/-- A minor collection: every root is scanned that may hold a young value, and
    the lists hold what they should of the values it leaves, or hold a root with an
    integer. -/
theorem scanGlobalYoungRoots_inv {f : Nat → Nat} (hm : Models s S) (hi : Inv h S s.vals M G L)
    (hf : Promotes h f) :
    ∃ s', scanGlobalYoungRoots f s = some s' ∧ Models s' S.aged ∧
      Inv h S.aged s'.vals M G (leftAfter h f s.vals G L) ∧
      (∀ r, M r ∨ G r → s'.vals r = f (s.vals r)) ∧
      ∀ r, ¬ M r → ¬ G r → s'.vals r = s.vals r := by
  obtain ⟨s1, heq1, hm1, hv1⟩ := iterateGlobalRoots_models hm f .caml_global_roots
  obtain ⟨s2, heq2, hm2, hv2⟩ := iterateGlobalRoots_models hm1 f .caml_global_roots_young
  obtain ⟨t, A, heq3, heq4, hm3, hv3⟩ := age_models hm2
  have hstays : ∀ {r}, ¬ S .caml_global_roots_young r → G r → f (s.vals r) = s.vals r := by
    intro r hno hr
    refine hf.stays fun hy => hno (hi.young hr hy)
  have hscan : ∀ r, M r ∨ G r → t.vals r = f (s.vals r) := by
    intro r hr
    rw [hv3]
    by_cases hM : S .caml_global_roots r
    · have h1 := (hv1 r).1 hM
      by_cases hY : S .caml_global_roots_young r
      · rw [(hv2 r).1 hY, h1, hf.idem]
      · rw [(hv2 r).2 hY, h1]
    · have h1 := (hv1 r).2 hM
      have hG := hr.resolve_left fun hMr => hM ((hi.global r).mpr hMr)
      by_cases hY : S .caml_global_roots_young r
      · rw [(hv2 r).1 hY, h1]
      · rw [(hv2 r).2 hY, h1, hstays hY hG]
  have hother : ∀ r, ¬ M r → ¬ G r → t.vals r = s.vals r := by
    intro r hM hG
    rw [hv3, (hv2 r).2 fun hY => hG (hi.inYoung hY).1, (hv1 r).2 fun hm => hM ((hi.global r).mp hm)]
  refine ⟨{ t with arena := A }, ?_, hm3, ?_, hscan, hother⟩
  · unfold scanGlobalYoungRoots
    simp [heq1, heq2, heq3, heq4]
  · have hclass : ∀ {r}, G r → classifyGcRoot h (t.vals r) ≠ .YOUNG := by
      intro r hr hy
      rw [hscan r (.inr hr)] at hy
      by_cases hyo : classifyGcRoot h (s.vals r) = .YOUNG
      · exact hf.young hyo hy
      · rw [hf.stays hyo] at hy
        exact hyo hy
    have hold : ∀ {r}, G r → classifyGcRoot h (s.vals r) ≠ .UNTRACKED →
        leftAfter h f s.vals G L r ∨ G r ∧ classifyGcRoot h (t.vals r) = .OLD := by
      intro r hr hu
      cases hc : classifyGcRoot h (t.vals r) with
      | YOUNG => exact absurd hc (hclass hr)
      | OLD => exact .inr ⟨hr, rfl⟩
      | UNTRACKED =>
          -- it was young: any other value would have stayed
          rw [hscan r (.inr hr)] at hc
          by_cases hyo : classifyGcRoot h (s.vals r) = .YOUNG
          · exact .inl (.inr ⟨hr, hyo, hc⟩)
          · rw [hf.stays hyo] at hc
            exact absurd hc hu
    constructor
    · exact hi.global
    · exact fun hr hy => absurd hy (hclass hr)
    · intro r hr ho
      refine .inl ?_
      by_cases hyo : classifyGcRoot h (s.vals r) = .YOUNG
      · exact .inr (hi.young hr hyo)
      · have hsame : t.vals r = s.vals r := by rw [hscan r (.inr hr), hf.stays hyo]
        rw [show ({ t with arena := A } : Roots).vals = t.vals from rfl, hsame] at ho
        exact hi.old hr ho
    · rintro r (hs | hs)
      · rcases hi.inOld hs with hl | ⟨hr, ho⟩
        · exact .inl (.inl hl)
        · exact hold hr (by rw [ho]; decide)
      · exact hold (hi.inYoung hs).1 (hi.inYoung hs).2
    · exact fun hs => absurd hs id

/-! ## Runs -/

/-- What happens to roots. -/
inductive Event where
  | register (r : Nat)
  | remove (r : Nat)
  | registerGenerational (r : Nat)
  | removeGenerational (r : Nat)
  | modifyGenerational (r newval : Nat)
  /-- a store that is none of the above -/
  | assign (r v : Nat)
  | minorCollection (f : Nat → Nat)

/-- A generational root is assigned by `caml_modify_generational_global_root`,
    and that is for generational roots. -/
def Event.Allowed (h : MinorHeaps) (G : Nat → Prop) : Event → Prop
  | .modifyGenerational r _ => G r
  | .assign r _ => ¬ G r
  | .minorCollection f => Promotes h f
  | _ => True

def step (h : MinorHeaps) (s : Roots) : Event → Option Roots
  | .register r => registerGlobalRoot r s
  | .remove r => removeGlobalRoot r s
  | .registerGenerational r => registerGenerationalGlobalRoot h r s
  | .removeGenerational r => removeGenerationalGlobalRoot h r s
  | .modifyGenerational r newval => modifyGenerationalGlobalRoot h r newval s
  | .assign r v => some (setVal r v s)
  | .minorCollection f => scanGlobalYoungRoots f s

/-- The mutable roots after an event. -/
def Event.mutables (M : Nat → Prop) : Event → Nat → Prop
  | .register r => fun k => M k ∨ k = r
  | .remove r => fun k => M k ∧ k ≠ r
  | _ => M

/-- The generational roots after an event. -/
def Event.generationals (G : Nat → Prop) : Event → Nat → Prop
  | .registerGenerational r => fun k => G k ∨ k = r
  | .removeGenerational r => fun k => G k ∧ k ≠ r
  | _ => G

/-- The roots a minor collection has left an integer in, after an event. -/
def Event.left (h : MinorHeaps) (vals : Nat → Nat) (G L : Nat → Prop) : Event → Nat → Prop
  | .minorCollection f => leftAfter h f vals G L
  | _ => L

/-- Every event returns and keeps the invariant. -/
theorem step_inv {e : Event} (hm : Models s S) (hi : Inv h S s.vals M G L) (ha : e.Allowed h G) :
    ∃ s' S', step h s e = some s' ∧ Models s' S' ∧
      Inv h S' s'.vals (e.mutables M) (e.generationals G) (e.left h s.vals G L) := by
  cases e with
  | register r =>
      obtain ⟨s', heq, hm', hv⟩ := insertGlobalRoot_models hm .caml_global_roots r
      refine ⟨s', _, heq, hm', ?_⟩
      rw [hv]
      refine ⟨fun k => ?_, ?_, ?_, ?_, ?_⟩
      · simp [Sets.add, hi.global, Event.mutables]
      · exact fun hk hc => .inl (hi.young hk hc)
      · exact fun hk hc => (hi.old hk hc).imp .inl .inl
      · exact fun hk => hi.inOld (hk.resolve_right fun hf => by cases hf.1)
      · exact fun hk => hi.inYoung (hk.resolve_right fun hf => by cases hf.1)
  | remove r =>
      obtain ⟨s', heq, hm', hv⟩ := deleteGlobalRoot_models hm .caml_global_roots r
      refine ⟨s', _, heq, hm', ?_⟩
      rw [hv]
      refine ⟨fun k => ?_, ?_, ?_, ?_, ?_⟩
      · simp [Sets.erase, hi.global, Event.mutables]
      · exact fun hk hc => ⟨hi.young hk hc, fun hf => by cases hf.1⟩
      · exact fun hk hc => (hi.old hk hc).imp (⟨·, fun hf => by cases hf.1⟩)
          (⟨·, fun hf => by cases hf.1⟩)
      · exact fun hk => hi.inOld hk.1
      · exact fun hk => hi.inYoung hk.1
  | registerGenerational r =>
      obtain ⟨s', S', heq, hm', hv, hi'⟩ := registerGenerational_inv (r := r) hm hi
      exact ⟨s', S', heq, hm', hv ▸ hi'⟩
  | removeGenerational r =>
      obtain ⟨s', S', heq, hm', hv, hi'⟩ := removeGenerational_inv (r := r) hm hi
      exact ⟨s', S', heq, hm', hv ▸ hi'⟩
  | modifyGenerational r newval =>
      obtain ⟨s', S', heq, hm', -, hi'⟩ := modifyGenerational_inv hm hi ha
      exact ⟨s', S', heq, hm', hi'⟩
  | assign r v =>
      refine ⟨setVal r v s, S, rfl, hm, ?_⟩
      have hne : ∀ {k}, G k → (setVal r v s).vals k = s.vals k := by
        intro k hk
        refine Function.update_of_ne (fun heq => ?_) ..
        subst heq
        exact ha hk
      refine ⟨hi.global, fun hk hc => ?_, fun hk hc => ?_, fun hk => ?_, fun hk => ?_⟩
      · exact hi.young hk (hne hk ▸ hc)
      · exact hi.old hk (hne hk ▸ hc)
      · exact (hi.inOld hk).imp_right fun ho => ⟨ho.1, by rw [hne ho.1]; exact ho.2⟩
      · rw [hne (hi.inYoung hk).1]
        exact hi.inYoung hk
  | minorCollection f =>
      obtain ⟨s', heq, hm', hi', -⟩ := scanGlobalYoungRoots_inv hm hi ha
      exact ⟨s', _, heq, hm', hi'⟩

/-- A program using roots: the state, what is registered, and the roots that a minor
    collection has left an integer in. -/
inductive Runs (h : MinorHeaps) (vals : Nat → Nat) :
    Roots → (Nat → Prop) → (Nat → Prop) → (Nat → Prop) → Prop where
  | init : Runs h vals (Roots.init vals) (fun _ => False) (fun _ => False) fun _ => False
  | step {s s' : Roots} {M G L : Nat → Prop} (e : Event) (hr : Runs h vals s M G L)
      (ha : e.Allowed h G) (hs : CamlGlobalRoots.step h s e = some s') :
      Runs h vals s' (e.mutables M) (e.generationals G) (e.left h s.vals G L)

theorem Runs.inv {vals : Nat → Nat} (hr : Runs h vals s M G L) :
    ∃ S, Models s S ∧ Inv h S s.vals M G L := by
  induction hr with
  | init => exact ⟨_, init_inv vals⟩
  | step e _ ha hs ih =>
      obtain ⟨S, hm, hi⟩ := ih
      obtain ⟨s', S', heq, hm', hi'⟩ := step_inv hm hi ha
      obtain rfl := Option.some.inj (heq.symm.trans hs)
      exact ⟨S', hm', hi'⟩

/-- `caml_skiplist_find` finds the root in the list. -/
def Listed (s : Roots) (list : RootList) (r : Nat) : Prop :=
  ∃ data, s.arena.find list r = some (some data)

theorem Models.listed (hm : Models s S) (list : RootList) (r : Nat) :
    Listed s list r ↔ S list r := by
  obtain ⟨nodes, hl, hS⟩ := hm
  rw [Listed, hS, find_laid hl, Option.isSome_iff_exists]
  simp

/-- In every state that a program reaches: a registered root with a young value is in
    the young list, one with an old value in the old or the young list, and no other
    root is in either, save those in which a minor collection has left an integer;
    every further operation returns; and a minor collection leaves no registered root
    of either kind with a young value.  A root it leaves an integer in is in the old
    list, and still is when it has been removed. -/
theorem global_roots_scanned {vals : Nat → Nat} (hr : Runs h vals s M G L) :
    (∀ r, G r → (classifyGcRoot h (s.vals r) = .YOUNG → Listed s .caml_global_roots_young r) ∧
      (classifyGcRoot h (s.vals r) = .OLD →
        Listed s .caml_global_roots_old r ∨ Listed s .caml_global_roots_young r)) ∧
    (∀ r, ¬ L r → Listed s .caml_global_roots_old r ∨ Listed s .caml_global_roots_young r →
      G r ∧ classifyGcRoot h (s.vals r) ≠ .UNTRACKED) ∧
    (∀ e : Event, e.Allowed h G → ∃ s', step h s e = some s') ∧
    ∀ f, Promotes h f → ∃ s', scanGlobalYoungRoots f s = some s' ∧
      (∀ r, M r ∨ G r → s'.vals r = f (s.vals r) ∧ classifyGcRoot h (s'.vals r) ≠ .YOUNG) ∧
      (∀ r, ¬ Listed s' .caml_global_roots_young r) ∧
      ∀ r, G r → classifyGcRoot h (s.vals r) = .YOUNG →
        classifyGcRoot h (s'.vals r) = .UNTRACKED →
        Listed s' .caml_global_roots_old r ∧ ∃ s'', removeGenerationalGlobalRoot h r s' = some s'' ∧
          Listed s'' .caml_global_roots_old r := by
  obtain ⟨S, hm, hi⟩ := hr.inv
  refine ⟨fun r hG => ⟨fun hc => ?_, fun hc => ?_⟩, fun r hl hlist => ?_, fun e ha => ?_,
    fun f hf => ?_⟩
  · exact (hm.listed _ r).mpr (hi.young hG hc)
  · exact (hi.old hG hc).imp (hm.listed _ r).mpr (hm.listed _ r).mpr
  · rcases hlist with ho | hy
    · obtain ⟨hG, hc⟩ := (hi.inOld ((hm.listed _ r).mp ho)).resolve_left hl
      exact ⟨hG, by rw [hc]; decide⟩
    · exact hi.inYoung ((hm.listed _ r).mp hy)
  · obtain ⟨s', -, heq, -⟩ := step_inv hm hi ha
    exact ⟨s', heq⟩
  · obtain ⟨s', heq, hm', hi', hv, -⟩ := scanGlobalYoungRoots_inv hm hi hf
    refine ⟨s', heq, fun r hr => ⟨hv r hr, ?_⟩, fun r hl => (hm'.listed _ r).mp hl,
      fun r hG hyoung hint => ?_⟩
    · rw [hv r hr]
      by_cases hy : classifyGcRoot h (s.vals r) = .YOUNG
      · exact hf.young hy
      · rw [hf.stays hy]
        exact hy
    · have hold : Listed s' .caml_global_roots_old r :=
        (hm'.listed _ r).mpr (.inr (hi.young hG hyoung))
      refine ⟨hold, s', ?_, hold⟩
      -- the integer says that there is nothing to do
      unfold removeGenerationalGlobalRoot
      rw [hint]

/-- A collection of minor heaps in which every block is a forced lazy value of the
    integer 0. -/
def shortCircuit (v : Nat) : Nat :=
  if classifyGcRoot ⟨100, 200⟩ v = .YOUNG then 1 else v

theorem shortCircuit_promotes : Promotes ⟨100, 200⟩ shortCircuit := by
  refine ⟨fun hy => ?_, fun hno => if_neg hno⟩
  unfold shortCircuit
  rw [if_pos hy]
  decide

/-- A young value is put in a root that held an old one; a minor collection leaves an
    integer, and the root in the old list after its removal. -/
theorem global_roots_scanned_modify :
    ∃ s, Runs ⟨100, 200⟩ (fun _ => 300) s (fun _ => False) (fun k => False ∨ k = 8)
        (fun _ => False) ∧
      Listed s .caml_global_roots_young 8 ∧
      ∃ s', scanGlobalYoungRoots shortCircuit s = some s' ∧ s'.vals 8 = 1 ∧
        ∃ s'', removeGenerationalGlobalRoot ⟨100, 200⟩ 8 s' = some s'' ∧
          Listed s'' .caml_global_roots_old 8 := by
  have hrun : ∃ s, step ⟨100, 200⟩ (Roots.init fun _ => 300) (.registerGenerational 8) = some s ∧
      ∃ s', step ⟨100, 200⟩ s (.modifyGenerational 8 104) = some s' ∧ s'.vals 8 = 104 :=
    ⟨_, rfl, _, rfl, rfl⟩
  obtain ⟨s, h1, s', h2, hv⟩ := hrun
  have hr : Runs ⟨100, 200⟩ (fun _ => 300) s' (fun _ => False) (fun k => False ∨ k = 8)
      (fun _ => False) :=
    .step (.modifyGenerational 8 104)
      (.step (.registerGenerational 8) .init trivial h1) (Or.inr rfl) h2
  have hy : classifyGcRoot ⟨100, 200⟩ (s'.vals 8) = .YOUNG := by
    rw [hv]
    decide
  obtain ⟨hlists, -, -, hscan⟩ := global_roots_scanned hr
  obtain ⟨t, heq, hvals, -, hleft⟩ := hscan shortCircuit shortCircuit_promotes
  have hone : t.vals 8 = 1 := by
    rw [(hvals 8 (.inr (.inr rfl))).1, hv]
    decide
  refine ⟨s', hr, (hlists 8 (.inr rfl)).1 hy, t, heq, hone, ?_⟩
  exact (hleft 8 (.inr rfl) hy (by rw [hone]; decide)).2

end CamlGlobalRoots
