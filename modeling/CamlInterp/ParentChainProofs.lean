import Mathlib.Logic.Function.Basic

/-! # Parent chains — nodes partitioned among owners by their parent links

    Every live node points to a parent or is a root.  A list of nodes is
    linked when each points to the next and the last is a root; such a list
    cannot repeat a node, because the walk from a node is determined.  A pool is
    partitioned when every owner has a linked list, every live node lies in one
    of them, and no node lies in two.  The operations here are the ways links
    are rewritten in place: the head of one chain moved to the end of another,
    two chains joined, a head released or replaced, a new node, a chain handed
    over.  Each is an instance of one rule, `Partitioned.regroup`. -/

namespace ParentChain

variable {α ι : Type}

/-- The parent of every live node: `none` for a dead one, `some none` for a root. -/
abbrev Links (α : Type) := α → Option (Option α)

/-- Each node of the list points to the next; the last is a root. -/
def Linked (links : Links α) : List α → Prop
  | [] => True
  | x :: l => links x = some l.head? ∧ Linked links l

variable {links links' : Links α} {l l' k : List α} {x y t : α}

/-! ## One chain -/

theorem Linked.congr (h : Linked links l) (hl : ∀ x ∈ l, links' x = links x) :
    Linked links' l := by
  induction l with
  | nil => trivial
  | cons x l ih =>
      refine ⟨?_, ih h.2 (fun y hy => hl y (List.mem_cons_of_mem _ hy))⟩
      rw [hl x List.mem_cons_self]
      exact h.1

/-- Only live nodes are linked. -/
theorem Linked.live (h : Linked links l) (hx : x ∈ l) : links x ≠ none := by
  induction l with
  | nil => exact nomatch hx
  | cons y l ih =>
      rcases List.mem_cons.mp hx with rfl | hx
      · rw [h.1]; exact nofun
      · exact ih h.2 hx

theorem Linked.of_append (h : Linked links (k ++ l)) : Linked links l := by
  induction k with
  | nil => exact h
  | cons x k ih => exact ih h.2

/-- The walk from a node is determined. -/
theorem Linked.eq_of_head (h : Linked links l) (h' : Linked links l')
    (hh : l.head? = l'.head?) : l = l' := by
  induction l generalizing l' with
  | nil =>
      cases l' with
      | nil => rfl
      | cons y l' => exact nomatch hh
  | cons x l ih =>
      cases l' with
      | nil => exact nomatch hh
      | cons y l' =>
          obtain rfl : x = y := Option.some.inj hh
          have htail : l.head? = l'.head? := Option.some.inj (h.1.symm.trans h'.1)
          rw [ih h.2 h'.2 htail]

/-- **ACYCLIC**: a linked list does not repeat a node. -/
theorem Linked.nodup (h : Linked links l) : l.Nodup := by
  induction l with
  | nil => exact List.nodup_nil
  | cons x l ih =>
      refine List.nodup_cons.mpr ⟨fun hx => ?_, ih h.2⟩
      obtain ⟨a, b, rfl⟩ := List.append_of_mem hx
      have hsame : x :: (a ++ x :: b) = x :: b :=
        h.eq_of_head (Linked.of_append h.2) rfl
      have hlen := congrArg List.length hsame
      simp only [List.length_cons, List.length_append] at hlen
      omega

/-- The last node is a root. -/
theorem Linked.getLast (h : Linked links l) (ht : l.getLast? = some t) :
    links t = some none := by
  induction l with
  | nil => exact nomatch ht
  | cons x l ih =>
      cases l with
      | nil =>
          obtain rfl : x = t := Option.some.inj ht
          exact h.1
      | cons y l => exact ih h.2 (by rw [List.getLast?_cons_cons] at ht; exact ht)

/-- A parent comes later in the chain. -/
theorem Linked.parent_mem (h : Linked links l) (hx : x ∈ l) (hy : links x = some (some y)) :
    y ∈ l.tail := by
  induction l with
  | nil => exact nomatch hx
  | cons z l ih =>
      rcases List.mem_cons.mp hx with rfl | hx
      · have hhead : l.head? = some y := Option.some.inj (h.1.symm.trans hy)
        exact List.mem_of_mem_head? hhead
      · exact List.mem_of_mem_tail (ih h.2 hx)

/-- Point the last node of one chain to the first of another. -/
theorem Linked.append (hk : Linked links k) (ht : k.getLast? = some t)
    (hl : Linked links' l) (hlink : links' t = some l.head?)
    (hsame : ∀ z ∈ k, z ≠ t → links' z = links z) : Linked links' (k ++ l) := by
  induction k with
  | nil => exact nomatch ht
  | cons x k ih =>
      have hnd := List.nodup_cons.mp hk.nodup
      cases k with
      | nil =>
          obtain rfl : x = t := Option.some.inj ht
          exact ⟨hlink, hl⟩
      | cons y k =>
          rw [List.getLast?_cons_cons] at ht
          refine ⟨?_, ih hk.2 ht (fun z hz => hsame z (List.mem_cons_of_mem _ hz))⟩
          have hxt : x ≠ t := by
            rintro rfl
            exact hnd.1 (List.mem_of_getLast? ht)
          rw [hsame x List.mem_cons_self hxt]
          exact hk.1

/-! ## The nodes around one -/

/-- The nodes met on the way from `a` along the parents, up to `a` itself. -/
inductive Around (links : Links α) (a : α) : α → Prop where
  | parent {x : α} : links a = some (some x) → x ≠ a → Around links a x
  | next {x y : α} : Around links a y → links y = some (some x) → x ≠ a → Around links a x

variable {a : α}

theorem Around.ne (h : Around links a x) : x ≠ a := by
  cases h with
  | parent _ hne => exact hne
  | next _ _ hne => exact hne

/-- `a` itself, or a node around it. -/
def Reaches (links : Links α) (a x : α) : Prop := x = a ∨ Around links a x

theorem Reaches.next [DecidableEq α] (h : Reaches links a y) (hy : links y = some (some x)) :
    Reaches links a x := by
  by_cases hx : x = a
  · exact Or.inl hx
  · rcases h with rfl | h
    · exact Or.inr (.parent hy hx)
    · exact Or.inr (.next h hy hx)

/-- Every node of a linked list is reached from its head. -/
theorem Linked.reaches [DecidableEq α] (h : Linked links (a :: l)) (hx : x ∈ a :: l) :
    Reaches links a x := by
  have hwalk : ∀ (k : List α) (y : α), Linked links (y :: k) → Reaches links a y →
      ∀ z ∈ y :: k, Reaches links a z := by
    intro k
    induction k with
    | nil =>
        intro y _ hy z hz
        rw [List.mem_singleton.mp hz]
        exact hy
    | cons w k ih =>
        intro y hl hy z hz
        rcases List.mem_cons.mp hz with rfl | hz
        · exact hy
        · exact ih w hl.2 (hy.next hl.1) z hz
  exact hwalk l a h (Or.inl rfl) x hx

/-- The nodes around `a` are around its parent too, as far as links are kept. -/
theorem Around.climb [DecidableEq α] {p : α} (h : Around links a x)
    (hp : links a = some (some p))
    (hkeep : ∀ y z, y ≠ a → links y = some (some z) → links' y = some (some z)) :
    Reaches links' p x := by
  induction h with
  | parent hx _ => exact Or.inl (Option.some.inj (Option.some.inj (hx.symm.trans hp)))
  | next hy hlink _ ih => exact ih.next (hkeep _ _ hy.ne hlink)

/-- What `b` reaches, another node reaches through it. -/
theorem Reaches.through [DecidableEq α] {b : α} (h : Reaches links b x)
    (hb : Reaches links' a b)
    (hkeep : ∀ y z, links y = some (some z) → links' y = some (some z)) :
    Reaches links' a x := by
  rcases h with rfl | h
  · exact hb
  · induction h with
    | parent hx _ => exact hb.next (hkeep _ _ hx)
    | next _ hlink _ ih => exact ih.next (hkeep _ _ hlink)

/-! ## All chains -/

/-- Every owner's list is linked, and every live node is in exactly one. -/
structure Partitioned (links : Links α) (chain : ι → List α) : Prop where
  linked : ∀ o, Linked links (chain o)
  covered : ∀ x, links x ≠ none → ∃ o, x ∈ chain o
  unique : ∀ {o o' x}, x ∈ chain o → x ∈ chain o' → o = o'

variable {chain chain' : ι → List α} {a b : ι}

/-- A dead node is in no chain. -/
theorem Partitioned.not_mem (h : Partitioned links chain) (hx : links x = none) (o : ι) :
    x ∉ chain o :=
  fun hm => (h.linked o).live hm hx

/-- Nobody points to the head of a chain. -/
theorem Partitioned.head_not_parent (h : Partitioned links chain)
    (hx : (chain a).head? = some x) (y : α) : links y ≠ some (some x) := by
  intro hy
  obtain ⟨o, ho⟩ := h.covered y (by rw [hy]; exact nofun)
  have htail := (h.linked o).parent_mem ho hy
  obtain rfl : o = a := h.unique (List.mem_of_mem_tail htail) (List.mem_of_mem_head? hx)
  have hnd := (h.linked o).nodup
  cases hc : chain o with
  | nil => rw [hc] at hx; exact nomatch hx
  | cons z l =>
      rw [hc] at hx htail hnd
      obtain rfl : z = x := Option.some.inj hx
      exact (List.nodup_cons.mp hnd).1 htail

/-- **REGROUPING RULE**: rewrite the chains of the owners in `T`.  The nodes
    they end up with were theirs or dead; the ones they lose die; links change
    only at nodes they have or had. -/
theorem Partitioned.regroup (h : Partitioned links chain) (T : ι → Prop)
    (hframe : ∀ o, ¬ T o → chain' o = chain o)
    (hlinked : ∀ o, T o → Linked links' (chain' o))
    (hunique : ∀ o o' x, T o → T o' → x ∈ chain' o → x ∈ chain' o' → o = o')
    (hfrom : ∀ o x, T o → x ∈ chain' o → links x = none ∨ ∃ o', T o' ∧ x ∈ chain o')
    (hto : ∀ o x, T o → x ∈ chain o → links' x = none ∨ ∃ o', T o' ∧ x ∈ chain' o')
    (hlinks : ∀ x, links' x ≠ links x → ∃ o, T o ∧ (x ∈ chain o ∨ x ∈ chain' o)) :
    Partitioned links' chain' := by
  -- a node of an untouched chain is in no touched one, before or after
  have hapart : ∀ o o' x, ¬ T o → T o' → x ∈ chain o → x ∈ chain' o' → False := by
    intro o o' x ho ho' hx hx'
    rcases hfrom o' x ho' hx' with hdead | ⟨o'', ho'', hx''⟩
    · exact (h.linked o).live hx hdead
    · exact ho (h.unique hx hx'' ▸ ho'')
  refine ⟨fun o => ?_, fun x hx => ?_, fun {o o' x} hx hx' => ?_⟩
  · by_cases ho : T o
    · exact hlinked o ho
    · rw [hframe o ho]
      refine (h.linked o).congr (fun x hx => ?_)
      by_cases hs : links' x = links x
      · exact hs
      · obtain ⟨o', ho', hor⟩ := hlinks x hs
        rcases hor with hx' | hx'
        · exact absurd (h.unique hx hx' ▸ ho') ho
        · exact (hapart o o' x ho ho' hx hx').elim
  · by_cases hs : links' x = links x
    · obtain ⟨o, ho⟩ := h.covered x (hs ▸ hx)
      by_cases hT : T o
      · rcases hto o x hT ho with hdead | ⟨o', -, hx'⟩
        · exact absurd hdead hx
        · exact ⟨o', hx'⟩
      · exact ⟨o, by rw [hframe o hT]; exact ho⟩
    · obtain ⟨o, hT, hor⟩ := hlinks x hs
      rcases hor with hx' | hx'
      · rcases hto o x hT hx' with hdead | ⟨o', -, hx''⟩
        · exact absurd hdead hx
        · exact ⟨o', hx''⟩
      · exact ⟨o, hx'⟩
  · by_cases ho : T o
    · by_cases ho' : T o'
      · exact hunique o o' x ho ho' hx hx'
      · rw [hframe o' ho'] at hx'
        exact (hapart o' o x ho' ho hx' hx).elim
    · rw [hframe o ho] at hx
      by_cases ho' : T o'
      · exact (hapart o o' x ho ho' hx hx').elim
      · rw [hframe o' ho'] at hx'
        exact h.unique hx hx'

/-! ## The operations -/

variable [DecidableEq ι]

/-- Give the chains `k` and `l` to two owners. -/
def regive (chain : ι → List α) (a b : ι) (k l : List α) : ι → List α :=
  Function.update (Function.update chain a k) b l

@[simp] theorem regive_right (chain : ι → List α) (a b : ι) (k l : List α) :
    regive chain a b k l b = l :=
  Function.update_self _ _ _

theorem regive_left (hab : a ≠ b) (chain : ι → List α) (k l : List α) :
    regive chain a b k l a = k := by
  unfold regive
  rw [Function.update_of_ne hab, Function.update_self]

theorem regive_of_ne {o : ι} (ha : o ≠ a) (hb : o ≠ b) (chain : ι → List α) (k l : List α) :
    regive chain a b k l o = chain o := by
  unfold regive
  rw [Function.update_of_ne hb, Function.update_of_ne ha]

/-- The regrouping rule for two owners whose nodes stay among them. -/
theorem Partitioned.regive (h : Partitioned links chain) (hab : a ≠ b)
    (hk : Linked links' k) (hl : Linked links' l)
    (hmem : ∀ z, z ∈ k ∨ z ∈ l ↔ z ∈ chain a ∨ z ∈ chain b)
    (hdisj : ∀ z ∈ k, z ∉ l)
    (hlinks : ∀ z, links' z ≠ links z → z ∈ chain a ∨ z ∈ chain b) :
    Partitioned links' (ParentChain.regive chain a b k l) := by
  have hA := regive_left hab chain k l
  have hB := regive_right chain a b k l
  have hkept : ∀ z, z ∈ chain a ∨ z ∈ chain b →
      ∃ o, (o = a ∨ o = b) ∧ z ∈ ParentChain.regive chain a b k l o := by
    intro z hz
    rcases (hmem z).mpr hz with hz | hz
    · exact ⟨a, Or.inl rfl, by rw [hA]; exact hz⟩
    · exact ⟨b, Or.inr rfl, by rw [hB]; exact hz⟩
  refine h.regroup (fun o => o = a ∨ o = b) ?_ ?_ ?_ ?_ ?_ ?_
  · intro o ho
    exact regive_of_ne (fun e => ho (Or.inl e)) (fun e => ho (Or.inr e)) chain k l
  · rintro o (rfl | rfl)
    · rw [hA]; exact hk
    · rw [hB]; exact hl
  · rintro o o' z (rfl | rfl) (rfl | rfl) hz hz'
    · rfl
    · rw [hA] at hz; rw [hB] at hz'; exact absurd hz' (hdisj z hz)
    · rw [hB] at hz; rw [hA] at hz'; exact absurd hz (hdisj z hz')
    · rfl
  · rintro o z (rfl | rfl) hz
    · rw [hA] at hz
      exact Or.inr (((hmem z).mp (Or.inl hz)).elim
        (fun hz => ⟨_, Or.inl rfl, hz⟩) (fun hz => ⟨_, Or.inr rfl, hz⟩))
    · rw [hB] at hz
      exact Or.inr (((hmem z).mp (Or.inr hz)).elim
        (fun hz => ⟨_, Or.inl rfl, hz⟩) (fun hz => ⟨_, Or.inr rfl, hz⟩))
  · rintro o z (rfl | rfl) hz
    · exact Or.inr (hkept z (Or.inl hz))
    · exact Or.inr (hkept z (Or.inr hz))
  · intro z hz
    exact (hlinks z hz).elim (fun hz => ⟨_, Or.inl rfl, Or.inl hz⟩)
      (fun hz => ⟨_, Or.inr rfl, Or.inl hz⟩)

/-- The head of one chain becomes the root at the end of another. -/
theorem Partitioned.moveHead (h : Partitioned links chain) (hab : a ≠ b)
    (ha : chain a = x :: l) (hx : links' x = some none)
    (ht : ∀ t, (chain b).getLast? = some t → links' t = some (some x))
    (hsame : ∀ z, z ≠ x → (chain b).getLast? ≠ some z → links' z = links z) :
    Partitioned links' (ParentChain.regive chain a b l (chain b ++ [x])) := by
  have hA := h.linked a
  rw [ha] at hA
  have hxl : x ∉ l := (List.nodup_cons.mp hA.nodup).1
  have hapart : ∀ z ∈ x :: l, z ∉ chain b :=
    fun z hz hzb => hab (h.unique (ha ▸ hz : z ∈ chain a) hzb)
  have hsingle : Linked links' [x] := ⟨hx, trivial⟩
  refine h.regive hab ?_ ?_ ?_ ?_ ?_
  · refine hA.2.congr (fun z hz => hsame z ?_ ?_)
    · rintro rfl; exact hxl hz
    · intro hlast
      exact hapart z (List.mem_cons_of_mem _ hz) (List.mem_of_getLast? hlast)
  · cases hlast : (chain b).getLast? with
    | none =>
        rw [List.getLast?_eq_none_iff.mp hlast]
        exact hsingle
    | some t =>
        refine (h.linked b).append hlast hsingle (ht t hlast) (fun z hz hzt => hsame z ?_ ?_)
        · rintro rfl; exact hapart z List.mem_cons_self hz
        · rw [hlast]; exact fun e => hzt (Option.some.inj e).symm
  · intro z
    rw [ha, List.mem_append, List.mem_singleton, List.mem_cons]
    constructor
    · rintro (hz | hz | hz)
      · exact Or.inl (Or.inr hz)
      · exact Or.inr hz
      · exact Or.inl (Or.inl hz)
    · rintro ((hz | hz) | hz)
      · exact Or.inr (Or.inr hz)
      · exact Or.inl hz
      · exact Or.inr (Or.inl hz)
  · intro z hz hz'
    rcases List.mem_append.mp hz' with hz' | hz'
    · exact hapart z (List.mem_cons_of_mem _ hz) hz'
    · exact hxl (List.mem_singleton.mp hz' ▸ hz)
  · intro z hz
    by_cases hzx : z = x
    · exact Or.inl (by rw [ha, hzx]; exact List.mem_cons_self)
    · by_cases hlast : (chain b).getLast? = some z
      · exact Or.inr (List.mem_of_getLast? hlast)
      · exact absurd (hsame z hzx hlast) hz

/-- The last node of one chain is pointed to the head of another. -/
theorem Partitioned.join (h : Partitioned links chain) (hab : a ≠ b)
    (ht : (chain a).getLast? = some t) (hlink : links' t = some (chain b).head?)
    (hsame : ∀ z, z ≠ t → links' z = links z) :
    Partitioned links' (ParentChain.regive chain a b [] (chain a ++ chain b)) := by
  have hta := List.mem_of_getLast? ht
  have hlb : Linked links' (chain b) :=
    (h.linked b).congr (fun z hz => hsame z (fun e => hab (h.unique hta (e ▸ hz))))
  refine h.regive hab trivial ?_ ?_ ?_ ?_
  · exact (h.linked a).append ht hlb hlink (fun z _ hz => hsame z hz)
  · intro z
    rw [List.mem_append]
    exact ⟨fun hz => hz.elim (fun hz => nomatch hz) id, Or.inr⟩
  · exact fun z hz => nomatch hz
  · intro z hz
    by_cases hzt : z = t
    · exact Or.inl (hzt ▸ hta)
    · exact absurd (hsame z hzt) hz

/-- A chain is handed over. -/
theorem Partitioned.hand (h : Partitioned links chain) (hab : a ≠ b) (hb : chain b = []) :
    Partitioned links (ParentChain.regive chain a b [] (chain a)) := by
  refine h.regive hab trivial (h.linked a) ?_ (fun z hz => nomatch hz) (fun z hz => absurd rfl hz)
  intro z
  rw [hb]
  exact Or.comm

/-- The regrouping rule for one owner whose head changes. -/
theorem Partitioned.rehead (h : Partitioned links chain)
    (hk : Linked links' k)
    (hfrom : ∀ z ∈ k, links z = none ∨ z ∈ chain a)
    (hto : ∀ z ∈ chain a, links' z = none ∨ z ∈ k)
    (hlinks : ∀ z, links' z ≠ links z → z ∈ chain a ∨ z ∈ k) :
    Partitioned links' (Function.update chain a k) := by
  have hA : Function.update chain a k a = k := Function.update_self _ _ _
  refine h.regroup (fun o => o = a) ?_ ?_ ?_ ?_ ?_ ?_
  · intro o ho
    exact Function.update_of_ne ho _ _
  · rintro o rfl
    rw [hA]
    exact hk
  · rintro o o' z rfl rfl _ _
    rfl
  · rintro o z rfl hz
    rw [hA] at hz
    exact (hfrom z hz).imp id (fun hz => ⟨_, rfl, hz⟩)
  · rintro o z rfl hz
    exact (hto z hz).imp id (fun hz => ⟨_, rfl, hA.symm ▸ hz⟩)
  · intro z hz
    exact ⟨a, rfl, (hlinks z hz).imp id (fun hz => hA.symm ▸ hz)⟩

/-- The head of a chain is released. -/
theorem Partitioned.dropHead (h : Partitioned links chain) (ha : chain a = x :: l)
    (hx : links' x = none) (hsame : ∀ z, z ≠ x → links' z = links z) :
    Partitioned links' (Function.update chain a l) := by
  have hA := h.linked a
  rw [ha] at hA
  have hxl := (List.nodup_cons.mp hA.nodup).1
  refine h.rehead ?_ ?_ ?_ ?_
  · exact hA.2.congr (fun z hz => hsame z (fun e => hxl (e ▸ hz)))
  · intro z hz
    exact Or.inr (by rw [ha]; exact List.mem_cons_of_mem _ hz)
  · intro z hz
    rw [ha] at hz
    rcases List.mem_cons.mp hz with rfl | hz
    · exact Or.inl hx
    · exact Or.inr hz
  · intro z hz
    by_cases hzx : z = x
    · exact Or.inl (by rw [ha, hzx]; exact List.mem_cons_self)
    · exact absurd (hsame z hzx) hz

/-- A dead node comes to life as a chain of its own. -/
theorem Partitioned.fresh (h : Partitioned links chain) (ha : chain a = [])
    (hx : links x = none) (hx' : links' x = some none)
    (hsame : ∀ z, z ≠ x → links' z = links z) :
    Partitioned links' (Function.update chain a [x]) := by
  refine h.rehead ⟨hx', trivial⟩ ?_ ?_ ?_
  · intro z hz
    exact Or.inl (List.mem_singleton.mp hz ▸ hx)
  · intro z hz
    rw [ha] at hz
    exact nomatch hz
  · intro z hz
    by_cases hzx : z = x
    · exact Or.inr (List.mem_singleton.mpr hzx)
    · exact absurd (hsame z hzx) hz

/-- Links in which node `x` has moved to `y`, where nothing lived. -/
structure Renamed (links : Links α) (x y : α) (links' : Links α) : Prop where
  moved : links' y = links x
  gone : y ≠ x → links y = none ∧ links' x = none
  same : ∀ z, z ≠ x → z ≠ y → links' z = links z

theorem Renamed.refl (links : Links α) (x : α) : Renamed links x x links :=
  ⟨rfl, fun h => absurd rfl h, fun _ _ _ => rfl⟩

/-- Two renamings one after the other. -/
theorem Renamed.trans {links'' : Links α} {z : α} (h : Renamed links x y links')
    (h' : Renamed links' y z links'') : Renamed links x z links'' := by
  refine ⟨h'.moved.trans h.moved, fun hzx => ?_, fun w hwx hwz => ?_⟩
  · by_cases hzy : z = y
    · subst hzy
      exact ⟨(h.gone hzx).1, (h'.same x hzx.symm hzx.symm).trans (h.gone hzx).2⟩
    · refine ⟨(h.same z hzx hzy).symm.trans (h'.gone hzy).1, ?_⟩
      by_cases hyx : y = x
      · subst hyx
        exact (h'.gone hzy).2
      · exact (h'.same x (fun e => hyx e.symm) hzx.symm).trans (h.gone hyx).2
  · by_cases hwy : w = y
    · subst hwy
      exact (h'.gone hwz.symm).2.trans (h.gone hwx).1.symm
    · exact (h'.same w hwy hwz).trans (h.same w hwx hwy)

/-- The head of a chain is replaced by a dead node. -/
theorem Partitioned.renameHead (h : Partitioned links chain) (ha : chain a = x :: l)
    (hr : Renamed links x y links') :
    Partitioned links' (Function.update chain a (y :: l)) := by
  have hA := h.linked a
  rw [ha] at hA
  have hxl := (List.nodup_cons.mp hA.nodup).1
  have hyl : y ∉ l := by
    intro hy
    by_cases hyx : y = x
    · exact hxl (hyx ▸ hy)
    · exact (hA.2.live hy) (hr.gone hyx).1
  refine h.rehead ⟨hr.moved.trans hA.1, ?_⟩ ?_ ?_ ?_
  · exact hA.2.congr (fun z hz => hr.same z (fun e => hxl (e ▸ hz)) (fun e => hyl (e ▸ hz)))
  · intro z hz
    rw [ha]
    rcases List.mem_cons.mp hz with rfl | hz
    · by_cases hyx : z = x
      · exact Or.inr (hyx ▸ List.mem_cons_self)
      · exact Or.inl (hr.gone hyx).1
    · exact Or.inr (List.mem_cons_of_mem _ hz)
  · intro z hz
    rw [ha] at hz
    rcases List.mem_cons.mp hz with rfl | hz
    · by_cases hyx : y = z
      · exact Or.inr (hyx ▸ List.mem_cons_self)
      · exact Or.inl (hr.gone hyx).2
    · exact Or.inr (List.mem_cons_of_mem _ hz)
  · intro z hz
    by_cases hzx : z = x
    · exact Or.inl (by rw [ha, hzx]; exact List.mem_cons_self)
    · by_cases hzy : z = y
      · exact Or.inr (hzy ▸ List.mem_cons_self)
      · exact absurd (hr.same z hzx hzy) hz

end ParentChain
