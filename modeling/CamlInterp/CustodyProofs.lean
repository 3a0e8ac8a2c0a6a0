import CamlInterp.ParentChainProofs

/-! # Custody — who holds which fiber

    What effects do to the fibers, with everything else left out: the parent
    links, the fiber that runs, the stack each un-taken continuation holds, and
    three things only the proof needs to remember — which fiber is the main
    one, which stacks have been allocated or taken and not resumed yet, and with
    which (continuation, last fiber) pair each handler was entered. -/

namespace CamlCustody

open ParentChain

/-- The fibers, and who holds them. -/
structure Custody where
  links : Links Nat
  current : Nat
  /-- the stack an un-taken continuation holds -/
  conts : Nat → Option Nat
  main : Nat
  /-- stacks allocated or taken from a continuation, and not resumed yet -/
  hand : List Nat
  /-- the pairs handlers were entered with and have not passed on -/
  tickets : List (Nat × Nat)

/-- Whom a chain of fibers belongs to. -/
inductive Owner where
  | current
  | cont (b : Nat)
  | hand (s : Nat)
deriving DecidableEq

/-- The pair a handler is entered with replaces any other for that continuation. -/
def issue (b child : Nat) (tickets : List (Nat × Nat)) : List (Nat × Nat) :=
  (b, child) :: tickets.filter (fun t => t.1 ≠ b)

/-- What the effect instructions and the two ways of leaving a fiber do. -/
inductive Step (c : Custody) : Custody → Prop where
  /-- the running stack is replaced by a copy -/
  | rename {y : Nat} {links' : Links Nat} : Renamed c.links c.current y links' →
      Step c { c with
        links := links', current := y,
        main := if c.main = c.current then y else c.main }
  | alloc {x : Nat} : c.links x = none →
      Step c { c with
        links := Function.update c.links x (some none), hand := x :: c.hand }
  | take {b s : Nat} : c.conts b = some s →
      Step c { c with conts := Function.update c.conts b none, hand := s :: c.hand }
  | resume {s last : Nat} {l : List Nat} : s ∈ c.hand → Linked c.links (s :: l) →
      (s :: l).getLast? = some last →
      Step c { c with
        links := Function.update c.links last (some (some c.current)), current := s,
        hand := c.hand.filter (fun t => t ≠ s) }
  | perform {b p : Nat} : c.links c.current = some (some p) → c.conts b = none →
      Step c { c with
        links := Function.update c.links c.current (some none), current := p,
        conts := Function.update c.conts b (some c.current),
        tickets := issue b c.current c.tickets }
  | reperform {b tail p : Nat} : (b, tail) ∈ c.tickets → c.conts b ≠ none →
      c.links c.current = some (some p) →
      Step c { c with
        links := Function.update (Function.update c.links c.current (some none)) tail
          (some (some c.current)),
        current := p, tickets := issue b c.current c.tickets }
  | leave {p : Nat} : c.links c.current = some (some p) →
      Step c { c with links := Function.update c.links c.current none, current := p }

/-- **OWNERSHIP**: the live fibers are partitioned into the current chain, from
    the running fiber to the main one, one chain for each un-taken continuation
    and one for each stack in hand; the last-fiber words are right. -/
structure Owned (c : Custody) (chain : Owner → List Nat) : Prop where
  partition : Partitioned c.links chain
  current : (chain .current).head? = some c.current
  main : (chain .current).getLast? = some c.main
  conts : ∀ b, (chain (.cont b)).head? = c.conts b
  hand : ∀ s, (chain (.hand s)).head? = if s ∈ c.hand then some s else none
  tickets : ∀ {b l}, (b, l) ∈ c.tickets → c.conts b ≠ none →
    (chain (.cont b)).getLast? = some l

variable {c c' : Custody} {chain : Owner → List Nat}

/-! ## What ownership gives -/

/-- Nothing has the running fiber as its parent. -/
theorem Owned.not_parent (h : Owned c chain) (x : Nat) :
    c.links x ≠ some (some c.current) :=
  h.partition.head_not_parent h.current x

/-- The chain of a continuation is the walk from the stack it holds. -/
theorem Owned.last_of_cont (h : Owned c chain) {b s : Nat} (hb : c.conts b = some s) :
    ∃ l last, chain (.cont b) = s :: l ∧ (s :: l).getLast? = some last := by
  have hhead := h.conts b
  rw [hb] at hhead
  obtain ⟨l, hl⟩ := List.head?_eq_some_iff.mp hhead
  exact ⟨l, _, hl, List.getLast?_cons⟩

/-- The fiber a handler was told is the last one has no parent. -/
theorem Owned.ticket_root (h : Owned c chain) {b l : Nat} (ht : (b, l) ∈ c.tickets)
    (hb : c.conts b ≠ none) : c.links l = some none :=
  (h.partition.linked (.cont b)).getLast (h.tickets ht hb)

theorem Owned.current_chain (h : Owned c chain) :
    ∃ l, chain .current = c.current :: l ∧ c.links c.current = some l.head? := by
  obtain ⟨l, hl⟩ := List.head?_eq_some_iff.mp h.current
  have hlinked := h.partition.linked .current
  rw [hl] at hlinked
  exact ⟨l, hl, hlinked.1⟩

/-- The chain of a fiber with a parent goes on with the parent. -/
theorem Owned.parent_chain (h : Owned c chain) {p : Nat}
    (hp : c.links c.current = some (some p)) :
    ∃ l, chain .current = c.current :: p :: l := by
  obtain ⟨l, hl, hlink⟩ := h.current_chain
  have hhead : l.head? = some p := Option.some.inj (hlink.symm.trans hp)
  obtain ⟨l', rfl⟩ := List.head?_eq_some_iff.mp hhead
  exact ⟨l', hl⟩

theorem Owned.cont_eq_nil (h : Owned c chain) {b : Nat} (hb : c.conts b = none) :
    chain (.cont b) = [] := by
  have hhead := h.conts b
  rw [hb] at hhead
  exact List.head?_eq_none_iff.mp hhead

theorem Owned.hand_eq_nil (h : Owned c chain) {s : Nat} (hs : s ∉ c.hand) :
    chain (.hand s) = [] := by
  have hhead := h.hand s
  rw [if_neg hs] at hhead
  exact List.head?_eq_none_iff.mp hhead

/-- A stack that lies elsewhere, or nowhere, is not in hand. -/
theorem Owned.not_in_hand (h : Owned c chain) {s : Nat}
    (hs : ∀ o, s ∈ chain o → o ≠ .hand s) : s ∉ c.hand := by
  intro hm
  have hhead := h.hand s
  rw [if_pos hm] at hhead
  exact hs _ (List.mem_of_mem_head? hhead) rfl

theorem mem_issue {b b' l child : Nat} {tickets : List (Nat × Nat)}
    (h : (b', l) ∈ issue b child tickets) :
    (b' = b ∧ l = child) ∨ (b' ≠ b ∧ (b', l) ∈ tickets) := by
  rcases List.mem_cons.mp h with heq | hmem
  · exact Or.inl (Prod.mk.inj heq)
  · obtain ⟨hm, hne⟩ := List.mem_filter.mp hmem
    exact Or.inr ⟨by simpa using hne, hm⟩

/-! ## Each step keeps it -/

/-- The running stack is replaced by another one. -/
theorem Owned.rename (h : Owned c chain) {y : Nat} {links' : Links Nat}
    (hr : Renamed c.links c.current y links') :
    ∃ chain', Owned { c with
      links := links', current := y,
      main := if c.main = c.current then y else c.main } chain' := by
  obtain ⟨l, hl, -⟩ := h.current_chain
  have hother : ∀ o, o ≠ .current → Function.update chain .current (y :: l) o = chain o :=
    fun o ho => Function.update_of_ne ho _ _
  refine ⟨_, h.partition.renameHead hl hr, ?_, ?_, ?_, ?_, ?_⟩
  · rw [Function.update_self]
    rfl
  · rw [Function.update_self]
    have hmain := h.main
    have hnd := (h.partition.linked .current).nodup
    rw [hl] at hmain hnd
    cases l with
    | nil =>
        have hm : c.main = c.current := (Option.some.inj hmain).symm
        show some y = some _
        rw [if_pos hm]
    | cons z l =>
        rw [List.getLast?_cons_cons] at hmain ⊢
        have hm : c.main ≠ c.current := by
          intro e
          exact (List.nodup_cons.mp hnd).1 (e ▸ List.mem_of_getLast? hmain)
        show _ = some (if c.main = c.current then y else c.main)
        rw [if_neg hm]
        exact hmain
  · exact fun b => by rw [hother (.cont b) nofun]; exact h.conts b
  · exact fun s => by rw [hother (.hand s) nofun]; exact h.hand s
  · exact fun {b _} ht hb => by rw [hother (.cont b) nofun]; exact h.tickets ht hb

/-- A new stack is a chain of its own, at hand. -/
theorem Owned.alloc (h : Owned c chain) {x : Nat} (hx : c.links x = none) :
    ∃ chain', Owned { c with
      links := Function.update c.links x (some none), hand := x :: c.hand } chain' := by
  have hnil : chain (.hand x) = [] :=
    h.hand_eq_nil (h.not_in_hand (fun o ho => absurd ho (h.partition.not_mem hx o)))
  have hother : ∀ o, o ≠ .hand x → Function.update chain (.hand x) [x] o = chain o :=
    fun o ho => Function.update_of_ne ho _ _
  refine ⟨_, h.partition.fresh hnil hx (Function.update_self _ _ _)
    (fun z hz => Function.update_of_ne hz _ _), ?_, ?_, ?_, ?_, ?_⟩
  · rw [hother .current nofun]; exact h.current
  · rw [hother .current nofun]; exact h.main
  · exact fun b => by rw [hother (.cont b) nofun]; exact h.conts b
  · intro s
    by_cases hs : s = x
    · subst hs
      rw [Function.update_self, if_pos List.mem_cons_self]
      rfl
    · rw [hother (.hand s) (fun e => hs (Owner.hand.inj e)), h.hand s]
      simp only [List.mem_cons, hs, false_or]
  · exact fun {b _} ht hb => by rw [hother (.cont b) nofun]; exact h.tickets ht hb

/-- The chain of a continuation is at hand once it is taken. -/
theorem Owned.take (h : Owned c chain) {b s : Nat} (hb : c.conts b = some s) :
    ∃ chain', Owned { c with
      conts := Function.update c.conts b none, hand := s :: c.hand } chain' := by
  obtain ⟨l, last, hl, -⟩ := h.last_of_cont hb
  have hsb : s ∈ chain (.cont b) := by rw [hl]; exact List.mem_cons_self
  have hnil : chain (.hand s) = [] := by
    refine h.hand_eq_nil (h.not_in_hand (fun o ho e => ?_))
    have := h.partition.unique hsb ho
    rw [e] at this
    exact nomatch this
  have hne : Owner.cont b ≠ .hand s := nofun
  have hother : ∀ o, o ≠ .cont b → o ≠ .hand s →
      regive chain (.cont b) (.hand s) [] (chain (.cont b)) o = chain o :=
    fun o h1 h2 => regive_of_ne h1 h2 _ _ _
  refine ⟨_, h.partition.hand hne hnil, ?_, ?_, ?_, ?_, ?_⟩
  · rw [hother .current nofun nofun]; exact h.current
  · rw [hother .current nofun nofun]; exact h.main
  · intro b'
    show _ = Function.update c.conts b none b'
    by_cases hb' : b' = b
    · subst hb'
      rw [regive_left hne, Function.update_self]
      rfl
    · rw [hother (.cont b') (fun e => hb' (Owner.cont.inj e)) nofun,
        Function.update_of_ne hb']
      exact h.conts b'
  · intro s'
    by_cases hs : s' = s
    · subst hs
      rw [regive_right, if_pos List.mem_cons_self, hl]
      rfl
    · rw [hother (.hand s') nofun (fun e => hs (Owner.hand.inj e)), h.hand s']
      simp only [List.mem_cons, hs, false_or]
  · intro b' l' ht hb'
    have hbb : b' ≠ b := by
      rintro rfl
      exact hb' (Function.update_self _ _ _)
    rw [hother (.cont b') (fun e => hbb (Owner.cont.inj e)) nofun]
    refine h.tickets ht ?_
    change Function.update c.conts b none b' ≠ none at hb'
    rwa [Function.update_of_ne hbb] at hb'

/-- A chain at hand is put in front of the current one. -/
theorem Owned.resume (h : Owned c chain) {s last : Nat} {l : List Nat} (hs : s ∈ c.hand)
    (hl : Linked c.links (s :: l)) (hlast : (s :: l).getLast? = some last) :
    ∃ chain', Owned { c with
      links := Function.update c.links last (some (some c.current)), current := s,
      hand := c.hand.filter (fun t => t ≠ s) } chain' := by
  have hhead := h.hand s
  rw [if_pos hs] at hhead
  have hchain : chain (.hand s) = s :: l :=
    (h.partition.linked (.hand s)).eq_of_head hl hhead
  have hne : Owner.hand s ≠ .current := nofun
  have hother : ∀ o, o ≠ .hand s → o ≠ .current →
      regive chain (.hand s) .current [] (chain (.hand s) ++ chain .current) o = chain o :=
    fun o h1 h2 => regive_of_ne h1 h2 _ _ _
  refine ⟨_, h.partition.join hne (t := last) (by rw [hchain]; exact hlast) ?_
    (fun z hz => Function.update_of_ne hz _ _), ?_, ?_, ?_, ?_, ?_⟩
  · show Function.update c.links last _ last = _
    rw [Function.update_self, h.current]
  · rw [regive_right, hchain]
    rfl
  · rw [regive_right, List.getLast?_append, h.main]
    rfl
  · exact fun b => by rw [hother (.cont b) nofun nofun]; exact h.conts b
  · intro s'
    by_cases hss : s' = s
    · subst hss
      rw [regive_left hne, if_neg (by simp)]
      rfl
    · rw [hother (.hand s') (fun e => hss (Owner.hand.inj e)) nofun, h.hand s']
      simp only [List.mem_filter, hss, ne_eq, not_false_eq_true, decide_true, and_true]
  · exact fun {b _} ht hb => by rw [hother (.cont b) nofun nofun]; exact h.tickets ht hb

/-- The running fiber goes to the end of a continuation's chain. -/
theorem Owned.capture (h : Owned c chain) {b p : Nat} {links' : Links Nat}
    {conts' : Nat → Option Nat}
    (hp : c.links c.current = some (some p))
    (hb : conts' b = some ((chain (.cont b)).headD c.current))
    (hconts : ∀ b', b' ≠ b → conts' b' = c.conts b')
    (hx : links' c.current = some none)
    (ht : ∀ t, (chain (.cont b)).getLast? = some t → links' t = some (some c.current))
    (hsame : ∀ z, z ≠ c.current → (chain (.cont b)).getLast? ≠ some z →
      links' z = c.links z) :
    ∃ chain', Owned { c with
      links := links', current := p, conts := conts',
      tickets := issue b c.current c.tickets } chain' := by
  obtain ⟨l, hl⟩ := h.parent_chain hp
  have hne : Owner.current ≠ .cont b := nofun
  have hother : ∀ o, o ≠ .current → o ≠ .cont b →
      regive chain .current (.cont b) (p :: l) (chain (.cont b) ++ [c.current]) o = chain o :=
    fun o h1 h2 => regive_of_ne h1 h2 _ _ _
  refine ⟨_, h.partition.moveHead hne hl hx ht hsame, ?_, ?_, ?_, ?_, ?_⟩
  · rw [regive_left hne]
    rfl
  · have hmain := h.main
    rw [hl, List.getLast?_cons_cons] at hmain
    rw [regive_left hne]
    exact hmain
  · intro b'
    show _ = conts' b'
    by_cases hb' : b' = b
    · subst hb'
      rw [regive_right, hb]
      cases chain (.cont b') <;> rfl
    · rw [hother (.cont b') nofun (fun e => hb' (Owner.cont.inj e)), hconts b' hb']
      exact h.conts b'
  · exact fun s => by rw [hother (.hand s) nofun nofun]; exact h.hand s
  · intro b' l' hmem hb'
    rcases mem_issue hmem with ⟨rfl, rfl⟩ | ⟨hbb, hold⟩
    · rw [regive_right, List.getLast?_concat]
    · rw [hother (.cont b') nofun (fun e => hbb (Owner.cont.inj e))]
      refine h.tickets hold ?_
      change conts' b' ≠ none at hb'
      rwa [hconts b' hbb] at hb'

/-- The running fiber becomes the chain of a new continuation. -/
theorem Owned.perform (h : Owned c chain) {b p : Nat}
    (hp : c.links c.current = some (some p)) (hb : c.conts b = none) :
    ∃ chain', Owned { c with
      links := Function.update c.links c.current (some none), current := p,
      conts := Function.update c.conts b (some c.current),
      tickets := issue b c.current c.tickets } chain' := by
  have hnil := h.cont_eq_nil hb
  refine h.capture hp ?_ (fun b' hb' => Function.update_of_ne hb' _ _)
    (Function.update_self _ _ _) ?_ (fun z hz _ => Function.update_of_ne hz _ _)
  · rw [Function.update_self, hnil]
    rfl
  · intro t ht
    rw [hnil] at ht
    exact nomatch ht

/-- The running fiber is added at the end of the chain of a continuation. -/
theorem Owned.reperform (h : Owned c chain) {b tail p : Nat} (ht : (b, tail) ∈ c.tickets)
    (hb : c.conts b ≠ none) (hp : c.links c.current = some (some p)) :
    ∃ chain', Owned { c with
      links := Function.update (Function.update c.links c.current (some none)) tail
        (some (some c.current)),
      current := p, tickets := issue b c.current c.tickets } chain' := by
  have hlast := h.tickets ht hb
  obtain ⟨s, hs⟩ := Option.ne_none_iff_exists'.mp hb
  obtain ⟨l, -, hl, -⟩ := h.last_of_cont hs
  obtain ⟨k, hk⟩ := h.parent_chain hp
  -- the running fiber is not the last one of somebody's continuation
  have hne : c.current ≠ tail := by
    intro e
    have h1 : tail ∈ chain .current := by rw [hk, e]; exact List.mem_cons_self
    exact nomatch h.partition.unique h1 (List.mem_of_getLast? hlast)
  refine h.capture hp (?_ : c.conts b = _) (fun _ _ => rfl) ?_ ?_ ?_
  · rw [hs, hl]
    rfl
  · rw [Function.update_of_ne hne, Function.update_self]
  · intro t htail
    obtain rfl : tail = t := Option.some.inj (hlast.symm.trans htail)
    rw [Function.update_self]
  · intro z hz hzt
    rw [hlast] at hzt
    rw [Function.update_of_ne (fun e => hzt (congrArg some e.symm)), Function.update_of_ne hz]

/-- The running fiber is freed, and its parent runs. -/
theorem Owned.leave (h : Owned c chain) {p : Nat} (hp : c.links c.current = some (some p)) :
    ∃ chain', Owned { c with
      links := Function.update c.links c.current none, current := p } chain' := by
  obtain ⟨l, hl⟩ := h.parent_chain hp
  have hother : ∀ o, o ≠ .current → Function.update chain .current (p :: l) o = chain o :=
    fun o ho => Function.update_of_ne ho _ _
  refine ⟨_, h.partition.dropHead hl (Function.update_self _ _ _)
    (fun z hz => Function.update_of_ne hz _ _), ?_, ?_, ?_, ?_, ?_⟩
  · rw [Function.update_self]
    rfl
  · have hmain := h.main
    rw [hl, List.getLast?_cons_cons] at hmain
    rw [Function.update_self]
    exact hmain
  · exact fun b => by rw [hother (.cont b) nofun]; exact h.conts b
  · exact fun s => by rw [hother (.hand s) nofun]; exact h.hand s
  · exact fun {b _} ht hb => by rw [hother (.cont b) nofun]; exact h.tickets ht hb

/-- **PRESERVATION**: whatever step is taken, the fibers stay owned. -/
theorem Owned.step (h : Owned c chain) (hs : Step c c') : ∃ chain', Owned c' chain' := by
  cases hs with
  | rename hr => exact h.rename hr
  | alloc hx => exact h.alloc hx
  | take hb => exact h.take hb
  | resume hs hl hlast => exact h.resume hs hl hlast
  | perform hp hb => exact h.perform hp hb
  | reperform ht hb hp => exact h.reperform ht hb hp
  | leave hp => exact h.leave hp

end CamlCustody
