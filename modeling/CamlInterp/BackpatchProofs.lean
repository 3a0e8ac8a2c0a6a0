import Mathlib.Data.List.Basic

/-! # Backpatching — forward references in a buffer that only grows

    A buffer is written one word at a time.  A label stands for the position it
    is placed at; a word that refers to it is computed from that position and an
    origin.  A reference to a label that is still ahead is written as a hole, and
    noted; placing the label fills its holes.  Whatever is written in between,
    each reference ends up as if its label had been known, and no other word is
    touched. -/

namespace Backpatch

variable {L W : Type}

/-- A label is placed, or ahead with the holes to fill, each with its origin. -/
inductive Target where
  | placed (pos : Nat)
  | ahead (sites : List (Nat × Nat))

structure Buffer (L W : Type) where
  words : List W
  target : L → Target

/-- The size of a word, what a reference from an origin to a position looks like,
    and a hole. -/
structure Layout (W : Type) where
  unit : Nat
  unit_pos : 0 < unit
  fill : Nat → Nat → W
  hole : W

/-! ## Operations -/

namespace Buffer

variable [DecidableEq L] (y : Layout W)

/-- The position of the next word. -/
def position (b : Buffer L W) : Nat := y.unit * b.words.length

def write (b : Buffer L W) (w : W) : Buffer L W := { b with words := b.words ++ [w] }

def setTarget (b : Buffer L W) (l : L) (t : Target) : Buffer L W :=
  { b with target := fun l' => if l' = l then t else b.target l' }

/-- Write a reference to `l` from `org`. -/
def refer (org : Nat) (b : Buffer L W) (l : L) : Buffer L W :=
  match b.target l with
  | .placed pos => b.write (y.fill pos org)
  | .ahead sites => (b.setTarget l (.ahead ((b.position y, org) :: sites))).write y.hole

/-- Fill one hole with the position reached. -/
def patch (b : Buffer L W) (site : Nat × Nat) : Buffer L W :=
  { b with words := b.words.set (site.1 / y.unit) (y.fill (b.position y) site.2) }

/-- Place `l` here; a label is placed once. -/
def place (b : Buffer L W) (l : L) : Option (Buffer L W) :=
  match b.target l with
  | .placed _ => none
  | .ahead sites =>
      let b := sites.foldl (patch y) b
      some (b.setTarget l (.placed (b.position y)))

end Buffer

/-- `b'` is reached from `b` by writes, references and placed labels. -/
inductive Grows [DecidableEq L] (y : Layout W) (b : Buffer L W) : Buffer L W → Prop where
  | refl : Grows y b b
  | write {b' : Buffer L W} (w : W) : Grows y b b' → Grows y b (b'.write w)
  | refer {b' : Buffer L W} (org : Nat) (l : L) : Grows y b b' → Grows y b (b'.refer y org l)
  | place {b' b'' : Buffer L W} {l : L} : Grows y b b' → b'.place y l = some b'' → Grows y b b''

theorem Grows.trans [DecidableEq L] {y : Layout W} {a b c : Buffer L W} (hab : Grows y a b)
    (hbc : Grows y b c) : Grows y a c := by
  induction hbc with
  | refl => exact hab
  | write w _ ih => exact .write w ih
  | refer org l _ ih => exact .refer org l ih
  | place _ hp ih => exact .place ih hp

/-! ## What holds of a word -/

variable {y : Layout W} {b b' : Buffer L W} {k k' org org' : Nat} {l l' : L} {w : W}

/-- Word `k` is a hole for `l`. -/
def Pending (y : Layout W) (b : Buffer L W) (k org : Nat) (l : L) : Prop :=
  ∃ sites, b.target l = .ahead sites ∧ (y.unit * k, org) ∈ sites

/-- Word `k` is `w`, and no hole. -/
def Settled (y : Layout W) (b : Buffer L W) (k : Nat) (w : W) : Prop :=
  b.words[k]? = some w ∧ ∀ org l, ¬ Pending y b k org l

/-- Word `k` refers to `l`. -/
def Refers (y : Layout W) (b : Buffer L W) (k org : Nat) (l : L) : Prop :=
  Pending y b k org l ∨ ∃ pos, b.target l = .placed pos ∧ Settled y b k (y.fill pos org)

/-- Every hole is a word of the buffer, and a hole for one reference only; a
    label is placed before a word, or at the end. -/
structure Sound (y : Layout W) (b : Buffer L W) : Prop where
  inside : ∀ {l sites site}, b.target l = .ahead sites → site ∈ sites →
    ∃ k < b.words.length, site.1 = y.unit * k
  alone : ∀ {k org org' l l'}, Pending y b k org l → Pending y b k org' l' → org = org' ∧ l = l'
  placed : ∀ {l pos}, b.target l = .placed pos → ∃ k ≤ b.words.length, pos = y.unit * k

theorem Pending.lt_length (hs : Sound y b) (h : Pending y b k org l) : k < b.words.length := by
  obtain ⟨sites, ht, hmem⟩ := h
  obtain ⟨k', hlt, hk⟩ := hs.inside ht hmem
  obtain rfl := Nat.eq_of_mul_eq_mul_left y.unit_pos hk
  exact hlt

theorem Refers.of_placed {pos : Nat} (h : Refers y b k org l) (ht : b.target l = .placed pos) :
    b.words[k]? = some (y.fill pos org) := by
  rcases h with ⟨sites, ht', -⟩ | ⟨pos', ht', hset, -⟩
  · rw [ht] at ht'
    cases ht'
  · obtain rfl := Target.placed.inj (ht.symm.trans ht')
    exact hset

/-- An empty buffer with nothing noted. -/
theorem sound_empty (h : ∀ l, b.target l = .ahead []) : Sound y b where
  inside := by
    intro l sites site ht hmem
    rw [h l] at ht
    obtain rfl := Target.ahead.inj ht
    cases hmem
  alone := by
    rintro k org org' l l' ⟨sites, ht, hmem⟩
    rw [h l] at ht
    obtain rfl := Target.ahead.inj ht
    cases hmem
  placed := by
    intro l pos ht
    rw [h l] at ht
    cases ht

/-- What an operation keeps. -/
structure Keeps (y : Layout W) (b b' : Buffer L W) : Prop where
  sound : Sound y b'
  settled : ∀ {k w}, Settled y b k w → Settled y b' k w
  refers : ∀ {k org l}, Refers y b k org l → Refers y b' k org l
  placed : ∀ {l pos}, b.target l = .placed pos → b'.target l = .placed pos
  length : b.words.length ≤ b'.words.length

/-! ## Writing -/

theorem write_settled (h : Settled y b k w) (w' : W) : Settled y (b.write w') k w := by
  refine ⟨?_, h.2⟩
  have hlt : k < b.words.length := (List.getElem?_eq_some_iff.mp h.1).1
  show (b.words ++ [w'])[k]? = _
  rw [List.getElem?_append_left hlt]
  exact h.1

/-- Writing a word keeps what is written and what is placed. -/
theorem write_keeps (hs : Sound y b) (w : W) : Keeps y b (b.write w) where
  sound := by
    have hlen : b.words.length ≤ (b.words ++ [w]).length := by
      rw [List.length_append]
      exact Nat.le_add_right _ _
    refine ⟨?_, hs.alone, ?_⟩
    · intro l sites site ht hmem
      obtain ⟨k, hlt, hk⟩ := hs.inside ht hmem
      exact ⟨k, Nat.lt_of_lt_of_le hlt hlen, hk⟩
    · intro l pos ht
      obtain ⟨k, hle, hk⟩ := hs.placed ht
      exact ⟨k, Nat.le_trans hle hlen, hk⟩
  settled := fun h => write_settled h w
  refers := by
    rintro k org l (h | ⟨pos, ht, h⟩)
    · exact .inl h
    · exact .inr ⟨pos, ht, write_settled h w⟩
  placed := id
  length := by
    show _ ≤ (b.words ++ [w]).length
    rw [List.length_append]
    exact Nat.le_add_right _ _

/-- A word just written is no hole. -/
theorem write_settles (hs : Sound y b) (w : W) : Settled y (b.write w) b.words.length w := by
  refine ⟨?_, ?_⟩
  · show (b.words ++ [w])[b.words.length]? = _
    rw [List.getElem?_append_right (Nat.le_refl _), Nat.sub_self]
    rfl
  · intro org l hp
    exact Nat.lt_irrefl _ (Pending.lt_length hs hp)

theorem Keeps.refl (hs : Sound y b) : Keeps y b b := ⟨hs, id, id, id, Nat.le_refl _⟩

theorem Keeps.trans {c : Buffer L W} (h : Keeps y b b') (h' : Keeps y b' c) : Keeps y b c where
  sound := h'.sound
  settled := fun hw => h'.settled (h.settled hw)
  refers := fun hr => h'.refers (h.refers hr)
  placed := fun hp => h'.placed (h.placed hp)
  length := Nat.le_trans h.length h'.length

/-! ## Filling holes -/

theorem length_patches (sites : List (Nat × Nat)) (b : Buffer L W) :
    (sites.foldl (Buffer.patch y) b).words.length = b.words.length := by
  induction sites generalizing b with
  | nil => rfl
  | cons site sites ih => exact (ih _).trans List.length_set

theorem target_patches (sites : List (Nat × Nat)) (b : Buffer L W) :
    (sites.foldl (Buffer.patch y) b).target = b.target := by
  induction sites generalizing b with
  | nil => rfl
  | cons site sites ih => exact ih _

/-- A word that is no hole of the list stays. -/
theorem patches_other (sites : List (Nat × Nat)) (b : Buffer L W)
    (hsites : ∀ site ∈ sites, ∃ k', site.1 = y.unit * k')
    (hk : ∀ org, (y.unit * k, org) ∉ sites) :
    (sites.foldl (Buffer.patch y) b).words[k]? = b.words[k]? := by
  induction sites generalizing b with
  | nil => rfl
  | cons site sites ih =>
      obtain ⟨k', hk'⟩ := hsites site List.mem_cons_self
      have hne : site.1 / y.unit ≠ k := by
        rw [hk', Nat.mul_div_cancel_left _ y.unit_pos]
        rintro rfl
        refine hk site.2 ?_
        rw [← hk']
        exact List.mem_cons_self
      refine (ih _ (fun s hs => hsites s (List.mem_cons_of_mem _ hs))
        (fun org hmem => hk org (List.mem_cons_of_mem _ hmem))).trans ?_
      exact List.getElem?_set_ne hne

/-- A hole of the list, with one origin only, is filled. -/
theorem patches_hole (sites : List (Nat × Nat)) (b : Buffer L W)
    (hsites : ∀ site ∈ sites, ∃ k', site.1 = y.unit * k') (hlt : k < b.words.length)
    (hmem : (y.unit * k, org) ∈ sites) (hone : ∀ org', (y.unit * k, org') ∈ sites → org' = org) :
    (sites.foldl (Buffer.patch y) b).words[k]? = some (y.fill (b.position y) org) := by
  induction sites generalizing b with
  | nil => cases hmem
  | cons site sites ih =>
      have hsites' : ∀ site ∈ sites, ∃ k', site.1 = y.unit * k' :=
        fun s hs => hsites s (List.mem_cons_of_mem _ hs)
      have hpos : (b.patch y site).position y = b.position y :=
        congrArg (y.unit * ·) List.length_set
      by_cases hlater : ∃ org', (y.unit * k, org') ∈ sites
      · obtain ⟨org', hmem'⟩ := hlater
        obtain rfl := hone org' (List.mem_cons_of_mem _ hmem')
        rw [← hpos]
        exact ih _ hsites' (Nat.lt_of_lt_of_eq hlt List.length_set.symm) hmem'
          fun o ho => hone o (List.mem_cons_of_mem _ ho)
      · rcases List.mem_cons.mp hmem with rfl | hmem
        · refine (patches_other sites _ hsites' fun o ho => hlater ⟨o, ho⟩).trans ?_
          show (b.words.set (y.unit * k / y.unit) _)[k]? = _
          rw [Nat.mul_div_cancel_left _ y.unit_pos]
          exact List.getElem?_set_self hlt
        · exact absurd ⟨org, hmem⟩ hlater

/-! ## References -/

variable [DecidableEq L]

theorem setTarget_of_ne {t : Target} (h : l' ≠ l) : (b.setTarget l t).target l' = b.target l' :=
  if_neg h

theorem setTarget_self (b : Buffer L W) (l : L) (t : Target) : (b.setTarget l t).target l = t :=
  if_pos rfl

/-- Noting one more hole for `l`. -/
theorem pending_note {sites : List (Nat × Nat)} {pos : Nat} (ht : b.target l = .ahead sites) :
    Pending y (b.setTarget l (.ahead ((pos, org) :: sites))) k org' l' ↔
      Pending y b k org' l' ∨ (l' = l ∧ org' = org ∧ y.unit * k = pos) := by
  by_cases hl : l' = l
  · subst hl
    constructor
    · rintro ⟨sites', ht', hmem⟩
      rw [setTarget_self] at ht'
      obtain rfl := Target.ahead.inj ht'
      rcases List.mem_cons.mp hmem with heq | hmem
      · obtain ⟨h1, h2⟩ := Prod.mk.inj heq
        exact .inr ⟨rfl, h2, h1⟩
      · exact .inl ⟨sites, ht, hmem⟩
    · intro h
      refine ⟨_, setTarget_self _ _ _, ?_⟩
      rcases h with ⟨sites', ht', hmem⟩ | ⟨-, rfl, rfl⟩
      · obtain rfl := Target.ahead.inj (ht.symm.trans ht')
        exact List.mem_cons_of_mem _ hmem
      · exact List.mem_cons_self
  · constructor
    · rintro ⟨sites', ht', hmem⟩
      rw [setTarget_of_ne hl] at ht'
      exact .inl ⟨sites', ht', hmem⟩
    · rintro (⟨sites', ht', hmem⟩ | ⟨h, -⟩)
      · exact ⟨sites', (setTarget_of_ne hl).trans ht', hmem⟩
      · exact absurd h hl

/-- A hole at the end of the buffer, about to be written. -/
theorem note_sound {sites : List (Nat × Nat)} (hs : Sound y b) (ht : b.target l = .ahead sites)
    (w : W) :
    Sound y ((b.setTarget l (.ahead ((b.position y, org) :: sites))).write w) := by
  have hlen : ∀ k, k ≤ b.words.length → k < (b.words ++ [w]).length := by
    intro k hk
    rw [List.length_append]
    exact Nat.lt_succ_of_le hk
  refine ⟨?_, ?_, ?_⟩
  · intro l' sites' site ht' hmem
    by_cases hl : l' = l
    · subst hl
      obtain rfl := Target.ahead.inj ((setTarget_self b l' _).symm.trans ht')
      rcases List.mem_cons.mp hmem with rfl | hmem
      · exact ⟨b.words.length, hlen _ (Nat.le_refl _), rfl⟩
      · obtain ⟨k, hlt, hk⟩ := hs.inside ht hmem
        exact ⟨k, hlen _ (Nat.le_of_lt hlt), hk⟩
    · obtain ⟨k, hlt, hk⟩ := hs.inside ((setTarget_of_ne hl).symm.trans ht') hmem
      exact ⟨k, hlen _ (Nat.le_of_lt hlt), hk⟩
  · -- the new hole is past every old one
    intro k o o' l1 l2 h1 h2
    have hnew : ∀ {o l}, Pending y b k o l → y.unit * k = b.position y → False := by
      intro o l hp hk
      obtain rfl := Nat.eq_of_mul_eq_mul_left y.unit_pos hk
      exact Nat.lt_irrefl _ (Pending.lt_length hs hp)
    rcases (pending_note ht).mp h1 with p1 | ⟨e1, o1, hk⟩
    · rcases (pending_note ht).mp h2 with p2 | ⟨-, -, hk⟩
      · exact hs.alone p1 p2
      · exact (hnew p1 hk).elim
    · rcases (pending_note ht).mp h2 with p2 | ⟨e2, o2, -⟩
      · exact (hnew p2 hk).elim
      · exact ⟨o1.trans o2.symm, e1.trans e2.symm⟩
  · intro l' pos ht'
    by_cases hl : l' = l
    · subst hl
      have hself := (setTarget_self b l' (.ahead ((b.position y, org) :: sites))).symm.trans ht'
      cases hself
    · obtain ⟨k, hle, hk⟩ := hs.placed ((setTarget_of_ne hl).symm.trans ht')
      exact ⟨k, Nat.le_of_lt (hlen k hle), hk⟩

theorem note_settled {sites : List (Nat × Nat)} (ht : b.target l = .ahead sites)
    (h : Settled y b k w) : Settled y (b.setTarget l (.ahead ((b.position y, org) :: sites))) k w := by
  refine ⟨h.1, ?_⟩
  intro org' l' hp
  rcases (pending_note ht).mp hp with hp | ⟨-, -, hk⟩
  · exact h.2 _ _ hp
  · obtain rfl := Nat.eq_of_mul_eq_mul_left y.unit_pos hk
    exact Nat.lt_irrefl _ (List.getElem?_eq_some_iff.mp h.1).1

/-- So does referring to a label. -/
theorem refer_keeps (hs : Sound y b) (org : Nat) (l : L) : Keeps y b (b.refer y org l) := by
  unfold Buffer.refer
  cases ht : b.target l with
  | placed pos => exact write_keeps hs _
  | ahead sites =>
      have hne : ∀ {l' pos}, b.target l' = .placed pos → l' ≠ l := by
        rintro l' pos hp rfl
        rw [ht] at hp
        cases hp
      refine ⟨note_sound hs ht _, fun h => write_settled (note_settled ht h) _, ?_, ?_, ?_⟩
      · rintro k org' l' (h | ⟨pos, hp, h⟩)
        · exact .inl ((pending_note ht).mpr (.inl h))
        · exact .inr ⟨pos, (setTarget_of_ne (hne hp)).trans hp,
            write_settled (note_settled ht h) _⟩
      · intro l' pos hp
        exact (setTarget_of_ne (hne hp)).trans hp
      · show _ ≤ (b.words ++ [_]).length
        rw [List.length_append]
        exact Nat.le_add_right _ _

/-- The word just written refers to the label. -/
theorem refer_refers (hs : Sound y b) (org : Nat) (l : L) :
    Refers y (b.refer y org l) b.words.length org l := by
  unfold Buffer.refer
  cases ht : b.target l with
  | placed pos => exact .inr ⟨pos, ht, write_settles hs _⟩
  | ahead sites => exact .inl ((pending_note ht).mpr (.inr ⟨rfl, rfl, rfl⟩))

/-! ## Placing a label -/

variable {sites : List (Nat × Nat)}

/-- Placing a label settles its references and no others. -/
theorem pending_place {pos : Nat} (b1 : Buffer L W) (hb1 : b1.target = b.target) :
    Pending y (b1.setTarget l (.placed pos)) k org l' ↔ l' ≠ l ∧ Pending y b k org l' := by
  constructor
  · rintro ⟨sites, ht, hmem⟩
    by_cases hl : l' = l
    · subst hl
      rw [setTarget_self] at ht
      cases ht
    · rw [setTarget_of_ne hl, hb1] at ht
      exact ⟨hl, sites, ht, hmem⟩
  · rintro ⟨hl, sites, ht, hmem⟩
    exact ⟨sites, by rw [setTarget_of_ne hl, hb1]; exact ht, hmem⟩

/-- Placing a label changes only the words that refer to it. -/
theorem place_keeps (hs : Sound y b) (h : b.place y l = some b') : Keeps y b b' := by
  unfold Buffer.place at h
  cases ht : b.target l with
  | placed pos =>
      rw [ht] at h
      cases h
  | ahead sites =>
      rw [ht] at h
      obtain rfl := Option.some.inj h
      have hsites : ∀ site ∈ sites, ∃ k', site.1 = y.unit * k' := by
        intro site hmem
        obtain ⟨k', -, hk'⟩ := hs.inside ht hmem
        exact ⟨k', hk'⟩
      have htarget := target_patches (y := y) sites b
      have hlen := length_patches (y := y) sites b
      have hset : ∀ {k w}, Settled y b k w → Settled y
          ((sites.foldl (Buffer.patch y) b).setTarget l
            (.placed ((sites.foldl (Buffer.patch y) b).position y))) k w := by
        intro k w hw
        refine ⟨?_, ?_⟩
        · exact (patches_other sites b hsites fun o ho => hw.2 o l ⟨sites, ht, ho⟩).trans hw.1
        · intro o l' hp
          exact hw.2 o l' ((pending_place _ htarget).mp hp).2
      have hplaced : ∀ {l' pos}, b.target l' = .placed pos →
          ((sites.foldl (Buffer.patch y) b).setTarget l
            (.placed ((sites.foldl (Buffer.patch y) b).position y))).target l' = .placed pos := by
        intro l' pos hp
        have hne : l' ≠ l := by
          rintro rfl
          rw [ht] at hp
          cases hp
        rw [setTarget_of_ne hne, htarget]
        exact hp
      refine ⟨⟨?_, ?_, ?_⟩, hset, ?_, hplaced, Nat.le_of_eq hlen.symm⟩
      · intro l' sites' site ht' hmem
        obtain ⟨k, hlt, hk⟩ : ∃ k < b.words.length, site.1 = y.unit * k := by
          by_cases hl : l' = l
          · subst hl
            rw [setTarget_self] at ht'
            cases ht'
          · rw [setTarget_of_ne hl, htarget] at ht'
            exact hs.inside ht' hmem
        exact ⟨k, Nat.lt_of_lt_of_eq hlt hlen.symm, hk⟩
      · intro k o o' l1 l2 h1 h2
        exact hs.alone ((pending_place _ htarget).mp h1).2 ((pending_place _ htarget).mp h2).2
      · intro l' pos ht'
        by_cases hl : l' = l
        · subst hl
          rw [setTarget_self] at ht'
          obtain rfl := Target.placed.inj ht'
          exact ⟨_, Nat.le_refl _, rfl⟩
        · rw [setTarget_of_ne hl, htarget] at ht'
          obtain ⟨k, hle, hk⟩ := hs.placed ht'
          exact ⟨k, Nat.le_trans hle (Nat.le_of_eq hlen.symm), hk⟩
      · rintro k org' l' (hp | ⟨pos, hp, hw⟩)
        · by_cases hl : l' = l
          · -- a hole for the label: it is filled
            subst hl
            obtain ⟨sites', ht', hmem⟩ := hp
            obtain rfl := Target.ahead.inj (ht.symm.trans ht')
            have hfill := patches_hole sites b hsites
              (Pending.lt_length hs ⟨sites, ht, hmem⟩) hmem
              fun o ho => (hs.alone ⟨sites, ht, ho⟩ ⟨sites, ht, hmem⟩).1
            refine .inr ⟨_, setTarget_self _ _ _, ?_, ?_⟩
            · refine hfill.trans ?_
              unfold Buffer.position
              rw [hlen]
            · intro o l2 hp2
              obtain ⟨hne, hp2⟩ := (pending_place _ htarget).mp hp2
              exact hne (hs.alone hp2 ⟨sites, ht, hmem⟩).2
          · exact .inl ((pending_place _ htarget).mpr ⟨hl, hp⟩)
        · exact .inr ⟨pos, hplaced hp, hset hw⟩

/-! ## Whole runs -/

/-- **GROWING KEEPS WHAT WAS WRITTEN**: settled words, references, and the
    positions of labels. -/
theorem grows_keeps (hs : Sound y b) (h : Grows y b b') : Keeps y b b' := by
  induction h with
  | refl => exact Keeps.refl hs
  | write w _ ih => exact ih.trans (write_keeps ih.sound w)
  | refer org l _ ih => exact ih.trans (refer_keeps ih.sound org l)
  | place _ hp ih => exact ih.trans (place_keeps ih.sound hp)

end Backpatch
