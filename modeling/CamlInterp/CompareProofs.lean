import CamlInterp.StripProofs

/-! # `cmpbyt` — `cmpbyt.ml`

    The tool compares two executables but for what stands in front of their
    sections and for the debugging information, which it skips.  So a program is
    equal to its stripped copy. -/

namespace CamlCompare

open CamlSections CamlStrip

/-- `input_char` -/
def inputChar : M Byte := do
  let s ← get
  match s.input[s.pos]? with
  | some b => do
      set { s with pos := s.pos + 1 }
      return b
  | none => throw .End_of_file

/-- `cmpresult` -/
inductive CmpResult where
  | Same
  | Differ (ofs : Nat)

/-- `cmpbytes`, with the two channels as it leaves them. -/
def cmpbytes : Nat → Channels → Channels → Nat →
    Except IoError (CmpResult × Channels × Channels)
  | 0, ic1, ic2, _ => .ok (.Same, ic1, ic2)
  | len + 1, ic1, ic2, ofs => do
      let (c1, ic1) ← inputChar ic1
      let (c2, ic2) ← inputChar ic2
      if c1 = c2 then cmpbytes len ic1 ic2 (ofs + 1) else .ok (.Differ ofs, ic1, ic2)

/-- `skip_section` -/
def skipSection (name : Bytes) : Bool := name = DBUG

/-- `seek_in ic (pos_in ic + len)` -/
def skipIn (len : Int) : M Unit := do seekIn ((← get).pos + len)

/-- `cmpsections` of `cmpbyt` -/
def cmpsections (ic1 ic2 : Channels) :
    List (Bytes × Int) → List (Bytes × Int) → Except IoError Bool
  | [], [] => .ok true
  | (name1, len1) :: t1, t2 =>
      if skipSection name1 then do
        let (_, ic1) ← skipIn len1 ic1
        cmpsections ic1 ic2 t1 t2
      else
        match t2 with
        | [] => .ok false
        | (name2, len2) :: t2 =>
            if skipSection name2 then do
              let (_, ic2) ← skipIn len2 ic2
              cmpsections ic1 ic2 ((name1, len1) :: t1) t2
            else if name1 ≠ name2 then .ok false
            else if len1 ≠ len2 then .ok false
            else do
              let (res, ic1, ic2) ← cmpbytes len1.toNat ic1 ic2 0
              match res with
              | .Differ _ => .ok false
              | .Same => cmpsections ic1 ic2 t1 t2
  | [], (name2, len2) :: t2 =>
      if skipSection name2 then do
        let (_, ic2) ← skipIn len2 ic2
        cmpsections ic1 ic2 [] t2
      else .ok false
termination_by t1 t2 => t1.length + t2.length
decreasing_by all_goals simp only [List.length_cons]; omega

/-- `readtoc` -/
def readtoc : M (List (Bytes × Int) × Int) := do
  readToc
  let toc ← toc
  let pos ← posFirstSection
  return (toc, pos)

/-- `cmpbyt`; `read_toc` begins with an empty table. -/
def cmpbyt (file1 file2 : Bytes) : Except IoError Bool := do
  let ((toc1, pos1), ic1) ← readtoc ⟨file1, 0, [], [], 0⟩
  let ((toc2, pos2), ic2) ← readtoc ⟨file2, 0, [], [], 0⟩
  let (_, ic1) ← seekIn pos1 ic1
  let (_, ic2) ← seekIn pos2 ic2
  cmpsections ic1 ic2 toc1 toc2

/-! ## One channel -/

/-- The channel is behind `a`, and `b` is left. -/
structure At (s : Channels) (a b : Bytes) : Prop where
  input : s.input = a ++ b
  pos : s.pos = a.length

variable {s ic1 ic2 : Channels} {a a1 a2 c c1 c2 d d1 d2 : Bytes}

theorem bind_of_ok {α β : Type} {x : Except IoError α} {v : α} {f : α → Except IoError β}
    (h : x = .ok v) : (x >>= f) = f v := by
  rw [h]
  rfl

/-- The next byte is read. -/
theorem At.inputChar {b : Byte} (h : At s a (b :: c)) :
    ∃ s', CamlCompare.inputChar s = .ok (b, s') ∧ At s' (a ++ [b]) c := by
  have hb : s.input[s.pos]? = some b := by
    rw [h.input, h.pos, List.getElem?_append_right (Nat.le_refl _), Nat.sub_self]
    rfl
  refine ⟨{ s with pos := s.pos + 1 }, ?_, ?_, ?_⟩
  · unfold CamlCompare.inputChar
    rw [run_bind (x := (get : M Channels)) rfl, hb]
    rfl
  · show s.input = _
    rw [h.input, List.append_assoc, List.singleton_append]
  · show s.pos + 1 = _
    rw [h.pos, List.length_append, List.length_singleton]

theorem At.seekIn (hin : s.input = a ++ c) :
    ∃ s', CamlSections.seekIn a.length s = .ok ((), s') ∧ At s' a c :=
  ⟨_, seekIn_run rfl s, hin, rfl⟩

theorem At.skipIn (h : At s a (d ++ c)) :
    ∃ s', CamlCompare.skipIn d.length s = .ok ((), s') ∧ At s' (a ++ d) c := by
  have hin : s.input = (a ++ d) ++ c := by rw [h.input, List.append_assoc]
  obtain ⟨s', hseek, hat⟩ := At.seekIn hin
  refine ⟨s', ?_, hat⟩
  unfold CamlCompare.skipIn
  rw [run_bind (x := (get : M Channels)) rfl, h.pos, ← hseek, List.length_append]
  push_cast
  rfl

/-! ## Comparing -/

/-- Two pieces of one length are compared to the end, or to where they differ. -/
theorem cmpbytes_run (hlen : d1.length = d2.length) (h1 : At ic1 a1 (d1 ++ c1))
    (h2 : At ic2 a2 (d2 ++ c2)) (ofs : Nat) :
    (d1 = d2 → ∃ ic1' ic2', cmpbytes d1.length ic1 ic2 ofs = .ok (.Same, ic1', ic2') ∧
      At ic1' (a1 ++ d1) c1 ∧ At ic2' (a2 ++ d2) c2) ∧
    (d1 ≠ d2 → ∃ k ic1' ic2', cmpbytes d1.length ic1 ic2 ofs = .ok (.Differ k, ic1', ic2')) := by
  induction d1 generalizing d2 a1 a2 ic1 ic2 ofs with
  | nil =>
      obtain rfl := List.length_eq_zero_iff.mp hlen.symm
      refine ⟨fun _ => ⟨ic1, ic2, rfl, ?_, ?_⟩, fun h => absurd rfl h⟩
      · rw [List.append_nil]
        exact h1
      · rw [List.append_nil]
        exact h2
  | cons b1 d1 ih =>
      obtain ⟨b2, d2, rfl⟩ := List.exists_cons_of_length_eq_add_one hlen.symm
      obtain ⟨s1, hc1, hat1⟩ := At.inputChar h1
      obtain ⟨s2, hc2, hat2⟩ := At.inputChar h2
      obtain ⟨hsame, hdiffer⟩ := ih (Nat.succ.inj hlen) hat1 hat2 (ofs + 1)
      have hstep : cmpbytes (b1 :: d1).length ic1 ic2 ofs =
          if b1 = b2 then cmpbytes d1.length s1 s2 (ofs + 1) else .ok (.Differ ofs, s1, s2) := by
        rw [List.length_cons, cmpbytes, bind_of_ok hc1]
        exact bind_of_ok hc2
      rw [hstep]
      by_cases hb : b1 = b2
      · subst hb
        rw [if_pos rfl]
        rw [List.append_assoc, List.append_assoc] at hsame
        exact ⟨fun h => hsame (List.cons.inj h).2, fun h => hdiffer fun hd => h (by rw [hd])⟩
      · rw [if_neg hb]
        exact ⟨fun h => absurd (List.cons.inj h).1 hb, fun _ => ⟨ofs, s1, s2, rfl⟩⟩

theorem skipSection_of_eq {name : Bytes} (h : name = DBUG) : skipSection name = true :=
  decide_eq_true h

theorem skipSection_of_ne {name : Bytes} (h : name ≠ DBUG) : ¬ skipSection name = true := by
  unfold skipSection
  simpa using h

/-- The sections that are kept are compared, in order. -/
theorem cmpsections_run {ss1 ss2 : List Sec} (h1 : At ic1 a1 (dataOf ss1 ++ c1))
    (h2 : At ic2 a2 (dataOf ss2 ++ c2)) :
    cmpsections ic1 ic2 (tocOf ss1) (tocOf ss2) = .ok (decide (kept ss1 = kept ss2)) := by
  induction ss1 generalizing ss2 ic1 ic2 a1 a2 with
  | nil =>
      induction ss2 generalizing ic2 a2 with
      | nil =>
          show cmpsections ic1 ic2 [] [] = _
          rw [cmpsections]
          rfl
      | cons t ss2 ih =>
          show cmpsections ic1 ic2 [] ((t.1, (t.2.length : Int)) :: tocOf ss2) = _
          rw [cmpsections]
          have hdata : dataOf (t :: ss2) = t.2 ++ dataOf ss2 := rfl
          rw [hdata, List.append_assoc] at h2
          by_cases ht : t.1 = DBUG
          · obtain ⟨s2, hskip, hat⟩ := h2.skipIn
            rw [if_pos (skipSection_of_eq ht), bind_of_ok hskip, kept_cons_of_eq ht]
            exact ih hat
          · rw [if_neg (skipSection_of_ne ht), kept_cons_of_ne ht]
            rfl
  | cons t1 ss1 ih1 =>
      have hdata1 : dataOf (t1 :: ss1) = t1.2 ++ dataOf ss1 := rfl
      rw [hdata1, List.append_assoc] at h1
      by_cases ht1 : t1.1 = DBUG
      · obtain ⟨s1, hskip, hat⟩ := h1.skipIn
        show cmpsections ic1 ic2 ((t1.1, (t1.2.length : Int)) :: tocOf ss1) (tocOf ss2) = _
        rw [cmpsections.eq_def]
        dsimp only
        rw [if_pos (skipSection_of_eq ht1), bind_of_ok hskip, kept_cons_of_eq ht1]
        exact ih1 hat h2
      · rw [kept_cons_of_ne ht1]
        induction ss2 generalizing ic2 a2 with
        | nil =>
            show cmpsections ic1 ic2 ((t1.1, (t1.2.length : Int)) :: tocOf ss1) [] = _
            rw [cmpsections, if_neg (skipSection_of_ne ht1)]
            rfl
        | cons t2 ss2 ih2 =>
            have hdata2 : dataOf (t2 :: ss2) = t2.2 ++ dataOf ss2 := rfl
            rw [hdata2, List.append_assoc] at h2
            show cmpsections ic1 ic2 ((t1.1, (t1.2.length : Int)) :: tocOf ss1)
              ((t2.1, (t2.2.length : Int)) :: tocOf ss2) = _
            rw [cmpsections, if_neg (skipSection_of_ne ht1)]
            dsimp only
            by_cases ht2 : t2.1 = DBUG
            · obtain ⟨s2, hskip, hat⟩ := h2.skipIn
              rw [if_pos (skipSection_of_eq ht2), bind_of_ok hskip, kept_cons_of_eq ht2]
              exact ih2 hat
            · rw [if_neg (skipSection_of_ne ht2), kept_cons_of_ne ht2]
              by_cases hname : t1.1 = t2.1
              · rw [if_neg (fun h => h hname)]
                by_cases hlen : t1.2.length = t2.2.length
                · obtain ⟨hsame, hdiffer⟩ := cmpbytes_run hlen h1 h2 0
                  have hcast : (t1.2.length : Int) = t2.2.length := by rw [hlen]
                  rw [if_neg (not_not_intro hcast), Int.toNat_natCast]
                  by_cases hd : t1.2 = t2.2
                  · obtain ⟨s1, s2, hrun, hat1, hat2⟩ := hsame hd
                    rw [bind_of_ok hrun, Prod.ext hname hd]
                    refine (ih1 hat1 hat2).trans ?_
                    simp
                  · obtain ⟨k, s1, s2, hrun⟩ := hdiffer hd
                    rw [bind_of_ok hrun]
                    have hne : t1 :: kept ss1 ≠ t2 :: kept ss2 := fun h =>
                      hd (congrArg Prod.snd (List.cons.inj h).1)
                    rw [decide_eq_false hne]
                · have hne : t1 :: kept ss1 ≠ t2 :: kept ss2 := fun h =>
                    hlen (congrArg (fun t : Sec => t.2.length) (List.cons.inj h).1)
                  have hcast : (t1.2.length : Int) ≠ t2.2.length := by omega
                  rw [if_pos hcast, decide_eq_false hne]
              · have hne : t1 :: kept ss1 ≠ t2 :: kept ss2 := fun h =>
                  hname (congrArg Prod.fst (List.cons.inj h).1)
                rw [if_pos hname, decide_eq_false hne]

/-- After `readtoc` the table and the place of the first section are known. -/
theorem readtoc_run {pre : Bytes} {ss : List Sec} (hs : Storable ss)
    (hin : s.input = executable pre ss) :
    ∃ s', readtoc s = .ok ((tocOf ss, (pre.length : Int)), s') ∧
      s'.input = executable pre ss := by
  obtain ⟨p, htoc⟩ := readToc_run hs hin
  have hread : Read pre ss { s with pos := p, sectionTable := (tocOf ss).reverse } := ⟨hin, rfl⟩
  refine ⟨{ s with pos := p, sectionTable := (tocOf ss).reverse }, ?_, hin⟩
  unfold readtoc
  rw [run_bind htoc, run_bind (a := (tocOf ss).reverse.reverse) (x := toc) rfl,
    run_bind (posFirstSection_run hread hs), List.reverse_reverse]
  rfl

/-- `cmpbyt` compares what is left of the sections without debugging information. -/
theorem cmpbyt_run {pre1 pre2 : Bytes} {ss1 ss2 : List Sec} (h1 : Storable ss1)
    (h2 : Storable ss2) :
    cmpbyt (executable pre1 ss1) (executable pre2 ss2) =
      .ok (decide (kept ss1 = kept ss2)) := by
  obtain ⟨s1, hr1, hin1⟩ := @readtoc_run ⟨executable pre1 ss1, 0, [], [], 0⟩ _ _ h1 rfl
  obtain ⟨s2, hr2, hin2⟩ := @readtoc_run ⟨executable pre2 ss2, 0, [], [], 0⟩ _ _ h2 rfl
  obtain ⟨s1', hs1, hat1⟩ := At.seekIn hin1
  obtain ⟨s2', hs2, hat2⟩ := At.seekIn hin2
  unfold cmpbyt
  rw [bind_of_ok hr1]
  dsimp only
  rw [bind_of_ok hr2]
  dsimp only
  rw [bind_of_ok hs1]
  dsimp only
  rw [bind_of_ok hs2]
  exact cmpsections_run hat1 hat2

/-- Two executables are equal to `cmpbyt` when they have the same sections in the
    same order, debugging information aside, whatever their headers are. -/
theorem cmpbyt_iff {pre1 pre2 : Bytes} {ss1 ss2 : List Sec} (h1 : Storable ss1)
    (h2 : Storable ss2) :
    ∃ b, cmpbyt (executable pre1 ss1) (executable pre2 ss2) = .ok b ∧
      (b = true ↔ kept ss1 = kept ss2) :=
  ⟨_, cmpbyt_run h1 h2, decide_eq_true_iff⟩

theorem cmpbyt_iff_code :
    ∃ b, cmpbyt (executable [0x23] [(CODE, [1]), (DBUG, [2, 3])]) (executable [] [(CODE, [1])]) =
      .ok b ∧ (b = true ↔ kept [(CODE, [1]), (DBUG, [2, 3])] = kept [(CODE, [1])]) :=
  cmpbyt_iff ⟨by decide, by decide, by decide⟩ ⟨by decide, by decide, by decide⟩

theorem kept_kept (ss : List Sec) : kept (kept ss) = kept ss := by
  unfold kept
  rw [List.filter_filter]
  simp

/-- What `stripdebug` makes of an executable is equal to it. -/
theorem stripped_compares {pre : Bytes} {ss : List Sec} (burst : Nat → Nat) (hs : Storable ss)
    (hin : s.input = executable pre ss) (hstrip : Strippable ss) :
    ∃ s', stripdebug burst s = .ok ((), s') ∧ cmpbyt s.input s'.output = .ok true := by
  obtain ⟨s', hrun, hout⟩ := (stripdebug_run burst hs hin).1 hstrip
  refine ⟨s', hrun, ?_⟩
  rw [hin, hout, cmpbyt_run hs (storable_kept hs), kept_kept, decide_eq_true rfl]

theorem stripped_compares_code :
    ∃ s', stripdebug (fun _ => 0)
        ⟨executable [0x23] [(CODE, [1]), (DBUG, [2, 3])], 0, [], [], 0⟩ = .ok ((), s') ∧
      cmpbyt (executable [0x23] [(CODE, [1]), (DBUG, [2, 3])]) s'.output = .ok true :=
  @stripped_compares ⟨executable [0x23] [(CODE, [1]), (DBUG, [2, 3])], 0, [], [], 0⟩ [0x23]
    [(CODE, [1]), (DBUG, [2, 3])] (fun _ => 0) ⟨by decide, by decide, by decide⟩ rfl
    (by unfold Strippable; decide)

end CamlCompare
