import CamlInterp.LexemeProofs

/-! # The tokens of a whole scan

    Where the tokens of `scanTokens` stand in the source, which line each of them
    carries, and which words come out as one token.  The first is an invariant of
    the rounds; the second compares the round at a word with the word. -/

namespace LoxTokens

open LoxScanner LoxLexeme Loops Runs

variable {source : List JChar} {s s' : Scanner} {c : JChar} {l r : List JChar}
  {past : List Scanner} {placed : List (Nat × Token)}

/-! ## Positions and lines -/

/-- The token at a position is spelled by the source there, and carries the line on
    which its lexeme ends. -/
structure Spelled (source : List JChar) (x : Nat × Token) : Prop where
  fits : x.1 + x.2.lexeme.length ≤ source.length
  lexeme : (source.drop x.1).take x.2.lexeme.length = x.2.lexeme
  line : x.2.line = 1 + (source.take (x.1 + x.2.lexeme.length)).count newline

/-- One token begins before another and ends before it begins. -/
def Before (x y : Nat × Token) : Prop :=
  x.1 < y.1 ∧ x.1 + x.2.lexeme.length ≤ y.1

/-- The tokens so far stand at these positions, behind each other. -/
structure Laid (source : List JChar) (s : Scanner) (placed : List (Nat × Token)) : Prop where
  whole : s.source = source
  counted : Counted s
  tokens : placed.map Prod.snd = s.tokens
  spelled : ∀ x ∈ placed, Spelled source x
  behind : ∀ x ∈ placed, x.1 < s.current ∧ x.1 + x.2.lexeme.length ≤ s.current
  order : placed.Pairwise Before
  noEnd : ∀ t ∈ s.tokens, t.type ≠ .EOF

theorem newScanner_laid (source : List JChar) : Laid source (newScanner source) [] where
  whole := rfl
  counted := ⟨Nat.zero_le _, rfl⟩
  tokens := rfl
  spelled _ h := nomatch h
  behind _ h := nomatch h
  order := List.Pairwise.nil
  noEnd _ h := nomatch h

/-- A token put behind the others keeps them in order. -/
theorem order_snoc {x : Nat × Token} (h : Laid source s placed) (hx : s.current ≤ x.1) :
    (placed ++ [x]).Pairwise Before := by
  refine List.pairwise_append.mpr ⟨h.order, List.pairwise_singleton _ _, fun y hy z hz => ?_⟩
  obtain rfl := List.mem_singleton.mp hz
  obtain ⟨hlt, hle⟩ := h.behind y hy
  exact ⟨Nat.lt_of_lt_of_le hlt hx, Nat.le_trans hle hx⟩

/-- A round moves the scanner, and what was behind it stays behind. -/
theorem Laid.step (h : Laid source s placed) (hs : scanRound s = .ok s') :
    ∃ placed', Laid source s' placed' := by
  obtain ⟨l, hl⟩ := scanRound_scanned hs
  obtain ⟨r, hr⟩ := hl.text
  have hpos := List.length_pos_iff.mpr hl.nonempty
  have hcur := hl.current
  have hbehind : ∀ x ∈ placed, x.1 < s'.current ∧ x.1 + x.2.lexeme.length ≤ s'.current := by
    intro x hx
    obtain ⟨hlt, hle⟩ := h.behind x hx
    exact ⟨by omega, by omega⟩
  -- a silent round leaves the positions; another one adds the place it began at
  rcases hl.tokens with hnone | ⟨type, lit, htype, hone⟩
  · refine ⟨placed, hl.source.trans h.whole, hl.counted h.counted, h.tokens.trans hnone.symm,
      h.spelled, hbehind, h.order, ?_⟩
    rw [hnone]
    exact h.noEnd
  · obtain ⟨hle, hline⟩ := hl.counted h.counted
    rw [hl.source, h.whole, hcur] at hle hline
    refine ⟨placed ++ [(s.current, ⟨type, l, lit, s'.line⟩)], hl.source.trans h.whole,
      hl.counted h.counted, ?_, ?_, ?_, order_snoc h (Nat.le_refl _), ?_⟩
    · rw [List.map_append, h.tokens, hone]
      rfl
    · intro x hx
      rcases List.mem_append.mp hx with hx | hx
      · exact h.spelled x hx
      · obtain rfl := List.mem_singleton.mp hx
        refine ⟨hle, ?_, hline⟩
        show (source.drop s.current).take l.length = l
        rw [← h.whole, show s.source.drop s.current = l ++ r from hr, List.take_left]
    · intro x hx
      rcases List.mem_append.mp hx with hx | hx
      · exact hbehind x hx
      · obtain rfl := List.mem_singleton.mp hx
        exact ⟨by show s.current < _; omega, by show s.current + l.length ≤ _; omega⟩
    · intro t ht
      rw [hone] at ht
      rcases List.mem_append.mp ht with ht | ht
      · exact h.noEnd t ht
      · obtain rfl := List.mem_singleton.mp ht
        exact htype

theorem run_laid (hrun : Run scanRound (newScanner source) past s) :
    ∃ placed, Laid source s placed :=
  Run.invariant (G := fun _ => True) (P := fun _ s => ∃ placed, Laid source s placed)
    ⟨[], newScanner_laid source⟩ (fun _ _ _ ⟨_, h⟩ _ hs => h.step hs) hrun (fun _ _ => trivial)

/-- The end of the source, once the scanner is there. -/
theorem Laid.atEnd (h : Laid source s placed) (hr : s.rest = []) :
    s.current = source.length ∧ s.line = 1 + source.count newline := by
  obtain ⟨hle, hline⟩ := h.counted
  have hge : s.source.length ≤ s.current := List.drop_eq_nil_iff.mp hr
  rw [h.whole] at hle hline hge
  have hcur : s.current = source.length := Nat.le_antisymm hle hge
  rw [hcur, List.take_length] at hline
  exact ⟨hcur, hline⟩

/-- **SCANNING**: for every source `scanTokens` ends, without an index out of range;
    its tokens are spelled by the source at increasing positions that do not overlap,
    with the lines on which they end; one `EOF` is last.  Every call of `scanToken`
    moves forward and stays in the source. -/
theorem scanTokens_laid (source : List JChar) :
    (∃ (placed : List (Nat × Token)) (front : List Token),
      scanTokens source = .ok (placed.map Prod.snd) ∧
      (∀ x ∈ placed, Spelled source x) ∧ placed.Pairwise Before ∧
      placed.map Prod.snd = front ++ [⟨.EOF, [], .null, 1 + source.count newline⟩] ∧
      ∀ t ∈ front, t.type ≠ .EOF) ∧
    ∀ past s, Run scanRound (newScanner source) past s → isAtEnd s = false →
      ∃ s', scanToken { s with start := s.current } = .ok s' ∧
        s.current < s'.current ∧ s'.current ≤ source.length := by
  constructor
  · obtain ⟨past, s, hrun, hr, htokens⟩ := scanTokens_run source
    obtain ⟨placed, hlaid⟩ := run_laid hrun
    obtain ⟨hcur, hline⟩ := hlaid.atEnd hr
    refine ⟨placed ++ [(source.length, ⟨.EOF, [], .null, s.line⟩)], s.tokens, ?_, ?_,
      order_snoc hlaid (Nat.le_of_eq hcur), ?_, hlaid.noEnd⟩
    · rw [htokens, List.map_append, hlaid.tokens]
      rfl
    · intro x hx
      rcases List.mem_append.mp hx with hx | hx
      · exact hlaid.spelled x hx
      · obtain rfl := List.mem_singleton.mp hx
        refine ⟨Nat.le_refl _, rfl, ?_⟩
        show s.line = 1 + (source.take source.length).count newline
        rw [List.take_length]
        exact hline
    · rw [List.map_append, hlaid.tokens, ← hline]
      rfl
  · intro past s hrun hend
    obtain ⟨placed, hlaid⟩ := run_laid hrun
    cases hr : s.rest with
    | nil => exact nomatch hend.symm.trans (isAtEnd_iff.mpr hr)
    | cons c r =>
        obtain ⟨l, s', hs', hl⟩ := scanToken_scanned hr
        have hpos := List.length_pos_iff.mpr hl.nonempty
        have hcur := hl.current
        obtain ⟨hle, -⟩ := hl.counted hlaid.counted
        rw [hl.source, hlaid.whole] at hle
        exact ⟨s', hs', by omega, hle⟩

/-! ## Words -/

/-- The letters, digits and underscores ahead. -/
def word (s : Scanner) : List JChar := s.rest.takeWhile isAlphaNumeric

/-- The scanner goes on over the word ahead and nothing else, adds one token for it,
    and `scanTokens` returns that token where it was added. -/
def OneToken (source : List JChar) (s : Scanner) : Prop :=
  ∃ past s' later, Run scanRound s past s' ∧
    s'.current = s.current + (word s).length ∧
    s'.tokens = s.tokens ++ [⟨typeOf (word s), word s, .null, s.line⟩] ∧
    scanTokens source = .ok (s'.tokens ++ later)

theorem isAlpha_ne {d : JChar} (h : isAlpha c = true) (hd : isAlpha d = false) : c ≠ d := by
  rintro rfl
  exact Bool.false_ne_true (hd.symm.trans h)

theorem isDigit_iff : isDigit c = true ↔ 48 ≤ c.toNat ∧ c.toNat ≤ 57 :=
  Bool.and_eq_true_iff.trans (and_congr decide_eq_true_iff decide_eq_true_iff)

/-- A letter is no digit. -/
theorem isAlpha_digit (h : isAlpha c = true) : ¬ isDigit c = true := by
  intro hd
  obtain ⟨hlo, hhi⟩ := isDigit_iff.mp hd
  rcases Bool.or_eq_true_iff.mp h with h | h
  · rcases Bool.or_eq_true_iff.mp h with h | h
    · have hle : 97 ≤ c.toNat := of_decide_eq_true (Bool.and_eq_true_iff.mp h).1
      omega
    · have hle : 65 ≤ c.toNat := of_decide_eq_true (Bool.and_eq_true_iff.mp h).1
      omega
  · have heq : c = unit '_' := beq_iff_eq.mp h
    have hval : (unit '_').toNat = 95 := by decide
    rw [heq, hval] at hhi
    omega

/-- A letter is in no table of symbols. -/
theorem lookup_none {α : Type} {table : List (JChar × α)} (h : isAlpha c = true)
    (ht : ∀ p ∈ table, isAlpha p.1 = false) : table.lookup c = none := by
  cases hl : table.lookup c with
  | none => rfl
  | some a => exact absurd rfl (isAlpha_ne h (ht _ (lookup_mem hl)))

theorem word_cons (h : s.rest = c :: r) (ha : isAlpha c = true) :
    word s = c :: r.takeWhile isAlphaNumeric := by
  unfold word isAlphaNumeric
  rw [h, List.takeWhile_cons, if_pos (by rw [ha]; rfl)]

/-- The `switch` sends a letter or underscore to `identifier`, except for `o`. -/
theorem scanCase_word (ha : isAlpha c = true) (ho : c ≠ unit 'o') :
    scanCase c s = identifier s := by
  unfold scanCase
  rw [lookup_none ha (by decide), lookup_none ha (by decide)]
  show scanOther c s = _
  unfold scanOther
  have hblank : ¬ (c = unit ' ' ∨ c = unit '\r' ∨ c = unit '\t') := by
    rintro (hc | hc | hc)
    · exact isAlpha_ne ha (by decide) hc
    · exact isAlpha_ne ha (by decide) hc
    · exact isAlpha_ne ha (by decide) hc
  rw [if_neg (isAlpha_ne ha (by decide)), if_neg hblank, if_neg (isAlpha_ne ha (by decide)),
    if_neg (isAlpha_ne ha (by decide)), if_neg ho, if_neg (isAlpha_digit ha), if_pos ha]

/-- The round at a word that does not begin with `o` adds the token of that word. -/
theorem scanRound_word (h : s.rest = c :: r) (ha : isAlpha c = true) (ho : c ≠ unit 'o') :
    scanRound s = .ok (added s (word s) (typeOf (word s)) .null) := by
  refine round_eq_ok.mpr ⟨unfinished_cons h, ?_⟩
  show (advance (begin s) >>= _) = _
  rw [advance_begin h (isAlpha_ne ha (by decide))]
  show scanCase c ((begin s).past [c]) = _
  rw [scanCase_word ha ho, identifier_eq h, word_cons h ha]

theorem word_newline (s : Scanner) : (word s).count newline = 0 := by
  refine List.count_eq_zero.mpr (fun hmem => ?_)
  have hall := List.all_eq_true.mp (List.all_takeWhile (l := s.rest)) _ hmem
  rw [isAlphaNumeric_newline] at hall
  exact Bool.false_ne_true hall

/-- The tokens of a state of the scan come first among all that are returned. -/
theorem scanTokens_later (hrun : Run scanRound (newScanner source) past s) :
    ∃ later, scanTokens source = .ok (s.tokens ++ later) := by
  obtain ⟨e, he, -⟩ := scan_ends (newScanner source) (Nat.lt_succ_self source.length)
  obtain ⟨fuel, hfuel⟩ := loop_from he hrun
  obtain ⟨rounds, hrounds, -⟩ := run_of_loop hfuel
  obtain ⟨-, -, ts, hts, -⟩ := run_tokens hrounds
  refine ⟨ts ++ [⟨.EOF, [], .null, e.line⟩], ?_⟩
  show (loop _ _ _ (source.length + 1) (newScanner source) >>= _) = _
  rw [he, ← List.append_assoc, ← hts]
  rfl

theorem oneToken_word (hrun : Run scanRound (newScanner source) past s) (h : s.rest = c :: r)
    (ha : isAlpha c = true) (ho : c ≠ unit 'o') : OneToken source s := by
  have hround := scanRound_word h ha ho
  have hnext : Run scanRound s [s] _ := Run.snoc Run.start hround
  obtain ⟨later, hlater⟩ := scanTokens_later (hrun.trans hnext)
  refine ⟨_, _, later, hnext, rfl, ?_, hlater⟩
  show s.tokens ++ [⟨_, _, _, s.line + (word s).count newline⟩] = _
  rw [word_newline]
  rfl

/-- The round at an `o`: its case of the `switch` looks at the next character only,
    and never goes on over it. -/
theorem scanRound_o (h : s.rest = unit 'o' :: r) :
    ∃ t, scanRound s = .ok t ∧ t.current = s.current + 1 ∧
      (t.tokens = s.tokens ∨ (∃ r', r = unit 'r' :: r') ∧
        ∃ token, token.lexeme = [unit 'o'] ∧ t.tokens = s.tokens ++ [token]) := by
  have hadv := advance_begin h (by decide)
  have hrest := begin_past_cons h
  have hround : ∀ t, scanOther (unit 'o') ((begin s).past [unit 'o']) = .ok t →
      scanRound s = .ok t := by
    intro t ht
    refine round_eq_ok.mpr ⟨unfinished_cons h, ?_⟩
    show (advance (begin s) >>= _) = _
    rw [hadv]
    exact ht
  cases r with
  | nil =>
      refine ⟨_, hround ((begin s).past [unit 'o']) ?_, rfl, Or.inl rfl⟩
      show (peek _ >>= _) = _
      rw [peek_nil hrest]
      rfl
  | cons d r =>
      by_cases hd : d = unit 'r'
      · refine ⟨_, hround (added s [unit 'o'] .OR .null) ?_, rfl,
          Or.inr ⟨⟨r, by rw [hd]⟩, _, rfl, rfl⟩⟩
        show (peek _ >>= _) = _
        rw [peek_cons hrest]
        simp only [bind, Except.bind, if_pos hd]
        exact addToken_past (l := [unit 'o']) h (List.cons_ne_nil _ _) _ _
      · refine ⟨_, hround ((begin s).past [unit 'o']) ?_, rfl, Or.inl rfl⟩
        show (peek _ >>= _) = _
        rw [peek_cons hrest]
        simp only [bind, Except.bind, if_neg hd]

/-- A word that begins with `o` is never one token: the first round takes the `o`
    alone, and no token of the later rounds reaches back to it. -/
theorem not_oneToken (h : s.rest = unit 'o' :: r) : ¬ OneToken source s := by
  rintro ⟨past, s', later, hrun, hcur, htokens, -⟩
  have hword := word_cons h (by decide)
  have hlen := congrArg List.length hword
  rw [List.length_cons] at hlen
  obtain ⟨t, ht, htcur, hcase⟩ := scanRound_o h
  rcases hrun.head with ⟨-, rfl⟩ | ⟨u, past', hu, hrest⟩
  · -- no round moves over no word, and the word has its `o`
    omega
  · obtain rfl := Except.ok.inj (ht.symm.trans hu)
    obtain ⟨-, -, ts, hts, hfit⟩ := run_tokens hrest
    rw [htokens] at hts
    rcases hcase with hsame | ⟨⟨r', rfl⟩, token, hlex, hadd⟩
    · -- a later token would have to be longer than what it can move over
      rw [hsame] at hts
      obtain rfl := List.append_cancel_left hts
      obtain ⟨-, hle⟩ := hfit _ List.mem_cons_self
      dsimp only at hle
      omega
    · -- the one token is the `o`, but the word goes on with the `r`
      rw [hadd, List.append_assoc] at hts
      have heq := List.append_cancel_left hts
      rw [List.singleton_append] at heq
      obtain ⟨rfl, -⟩ := List.cons.inj heq
      have hletter : word s = [unit 'o'] := hlex
      rw [hletter] at hword
      have htake : (unit 'r' :: r').takeWhile isAlphaNumeric
          = unit 'r' :: r'.takeWhile isAlphaNumeric := by
        rw [List.takeWhile_cons, if_pos (by decide)]
      rw [htake] at hword
      exact nomatch (List.cons.inj hword).2

/-- **MAXIMAL MUNCH**: a word at the beginning of a lexeme comes out as one token,
    with its own type, exactly when it does not begin with `o`. -/
theorem oneToken_iff (hrun : Run scanRound (newScanner source) past s) (h : s.rest = c :: r)
    (ha : isAlpha c = true) : OneToken source s ↔ c ≠ unit 'o' := by
  constructor
  · rintro hone rfl
    exact not_oneToken h hone
  · exact oneToken_word hrun h ha

/-- `var` at the beginning of a source. -/
theorem oneToken_var : OneToken (text ['v', 'a', 'r']) (newScanner (text ['v', 'a', 'r'])) ↔
    unit 'v' ≠ unit 'o' :=
  oneToken_iff Run.start rfl (by decide)

/-- The word `orchild` comes out as `OR` and a broken identifier. -/
theorem orchild_tokens :
    scanTokens (text ['o', 'r', 'c', 'h', 'i', 'l', 'd'])
      = .ok [⟨.OR, text ['o'], .null, 1⟩,
          ⟨.IDENTIFIER, text ['r', 'c', 'h', 'i', 'l', 'd'], .null, 1⟩, ⟨.EOF, [], .null, 1⟩] ∧
    ¬ ∀ source past s c r, Run scanRound (newScanner source) past s → s.rest = c :: r →
      isAlpha c = true → OneToken source s := by
  constructor
  · rfl
  · intro h
    exact not_oneToken (s := newScanner (text ['o', 'r', 'c', 'h', 'i', 'l', 'd'])) rfl
      (h _ [] _ _ _ Run.start rfl (by decide))

end LoxTokens
