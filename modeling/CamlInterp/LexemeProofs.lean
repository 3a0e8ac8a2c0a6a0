import CamlInterp.ScannerProofs

/-! # One lexeme of the Lox scanner

    Whatever case of the `switch` a character selects, one round of `scanTokens`
    moves over a non-empty prefix of what is left, counts its newlines, and adds at
    most one token, which is spelled by exactly that prefix.  All that is needed of
    a whole scan follows from this by induction. -/

namespace LoxLexeme

open LoxScanner Loops Runs

/-- The scanner at the beginning of a lexeme. -/
def begin (s : Scanner) : Scanner := { s with start := s.current }

/-- From the beginning of a lexeme `l` at `s` the scanner has come to its end, `s'`. -/
structure Scanned (s : Scanner) (l : List JChar) (s' : Scanner) : Prop where
  nonempty : l ≠ []
  text : ∃ r, s.rest = l ++ r
  source : s'.source = s.source
  current : s'.current = s.current + l.length
  line : s'.line = s.line + l.count newline
  tokens : s'.tokens = s.tokens ∨ ∃ type lit, type ≠ TokenType.EOF ∧
    s'.tokens = s.tokens ++ [⟨type, l, lit, s'.line⟩]

variable {s s' : Scanner} {c : JChar} {l r : List JChar} {type : TokenType}

theorem current_le (h : s.rest = l ++ r) (hl : l ≠ []) :
    s.current + l.length ≤ s.source.length := by
  have hlen := congrArg List.length h
  have hpos := List.length_pos_iff.mpr hl
  unfold Scanner.rest at hlen
  rw [List.length_drop, List.length_append] at hlen
  omega

theorem substring_eq (h : s.rest = l ++ r) (hle : s.current + l.length ≤ s.source.length) :
    substring s.source s.current (s.current + l.length) = .ok l := by
  unfold substring
  rw [if_pos ⟨Nat.le_add_right _ _, hle⟩, Nat.add_sub_cancel_left,
    show s.source.drop s.current = l ++ r from h, List.take_left]

theorem substring_past (h : s.rest = l ++ r) (hl : l ≠ []) :
    substring s.source s.current (s.current + l.length) = .ok l :=
  substring_eq h (current_le h hl)

/-! ## Ways to end a lexeme -/

/-- The scanner behind `l` with a token added. -/
def added (s : Scanner) (l : List JChar) (type : TokenType) (lit : Literal) : Scanner :=
  { (begin s).past l with
    tokens := s.tokens ++ [⟨type, l, lit, s.line + l.count newline⟩] }

theorem addToken_past (h : s.rest = l ++ r) (hl : l ≠ []) (type : TokenType) (lit : Literal) :
    addToken type lit ((begin s).past l) = .ok (added s l type lit) := by
  show (substring s.source s.current (s.current + l.length) >>= _) = _
  rw [substring_past h hl]
  rfl

theorem scanned_added (h : s.rest = l ++ r) (hl : l ≠ []) (lit : Literal) (ht : type ≠ .EOF) :
    Scanned s l (added s l type lit) :=
  ⟨hl, ⟨r, h⟩, rfl, rfl, rfl, Or.inr ⟨type, lit, ht, rfl⟩⟩

/-- A lexeme without a token, after some errors. -/
theorem scanned_silent (h : s.rest = l ++ r) (hl : l ≠ []) (errors : List (Nat × String)) :
    Scanned s l { (begin s).past l with errors := errors } :=
  ⟨hl, ⟨r, h⟩, rfl, rfl, rfl, Or.inl rfl⟩

/-- The first character of a lexeme. -/
theorem begin_past_cons (h : s.rest = c :: r) :
    ((begin s).past [c]).rest = r := Scanner.rest_past (l := [c]) (s := begin s) h

theorem take_drop_while (q : JChar → Bool) (c : JChar) (r : List JChar) :
    c :: r = (c :: r.takeWhile q) ++ r.dropWhile q := by
  rw [List.cons_append, List.takeWhile_append_dropWhile]

theorem addToken_scanned (h : s.rest = l ++ r) (hl : l ≠ []) (ht : type ≠ .EOF) :
    ∃ l' s', addToken type .null ((begin s).past l) = .ok s' ∧ Scanned s l' s' :=
  ⟨l, _, addToken_past h hl type .null, scanned_added h hl .null ht⟩

/-- `match`, behind the first character. -/
theorem matchChar_eq {e : JChar} (he : e ≠ newline) (s : Scanner) :
    matchChar e s = .ok (false, s) ∨
      ∃ r, s.rest = e :: r ∧ matchChar e s = .ok (true, s.past [e]) := by
  unfold matchChar
  cases hr : s.rest with
  | nil => exact Or.inl (if_pos (isAtEnd_iff.mpr hr))
  | cons c r =>
      rw [isAtEnd_cons hr, charAt_current hr, if_neg Bool.false_ne_true]
      by_cases hc : c = e
      · refine Or.inr ⟨r, by rw [hc], ?_⟩
        subst hc
        simp only [bind, Except.bind, ne_eq, not_true, if_false, past_singleton he]
      · refine Or.inl ?_
        simp only [bind, Except.bind, ne_eq, hc, not_false_iff, if_true]

/-! ## The cases -/

theorem lookup_mem {α : Type} {table : List (JChar × α)} {a : α}
    (h : table.lookup c = some a) : (c, a) ∈ table := by
  obtain ⟨l₁, l₂, rfl, -⟩ := List.lookup_eq_some_iff.mp h
  exact List.mem_append_right _ List.mem_cons_self

/-- No word is the end of the file or a number. -/
theorem typeOf_ne (w : List JChar) :
    typeOf w ≠ .EOF ∧ typeOf w ≠ .NUMBER := by
  unfold typeOf
  cases h : keywords.lookup w with
  | none => exact ⟨by decide, by decide⟩
  | some type =>
      obtain ⟨l₁, l₂, hk, -⟩ := List.lookup_eq_some_iff.mp h
      have hmem : (w, type) ∈ keywords := by
        rw [hk]
        exact List.mem_append_right _ List.mem_cons_self
      have hall : ∀ p ∈ keywords, p.2 ≠ .EOF ∧ p.2 ≠ .NUMBER := by decide
      exact hall _ hmem

/-- `identifier` takes every letter, digit and underscore that follows. -/
theorem identifier_eq (h : s.rest = c :: r) :
    identifier ((begin s).past [c])
      = .ok (added s (c :: r.takeWhile isAlphaNumeric)
          (typeOf (c :: r.takeWhile isAlphaNumeric)) .null) := by
  have hrest := begin_past_cons h
  have htext : s.rest = (c :: r.takeWhile isAlphaNumeric) ++ r.dropWhile isAlphaNumeric :=
    h.trans (take_drop_while isAlphaNumeric c r)
  unfold identifier
  rw [skipWhile_eq (by decide) isAlphaNumeric_newline, hrest]
  show (substring s.source s.current (s.current + 1 + (r.takeWhile isAlphaNumeric).length)
    >>= _) = _
  have hsub := substring_past htext (List.cons_ne_nil _ _)
  rw [List.length_cons, Nat.add_comm _ 1, ← Nat.add_assoc] at hsub
  rw [hsub]
  show addToken _ _ (((begin s).past [c]).past _) = _
  rw [Scanner.past_past]
  exact addToken_past htext (List.cons_ne_nil _ _) _ _

/-- The fraction part is a prefix of what is left, possibly empty. -/
theorem fraction_eq (s : Scanner) : ∃ l r, s.rest = l ++ r ∧ fraction s = .ok (s.past l) := by
  obtain ⟨next, hnext⟩ := peekNext_ok s
  have hskip : ∀ {x}, peek s = .ok x → (decide (x = unit '.') && isDigit next) = false →
      fraction s = .ok s := by
    intro x hx hb
    unfold fraction
    simp only [hx, hnext, bind, Except.bind, hb, Bool.false_eq_true, if_false]
  cases hr : s.rest with
  | nil => exact ⟨[], [], rfl, hskip (peek_nil hr) rfl⟩
  | cons c r =>
      -- a dot is taken only with a digit behind it
      cases hb : decide (c = unit '.') && isDigit next with
      | false => exact ⟨[], c :: r, rfl, hskip (peek_cons hr) hb⟩
      | true =>
          have hc : c = unit '.' := of_decide_eq_true (Bool.and_eq_true_iff.mp hb).1
          have hne : c ≠ newline := by
            rw [hc]
            decide
          have hrest : (s.past [c]).rest = r := Scanner.rest_past (l := [c]) hr
          refine ⟨c :: r.takeWhile isDigit, r.dropWhile isDigit, take_drop_while isDigit c r, ?_⟩
          unfold fraction
          simp only [peek_cons hr, hnext, bind, Except.bind, hb, if_true, skip_cons hr hne,
            digits_eq, hrest, Scanner.past_past]
          rfl

/-- `number` adds one token, whose type is `NUMBER`. -/
theorem number_eq (h : s.rest = c :: r) :
    ∃ l r' lit, s.rest = (c :: l) ++ r' ∧
      number ((begin s).past [c]) = .ok (added s (c :: l) .NUMBER lit) := by
  have hrest := begin_past_cons h
  have hdigits : (((begin s).past [c]).past (r.takeWhile isDigit)).rest = r.dropWhile isDigit :=
    Scanner.rest_past (hrest.trans (List.takeWhile_append_dropWhile).symm)
  obtain ⟨l, r', hl, hfrac⟩ := fraction_eq (((begin s).past [c]).past (r.takeWhile isDigit))
  rw [hdigits] at hl
  have htext : s.rest = (c :: (r.takeWhile isDigit ++ l)) ++ r' := by
    rw [List.cons_append, List.append_assoc, ← hl, List.takeWhile_append_dropWhile]
    exact h
  refine ⟨_, r', .number (c :: (r.takeWhile isDigit ++ l)), htext, ?_⟩
  unfold number
  rw [digits_eq, hrest]
  show (fraction (((begin s).past [c]).past (r.takeWhile isDigit)) >>= _) = _
  rw [hfrac, Scanner.past_past, Scanner.past_past]
  show (substring s.source s.current (s.current + (c :: (r.takeWhile isDigit ++ l)).length)
    >>= _) = _
  rw [substring_past htext (List.cons_ne_nil _ _)]
  exact addToken_past htext (List.cons_ne_nil _ _) _ _

/-- `string` takes everything up to the closing quote, or to the end. -/
theorem string_scanned (h : s.rest = unit '"' :: r) :
    ∃ l s', string ((begin s).past [unit '"']) = .ok s' ∧ Scanned s l s' := by
  have hrest := begin_past_cons h
  obtain ⟨inside, hin⟩ : ∃ l, l = r.takeWhile (fun c => c != unit '"') := ⟨_, rfl⟩
  obtain ⟨after, haf⟩ : ∃ l, l = r.dropWhile (fun c => c != unit '"') := ⟨_, rfl⟩
  have htext : s.rest = (unit '"' :: inside) ++ after := by
    rw [h, List.cons_append, hin, haf, List.takeWhile_append_dropWhile]
  have hinside : ((begin s).past (unit '"' :: inside)).rest = after :=
    Scanner.rest_past (s := begin s) htext
  unfold string
  rw [stringLoop_eq, hrest, ← hin, Scanner.past_past]
  show ∃ l s', (if isAtEnd ((begin s).past (unit '"' :: inside)) = true then _ else _) = _ ∧ _
  cases after with
  | nil =>
      -- the source ends inside the string: an error, and no token
      rw [if_pos (isAtEnd_iff.mpr hinside)]
      exact ⟨_, _, rfl, scanned_silent htext (List.cons_ne_nil _ _) _⟩
  | cons q after =>
      -- the loop stopped before the end, so it stopped at a quote
      have hq : q = unit '"' := by
        have hhead := List.head?_dropWhile_not (fun c => c != unit '"') r
        rw [← haf] at hhead
        simpa using hhead
      subst hq
      have hall : s.rest = (unit '"' :: inside ++ [unit '"']) ++ after := by
        rw [htext, List.append_assoc]
        rfl
      have hvalue : substring s.source (s.current + 1)
          (s.current + (unit '"' :: inside ++ [unit '"']).length - 1) = .ok inside := by
        have hle := current_le hall (by simp)
        have hmid : (s.past [unit '"']).rest = inside ++ unit '"' :: after :=
          Scanner.rest_past (l := [unit '"']) htext
        rw [List.length_append, List.length_cons] at hle ⊢
        have hend : s.current + (inside.length + 1 + [unit '"'].length) - 1
            = s.current + 1 + inside.length := by
          rw [List.length_singleton]
          omega
        rw [hend]
        refine substring_eq (s := s.past [unit '"']) hmid ?_
        show s.current + 1 + inside.length ≤ s.source.length
        omega
      rw [isAtEnd_cons hinside, if_neg Bool.false_ne_true]
      refine ⟨_, _, ?_, scanned_added hall (by simp) (.string inside)
        (show TokenType.STRING ≠ .EOF by decide)⟩
      have hskip : skip ((begin s).past (unit '"' :: inside))
          = .ok ((begin s).past (unit '"' :: inside ++ [unit '"'])) := by
        rw [skip_cons hinside (by decide), Scanner.past_past]
      show (skip ((begin s).past (unit '"' :: inside)) >>= _) = _
      rw [hskip]
      show (substring s.source (s.current + 1)
        (s.current + (unit '"' :: inside ++ [unit '"']).length - 1) >>= _) = _
      rw [hvalue]
      exact addToken_past hall (by simp) _ _

/-- The cases that are not a single symbol or followed by a `=`. -/
theorem scanOther_scanned (h : s.rest = c :: r) (hc : c ≠ newline) :
    ∃ l s', scanOther c ((begin s).past [c]) = .ok s' ∧ Scanned s l s' := by
  have hrest := begin_past_cons h
  have hone : s.rest = [c] ++ r := h
  have hsilent : ∃ l s', (.ok ((begin s).past [c]) : J Scanner) = .ok s' ∧ Scanned s l s' :=
    ⟨_, _, rfl, scanned_silent hone (List.cons_ne_nil _ _) _⟩
  unfold scanOther
  by_cases hslash : c = unit '/'
  · rw [if_pos hslash]
    rcases matchChar_eq (e := unit '/') (by decide) ((begin s).past [c]) with hm | ⟨r', hr', hm⟩
    · rw [hm]
      exact addToken_scanned hone (List.cons_ne_nil _ _) (show TokenType.SLASH ≠ .EOF by decide)
    · rw [hm]
      rw [hrest] at hr'
      subst hr'
      have htext : s.rest = (c :: unit '/' :: r'.takeWhile (fun c => c != newline)) ++
          r'.dropWhile (fun c => c != newline) := by
        rw [h, List.cons_append, List.cons_append, List.takeWhile_append_dropWhile]
      have hcomment : comment (((begin s).past [c]).past [unit '/'])
          = .ok ((begin s).past (c :: unit '/' :: r'.takeWhile (fun c => c != newline))) := by
        rw [comment_eq, Scanner.rest_past (l := [unit '/']) hrest, Scanner.past_past,
          Scanner.past_past]
        rfl
      exact ⟨_, _, hcomment, scanned_silent htext (List.cons_ne_nil _ _) _⟩
  · rw [if_neg hslash]
    by_cases hblank : c = unit ' ' ∨ c = unit '\r' ∨ c = unit '\t'
    · rw [if_pos hblank]
      exact hsilent
    · rw [if_neg hblank, if_neg hc]
      by_cases hquote : c = unit '"'
      · subst hquote
        rw [if_pos rfl]
        exact string_scanned h
      · rw [if_neg hquote]
        by_cases ho : c = unit 'o'
        · rw [if_pos ho]
          -- the next character is looked at, but not taken
          cases r with
          | nil =>
              rw [peek_nil hrest]
              exact hsilent
          | cons c' r =>
              rw [peek_cons hrest]
              by_cases hr : c' = unit 'r'
              · simp only [bind, Except.bind, if_pos hr]
                exact addToken_scanned hone (List.cons_ne_nil _ _)
                  (show TokenType.OR ≠ .EOF by decide)
              · simp only [bind, Except.bind, if_neg hr]
                exact hsilent
        · rw [if_neg ho]
          by_cases hdigit : isDigit c = true
          · rw [if_pos hdigit]
            obtain ⟨l, r', lit, ht, hn⟩ := number_eq h
            exact ⟨_, _, hn, scanned_added ht (List.cons_ne_nil _ _) lit
              (show TokenType.NUMBER ≠ .EOF by decide)⟩
          · rw [if_neg hdigit]
            by_cases halpha : isAlpha c = true
            · rw [if_pos halpha]
              exact ⟨_, _, identifier_eq h, scanned_added (h.trans (take_drop_while _ c r))
                (List.cons_ne_nil _ _) .null (typeOf_ne _).1⟩
            · rw [if_neg halpha]
              exact ⟨_, _, rfl, scanned_silent hone (List.cons_ne_nil _ _) _⟩

/-- `advance` at the beginning of a lexeme that is not a newline. -/
theorem advance_begin (h : s.rest = c :: r) (hc : c ≠ newline) :
    advance (begin s) = .ok (c, (begin s).past [c]) := by
  rw [past_singleton hc]
  exact advance_cons (s := begin s) h

/-- **ONE LEXEME**: every call of `scanToken` goes well and ends a lexeme. -/
theorem scanToken_scanned (h : s.rest = c :: r) :
    ∃ l s', scanToken (begin s) = .ok s' ∧ Scanned s l s' := by
  by_cases hc : c = newline
  · -- a newline is the one character that `advance` alone does not account for
    subst hc
    have hadv : advance (begin s) = .ok (newline, _) := advance_cons (s := begin s) h
    refine ⟨[newline], (begin s).past [newline], ?_,
      scanned_silent (l := [newline]) h (List.cons_ne_nil _ _) _⟩
    unfold scanToken
    rw [hadv]
    rfl
  · unfold scanToken
    rw [advance_begin h hc]
    show ∃ l s', scanCase c ((begin s).past [c]) = _ ∧ _
    unfold scanCase
    cases hone : single.lookup c with
    | some type =>
        have hall : ∀ p ∈ single, p.2 ≠ .EOF := by decide
        exact addToken_scanned (l := [c]) h (List.cons_ne_nil _ _) (hall _ (lookup_mem hone))
    | none =>
        cases htwo : withEqual.lookup c with
        | none => exact scanOther_scanned h hc
        | some types =>
            obtain ⟨two, one⟩ := types
            have hall : ∀ p ∈ withEqual, p.2.1 ≠ .EOF ∧ p.2.2 ≠ .EOF := by decide
            obtain ⟨h2, h1⟩ := hall _ (lookup_mem htwo)
            rcases matchChar_eq (e := unit '=') (by decide) ((begin s).past [c])
              with hm | ⟨r', hr', hm⟩
            · dsimp only
              rw [hm]
              exact addToken_scanned (l := [c]) h (List.cons_ne_nil _ _) h1
            · rw [begin_past_cons h] at hr'
              subst hr'
              dsimp only
              rw [hm, Scanner.past_past]
              exact addToken_scanned (l := [c, unit '=']) h (List.cons_ne_nil _ _) h2

/-! ## Whole scans -/

/-- A round of `scanTokens`. -/
def scanRound : Scanner → J Scanner := round .diverged unfinished lexeme

theorem unfinished_cons (h : s.rest = c :: r) : unfinished s = .ok true := by
  unfold unfinished
  rw [isAtEnd_cons h]
  rfl

theorem unfinished_nil (h : s.rest = []) : unfinished s = .ok false := by
  unfold unfinished
  rw [isAtEnd_iff.mpr h]
  rfl

/-- What one round does. -/
theorem scanRound_scanned (h : scanRound s = .ok s') : ∃ l, Scanned s l s' := by
  obtain ⟨hu, hl⟩ := round_eq_ok.mp h
  cases hr : s.rest with
  | nil => exact nomatch hu.symm.trans (unfinished_nil hr)
  | cons c r =>
      obtain ⟨l, t, ht, hscan⟩ := scanToken_scanned hr
      obtain rfl := Except.ok.inj (hl.symm.trans ht)
      exact ⟨l, hscan⟩

theorem Scanned.counted (h : Scanned s l s') (hc : Counted s) : Counted s' := by
  obtain ⟨r, hr⟩ := h.text
  have hp := hc.past hr
  unfold Counted Scanner.past at hp
  unfold Counted
  rw [h.source, h.current, h.line]
  exact hp

/-- The rounds from a state on add tokens that fit into the characters they move over. -/
theorem run_tokens {past : List Scanner} (h : Run scanRound s past s') :
    s'.source = s.source ∧ s.current ≤ s'.current ∧ ∃ ts, s'.tokens = s.tokens ++ ts ∧
      ∀ t ∈ ts, t.type ≠ .EOF ∧ s.current + t.lexeme.length ≤ s'.current := by
  induction h with
  | start =>
      refine ⟨rfl, Nat.le_refl _, [], (List.append_nil _).symm, ?_⟩
      intro t ht
      exact nomatch ht
  | snoc _ hs ih =>
      obtain ⟨l, hl⟩ := scanRound_scanned hs
      obtain ⟨hsrc, hle, ts, hts, hall⟩ := ih
      have hcur := hl.current
      refine ⟨hl.source.trans hsrc, by omega, ?_⟩
      rcases hl.tokens with hnone | ⟨type, lit, htype, hone⟩
      · refine ⟨ts, by rw [hnone, hts], fun t ht => ?_⟩
        obtain ⟨hne, hfit⟩ := hall t ht
        exact ⟨hne, by omega⟩
      · refine ⟨ts ++ [⟨type, l, lit, _⟩], by rw [hone, hts, List.append_assoc], fun t ht => ?_⟩
        rcases List.mem_append.mp ht with ht | ht
        · obtain ⟨hne, hfit⟩ := hall t ht
          exact ⟨hne, by omega⟩
        · obtain rfl := List.mem_singleton.mp ht
          refine ⟨htype, ?_⟩
          show _ + l.length ≤ _
          omega

/-- One round of the loop of `scanTokens` leaves less to scan, or the loop is over. -/
theorem lexeme_progress (s : Scanner) : unfinished s = .ok false ∨
    ∃ t, unfinished s = .ok true ∧ lexeme s = .ok t ∧ True ∧ t.rest.length < s.rest.length := by
  cases hr : s.rest with
  | nil => exact Or.inl (unfinished_nil hr)
  | cons c r =>
      obtain ⟨l, t, ht, hscan⟩ := scanToken_scanned hr
      refine Or.inr ⟨t, unfinished_cons hr, ht, trivial, ?_⟩
      have hpos := List.length_pos_iff.mpr hscan.nonempty
      have hlen := congrArg List.length hr
      unfold Scanner.rest at hlen ⊢
      rw [hscan.source, hscan.current]
      rw [List.length_drop, List.length_cons] at hlen
      rw [List.length_drop, List.length_cons]
      omega

/-- **SCANNING ENDS**: from every state the loop of `scanTokens` comes to the end. -/
theorem scan_ends (s : Scanner) {fuel : Nat} (hf : s.rest.length < fuel) :
    ∃ s', loop .diverged unfinished lexeme fuel s = .ok s' ∧ s'.rest = [] := by
  obtain ⟨s', hs', -, hc⟩ := loop_ends (I := fun _ => True) (μ := fun s => s.rest.length)
    (fun s _ => lexeme_progress s) trivial hf
  refine ⟨s', hs', ?_⟩
  cases hr : s'.rest with
  | nil => rfl
  | cons c r => exact nomatch hc.symm.trans (unfinished_cons hr)

/-- `scanTokens` returns the tokens of a run of rounds up to the end. -/
theorem scanTokens_run (source : List JChar) : ∃ past s,
    Run scanRound (newScanner source) past s ∧ s.rest = [] ∧
      scanTokens source = .ok (s.tokens ++ [⟨.EOF, [], .null, s.line⟩]) := by
  obtain ⟨s, hs, hr⟩ := scan_ends (newScanner source) (Nat.lt_succ_self source.length)
  obtain ⟨past, hrun, -⟩ := run_of_loop hs
  refine ⟨past, s, hrun, hr, ?_⟩
  show (loop _ _ _ (source.length + 1) (newScanner source) >>= _) = _
  rw [hs]
  rfl

end LoxLexeme
