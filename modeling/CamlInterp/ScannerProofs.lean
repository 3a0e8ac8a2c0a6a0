import CamlInterp.LoopProofs

/-! # The Lox scanner

    `Scanner.java` of `crafting-interp/lox`, with `scanTokens` returning its list and
    `isAlphaNumberic` read as `isAlphaNumeric`.  A `String` is the list of its UTF-16
    units; `start`, `current` and `line` are `int`s that stay below its length or
    count its units, so they are naturals here.  Every access of the source checks
    its bounds. -/

namespace LoxScanner

open Loops

/-! ## Characters and tokens -/

/-- `char`. -/
abbrev JChar := BitVec 16

/-- A character literal. -/
def unit (c : Char) : JChar := BitVec.ofNat 16 c.toNat

/-- A string literal. -/
def text (cs : List Char) : List JChar := cs.map unit

/-- `'\n'`. -/
def newline : JChar := unit '\n'

/-- `TokenType`. -/
inductive TokenType where
  | LEFT_PAREN | RIGHT_PAREN | LEFT_BRACE | RIGHT_BRACE | COMMA | DOT | MINUS | PLUS
  | SEMICOLON | SLASH | STAR
  | BANG | BANG_EQUAL | EQUAL | EQUAL_EQUAL | GREATER | GREATER_EQUAL | LESS | LESS_EQUAL
  | IDENTIFIER | STRING | NUMBER
  | AND | CLASS | ELSE | FALSE | FUN | FOR | IF | NIL | OR | PRINT | RETURN | SUPER | THIS
  | TRUE | VAR | WHILE
  | EOF
deriving DecidableEq, Repr

/-- The `Object literal` of a token. -/
inductive Literal where
  | null
  | string (value : List JChar)
  /-- `Double.parseDouble(digits)` -/
  | number (digits : List JChar)
deriving DecidableEq, Repr

/-- `Token`. -/
structure Token where
  type : TokenType
  lexeme : List JChar
  literal : Literal
  line : Nat
deriving DecidableEq, Repr

/-- `keywords`. -/
def keywords : List (List JChar × TokenType) :=
  [(text ['a', 'n', 'd'], .AND),
   (text ['c', 'l', 'a', 's', 's'], .CLASS),
   (text ['e', 'l', 's', 'e'], .ELSE),
   (text ['f', 'a', 'l', 's', 'e'], .FALSE),
   (text ['f', 'o', 'r'], .FOR),
   (text ['f', 'u', 'n'], .FUN),
   (text ['i', 'f'], .IF),
   (text ['n', 'i', 'l'], .NIL),
   (text ['o', 'r'], .OR),
   (text ['p', 'r', 'i', 'n', 't'], .PRINT),
   (text ['r', 'e', 't', 'u', 'r', 'n'], .RETURN),
   (text ['s', 'u', 'p', 'e', 'r'], .SUPER),
   (text ['t', 'h', 'i', 's'], .THIS),
   (text ['t', 'r', 'u', 'e'], .TRUE),
   (text ['v', 'a', 'r'], .VAR),
   (text ['w', 'h', 'i', 'l', 'e'], .WHILE)]

/-! ## The scanner -/

/-- `Scanner`, and what it reports with `Lox.error`. -/
structure Scanner where
  source : List JChar
  tokens : List Token
  start : Nat
  current : Nat
  line : Nat
  errors : List (Nat × String)

/-- How a method can fail to return. -/
inductive Exn where
  /-- `StringIndexOutOfBoundsException` -/
  | indexOutOfBounds
  /-- a loop that never ends -/
  | diverged
deriving DecidableEq, Repr

/-- A Java method that may throw. -/
abbrev J (α : Type) := Except Exn α

/-- `new Scanner(source)`. -/
def newScanner (source : List JChar) : Scanner where
  source := source
  tokens := []
  start := 0
  current := 0
  line := 1
  errors := []

/-- `source.charAt(i)`. -/
def charAt (source : List JChar) (i : Nat) : J JChar :=
  match source[i]? with
  | some c => .ok c
  | none => .error .indexOutOfBounds

/-- `source.substring(i, j)`. -/
def substring (source : List JChar) (i j : Nat) : J (List JChar) :=
  if i ≤ j ∧ j ≤ source.length then .ok ((source.drop i).take (j - i))
  else .error .indexOutOfBounds

def isAtEnd (s : Scanner) : Bool := s.source.length ≤ s.current

def isDigit (c : JChar) : Bool := unit '0' ≤ c && c ≤ unit '9'

def isAlpha (c : JChar) : Bool :=
  (unit 'a' ≤ c && c ≤ unit 'z') || (unit 'A' ≤ c && c ≤ unit 'Z') || c == unit '_'

def isAlphaNumeric (c : JChar) : Bool := isAlpha c || isDigit c

def peek (s : Scanner) : J JChar :=
  if isAtEnd s then .ok 0#16 else charAt s.source s.current

def peekNext (s : Scanner) : J JChar :=
  if s.source.length ≤ s.current + 1 then .ok 0#16 else charAt s.source (s.current + 1)

def advance (s : Scanner) : J (JChar × Scanner) := do
  let s := { s with current := s.current + 1 }
  .ok (← charAt s.source (s.current - 1), s)

/-- `match`. -/
def matchChar (expected : JChar) (s : Scanner) : J (Bool × Scanner) :=
  if isAtEnd s then .ok (false, s)
  else do
    if (← charAt s.source s.current) ≠ expected then .ok (false, s)
    else .ok (true, { s with current := s.current + 1 })

/-- `addToken(type, literal)`. -/
def addToken (type : TokenType) (literal : Literal) (s : Scanner) : J Scanner := do
  let text ← substring s.source s.start s.current
  .ok { s with tokens := s.tokens ++ [⟨type, text, literal, s.line⟩] }

/-- `Lox.error(line, message)`. -/
def error (message : String) (s : Scanner) : Scanner :=
  { s with errors := s.errors ++ [(s.line, message)] }

/-- `while (cond) body` in the scanner. -/
def scanWhile (cond : Scanner → J Bool) (body : Scanner → J Scanner) (s : Scanner) : J Scanner :=
  loop .diverged cond body (s.source.length + 1) s

/-- `advance();` as a statement. -/
def skip (s : Scanner) : J Scanner := do
  .ok (← advance s).2

/-- `keywords.get(text)`, or `IDENTIFIER`. -/
def typeOf (text : List JChar) : TokenType := (keywords.lookup text).getD .IDENTIFIER

def identifier (s : Scanner) : J Scanner := do
  let s ← scanWhile (fun s => do .ok (isAlphaNumeric (← peek s))) skip s
  let text ← substring s.source s.start s.current
  addToken (typeOf text) .null s

/-- `while (isDigit(peek())) advance();` -/
def digits (s : Scanner) : J Scanner :=
  scanWhile (fun s => do .ok (isDigit (← peek s))) skip s

/-- The fraction part of `number`. -/
def fraction (s : Scanner) : J Scanner := do
  if (← peek s) = unit '.' && isDigit (← peekNext s) then digits (← skip s) else .ok s

def number (s : Scanner) : J Scanner := do
  let s ← digits s
  let s ← fraction s
  addToken .NUMBER (.number (← substring s.source s.start s.current)) s

/-- The body of the loop of `string`. -/
def stringBody (s : Scanner) : J Scanner := do
  let s := if (← peek s) = newline then { s with line := s.line + 1 } else s
  skip s

def string (s : Scanner) : J Scanner := do
  let s ← scanWhile (fun s => do .ok ((← peek s) != unit '"' && !isAtEnd s)) stringBody s
  if isAtEnd s then .ok (error "unterminated string." s)
  else
    let s ← skip s
    let value ← substring s.source (s.start + 1) (s.current - 1)
    addToken .STRING (.string value) s

/-- The loop of a comment. -/
def comment (s : Scanner) : J Scanner :=
  scanWhile (fun s => do .ok ((← peek s) != newline && !isAtEnd s)) skip s

/-- The cases of `switch(c)` that add a token of one character. -/
def single : List (JChar × TokenType) :=
  [(unit '(', .LEFT_PAREN), (unit ')', .RIGHT_PAREN), (unit '\x7b', .LEFT_BRACE),
   (unit '\x7d', .RIGHT_BRACE), (unit ',', .COMMA), (unit '.', .DOT), (unit '-', .MINUS),
   (unit '+', .PLUS), (unit ';', .SEMICOLON), (unit '*', .STAR)]

/-- The cases that look for a `=`, with the two types. -/
def withEqual : List (JChar × TokenType × TokenType) :=
  [(unit '!', .BANG_EQUAL, .BANG), (unit '=', .EQUAL_EQUAL, .EQUAL),
   (unit '<', .LESS_EQUAL, .LESS), (unit '>', .GREATER_EQUAL, .GREATER)]

/-- The other cases. -/
def scanOther (c : JChar) (s : Scanner) : J Scanner :=
  if c = unit '/' then do
    let (b, s) ← matchChar (unit '/') s
    if b then comment s else addToken .SLASH .null s
  else if c = unit ' ' ∨ c = unit '\r' ∨ c = unit '\t' then .ok s
  else if c = newline then .ok { s with line := s.line + 1 }
  else if c = unit '"' then string s
  else if c = unit 'o' then do
    if (← peek s) = unit 'r' then addToken .OR .null s else .ok s
  else if isDigit c then number s
  else if isAlpha c then identifier s
  else .ok (error "Unexpected character." s)

/-- `switch(c)`. -/
def scanCase (c : JChar) (s : Scanner) : J Scanner :=
  match single.lookup c, withEqual.lookup c with
  | some type, _ => addToken type .null s
  | none, some (two, one) => do
      let (b, s) ← matchChar (unit '=') s
      addToken (if b then two else one) .null s
  | none, none => scanOther c s

def scanToken (s : Scanner) : J Scanner := do
  let (c, s) ← advance s
  scanCase c s

/-- The body of the loop of `scanTokens`. -/
def lexeme (s : Scanner) : J Scanner := scanToken { s with start := s.current }

/-- The condition of that loop. -/
def unfinished (s : Scanner) : J Bool := .ok (!isAtEnd s)

def scanTokens (source : List JChar) : J (List Token) := do
  let s ← scanWhile unfinished lexeme (newScanner source)
  .ok (s.tokens ++ [⟨.EOF, [], .null, s.line⟩])

/-! ## Moving over characters -/

/-- The scanner behind the characters `l`, with their newlines counted. -/
def Scanner.past (s : Scanner) (l : List JChar) : Scanner :=
  { s with current := s.current + l.length, line := s.line + l.count newline }

/-- The characters that are left. -/
def Scanner.rest (s : Scanner) : List JChar := s.source.drop s.current

/-- `line` counts the newlines so far. -/
def Counted (s : Scanner) : Prop :=
  s.current ≤ s.source.length ∧ s.line = 1 + (s.source.take s.current).count newline

variable {s : Scanner} {c : JChar} {l r : List JChar}

theorem Scanner.past_nil (s : Scanner) : s.past [] = s := rfl

theorem Scanner.past_past (s : Scanner) (l r : List JChar) :
    (s.past l).past r = s.past (l ++ r) := by
  unfold Scanner.past
  simp only [List.length_append, List.count_append, Nat.add_assoc]

theorem Scanner.rest_past (h : s.rest = l ++ r) : (s.past l).rest = r := by
  unfold Scanner.rest at h
  show s.source.drop (s.current + l.length) = r
  rw [← List.drop_drop, h, List.drop_left]

theorem source_eq (h : s.rest = l ++ r) (hle : s.current ≤ s.source.length) :
    s.source = s.source.take s.current ++ l ++ r ∧
      (s.source.take s.current).length = s.current := by
  refine ⟨?_, List.length_take_of_le hle⟩
  rw [List.append_assoc, ← h]
  exact (List.take_append_drop _ _).symm

/-- Lines are counted over what is skipped. -/
theorem Counted.past (hc : Counted s) (h : s.rest = l ++ r) : Counted (s.past l) := by
  obtain ⟨hle, hline⟩ := hc
  obtain ⟨hsrc, hlen⟩ := source_eq h hle
  have htake : s.source.take (s.current + l.length) = s.source.take s.current ++ l := by
    rw [List.take_add, show s.source.drop s.current = l ++ r from h, List.take_left]
  refine ⟨?_, ?_⟩
  · have := congrArg List.length hsrc
    simp only [List.length_append, hlen] at this
    show s.current + l.length ≤ s.source.length
    omega
  · show s.line + l.count newline = 1 + (s.source.take (s.current + l.length)).count newline
    rw [htake, List.count_append, hline, Nat.add_assoc]

/-! ## Looking ahead -/

theorem isAtEnd_iff : isAtEnd s = true ↔ s.rest = [] := by
  unfold isAtEnd Scanner.rest
  rw [decide_eq_true_iff, List.drop_eq_nil_iff]

theorem isAtEnd_cons (h : s.rest = c :: r) : isAtEnd s = false := by
  cases hb : isAtEnd s with
  | false => rfl
  | true => exact nomatch h.symm.trans (isAtEnd_iff.mp hb)

theorem charAt_rest (h : s.rest = l ++ c :: r) :
    charAt s.source (s.current + l.length) = .ok c := by
  have hget : s.source[s.current + l.length]? = some c := by
    rw [← List.getElem?_drop, show s.source.drop s.current = l ++ c :: r from h,
      List.getElem?_append_right (Nat.le_refl _), Nat.sub_self]
    rfl
  unfold charAt
  rw [hget]

theorem charAt_current (h : s.rest = c :: r) : charAt s.source s.current = .ok c :=
  charAt_rest (l := []) h

theorem peek_cons (h : s.rest = c :: r) : peek s = .ok c := by
  unfold peek
  rw [isAtEnd_cons h, charAt_current h]
  rfl

theorem peek_nil (h : s.rest = []) : peek s = .ok 0#16 := by
  unfold peek
  rw [isAtEnd_iff.mpr h]
  rfl

/-- `peekNext` never throws. -/
theorem peekNext_ok (s : Scanner) : ∃ c, peekNext s = .ok c := by
  unfold peekNext
  by_cases h : s.source.length ≤ s.current + 1
  · exact ⟨_, if_pos h⟩
  · rw [if_neg h]
    unfold charAt
    rw [List.getElem?_eq_getElem (Nat.lt_of_not_le h)]
    exact ⟨_, rfl⟩

theorem advance_cons (h : s.rest = c :: r) :
    advance s = .ok (c, { s with current := s.current + 1 }) := by
  unfold advance
  simp only [Nat.add_sub_cancel, charAt_current h]
  rfl

/-- Stepping over a character that is not a newline. -/
theorem past_singleton (h : c ≠ newline) : s.past [c] = { s with current := s.current + 1 } := by
  unfold Scanner.past
  rw [List.count_cons_of_ne h]
  rfl

theorem skip_cons (h : s.rest = c :: r) (hc : c ≠ newline) : skip s = .ok (s.past [c]) := by
  unfold skip
  rw [advance_cons h, past_singleton hc]
  rfl

/-! ## The loops -/

/-- A loop that moves over characters as long as `q` holds of the next one. -/
theorem scanWhile_eq {cond : Scanner → J Bool} {body : Scanner → J Scanner} {q : JChar → Bool}
    (hend : ∀ s, s.rest = [] → cond s = .ok false)
    (hcond : ∀ s c r, s.rest = c :: r → cond s = .ok (q c))
    (hbody : ∀ s c r, s.rest = c :: r → q c = true → body s = .ok (s.past [c]))
    (s : Scanner) : scanWhile cond body s = .ok (s.past (s.rest.takeWhile q)) := by
  have hloop : ∀ fuel (s : Scanner), s.rest.length < fuel →
      loop .diverged cond body fuel s = .ok (s.past (s.rest.takeWhile q)) := by
    intro fuel
    induction fuel with
    | zero => exact fun s h => absurd h (Nat.not_lt_zero _)
    | succ fuel ih =>
        intro s hf
        cases hr : s.rest with
        | nil => rw [loop_of_false (hend s hr), List.takeWhile_nil, Scanner.past_nil]
        | cons c r =>
            cases hq : q c with
            | false =>
                -- the loop stops here, and so does `takeWhile`
                rw [loop_of_false (by rw [hcond s c r hr, hq]), List.takeWhile_cons,
                  hq, if_neg Bool.false_ne_true, Scanner.past_nil]
            | true =>
                have hrest : (s.past [c]).rest = r := Scanner.rest_past (l := [c]) hr
                rw [hr, List.length_cons] at hf
                rw [loop_of_true (by rw [hcond s c r hr, hq]) (hbody s c r hr hq),
                  ih _ (by rw [hrest]; omega), hrest, Scanner.past_past, List.takeWhile_cons,
                  hq, if_pos rfl]
                rfl
  refine hloop _ s ?_
  unfold Scanner.rest
  rw [List.length_drop]
  omega

theorem isDigit_newline : isDigit newline = false := by decide

theorem isAlphaNumeric_newline : isAlphaNumeric newline = false := by decide

/-- The loops that skip while a test of `peek` holds. -/
theorem skipWhile_eq {q : JChar → Bool} (h0 : q 0#16 = false) (hn : q newline = false)
    (s : Scanner) :
    scanWhile (fun s => do .ok (q (← peek s))) skip s = .ok (s.past (s.rest.takeWhile q)) := by
  refine scanWhile_eq (fun s h => ?_) (fun s c r h => ?_) (fun s c r h hq => ?_) s
  · rw [peek_nil h]
    exact congrArg Except.ok h0
  · rw [peek_cons h]
    rfl
  · refine skip_cons h (fun hc => ?_)
    rw [hc, hn] at hq
    exact Bool.false_ne_true hq

theorem digits_eq (s : Scanner) : digits s = .ok (s.past (s.rest.takeWhile isDigit)) :=
  skipWhile_eq (by decide) isDigit_newline s

theorem comment_eq (s : Scanner) :
    comment s = .ok (s.past (s.rest.takeWhile (fun c => c != newline))) := by
  refine scanWhile_eq (fun s h => ?_) (fun s c r h => ?_) (fun s c r h hq => ?_) s
  · rw [peek_nil h]
    show Except.ok (_ && !isAtEnd s) = _
    rw [isAtEnd_iff.mpr h, Bool.not_true, Bool.and_false]
  · rw [peek_cons h]
    show Except.ok (_ && !isAtEnd s) = _
    rw [isAtEnd_cons h, Bool.not_false, Bool.and_true]
  · exact skip_cons h (by simpa using hq)

/-- The loop of `string` counts the newlines it moves over. -/
theorem stringLoop_eq (s : Scanner) :
    scanWhile (fun s => do .ok ((← peek s) != unit '"' && !isAtEnd s)) stringBody s
      = .ok (s.past (s.rest.takeWhile (fun c => c != unit '"'))) := by
  refine scanWhile_eq (fun s h => ?_) (fun s c r h => ?_) (fun s c r h hq => ?_) s
  · rw [peek_nil h]
    show Except.ok (_ && !isAtEnd s) = _
    rw [isAtEnd_iff.mpr h, Bool.not_true, Bool.and_false]
  · rw [peek_cons h]
    show Except.ok (_ && !isAtEnd s) = _
    rw [isAtEnd_cons h, Bool.not_false, Bool.and_true]
  · unfold stringBody skip
    rw [peek_cons h]
    by_cases hc : c = newline
    · -- the line is counted before the character is taken
      have hadv : advance { s with line := s.line + 1 } = .ok (c, _) := advance_cons h
      simp only [bind, Except.bind, if_pos hc, hadv]
      rw [hc]
      rfl
    · simp only [bind, Except.bind, if_neg hc, advance_cons h, past_singleton hc]

end LoxScanner
