/-
The lexer of KQuery files: `include/expr/Lexer.h`, `lib/Expr/Lexer.cpp`.

A buffer is the list of its bytes from the current position on. A token points into the buffer
at its first character, and its length is an `unsigned`. A `char` is signed, so that the byte
0xFF is the -1 that also stands for the end of the buffer. The line and the column of a token,
which are for messages only, are left out.
-/
import Mathlib.Algebra.Order.Ring.Int
import Mathlib.Data.List.TakeWhile
import Xklee.Data.Stdio

set_option autoImplicit false

namespace Xklee

/-- `Token::Kind` -/
inductive TokenKind where
  | At | Arrow | Colon | Comma | Comment | EndOfFile | Equals | Identifier
  | KWArray | KWFalse | KWQuery | KWReserved | KWSymbolic | KWTrue | KWWidth
  | LBrace | LParen | LSquare | Number | RBrace | RParen | RSquare | Semicolon | Unknown
deriving DecidableEq, Repr

structure Token where
  kind : TokenKind
  start : List Byte
  length : ℕ
deriving DecidableEq

namespace Token

/-- The string spanned by this token. -/
def getString (tok : Token) : List Byte := tok.start.take tok.length

/-- The kinds from `KWKindFirst` to `KWKindLast`. -/
def isKeyword (tok : Token) : Bool :=
  tok.kind ∈ [.KWArray, .KWFalse, .KWQuery, .KWReserved, .KWSymbolic, .KWTrue, .KWWidth]

end Token

/-! ## Characters -/

/-- The bytes of a string literal. -/
def bytesOf (s : String) : List Byte := s.toList.map fun c => BitVec.ofNat 8 c.toNat

/-- The value of a character literal. -/
def ascii (c : Char) : ℤ := c.toNat

def isdigit (c : ℤ) : Bool := ascii '0' ≤ c && c ≤ ascii '9'

def isalpha (c : ℤ) : Bool :=
  (ascii 'a' ≤ c && c ≤ ascii 'z') || (ascii 'A' ≤ c && c ≤ ascii 'Z')

def isalnum (c : ℤ) : Bool := isalpha c || isdigit c

/-- Space, and the control characters from tab to carriage return. -/
def isspace (c : ℤ) : Bool := c = ascii ' ' || (9 ≤ c && c ≤ 13)

def isInternalIdentifierChar (c : ℤ) : Bool :=
  isalnum c || c = ascii '_' || c = ascii '.' || c = ascii '-'

/-- What goes on with a number in `LexNumber`. -/
def isNumberChar (c : ℤ) : Bool := isalnum c || c = ascii '_'

namespace Lexer

/-! ## The buffer -/

/-- `PeekNextChar` -/
def peekNextChar : List Byte → ℤ
  | [] => -1
  | c :: _ => c.toInt

/-- `GetNextChar`: a newline may be two bytes. -/
def getNextChar : List Byte → ℤ × List Byte
  | [] => (-1, [])
  | c :: buf =>
      if c.toInt = ascii '\n' ∨ c.toInt = ascii '\r' then
        (ascii '\n',
          match buf with
          | [] => []
          | c' :: buf' => if c'.toInt = ascii '\n' + ascii '\r' - c.toInt then buf' else buf)
      else (c.toInt, buf)

/-- `while (p(PeekNextChar())) GetNextChar();`, where `p` is false at the end of the buffer. -/
def skipLoop (p : ℤ → Bool) : ℕ → List Byte → List Byte
  | 0, buf => buf
  | fuel + 1, buf => if p (peekNextChar buf) then skipLoop p fuel (getNextChar buf).2 else buf

def skipWhile (p : ℤ → Bool) (buf : List Byte) : List Byte := skipLoop p buf.length buf

/-- `SkipToEndOfLine` -/
def skipToEndOfLineLoop : ℕ → List Byte → List Byte
  | 0, buf => buf
  | fuel + 1, buf =>
      let (c, buf) := getNextChar buf
      if c = -1 ∨ c = ascii '\n' then buf else skipToEndOfLineLoop fuel buf

def skipToEndOfLine (buf : List Byte) : List Byte := skipToEndOfLineLoop (buf.length + 1) buf

/-! ## Tokens -/

/-- `SetTokenKind`, for a token from `start` to `buf`. -/
def setTokenKind (start buf : List Byte) (k : TokenKind) : Token × List Byte :=
  (⟨k, start, (start.length - buf.length) % 2 ^ 32⟩, buf)

/-- `isReservedKW`: `i[0-9]+` or `fp[0-9]+([.].*)?`, where `fp` and one digit are not. -/
def isReservedKW (str : List Byte) : Bool :=
  match str with
  | c :: d :: rest =>
      (c.toInt = ascii 'i' && (d :: rest).all fun c => isdigit c.toInt)
        || (c.toInt = ascii 'f' && d.toInt = ascii 'p'
          && match rest with
            | e :: f :: rest =>
                isdigit e.toInt
                  && match (f :: rest).dropWhile fun c => isdigit c.toInt with
                    | [] => true
                    | c :: _ => c.toInt = ascii '.'
            | _ => false)
  | _ => false

/-- `isWidthKW`: `w[0-9]+`. -/
def isWidthKW (str : List Byte) : Bool :=
  match str with
  | c :: d :: rest => c.toInt = ascii 'w' && (d :: rest).all fun c => isdigit c.toInt
  | _ => false

/-- `SetIdentifierTokenKind`, by the text of the token. -/
def identifierKind (str : List Byte) : TokenKind :=
  if str = bytesOf "def" ∨ str = bytesOf "var" then .KWReserved
  else if str = bytesOf "true" then .KWTrue
  else if str = bytesOf "array" then .KWArray
  else if str = bytesOf "false" then .KWFalse
  else if str = bytesOf "query" then .KWQuery
  else if str = bytesOf "define" then .KWReserved
  else if str = bytesOf "declare" then .KWReserved
  else if str = bytesOf "symbolic" then .KWSymbolic
  else if isReservedKW str then .KWReserved
  else if isWidthKW str then .KWWidth
  else .Identifier

def setIdentifierTokenKind (start buf : List Byte) : Token × List Byte :=
  setTokenKind start buf
    (identifierKind (start.take ((start.length - buf.length) % 2 ^ 32)))

/-- `LexNumber` -/
def lexNumber (start buf : List Byte) : Token × List Byte :=
  setTokenKind start (skipWhile isNumberChar buf) .Number

/-- `LexIdentifier` -/
def lexIdentifier (start buf : List Byte) : Token × List Byte :=
  setIdentifierTokenKind start (skipWhile isInternalIdentifierChar buf)

/-- The tokens of one character. -/
def punctuation : List (ℤ × TokenKind) :=
  [(ascii '(', .LParen), (ascii ')', .RParen), (ascii ',', .Comma), (ascii ':', .Colon),
    (ascii ';', .Semicolon), (ascii '=', .Equals), (ascii '@', .At), (ascii '[', .LSquare),
    (ascii ']', .RSquare), (ascii '{', .LBrace), (ascii '}', .RBrace)]

/-- `Lex` from the first character of the token on. -/
def lexToken (start : List Byte) : Token × List Byte :=
  let (c, buf) := getNextChar start
  if c = -1 then setTokenKind start buf .EndOfFile
  else
    match punctuation.lookup c with
    | some k => setTokenKind start buf k
    | none =>
        if c = ascii '#' then setTokenKind start (skipToEndOfLine buf) .Comment
        else if c = ascii '+' then
          if isdigit (peekNextChar buf) then lexNumber start buf
          else setTokenKind start buf .Unknown
        else if c = ascii '-' then
          if peekNextChar buf = ascii '>' then setTokenKind start (getNextChar buf).2 .Arrow
          else if isdigit (peekNextChar buf) then lexNumber start buf
          else setTokenKind start buf .Unknown
        else if isdigit c then lexNumber start buf
        else if isalpha c ∨ c = ascii '_' then lexIdentifier start buf
        else setTokenKind start buf .Unknown

/-- `Lex`: the next token, and the buffer after it. -/
def lex (buf : List Byte) : Token × List Byte := lexToken (skipWhile isspace buf)

/-! ## Numbers -/

/-- `[+-]?[0-9][a-zA-Z0-9_]*` -/
def IsNumber (text : List Byte) : Prop :=
  ∃ sign c cs, text = sign ++ c :: cs ∧ (sign = [] ∨ sign = bytesOf "+" ∨ sign = bytesOf "-")
    ∧ isdigit c.toInt = true ∧ ∀ c ∈ cs, isNumberChar c.toInt = true

variable {c : ℤ} {buf start pre rest : List Byte} {tok : Token}

/-- A character that is not a newline is one byte. -/
theorem getNextChar_cons {c : Byte} (hc : ¬(c.toInt = ascii '\n' ∨ c.toInt = ascii '\r')) :
    getNextChar (c :: buf) = (c.toInt, buf) := if_neg hc

/-- A loop over characters that are not newlines drops them one by one. -/
theorem skipLoop_eq_dropWhile {p : ℤ → Bool} (hnl : p (ascii '\n') = false)
    (hcr : p (ascii '\r') = false) {fuel : ℕ} (hfuel : buf.length ≤ fuel) :
    skipLoop p fuel buf = buf.dropWhile fun c => p c.toInt := by
  induction fuel generalizing buf with
  | zero =>
    obtain rfl : buf = [] := List.length_eq_zero_iff.mp (Nat.le_zero.mp hfuel)
    rfl
  | succ fuel ih =>
    cases buf with
    | nil =>
      rw [skipLoop, peekNextChar, getNextChar, ih (Nat.zero_le _), List.dropWhile_nil, ite_self]
    | cons c buf =>
      rw [skipLoop, List.dropWhile_cons]
      show (if p c.toInt then _ else _) = _
      by_cases hp : p c.toInt
      · have hnewline : ¬(c.toInt = ascii '\n' ∨ c.toInt = ascii '\r') := by
          rintro (hc | hc)
          · rw [hc, hnl] at hp
            exact absurd hp (by simp)
          · rw [hc, hcr] at hp
            exact absurd hp (by simp)
        rw [if_pos hp, if_pos hp, getNextChar_cons hnewline]
        exact ih (Nat.le_of_succ_le_succ hfuel)
      · rw [if_neg hp, if_neg hp]

/-- A number ends where its characters do. -/
theorem lexNumber_spec (start buf : List Byte) (hstart : start = pre ++ buf) :
    ∃ cs rest, (∀ c ∈ cs, isNumberChar c.toInt = true)
      ∧ isNumberChar (peekNextChar rest) = false ∧ start = (pre ++ cs) ++ rest
      ∧ lexNumber start buf = (⟨.Number, start, (pre ++ cs).length % 2 ^ 32⟩, rest) := by
  let p : Byte → Bool := fun c => isNumberChar c.toInt
  have hskip : skipWhile isNumberChar buf = buf.dropWhile p :=
    skipLoop_eq_dropWhile (by decide) (by decide) (Nat.le_refl _)
  have hsplit : buf.takeWhile p ++ buf.dropWhile p = buf := List.takeWhile_append_dropWhile
  have hwhole : start = (pre ++ buf.takeWhile p) ++ buf.dropWhile p := by
    rw [List.append_assoc, hsplit, hstart]
  refine ⟨buf.takeWhile p, buf.dropWhile p, ?_, ?_, hwhole, ?_⟩
  · intro c hc
    exact List.mem_takeWhile_imp (p := p) hc
  · have hhead := List.head?_dropWhile_not p buf
    cases hrest : buf.dropWhile p with
    | nil => decide
    | cons c rest =>
      rw [hrest, List.head?_cons] at hhead
      exact hhead
  · have hlength : start.length - (buf.dropWhile p).length = (pre ++ buf.takeWhile p).length := by
      rw [hwhole, List.length_append, Nat.add_sub_cancel]
    rw [lexNumber, hskip, setTokenKind, hlength]

/-- A character other than a newline and the end is the next byte. -/
theorem of_getNextChar (h : getNextChar start = (c, buf)) (hend : c ≠ -1) (hnl : c ≠ ascii '\n') :
    ∃ b : Byte, start = b :: buf ∧ b.toInt = c := by
  cases start with
  | nil => exact absurd (congrArg Prod.fst h).symm hend
  | cons b rest =>
    by_cases hb : b.toInt = ascii '\n' ∨ b.toInt = ascii '\r'
    · rw [getNextChar.eq_def] at h
      simp only [if_pos hb] at h
      exact absurd (congrArg Prod.fst h).symm hnl
    · rw [getNextChar_cons hb] at h
      obtain ⟨rfl, rfl⟩ := Prod.mk.inj h
      exact ⟨b, rfl, rfl⟩

theorem punctuation_ne_number {k : TokenKind} (h : punctuation.lookup c = some k) :
    k ≠ .Number := by
  obtain ⟨l₁, l₂, heq, -⟩ := List.lookup_eq_some_iff.mp h
  have hmem : (c, k) ∈ punctuation := by
    rw [heq]
    simp
  have hall : ∀ e ∈ punctuation, e.2 ≠ .Number := by decide
  exact hall _ hmem

theorem identifierKind_ne_number (str : List Byte) : identifierKind str ≠ .Number := by
  unfold identifierKind
  split_ifs <;> decide

/-- A number after its sign. -/
theorem lexNumber_of_digit (sign buf : List Byte)
    (hsign : sign = [] ∨ sign = bytesOf "+" ∨ sign = bytesOf "-") (hstart : start = sign ++ buf)
    (hdigit : isdigit (peekNextChar buf) = true) {buf' : List Byte} (hpre : start = pre ++ buf')
    (hle : pre = sign ∨ pre = sign ++ buf.take 1) (h : lexNumber start buf' = (tok, rest)) :
    ∃ text, IsNumber text ∧ isNumberChar (peekNextChar rest) = false ∧ start = text ++ rest
      ∧ tok = ⟨.Number, start, text.length % 2 ^ 32⟩ := by
  obtain ⟨cs, rest', hcs, hpeek, hwhole, heq⟩ := lexNumber_spec start buf' hpre
  rw [heq] at h
  obtain ⟨rfl, rfl⟩ := Prod.mk.inj h
  refine ⟨pre ++ cs, ?_, hpeek, hwhole, rfl⟩
  cases buf with
  | nil => exact absurd hdigit (by decide)
  | cons c buf =>
    have hc : isdigit c.toInt = true := hdigit
    rcases hle with rfl | rfl
    · cases cs with
      | nil =>
        -- the loop goes on with the digit
        exfalso
        rw [List.append_nil, hstart] at hwhole
        rw [← List.append_cancel_left hwhole] at hpeek
        have hnumber : isNumberChar c.toInt = true := by
          rw [isNumberChar, isalnum, hc, Bool.or_true, Bool.true_or]
        exact absurd (hnumber.symm.trans hpeek) (by simp)
      | cons c' cs =>
        rw [hstart, List.append_assoc] at hwhole
        obtain ⟨rfl, -⟩ := List.cons.inj (List.append_cancel_left hwhole)
        exact ⟨_, c, cs, rfl, hsign, hc, fun x hx => hcs x (List.mem_cons_of_mem _ hx)⟩
    · refine ⟨sign, c, cs, ?_, hsign, hc, hcs⟩
      rw [List.append_assoc]
      rfl

/-- What the lexer says is a number is one, and goes on as long as it can. -/
theorem lexToken_number (h : lexToken start = (tok, rest)) (hkind : tok.kind = .Number) :
    ∃ text, IsNumber text ∧ isNumberChar (peekNextChar rest) = false ∧ start = text ++ rest
      ∧ tok = ⟨.Number, start, text.length % 2 ^ 32⟩ := by
  obtain ⟨c, buf, hnext⟩ : ∃ c buf, getNextChar start = (c, buf) := ⟨_, _, rfl⟩
  have hother : ∀ (buf' : List Byte) (k : TokenKind), k ≠ .Number →
      setTokenKind start buf' k ≠ (tok, rest) := by
    rintro buf' k hk heq
    rw [← (Prod.mk.inj heq).1] at hkind
    exact hk hkind
  unfold lexToken at h
  rw [hnext] at h
  dsimp only at h
  by_cases hend : c = -1
  · rw [if_pos hend] at h
    exact absurd h (hother _ _ (by decide))
  rw [if_neg hend] at h
  cases hpunct : punctuation.lookup c with
  | some k =>
    rw [hpunct] at h
    exact absurd h (hother _ _ (punctuation_ne_number hpunct))
  | none =>
    rw [hpunct] at h
    dsimp only at h
    split_ifs at h with hhash hplus hd hminus harrow hd hd hid
    · exact absurd h (hother _ _ (by decide))
    · obtain ⟨b, rfl, hb⟩ := of_getNextChar hnext hend (by rw [hplus]; decide)
      obtain rfl : b = 43#8 := BitVec.eq_of_toInt_eq (hb.trans hplus)
      exact lexNumber_of_digit (bytesOf "+") buf (.inr (.inl rfl)) rfl hd rfl (.inl rfl) h
    · exact absurd h (hother _ _ (by decide))
    · exact absurd h (hother _ _ (by decide))
    · obtain ⟨b, rfl, hb⟩ := of_getNextChar hnext hend (by rw [hminus]; decide)
      obtain rfl : b = 45#8 := BitVec.eq_of_toInt_eq (hb.trans hminus)
      exact lexNumber_of_digit (bytesOf "-") buf (.inr (.inr rfl)) rfl hd rfl (.inl rfl) h
    · exact absurd h (hother _ _ (by decide))
    · have hnl : c ≠ ascii '\n' := by
        rintro rfl
        exact absurd hd (by decide)
      obtain ⟨b, rfl, hb⟩ := of_getNextChar hnext hend hnl
      exact lexNumber_of_digit [] (b :: buf) (.inl rfl) rfl
        (show isdigit b.toInt = true by rw [hb]; exact hd) rfl (.inr rfl) h
    · exact absurd h (hother _ _ (identifierKind_ne_number _))
    · exact absurd h (hother _ _ (by decide))

/-- The same of a token after spaces. -/
theorem lex_number (h : lex buf = (tok, rest)) (hkind : tok.kind = .Number) :
    ∃ text, IsNumber text ∧ isNumberChar (peekNextChar rest) = false
      ∧ tok = ⟨.Number, text ++ rest, text.length % 2 ^ 32⟩ := by
  obtain ⟨text, htext, hpeek, hstart, htok⟩ := lexToken_number h hkind
  rw [hstart] at htok
  exact ⟨text, htext, hpeek, htok⟩

end Lexer

end Xklee
