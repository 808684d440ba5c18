import Stepwise.Source.Token
import Stepwise.Decimal.Numeral

/-! Cutting a source text into tokens. Blanks, comments and directive lines are skipped; then the
longest token at the front is taken, and so on. Which token stands at the front does not depend on
where the text lies; positions are counted along the characters that are consumed. -/

namespace Stepwise

inductive LexError.Cause where
  | unexpectedCharacter (c : Char)
  | unclosedComment
  | unclosedString
  | unknownEscape (c : Char)
  /-- The text ends behind a backslash or a quote; `literal` names the literal it ends in. -/
  | endInside (literal : String)
  | emptyChar
  | notAscii (c : Char)
  | unclosedChar
  | badHex (digits : List Char)
  | outOfRange (digits : List Char)
deriving DecidableEq, Repr

structure LexError where
  cause : LexError.Cause
  pos : Position
deriving DecidableEq, Repr

def LexError.message (e : LexError) : String :=
  match e.cause with
  | .unexpectedCharacter c => s!"Unexpected character: '{c}'"
  | .unclosedComment => "Unterminated block comment"
  | .unclosedString => "Unterminated string literal"
  | .unknownEscape c => s!"Unknown escape sequence: \\{c}"
  | .endInside literal => s!"Unexpected end of file in {literal}"
  | .emptyChar => "Empty character literal"
  | .notAscii c => s!"Character literal '{c}' is not ASCII"
  | .unclosedChar => "Expected closing quote in character literal"
  | .badHex digits => s!"Invalid hex literal: 0x{String.ofList digits}"
  | .outOfRange digits => s!"Integer literal out of range: {String.ofList digits}"

def LexError.text (e : LexError) : String := s!"lexer error at {e.pos.text}: {e.message}"

namespace Lexer

structure Cursor where
  rest : List Char
  pos : Position
deriving Repr

def Cursor.drop : Nat → Cursor → Cursor
  | n + 1, ⟨c :: rest, p⟩ => drop n ⟨rest, p.next c⟩
  | _, cursor => cursor

def isSpace (c : Char) : Bool := c = ' ' || c = '\t' || c = '\r' || c = '\n'

mutual

/-- Skips blanks, comments and directives. A comment that is not closed is reported by the
position of its first character. -/
def skip (p : Position) : List Char → Except Position Cursor
  | '/' :: '/' :: rest => skipLine ((p.next '/').next '/') rest
  | '/' :: '*' :: rest => skipBlock p ((p.next '/').next '*') rest
  | '#' :: rest => skipDirective (p.next '#') rest
  | c :: rest => if isSpace c then skip (p.next c) rest else .ok ⟨c :: rest, p⟩
  | [] => .ok ⟨[], p⟩

def skipLine (p : Position) : List Char → Except Position Cursor
  | c :: rest => if c = '\n' then skip (p.next c) rest else skipLine (p.next c) rest
  | [] => .ok ⟨[], p⟩

def skipBlock (opened p : Position) : List Char → Except Position Cursor
  | '*' :: '/' :: rest => skip ((p.next '*').next '/') rest
  | c :: rest => skipBlock opened (p.next c) rest
  | [] => .error opened

/-- Inside a directive, which ends with its line unless a backslash stands before the newline. -/
def skipDirective (p : Position) : List Char → Except Position Cursor
  | '\\' :: '\n' :: rest => skipDirective ((p.next '\\').next '\n') rest
  | c :: rest => if c = '\n' then skip (p.next c) rest else skipDirective (p.next c) rest
  | [] => .ok ⟨[], p⟩

end

/-- A token with the number of characters it takes, or a cause with the distance of the place to
report. -/
abbrev Reading (α : Type) := Except (LexError.Cause × Nat) (α × Nat)

def escape? (c : Char) : Option Char :=
  match c with
  | 'n' => some '\n'
  | 't' => some '\t'
  | 'r' => some '\r'
  | '\\' => some '\\'
  | '\'' => some '\''
  | '"' => some '"'
  | '0' => some '\x00'
  | _ => none

/-- The contents of a string literal, from `n` characters behind its opening quote on. -/
def stringBody (n : Nat) : List Char → Reading (List Char)
  | '"' :: _ => .ok ([], n + 1)
  | '\\' :: c :: rest =>
    match escape? c with
    | none => .error (.unknownEscape c, n + 1)
    | some e => (stringBody (n + 2) rest).map fun (cs, k) => (e :: cs, k)
  | ['\\'] => .error (.endInside "string literal", n + 1)
  | c :: rest =>
    if c = '\n' then .error (.unclosedString, 0)
    else (stringBody (n + 1) rest).map fun (cs, k) => (c :: cs, k)
  | [] => .error (.unclosedString, 0)

def closeChar (n : Nat) (c : Char) (rest : List Char) : Reading Token :=
  if 0x80 ≤ c.toNat then .error (.notAscii c, 0)
  else match rest with
    | '\'' :: _ => .ok (.char (Int8.ofNat c.toNat), n + 1)
    | _ => .error (.unclosedChar, 0)

def charLiteral : List Char → Reading Token
  | [] => .error (.endInside "character literal", 0)
  | ['\\'] => .error (.endInside "character literal", 2)
  | '\\' :: c :: rest =>
    match escape? c with
    | none => .error (.unknownEscape c, 2)
    | some e => closeChar 3 e rest
  | c :: rest => if c = '\'' then .error (.emptyChar, 0) else closeChar 2 c rest

def wrapInt (n : Nat) : Int := if n < 2147483648 then n else n - 4294967296

def hexLiteral (cs : List Char) : Reading Token :=
  let digits := cs.takeWhile Decimal.isHexDigit
  let n := Decimal.digitsValue 16 digits
  if digits.isEmpty || UInt32.size ≤ n then .error (.badHex digits, 0)
  else .ok (.int (wrapInt n), digits.length + 2)

/-- The largest magnitude of an integer literal: one past the largest `int`, so that the least
`int` can be written with a minus sign. -/
def maxMagnitude : Nat := 2147483648

/-- A decimal number. A floating one may end in the letter `f`. -/
def decimalLiteral (cs : List Char) : Reading Token :=
  let (numeral, rest) := Decimal.Numeral.read cs
  let length := cs.length - rest.length
  if numeral.isFloating then
    let suffix := match rest with
      | c :: _ => if c = 'f' ∨ c = 'F' then 1 else 0
      | [] => 0
    .ok (.float (numeral.toFloat false), length + suffix)
  else
    let n := Decimal.digitsValue 10 numeral.whole
    if n ≤ maxMagnitude then .ok (.int n, length) else .error (.outOfRange numeral.whole, 0)

def isNameStart (c : Char) : Bool := ('a' ≤ c && c ≤ 'z') || ('A' ≤ c && c ≤ 'Z') || c = '_'

def isNamePart (c : Char) : Bool := isNameStart c || Decimal.isDigit c

def wordToken (s : String) : Token :=
  match Keyword.ofSpelling? s with
  | some k => .keyword k
  | none => match Reserved.ofSpelling? s with
    | some r => .reserved r
    | none => .ident s

def lexeme (cs : List Char) : Reading Token :=
  match cs with
  | [] => .ok (.eof, 0)
  | '"' :: rest => (stringBody 1 rest).map fun (s, k) => (.string (String.ofList s), k)
  | '\'' :: rest => charLiteral rest
  | '0' :: 'x' :: rest => hexLiteral rest
  | '0' :: 'X' :: rest => hexLiteral rest
  | c :: rest =>
    if Decimal.isDigit c || (c = '.' && (rest.head?.any Decimal.isDigit)) then decimalLiteral cs
    else if isNameStart c then
      let word := cs.takeWhile isNamePart
      .ok (wordToken (String.ofList word), word.length)
    else match Symbol.longest? cs with
      | some s => .ok (.symbol s, s.spelling.length)
      | none => .error (.unexpectedCharacter c, 0)

/-- The tokens from a cursor on, the end of the text last. Every token takes at least one
character, so as many rounds suffice as there are characters. -/
def tokensFrom : Nat → Cursor → Except LexError (List Lexeme)
  | 0, cursor => .ok [⟨.eof, cursor.pos⟩]
  | rounds + 1, cursor =>
    match skip cursor.pos cursor.rest with
    | .error opened => .error ⟨.unclosedComment, opened⟩
    | .ok here =>
      if here.rest.isEmpty then .ok [⟨.eof, here.pos⟩]
      else match lexeme here.rest with
        | .error (cause, distance) => .error ⟨cause, (here.drop distance).pos⟩
        | .ok (token, length) =>
          (tokensFrom rounds (here.drop length)).map (⟨token, here.pos⟩ :: ·)

end Lexer

def tokenize (source : String) : Except LexError (List Lexeme) :=
  let cs := source.toList
  Lexer.tokensFrom (cs.length + 1) ⟨cs, .start⟩

end Stepwise
