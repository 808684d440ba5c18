import Stepwise.Source.Position
import Stepwise.Decimal.Layout
import Stepwise.Text.Quoted

/-! The words of a program: literals, names, keywords, the words that C reserves and this subset
leaves out, and the operators and punctuation. -/

namespace Stepwise

inductive Keyword where
  | intWord | charWord | floatWord | doubleWord | voidWord | structWord
  | ifWord | elseWord | whileWord | forWord | breakWord | continueWord | returnWord
  | sizeofWord | nullWord
deriving DecidableEq, Repr

namespace Keyword

def all : List Keyword :=
  [.intWord, .charWord, .floatWord, .doubleWord, .voidWord, .structWord, .ifWord, .elseWord,
    .whileWord, .forWord, .breakWord, .continueWord, .returnWord, .sizeofWord, .nullWord]

def spelling : Keyword → String
  | intWord => "int"
  | charWord => "char"
  | floatWord => "float"
  | doubleWord => "double"
  | voidWord => "void"
  | structWord => "struct"
  | ifWord => "if"
  | elseWord => "else"
  | whileWord => "while"
  | forWord => "for"
  | breakWord => "break"
  | continueWord => "continue"
  | returnWord => "return"
  | sizeofWord => "sizeof"
  | nullWord => "NULL"

def ofSpelling? (s : String) : Option Keyword := all.find? (·.spelling == s)

def beginsType : Keyword → Bool
  | intWord | charWord | floatWord | doubleWord | voidWord | structWord => true
  | _ => false

end Keyword

/-- Words of C that the subset leaves out. -/
inductive Reserved where
  | switchWord | caseWord | defaultWord | doWord | gotoWord | typedefWord | unionWord | enumWord
  | constWord | unsignedWord | signedWord | longWord | shortWord | staticWord | externWord
  | registerWord | volatileWord | autoWord | inlineWord
deriving DecidableEq, Repr

namespace Reserved

def all : List Reserved :=
  [.switchWord, .caseWord, .defaultWord, .doWord, .gotoWord, .typedefWord, .unionWord, .enumWord,
    .constWord, .unsignedWord, .signedWord, .longWord, .shortWord, .staticWord, .externWord,
    .registerWord, .volatileWord, .autoWord, .inlineWord]

def spelling : Reserved → String
  | switchWord => "switch"
  | caseWord => "case"
  | defaultWord => "default"
  | doWord => "do"
  | gotoWord => "goto"
  | typedefWord => "typedef"
  | unionWord => "union"
  | enumWord => "enum"
  | constWord => "const"
  | unsignedWord => "unsigned"
  | signedWord => "signed"
  | longWord => "long"
  | shortWord => "short"
  | staticWord => "static"
  | externWord => "extern"
  | registerWord => "register"
  | volatileWord => "volatile"
  | autoWord => "auto"
  | inlineWord => "inline"

def ofSpelling? (s : String) : Option Reserved := all.find? (·.spelling == s)

end Reserved

inductive Symbol where
  | plusPlus | plusEq | minusMinus | minusEq | arrow | starEq | slashEq | percentEq
  | eqEq | bangEq | lessEq | lessLess | greaterEq | greaterGreater | ampAmp | pipePipe
  | plus | minus | star | slash | percent | eq | bang | less | greater | amp | pipe
  | caret | tilde | dot | question | colon
  | openParen | closeParen | openBrace | closeBrace | openBracket | closeBracket
  | semicolon | comma
deriving DecidableEq, Repr

namespace Symbol

/-- All symbols, the longer ones first. -/
def all : List Symbol :=
  [.plusPlus, .plusEq, .minusMinus, .minusEq, .arrow, .starEq, .slashEq, .percentEq,
    .eqEq, .bangEq, .lessEq, .lessLess, .greaterEq, .greaterGreater, .ampAmp, .pipePipe,
    .plus, .minus, .star, .slash, .percent, .eq, .bang, .less, .greater, .amp, .pipe,
    .caret, .tilde, .dot, .question, .colon,
    .openParen, .closeParen, .openBrace, .closeBrace, .openBracket, .closeBracket,
    .semicolon, .comma]

def spelling : Symbol → List Char
  | plusPlus => ['+', '+']
  | plusEq => ['+', '=']
  | minusMinus => ['-', '-']
  | minusEq => ['-', '=']
  | arrow => ['-', '>']
  | starEq => ['*', '=']
  | slashEq => ['/', '=']
  | percentEq => ['%', '=']
  | eqEq => ['=', '=']
  | bangEq => ['!', '=']
  | lessEq => ['<', '=']
  | lessLess => ['<', '<']
  | greaterEq => ['>', '=']
  | greaterGreater => ['>', '>']
  | ampAmp => ['&', '&']
  | pipePipe => ['|', '|']
  | plus => ['+']
  | minus => ['-']
  | star => ['*']
  | slash => ['/']
  | percent => ['%']
  | eq => ['=']
  | bang => ['!']
  | less => ['<']
  | greater => ['>']
  | amp => ['&']
  | pipe => ['|']
  | caret => ['^']
  | tilde => ['~']
  | dot => ['.']
  | question => ['?']
  | colon => [':']
  | openParen => ['(']
  | closeParen => [')']
  | openBrace => ['\x7b']
  | closeBrace => ['\x7d']
  | openBracket => ['[']
  | closeBracket => [']']
  | semicolon => [';']
  | comma => [',']

def longest? (cs : List Char) : Option Symbol := all.find? (·.spelling.isPrefixOf cs)

end Symbol

inductive Token where
  /-- An integer; decimal ones go one past the largest `int`, hexadecimal ones wrap. -/
  | int (n : Int)
  | float (x : Float)
  | char (c : Int8)
  | string (s : String)
  | ident (name : String)
  | keyword (k : Keyword)
  | reserved (r : Reserved)
  | symbol (s : Symbol)
  | eof
deriving DecidableEq, Repr, Inhabited

def charOfByte (c : Int8) : Char := Char.ofNat c.toUInt8.toNat

/-- Whether a `char` is shown as itself: the ASCII characters from the space to the tilde. -/
def isShown (c : Int8) : Bool := 0x20 ≤ c.toUInt8 && c.toUInt8 ≤ 0x7E

def Token.describe : Token → String
  | int n => s!"int literal {n}"
  | float x => "float literal " ++ Decimal.Layout.plain.text x
  | char c =>
    if isShown c then s!"char literal '{charOfByte c}'"
    else "char literal '\\x" ++ Text.paddedHex 2 c.toUInt8.toNat ++ "'"
  | string s => "string literal " ++ Text.quoted s
  | ident name => s!"identifier '{name}'"
  | keyword k => s!"'{k.spelling}'"
  | reserved r => s!"'{r.spelling}'"
  | symbol s => s!"'{String.ofList s.spelling}'"
  | eof => "end of file"

structure Lexeme where
  token : Token
  pos : Position
deriving DecidableEq, Repr, Inhabited

end Stepwise
