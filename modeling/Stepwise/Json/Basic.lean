import Stepwise.Decimal.Layout
import Stepwise.Decimal.Numeral

/-! JSON values as they are written. Numbers and strings keep their spelling, and what it means is
asked for when the value is read: a string that nobody looks at need not make sense. -/

namespace Stepwise

inductive Json where
  | null
  | bool (b : Bool)
  /-- A number by its characters. -/
  | num (lexeme : List Char)
  /-- A string by the characters between its quotes. -/
  | str (raw : List Char)
  | arr (items : List Json)
  | obj (fields : List (List Char × Json))
deriving BEq, Repr, Inhabited

namespace Json

/-- A character inside a string: quote and backslash are escaped, control characters have short
escapes or numbers, and anything else stands for itself. -/
def escapeChar (c : Char) : List Char :=
  if c = '"' then ['\\', '"']
  else if c = '\\' then ['\\', '\\']
  else if c = '\n' then ['\\', 'n']
  else if c = '\r' then ['\\', 'r']
  else if c = '\t' then ['\\', 't']
  else if c.toNat = 8 then ['\\', 'b']
  else if c.toNat = 12 then ['\\', 'f']
  else if c.toNat < 32 then
    ['\\', 'u', '0', '0', Nat.digitChar (c.toNat / 16), Nat.digitChar (c.toNat % 16)]
  else [c]

def escape (cs : List Char) : List Char := cs.flatMap escapeChar

def hexValue? (ds : List Char) : Option Nat :=
  if ds.all Decimal.isHexDigit then some (Decimal.digitsValue 16 ds) else none

def shortEscape? : Char → Option Char
  | '"' => some '"'
  | '\\' => some '\\'
  | '/' => some '/'
  | 'b' => some (Char.ofNat 8)
  | 'f' => some (Char.ofNat 12)
  | 'n' => some '\n'
  | 'r' => some '\r'
  | 't' => some '\t'
  | _ => none

def isHighSurrogate (n : Nat) : Bool := 0xD800 ≤ n && n < 0xDC00

def isLowSurrogate (n : Nat) : Bool := 0xDC00 ≤ n && n < 0xE000

/-- What a string says, the first characters of it in `done` last first. A number of the first half
of a pair needs the other half behind it. -/
def unescapeFrom (done : List Char) : List Char → Option (List Char)
  | [] => some done.reverse
  | '\\' :: 'u' :: a :: b :: c :: d :: rest =>
    match hexValue? [a, b, c, d] with
    | none => none
    | some n =>
      if isLowSurrogate n then none
      else if isHighSurrogate n then
        match rest with
        | '\\' :: 'u' :: a :: b :: c :: d :: rest =>
          match hexValue? [a, b, c, d] with
          | none => none
          | some low =>
            if isLowSurrogate low then
              unescapeFrom (Char.ofNat (0x10000 + (n - 0xD800) * 0x400 + (low - 0xDC00)) :: done)
                rest
            else none
        | _ => none
      else unescapeFrom (Char.ofNat n :: done) rest
  | '\\' :: c :: rest =>
    match shortEscape? c with
    | some x => unescapeFrom (x :: done) rest
    | none => none
  | c :: rest => if c = '\\' then none else unescapeFrom (c :: done) rest

def unescape? (raw : List Char) : Option (List Char) := unescapeFrom [] raw

def ofString (s : String) : Json := .str (escape s.toList)

def ofNat (n : Nat) : Json := .num (Nat.toDigits 10 n)

def ofInt (n : Int) : Json :=
  .num ((if n < 0 then ['-'] else []) ++ Nat.toDigits 10 n.natAbs)

/-- Doubles in JSON: an exponent below `10 ^ (-5)` and from `10 ^ 16` on, always signed. -/
def doubleLayout : Decimal.Layout := ⟨fun e => -5 ≤ e && e < 16, true, true, .even⟩

/-- A double; JSON has no infinite ones. -/
def ofFloat (x : Float) : Json :=
  match Decimal.Binary64.ofFloat x with
  | .finite negative m e => .num (doubleLayout.finiteText negative m e)
  | _ => .null

def ofFields (fields : List (String × Json)) : Json :=
  .obj (fields.map fun f => (escape f.1.toList, f.2))

end Json

end Stepwise
