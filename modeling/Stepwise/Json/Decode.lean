import Stepwise.Json.Basic
import Stepwise.KeyMap

/-! Reading typed data out of JSON values. Every decoder gives `none` for a value that does not
fit. -/

namespace Stepwise.Json

variable {α κ : Type}

def string? : Json → Option String
  | .str raw => (unescape? raw).map String.ofList
  | _ => none

def natLexeme? (bound : Nat) (lexeme : List Char) : Option Nat :=
  if !lexeme.isEmpty && lexeme.all Decimal.isDigit then
    (some (Decimal.digitsValue 10 lexeme)).filter (· < bound)
  else none

def nat? : Json → Option Nat
  | .num lexeme => natLexeme? UInt64.size lexeme
  | _ => none

/-- An integer with `-bound ≤ n < bound`. The text `-0` is that of a floating number. -/
def int? (bound : Nat) : Json → Option Int
  | .num ('-' :: digits) =>
    ((natLexeme? (bound + 1) digits).filter (· ≠ 0)).map fun n => -(n : Int)
  | .num lexeme => (natLexeme? bound lexeme).map Int.ofNat
  | _ => none

def lexemeFloat? (lexeme : List Char) : Option Float :=
  (Decimal.readFloat? lexeme).filter fun x =>
    match Decimal.Binary64.ofFloat x with
    | .finite .. => true
    | _ => false

def float? : Json → Option Float
  | .num lexeme => lexemeFloat? lexeme
  | _ => none

def list? (f : Json → Option α) : Json → Option (List α)
  | .arr items => items.mapM f
  | _ => none

/-- An object as a map; of two entries with one key the later counts. -/
def map? [Ord κ] [Std.TransOrd κ] [Std.LawfulEqOrd κ] (key : List Char → Option κ)
    (f : Json → Option α) : Json → Option (KeyMap κ α)
  | .obj fields => do
    let entries ← fields.mapM fun e => do return (← key e.1, ← f e.2)
    return KeyMap.ofList entries
  | _ => none

def stringKey? (raw : List Char) : Option String := (unescape? raw).map String.ofList

def plainFields? (fields : List (List Char × Json)) : Option (List (String × Json)) :=
  fields.mapM fun e => do return (← stringKey? e.1, e.2)

/-- The value of a field that may stand at most once: `none` if it stands twice. -/
def uniqueField? (fields : List (String × Json)) (name : String) : Option (Option Json) :=
  match fields.filter (·.1 == name) with
  | [] => some none
  | [e] => some (some e.2)
  | _ => none

/-- The values of the named fields of an object; other fields are passed over. -/
def namedFields? (names : List String) (fields : List (String × Json)) :
    Option (List (Option Json)) :=
  names.mapM (uniqueField? fields)

/-- The values of the named fields of a record: an object, or an array of the values in order, of
which at least `least` have to be there. -/
def record? (names : List String) (least : Nat) : Json → Option (List (Option Json))
  | .obj fields => do namedFields? names (← plainFields? fields)
  | .arr items =>
    if least ≤ items.length ∧ items.length ≤ names.length then
      some (items.map some ++ List.replicate (names.length - items.length) none)
    else none
  | _ => none

def required (f : Json → Option α) (field : Option Json) : Option α := field.bind f

def optional (f : Json → Option α) : Option Json → Option (Option α)
  | none | some .null => some none
  | some j => (f j).map some

def plainName? (table : List (String × α)) (j : Json) : Option α := do
  table.lookup (← j.string?)

/-- One of a few names: as a string, or as the key of an object that holds nothing else but null. -/
def name? (table : List (String × α)) : Json → Option α
  | .obj [(key, .null)] => do table.lookup (← stringKey? key)
  | j => plainName? table j

/-- One of a few names, as `name?` reads it; an empty object may stand in place of the null. -/
def looseName? (table : List (String × α)) : Json → Option α
  | .obj [(key, .obj [])] => do table.lookup (← stringKey? key)
  | j => name? table j

mutual

/-- Whether every part of a value can be read: strings make sense, numbers are finite, and arrays
and objects nest at most `depth` deep. -/
def isPlain (depth : Nat) : Json → Bool
  | .null | .bool _ => true
  | .num lexeme => (lexemeFloat? lexeme).isSome
  | .str raw => (unescape? raw).isSome
  | .arr items =>
    match depth with
    | 0 => false
    | depth + 1 => allPlain depth items
  | .obj fields =>
    match depth with
    | 0 => false
    | depth + 1 => allFieldsPlain depth fields

def allPlain (depth : Nat) : List Json → Bool
  | [] => true
  | j :: rest => j.isPlain depth && allPlain depth rest

def allFieldsPlain (depth : Nat) : List (List Char × Json) → Bool
  | [] => true
  | (key, j) :: rest => (unescape? key).isSome && j.isPlain depth && allFieldsPlain depth rest

end

end Stepwise.Json
