import Stepwise.Json.Basic

/-! Writing JSON, in one line or with one item to a line. Both writers add to a text. -/

namespace Stepwise.Json

def append (out : String) (cs : List Char) : String := cs.foldl String.push out

def appendQuoted (out : String) (raw : List Char) : String := (append (out.push '"') raw).push '"'

mutual

def writeCompact (out : String) : Json → String
  | .null => out ++ "null"
  | .bool b => out ++ (if b then "true" else "false")
  | .num lexeme => append out lexeme
  | .str raw => appendQuoted out raw
  | .arr items => (writeItems (out.push '[') true items).push ']'
  | .obj fields => (writeFields (out.push '\x7b') true fields).push '\x7d'

def writeItems (out : String) (first : Bool) : List Json → String
  | [] => out
  | j :: rest => writeItems (writeCompact (if first then out else out.push ',') j) false rest

def writeFields (out : String) (first : Bool) : List (List Char × Json) → String
  | [] => out
  | (key, j) :: rest =>
    let out := appendQuoted (if first then out else out.push ',') key
    writeFields (writeCompact (out.push ':') j) false rest

end

def newline (out : String) (level : Nat) : String :=
  append (out.push '\n') (List.replicate (2 * level) ' ')

mutual

/-- Adds a value that stands inside `level` others, each item on a line of its own. -/
def writePretty (out : String) (level : Nat) : Json → String
  | .null => out ++ "null"
  | .bool b => out ++ (if b then "true" else "false")
  | .num lexeme => append out lexeme
  | .str raw => appendQuoted out raw
  | .arr [] => out ++ "[]"
  | .arr items => (newline (writeItemLines (out.push '[') (level + 1) true items) level).push ']'
  | .obj [] => out ++ "\x7b\x7d"
  | .obj fields =>
    (newline (writeFieldLines (out.push '\x7b') (level + 1) true fields) level).push '\x7d'

def writeItemLines (out : String) (level : Nat) (first : Bool) : List Json → String
  | [] => out
  | j :: rest =>
    let out := newline (if first then out else out.push ',') level
    writeItemLines (writePretty out level j) level false rest

def writeFieldLines (out : String) (level : Nat) (first : Bool) :
    List (List Char × Json) → String
  | [] => out
  | (key, j) :: rest =>
    let out := appendQuoted (newline (if first then out else out.push ',') level) key
    writeFieldLines (writePretty (out ++ ": ") level j) level false rest

end

def compact (j : Json) : String := writeCompact "" j

def pretty (j : Json) : String := writePretty "" 0 j

end Stepwise.Json
