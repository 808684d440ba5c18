import Stepwise.Json.Token

/-! Reading a JSON text. The reader goes through the tokens once and keeps a stack of the arrays and
objects that are still open, so values may nest to any depth. -/

namespace Stepwise.Json

/-- An array or object that is still open, with what it holds so far, the last first. An object
also has the key whose value is being read. -/
inductive Open where
  | arr (items : List Json)
  | obj (fields : List (List Char × Json)) (key : List Char)
deriving Repr, Inhabited

inductive Expect where
  | value
  /-- The first item of an array, or its end. -/
  | itemOrEnd
  /-- The first key of an object, or its end. -/
  | keyOrEnd
  | key
  | colon
  /-- A comma or the end of what is open. -/
  | commaOrEnd
  /-- The text is complete. -/
  | done (j : Json)
deriving Repr, Inhabited

structure Progress where
  stack : List Open
  expect : Expect
deriving Repr, Inhabited

def Progress.complete (j : Json) : List Open → Progress
  | [] => ⟨[], .done j⟩
  | .arr items :: rest => ⟨.arr (j :: items) :: rest, .commaOrEnd⟩
  | .obj fields key :: rest => ⟨.obj ((key, j) :: fields) key :: rest, .commaOrEnd⟩

def Progress.begin (stack : List Open) : Token → Option Progress
  | .null => some (.complete .null stack)
  | .bool b => some (.complete (.bool b) stack)
  | .num lexeme => some (.complete (.num lexeme) stack)
  | .str raw => some (.complete (.str raw) stack)
  | .openBracket => some ⟨.arr [] :: stack, .itemOrEnd⟩
  | .openBrace => some ⟨.obj [] [] :: stack, .keyOrEnd⟩
  | _ => none

def Progress.step (p : Progress) (t : Token) : Option Progress :=
  match p.expect, t, p.stack with
  | .value, t, stack => Progress.begin stack t
  | .itemOrEnd, .closeBracket, .arr items :: rest => some (.complete (.arr items.reverse) rest)
  | .itemOrEnd, t, stack => Progress.begin stack t
  | .keyOrEnd, .closeBrace, .obj fields _ :: rest =>
    some (.complete (.obj fields.reverse) rest)
  | .keyOrEnd, .str key, .obj fields _ :: rest => some ⟨.obj fields key :: rest, .colon⟩
  | .key, .str key, .obj fields _ :: rest => some ⟨.obj fields key :: rest, .colon⟩
  | .colon, .colon, stack => some ⟨stack, .value⟩
  | .commaOrEnd, .comma, .arr items :: rest => some ⟨.arr items :: rest, .value⟩
  | .commaOrEnd, .comma, .obj fields key :: rest => some ⟨.obj fields key :: rest, .key⟩
  | .commaOrEnd, .closeBracket, .arr items :: rest => some (.complete (.arr items.reverse) rest)
  | .commaOrEnd, .closeBrace, .obj fields _ :: rest => some (.complete (.obj fields.reverse) rest)
  | _, _, _ => none

def Progress.run (p : Progress) : List Token → Option Progress
  | [] => some p
  | t :: ts =>
    match p.step t with
    | some next => next.run ts
    | none => none

def ofText? (text : String) : Option Json :=
  match (tokens text.toList).bind (Progress.run ⟨[], .value⟩) with
  | some ⟨_, .done j⟩ => some j
  | _ => none

end Stepwise.Json
