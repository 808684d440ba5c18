import Stepwise.KeyMap
import Stepwise.Program.Basic

/-! The structs that a program defines, by name, and the size of a type. -/

namespace Stepwise

abbrev Structs := KeyMap String StructDef

namespace Structs

/-- Of two definitions of one name the later counts. -/
def ofDefs (defs : List StructDef) : Structs := .ofList (defs.map fun d => (d.name, d))

/-- Bytes of a value of a type whose structs nest at most `depth` deep. Nothing is aligned, and an
unknown struct has none. -/
def sizeWithin (structs : Structs) (depth : Nat) (t : CType) : Nat :=
  if t.isPointer then 8
  else match t.base with
    | .int => 4
    | .char => 1
    | .float => 4
    | .double => 8
    | .void => 1
    | .struct name =>
      match depth, structs.find? name with
      | depth + 1, some d => d.fields.foldr (fun f bytes => sizeWithin structs depth f.type + bytes) 0
      | _, _ => 0

/-- Bytes of a value of a type. A struct that does not hold itself nests at most as deep as there
are structs. -/
def size (structs : Structs) (t : CType) : Nat := structs.sizeWithin structs.entries.length t

end Structs

end Stepwise
