import Stepwise.KeyMap
import Stepwise.Memory.Environment

/-! Steps: pictures of a whole program state, made of texts and values only. -/

namespace Stepwise

structure VariableView where
  type : String
  value : Value
  address : Address
  scope : Scope
deriving DecidableEq, Repr, Inhabited

structure ElementView where
  index : Nat
  value : Value
  address : Address
deriving DecidableEq, Repr, Inhabited

structure ArrayView where
  elemType : String
  address : Address
  scope : Scope
  elements : List ElementView
deriving DecidableEq, Repr, Inhabited

/-- A pointer variable: its own address, the one it holds, and the text of what lies there. -/
structure PointerView where
  type : String
  address : Address
  target : Address
  preview : Option String
deriving DecidableEq, Repr, Inhabited

structure FieldView where
  name : String
  type : String
  value : Value
deriving DecidableEq, Repr, Inhabited

/-- A heap node; its links are the fields that point to something. -/
structure NodeView where
  struct : String
  fields : List FieldView
  links : KeyMap String Address
deriving BEq, Inhabited

structure Step where
  ordinal : Nat
  line : Nat
  /-- The text of the line, without the blanks around it. -/
  code : String
  description : String
  scalars : KeyMap String VariableView
  arrays : KeyMap String ArrayView
  pointers : KeyMap String PointerView
  heapNodes : KeyMap Address NodeView
  /-- Everything printed so far. -/
  console : String
  /-- The calls under way, the outermost first. -/
  callStack : List Call
  /-- The value that a function hands back at this step. -/
  returnValue : Option Value
deriving BEq, Inhabited

namespace Step

def variableSize (e : String × VariableView) : Nat :=
  64 + e.1.utf8ByteSize + e.2.type.utf8ByteSize

def arraySize (e : String × ArrayView) : Nat :=
  64 + e.1.utf8ByteSize + e.2.elements.length * 32

def pointerSize (e : String × PointerView) : Nat :=
  80 + e.1.utf8ByteSize + e.2.type.utf8ByteSize + (e.2.preview.map (·.utf8ByteSize)).getD 0

def nodeSize (e : Address × NodeView) : Nat :=
  64 + e.2.struct.utf8ByteSize + e.2.fields.length * 64 + e.2.links.entries.length * 48

def callSize (c : Call) : Nat := 40 + c.function.utf8ByteSize

def total {α : Type} (size : α → Nat) (items : List α) : Nat :=
  items.foldr (fun x bytes => size x + bytes) 0

/-- The bytes that a step is taken to need, its console apart. -/
def size (s : Step) : Nat :=
  216 + s.code.utf8ByteSize + s.description.utf8ByteSize +
    total variableSize s.scalars.entries + total arraySize s.arrays.entries +
    total pointerSize s.pointers.entries + total nodeSize s.heapNodes.entries +
    total callSize s.callStack

end Step

end Stepwise
