import Stepwise.Source.Position

/-! Programs of the subset: types, expressions, statements and the declarations around them. Every
node carries the position that messages about it name. -/

namespace Stepwise

inductive Base where
  | int
  | char
  | float
  | double
  | void
  | struct (name : String)
deriving DecidableEq, Repr, Inhabited

def Base.text : Base → String
  | .int => "int"
  | .char => "char"
  | .float => "float"
  | .double => "double"
  | .void => "void"
  | .struct name => "struct " ++ name

/-- A base type behind `depth` pointers. -/
structure CType where
  base : Base
  depth : Nat
deriving DecidableEq, Repr, Inhabited

namespace CType

def int : CType := ⟨.int, 0⟩

def double : CType := ⟨.double, 0⟩

def isPointer (t : CType) : Bool := 0 < t.depth

def isFloating (t : CType) : Bool :=
  t.depth == 0 && match t.base with
    | .float | .double => true
    | _ => false

/-- The struct that the type is or points to. -/
def structName? (t : CType) : Option String :=
  match t.base with
  | .struct name => some name
  | _ => none

def isStruct (t : CType) : Bool := t.structName?.isSome && !t.isPointer

def pointerTo (t : CType) : CType := ⟨t.base, t.depth + 1⟩

/-- The type behind a pointer; a type that is none stays. -/
def pointee (t : CType) : CType := ⟨t.base, t.depth - 1⟩

def text (t : CType) : String := t.base.text ++ String.ofList (List.replicate t.depth '*')

end CType

inductive Arith where
  | add | sub | mul | div | mod
deriving DecidableEq, Repr

inductive Comparison where
  | eq | ne | lt | le | gt | ge
deriving DecidableEq, Repr

inductive Connective where
  | and | or
deriving DecidableEq, Repr

inductive BinOp where
  | arith (op : Arith)
  | compare (op : Comparison)
  | connect (op : Connective)
deriving DecidableEq, Repr

def Arith.text : Arith → String
  | add => "+"
  | sub => "-"
  | mul => "*"
  | div => "/"
  | mod => "%"

def Comparison.text : Comparison → String
  | eq => "=="
  | ne => "!="
  | lt => "<"
  | le => "<="
  | gt => ">"
  | ge => ">="

def Connective.text : Connective → String
  | and => "&&"
  | or => "||"

def BinOp.text : BinOp → String
  | arith op => op.text
  | compare op => op.text
  | connect op => op.text

inductive UnOp where
  | neg | not
deriving DecidableEq, Repr

/-- Operators that change a place by one; they give its value before (`post`) or after (`pre`). -/
inductive StepOp where
  | preInc | preDec | postInc | postDec
deriving DecidableEq, Repr

inductive Expr where
  | int (n : Int32) (pos : Position)
  | float (x : Float) (pos : Position)
  | char (c : Int8) (pos : Position)
  | null (pos : Position)
  | var (name : String) (pos : Position)
  | binary (op : BinOp) (left right : Expr) (pos : Position)
  | unary (op : UnOp) (operand : Expr) (pos : Position)
  | step (op : StepOp) (operand : Expr) (pos : Position)
  | addressOf (operand : Expr) (pos : Position)
  | deref (operand : Expr) (pos : Position)
  | call (name : String) (args : List Expr) (pos : Position)
  | index (array index : Expr) (pos : Position)
  /-- A field of a struct, or of the struct behind a pointer when `arrow` holds. -/
  | field (object : Expr) (name : String) (arrow : Bool) (pos : Position)
  | cast (type : CType) (operand : Expr) (pos : Position)
  | sizeofType (type : CType) (pos : Position)
  | sizeofExpr (operand : Expr) (pos : Position)
  /-- A fresh heap node of a struct. -/
  | newNode (struct : String) (pos : Position)
  | print (format : String) (args : List Expr) (pos : Position)
  /-- Formatted input; the targets are the places read into. -/
  | read (format : String) (targets : List Expr) (pos : Position)
deriving BEq, Repr, Inhabited

def Expr.pos : Expr → Position
  | int _ p | float _ p | char _ p | null p | var _ p | binary _ _ _ p | unary _ _ p | step _ _ p
  | addressOf _ p | deref _ p | call _ _ p | index _ _ p | field _ _ _ p | cast _ _ p
  | sizeofType _ p | sizeofExpr _ p | newNode _ p | print _ _ p | read _ _ p => p

def Expr.isPlace : Expr → Bool
  | var .. | index .. | deref .. | field .. => true
  | _ => false

inductive Decl where
  | scalar (name : String) (type : CType) (init : Option Expr) (pos : Position)
  | array (name : String) (elem : CType) (size : Nat) (init : Option (List Expr)) (pos : Position)
deriving BEq, Repr, Inhabited

def Decl.pos : Decl → Position
  | scalar _ _ _ p | array _ _ _ _ p => p

/-- The statements without statements inside. -/
inductive Simple where
  | declare (d : Decl)
  /-- `target = value`, or `target op= value`. -/
  | assign (target : Expr) (op : Option Arith) (value : Expr) (pos : Position)
  /-- An expression evaluated for what it does. -/
  | effect (e : Expr) (pos : Position)
deriving BEq, Repr, Inhabited

def Simple.pos : Simple → Position
  | declare d => d.pos
  | assign _ _ _ p | effect _ p => p

inductive Stmt where
  | simple (s : Simple)
  | block (body : List Stmt) (pos : Position)
  | branch (cond : Expr) (yes : List Stmt) (no : Option (List Stmt)) (pos : Position)
  | whileLoop (cond : Expr) (body : List Stmt) (pos : Position)
  | forLoop (init : Option Simple) (cond : Option Expr) (update : Option Simple)
      (body : List Stmt) (pos : Position)
  | leave (value : Option Expr) (pos : Position)
  | breakLoop (pos : Position)
  | continueLoop (pos : Position)
deriving BEq, Repr, Inhabited

def Stmt.pos : Stmt → Position
  | simple s => s.pos
  | block _ p | branch _ _ _ p | whileLoop _ _ p | forLoop _ _ _ _ p | leave _ p | breakLoop p
  | continueLoop p => p

/-- A name with a type: a parameter of a function or a field of a struct. -/
structure Member where
  name : String
  type : CType
deriving DecidableEq, Repr, Inhabited

structure StructDef where
  name : String
  fields : List Member
  pos : Position
deriving DecidableEq, Repr, Inhabited

def StructDef.fieldIndex? (s : StructDef) (name : String) : Option Nat :=
  s.fields.findIdx? (·.name == name)

/-- A function; `pos` is its name and `endPos` its closing brace. -/
structure Function where
  name : String
  params : List Member
  returns : CType
  body : List Stmt
  pos : Position
  endPos : Position
deriving BEq, Repr, Inhabited

inductive Item where
  | function (f : Function)
  | struct (s : StructDef)
  | global (d : Decl)
deriving BEq, Repr, Inhabited

abbrev Program := List Item

namespace Program

def functions (p : Program) : List Function :=
  p.filterMap fun
    | .function f => some f
    | _ => none

def structs (p : Program) : List StructDef :=
  p.filterMap fun
    | .struct s => some s
    | _ => none

def globals (p : Program) : List Decl :=
  p.filterMap fun
    | .global d => some d
    | _ => none

/-- The first function of a name. -/
def function? (p : Program) (name : String) : Option Function :=
  p.functions.find? (·.name == name)

end Program

end Stepwise
