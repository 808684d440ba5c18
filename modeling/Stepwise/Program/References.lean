import Stepwise.Program.Error

/-! Whether the names of a program fit together. Structs and functions are defined once, a `main`
without parameters exists, every struct that is mentioned is defined, and every call has a defined
function and the right number of arguments. -/

namespace Stepwise

/-- A use of a name that some definition must answer. -/
inductive Mention where
  | struct (name : String) (pos : Position)
  | call (name : String) (arguments : Nat) (pos : Position)
deriving DecidableEq, Repr

def CType.mentions (t : CType) (pos : Position) : List Mention :=
  match t.structName? with
  | some name => [.struct name pos]
  | none => []

mutual

/-- The mentions in an expression, outer ones first. -/
def Expr.mentions : Expr → List Mention
  | .int .. | .float .. | .char .. | .null _ | .var .. => []
  | .binary _ left right _ => left.mentions ++ right.mentions
  | .unary _ e _ | .step _ e _ | .addressOf e _ | .deref e _ | .field e _ _ _
  | .sizeofExpr e _ => e.mentions
  | .call name args pos => .call name args.length pos :: mentionsAll args
  | .index array index _ => array.mentions ++ index.mentions
  | .cast type e pos => type.mentions pos ++ e.mentions
  | .sizeofType type pos => type.mentions pos
  | .newNode struct pos => [.struct struct pos]
  | .print _ args _ => mentionsAll args
  | .read _ targets _ => mentionsAll targets

def mentionsAll : List Expr → List Mention
  | [] => []
  | e :: rest => e.mentions ++ mentionsAll rest

end

def Decl.mentions : Decl → List Mention
  | .scalar _ type init pos => type.mentions pos ++ (init.map (·.mentions)).getD []
  | .array _ elem _ init pos => elem.mentions pos ++ (init.map mentionsAll).getD []

def Simple.mentions : Simple → List Mention
  | .declare d => d.mentions
  | .assign target _ value _ => target.mentions ++ value.mentions
  | .effect e _ => e.mentions

mutual

def Stmt.mentions : Stmt → List Mention
  | .simple s => s.mentions
  | .block body _ => mentionsOf body
  | .branch cond yes none _ => cond.mentions ++ mentionsOf yes
  | .branch cond yes (some no) _ => cond.mentions ++ mentionsOf yes ++ mentionsOf no
  | .whileLoop cond body _ => cond.mentions ++ mentionsOf body
  | .forLoop init cond update body _ =>
    (init.map (·.mentions)).getD [] ++ (cond.map (·.mentions)).getD [] ++
      (update.map (·.mentions)).getD [] ++ mentionsOf body
  | .leave value _ => (value.map (·.mentions)).getD []
  | .breakLoop _ | .continueLoop _ => []

def mentionsOf : List Stmt → List Mention
  | [] => []
  | s :: rest => s.mentions ++ mentionsOf rest

end

def Item.mentions : Item → List Mention
  | .function f =>
    f.returns.mentions f.pos ++ f.params.flatMap (·.type.mentions f.pos) ++ mentionsOf f.body
  | .struct s => s.fields.flatMap (·.type.mentions s.pos)
  | .global d => d.mentions

namespace Program

def builtins : List String := ["printf", "scanf", "malloc", "free"]

def checkDefinitions (structs functions : List String) : Program → Except ParseError Unit
  | [] => .ok ()
  | .struct s :: rest =>
    if s.name ∈ structs then .error ⟨.structTwice s.name, s.pos⟩
    else checkDefinitions (s.name :: structs) functions rest
  | .function f :: rest =>
    if f.name ∈ builtins then .error ⟨.builtinRedefined f.name, f.pos⟩
    else if f.name ∈ functions then .error ⟨.functionTwice f.name, f.pos⟩
    else checkDefinitions structs (f.name :: functions) rest
  | .global _ :: rest => checkDefinitions structs functions rest

def checkMain (p : Program) : Except ParseError Unit :=
  match p.function? "main" with
  | none => .error ⟨.noMain, .start⟩
  | some f => if f.params.isEmpty then .ok () else .error (.unsupported .mainParameters f.pos)

def arity? (p : Program) (name : String) : Option Nat :=
  if name = "free" then some 1 else (p.function? name).map (·.params.length)

def checkMention (p : Program) : Mention → Except ParseError Unit
  | .struct name pos =>
    if p.structs.any (·.name == name) then .ok () else .error ⟨.unknownStruct name, pos⟩
  | .call name given pos =>
    match p.arity? name with
    | none => .error ⟨.unknownFunction name, pos⟩
    | some wanted =>
      if wanted = given then .ok () else .error ⟨.arity name wanted given, pos⟩

/-- Checks all references of a program; the first that does not fit is reported. -/
def checkReferences (p : Program) : Except ParseError Unit := do
  p.checkDefinitions [] []
  p.checkMain
  (p.flatMap Item.mentions).forM p.checkMention

end Program

end Stepwise
