import Stepwise.Program.Basic

/-! The expressions in a program, and the positions where it records steps. -/

namespace Stepwise

mutual

def Expr.parts : Expr → List Expr
  | .int n p => [.int n p]
  | .float x p => [.float x p]
  | .char c p => [.char c p]
  | .null p => [.null p]
  | .var name p => [.var name p]
  | .binary op left right p => .binary op left right p :: (left.parts ++ right.parts)
  | .unary op e p => .unary op e p :: e.parts
  | .step op e p => .step op e p :: e.parts
  | .addressOf e p => .addressOf e p :: e.parts
  | .deref e p => .deref e p :: e.parts
  | .call name args p => .call name args p :: partsAll args
  | .index array index p => .index array index p :: (array.parts ++ index.parts)
  | .field e name arrow p => .field e name arrow p :: e.parts
  | .cast type e p => .cast type e p :: e.parts
  | .sizeofType type p => [.sizeofType type p]
  | .sizeofExpr e p => .sizeofExpr e p :: e.parts
  | .newNode struct p => [.newNode struct p]
  | .print format args p => .print format args p :: partsAll args
  | .read format targets p => .read format targets p :: partsAll targets

def partsAll : List Expr → List Expr
  | [] => []
  | e :: rest => e.parts ++ partsAll rest

end

theorem Expr.self_mem_parts (e : Expr) : e ∈ e.parts := by
  cases e <;> exact List.mem_cons_self

def Decl.parts : Decl → List Expr
  | .scalar _ _ init _ => (init.map Expr.parts).getD []
  | .array _ _ _ init _ => (init.map partsAll).getD []

def Simple.parts : Simple → List Expr
  | .declare d => d.parts
  | .assign target _ value _ => target.parts ++ value.parts
  | .effect e _ => e.parts

mutual

def Stmt.parts : Stmt → List Expr
  | .simple c => c.parts
  | .block body _ => partsOf body
  | .branch cond yes none _ => cond.parts ++ partsOf yes
  | .branch cond yes (some no) _ => cond.parts ++ partsOf yes ++ partsOf no
  | .whileLoop cond body _ => cond.parts ++ partsOf body
  | .forLoop init cond update body _ =>
    (init.map Simple.parts).getD [] ++ (cond.map Expr.parts).getD [] ++
      (update.map Simple.parts).getD [] ++ partsOf body
  | .leave value _ => (value.map Expr.parts).getD []
  | .breakLoop _ | .continueLoop _ => []

def partsOf : List Stmt → List Expr
  | [] => []
  | s :: rest => s.parts ++ partsOf rest

end

mutual

/-- Where the steps of a statement are recorded. -/
def Stmt.sites : Stmt → List Position
  | .simple c => [c.pos]
  | .block body _ => sitesOf body
  | .branch _ yes none p => p :: sitesOf yes
  | .branch _ yes (some no) p => p :: (sitesOf yes ++ sitesOf no)
  | .whileLoop _ body p => p :: sitesOf body
  | .forLoop init _ update body p =>
    p :: (init.toList.map Simple.pos ++ update.toList.map Simple.pos ++ sitesOf body)
  | .leave _ p | .breakLoop p | .continueLoop p => [p]

def sitesOf : List Stmt → List Position
  | [] => []
  | s :: rest => s.sites ++ sitesOf rest

end

def Item.parts : Item → List Expr
  | .function f => partsOf f.body
  | .struct _ => []
  | .global d => d.parts

/-- A function records where it begins and where it ends besides. -/
def Item.sites : Item → List Position
  | .function f => f.pos :: f.endPos :: sitesOf f.body
  | .struct _ => []
  | .global d => [d.pos]

namespace Program

def parts (p : Program) : List Expr := p.flatMap Item.parts

def sites (p : Program) : List Position := p.flatMap Item.sites

end Program

end Stepwise
