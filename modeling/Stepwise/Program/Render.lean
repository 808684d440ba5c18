import Stepwise.Program.Basic
import Stepwise.Source.Token

/-! The text of an expression in descriptions. Parentheses are not reproduced. -/

namespace Stepwise

def commaSeparated (texts : List String) : String := ", ".intercalate texts

mutual

def Expr.render : Expr → String
  | .int n _ => toString n.toInt
  | .float x _ => Decimal.Layout.literal.text x
  | .char c _ => s!"'{charOfByte c}'"
  | .null _ => "NULL"
  | .var name _ => name
  | .binary op left right _ => left.render ++ " " ++ op.text ++ " " ++ right.render
  | .unary .neg e _ => "-" ++ e.render
  | .unary .not e _ => "!" ++ e.render
  | .step .preInc e _ => "++" ++ e.render
  | .step .preDec e _ => "--" ++ e.render
  | .step .postInc e _ => e.render ++ "++"
  | .step .postDec e _ => e.render ++ "--"
  | .addressOf e _ => "&" ++ e.render
  | .deref e _ => "*" ++ e.render
  | .call name args _ => name ++ "(" ++ commaSeparated (renderAll args) ++ ")"
  | .index array index _ => array.render ++ "[" ++ index.render ++ "]"
  | .field object name arrow _ => object.render ++ (if arrow then "->" else ".") ++ name
  | .cast type e _ => "(" ++ type.text ++ ")" ++ e.render
  | .sizeofType type _ => "sizeof(" ++ type.text ++ ")"
  | .sizeofExpr e _ => "sizeof(" ++ e.render ++ ")"
  | .newNode struct _ => "malloc(sizeof(struct " ++ struct ++ "))"
  | .print format _ _ => "printf(" ++ Text.quoted format ++ ")"
  | .read format _ _ => "scanf(" ++ Text.quoted format ++ ")"

def renderAll : List Expr → List String
  | [] => []
  | e :: rest => e.render :: renderAll rest

end

def renderAssign (target : Expr) (op : Option Arith) (value : Expr) : String :=
  let mark := match op with
    | some op => op.text ++ "="
    | none => "="
  target.render ++ " " ++ mark ++ " " ++ value.render

mutual

/-- Whether printing or reading stands anywhere in an expression. -/
def Expr.usesConsole : Expr → Bool
  | .print .. | .read .. => true
  | .int .. | .float .. | .char .. | .null _ | .var .. | .sizeofType .. | .newNode .. => false
  | .binary _ left right _ => left.usesConsole || right.usesConsole
  | .unary _ e _ | .step _ e _ | .addressOf e _ | .deref e _ | .field e _ _ _ | .cast _ e _
  | .sizeofExpr e _ => e.usesConsole
  | .call _ args _ => anyUsesConsole args
  | .index array index _ => array.usesConsole || index.usesConsole

def anyUsesConsole : List Expr → Bool
  | [] => false
  | e :: rest => e.usesConsole || anyUsesConsole rest

end

def Decl.usesConsole : Decl → Bool
  | .scalar _ _ init _ => init.any (·.usesConsole)
  | .array _ _ _ init _ => init.any anyUsesConsole

def Simple.usesConsole : Simple → Bool
  | .declare d => d.usesConsole
  | .assign target _ value _ => target.usesConsole || value.usesConsole
  | .effect e _ => e.usesConsole

end Stepwise
