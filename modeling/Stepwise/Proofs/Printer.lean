import Stepwise.Grammar.Items

/-! A printer of whole programs. It writes one declarator to a declaration, braces around every body
and parentheses around every part of an expression that is not a single token. -/

namespace Stepwise

/-! Types -/

def Base.tokens : Base → List Token
  | .int => [.keyword .intWord]
  | .char => [.keyword .charWord]
  | .float => [.keyword .floatWord]
  | .double => [.keyword .doubleWord]
  | .void => [.keyword .voidWord]
  | .struct name => [.keyword .structWord, .ident name]

def CType.stars (t : CType) : List Token := List.replicate t.depth (.symbol .star)

def CType.tokens (t : CType) : List Token := t.base.tokens ++ t.stars

/-- A type as the grammar has them: with one star at most. -/
def CType.isPlain (t : CType) : Bool := t.depth ≤ 1

def CType.isCastable (t : CType) : Bool :=
  t.depth == 0 && match t.base with
    | .void | .struct _ => false
    | _ => true

def CType.isStorable (t : CType) : Bool := t.isPlain && (t.isPointer || t.isCastable)

theorem CType.isPlain_of_isStorable {c : CType} (h : c.isStorable = true) : c.isPlain = true :=
  (Bool.and_eq_true_iff.mp h).1

theorem CType.isStruct_of_isStorable {c : CType} (h : c.isStorable = true) :
    c.isStruct = false := by
  obtain ⟨base, depth⟩ := c
  cases base <;> simp_all [CType.isStorable, CType.isCastable, CType.isStruct, CType.isPointer,
    CType.structName?]

/-! Expressions -/

def BinOp.symbol : BinOp → Symbol
  | .arith .add => .plus
  | .arith .sub => .minus
  | .arith .mul => .star
  | .arith .div => .slash
  | .arith .mod => .percent
  | .compare .eq => .eqEq
  | .compare .ne => .bangEq
  | .compare .lt => .less
  | .compare .le => .lessEq
  | .compare .gt => .greater
  | .compare .ge => .greaterEq
  | .connect .and => .ampAmp
  | .connect .or => .pipePipe

def UnOp.symbol : UnOp → Symbol
  | .neg => .minus
  | .not => .bang

def Expr.isAtom : Expr → Bool
  | .int .. | .float .. | .char .. | .null _ | .var .. => true
  | _ => false

/-- The tokens of a part of an expression: in parentheses unless it is a single one. -/
def Expr.grouped (e : Expr) (tokens : List Token) : List Token :=
  if e.isAtom then tokens else .symbol .openParen :: (tokens ++ [.symbol .closeParen])

def following (items : List (List Token)) : List Token := items.flatMap (.symbol .comma :: ·)

def separated : List (List Token) → List Token
  | [] => []
  | first :: rest => first ++ following rest

theorem separated_singleton (ks : List Token) : separated [ks] = ks := List.append_nil ks

theorem separated_cons_cons (first second : List Token) (rest : List (List Token)) :
    separated (first :: second :: rest) = first ++ .symbol .comma :: separated (second :: rest) :=
  rfl

mutual

def Expr.tokens : Expr → List Token
  | .int n _ => [.int n.toInt]
  | .float x _ => [.float x]
  | .char c _ => [.char c]
  | .null _ => [.keyword .nullWord]
  | .var name _ => [.ident name]
  | .binary op left right _ =>
    left.grouped left.tokens ++ .symbol op.symbol :: right.grouped right.tokens
  | .unary op e _ => .symbol op.symbol :: e.grouped e.tokens
  | .step .preInc e _ => .symbol .plusPlus :: e.grouped e.tokens
  | .step .preDec e _ => .symbol .minusMinus :: e.grouped e.tokens
  | .step .postInc e _ => e.grouped e.tokens ++ [.symbol .plusPlus]
  | .step .postDec e _ => e.grouped e.tokens ++ [.symbol .minusMinus]
  | .addressOf e _ => .symbol .amp :: e.grouped e.tokens
  | .deref e _ => .symbol .star :: e.grouped e.tokens
  | .call name args _ =>
    .ident name :: .symbol .openParen :: (separated (operands args) ++ [.symbol .closeParen])
  | .index array index _ =>
    array.grouped array.tokens ++
      .symbol .openBracket :: (index.grouped index.tokens ++ [.symbol .closeBracket])
  | .field object name arrow _ =>
    object.grouped object.tokens ++ [.symbol (if arrow then .arrow else .dot), .ident name]
  | .cast type e _ =>
    .symbol .openParen :: (type.tokens ++ .symbol .closeParen :: e.grouped e.tokens)
  | .sizeofType type _ =>
    .keyword .sizeofWord :: .symbol .openParen :: (type.tokens ++ [.symbol .closeParen])
  | .sizeofExpr e _ => .keyword .sizeofWord :: e.grouped e.tokens
  | .newNode struct _ =>
    [.ident "malloc", .symbol .openParen, .keyword .sizeofWord, .symbol .openParen,
      .keyword .structWord, .ident struct, .symbol .closeParen, .symbol .closeParen]
  | .print format args _ =>
    .ident "printf" :: .symbol .openParen :: .string format ::
      (following (operands args) ++ [.symbol .closeParen])
  | .read format targets _ =>
    .ident "scanf" :: .symbol .openParen :: .string format ::
      (following ((operands targets).map (.symbol .amp :: ·)) ++ [.symbol .closeParen])

def operands : List Expr → List (List Token)
  | [] => []
  | e :: rest => e.grouped e.tokens :: operands rest

end

def Expr.operand (e : Expr) : List Token := e.grouped e.tokens

@[simp] theorem Expr.grouped_tokens (e : Expr) : e.grouped e.tokens = e.operand := rfl

theorem operands_eq_map (es : List Expr) : operands es = es.map Expr.operand := by
  induction es with
  | nil => rfl
  | cons e rest ih =>
    rw [operands, ih]
    rfl

mutual

/-- An expression that the grammar has: one star at most in types, casts to numbers only, and calls
of none of the functions with forms of their own. -/
def Expr.isProper : Expr → Bool
  | .int .. | .float .. | .char .. | .null _ | .var .. | .newNode .. => true
  | .binary _ left right _ => left.isProper && right.isProper
  | .unary _ e _ | .step _ e _ | .addressOf e _ | .deref e _ | .sizeofExpr e _ => e.isProper
  | .call name args _ =>
    name != "printf" && name != "scanf" && name != "malloc" && properAll args
  | .index array index _ => array.isProper && index.isProper
  | .field object _ _ _ => object.isProper
  | .cast type e _ => type.isCastable && e.isProper
  | .sizeofType type _ => type.isPlain
  | .print _ args _ => properAll args
  | .read _ targets _ => properAll targets

def properAll : List Expr → Bool
  | [] => true
  | e :: rest => e.isProper && properAll rest

end

theorem properAll_iff {es : List Expr} : properAll es = true ↔ ∀ e ∈ es, e.isProper = true := by
  induction es with
  | nil => simp [properAll]
  | cons e rest ih => simp [properAll, ih]

mutual

def Expr.erase : Expr → Expr
  | .int n _ => .int n .start
  | .float x _ => .float x .start
  | .char c _ => .char c .start
  | .null _ => .null .start
  | .var name _ => .var name .start
  | .binary op left right _ => .binary op left.erase right.erase .start
  | .unary op e _ => .unary op e.erase .start
  | .step op e _ => .step op e.erase .start
  | .addressOf e _ => .addressOf e.erase .start
  | .deref e _ => .deref e.erase .start
  | .call name args _ => .call name (eraseAll args) .start
  | .index array index _ => .index array.erase index.erase .start
  | .field object name arrow _ => .field object.erase name arrow .start
  | .cast type e _ => .cast type e.erase .start
  | .sizeofType type _ => .sizeofType type .start
  | .sizeofExpr e _ => .sizeofExpr e.erase .start
  | .newNode struct _ => .newNode struct .start
  | .print format args _ => .print format (eraseAll args) .start
  | .read format targets _ => .read format (eraseAll targets) .start

def eraseAll : List Expr → List Expr
  | [] => []
  | e :: rest => e.erase :: eraseAll rest

end

theorem Expr.of_erase_var {a : Expr} {name : String} {p : Position}
    (h : a.erase = (Expr.var name p).erase) : ∃ q, a = .var name q := by
  cases a <;> simp_all [erase]

theorem Expr.of_erase_addressOf {a e : Expr} {p : Position}
    (h : a.erase = (Expr.addressOf e p).erase) : ∃ b q, a = .addressOf b q := by
  cases a <;> simp_all [erase]

theorem Expr.of_erase_sizeofType {a : Expr} {type : CType} {p : Position}
    (h : a.erase = (Expr.sizeofType type p).erase) : ∃ q, a = .sizeofType type q := by
  cases a <;> simp_all [erase]

theorem Expr.isPlace_erase (e : Expr) : e.erase.isPlace = e.isPlace := by
  cases e <;> rfl

theorem eraseAll_eq_map (es : List Expr) : eraseAll es = es.map Expr.erase := by
  induction es with
  | nil => rfl
  | cons e rest ih => rw [eraseAll, ih, List.map_cons]

/-! Declarations and statements -/

def Arith.assignSymbol : Arith → Symbol
  | .add => .plusEq
  | .sub => .minusEq
  | .mul => .starEq
  | .div => .slashEq
  | .mod => .percentEq

def initTokens : Option Expr → List Token
  | none => []
  | some e => .symbol .eq :: e.tokens

def initListTokens : Option (List Expr) → List Token
  | none => []
  | some es =>
    .symbol .eq :: .symbol .openBrace :: (separated (es.map Expr.tokens) ++ [.symbol .closeBrace])

def Decl.base : Decl → Base
  | .scalar _ type _ _ => type.base
  | .array _ elem _ _ _ => elem.base

def Decl.declarator : Decl → List Token
  | .scalar name type init _ => type.stars ++ .ident name :: initTokens init
  | .array name elem size init _ =>
    elem.stars ++ .ident name :: .symbol .openBracket :: .int size :: .symbol .closeBracket ::
      initListTokens init

def Decl.tokens (d : Decl) : List Token := d.base.tokens ++ d.declarator

def Simple.tokens : Simple → List Token
  | .declare d => d.tokens
  | .assign target op value _ =>
    target.tokens ++ .symbol ((op.map Arith.assignSymbol).getD .eq) :: value.tokens
  | .effect e _ => e.tokens

def braces (ks : List Token) : List Token := .symbol .openBrace :: (ks ++ [.symbol .closeBrace])

mutual

def Stmt.tokens : Stmt → List Token
  | .simple s => s.tokens ++ [.symbol .semicolon]
  | .block body _ => braces (tokensOf body)
  | .branch cond yes none _ =>
    .keyword .ifWord :: .symbol .openParen :: (cond.tokens ++ .symbol .closeParen ::
      braces (tokensOf yes))
  | .branch cond yes (some no) _ =>
    .keyword .ifWord :: .symbol .openParen :: (cond.tokens ++ .symbol .closeParen ::
      (braces (tokensOf yes) ++ .keyword .elseWord :: braces (tokensOf no)))
  | .whileLoop cond body _ =>
    .keyword .whileWord :: .symbol .openParen :: (cond.tokens ++ .symbol .closeParen ::
      braces (tokensOf body))
  | .forLoop init cond update body _ =>
    .keyword .forWord :: .symbol .openParen ::
      ((init.map Simple.tokens).getD [] ++ .symbol .semicolon ::
      ((cond.map Expr.tokens).getD [] ++ .symbol .semicolon ::
      ((update.map Simple.tokens).getD [] ++ .symbol .closeParen :: braces (tokensOf body))))
  | .leave value _ =>
    .keyword .returnWord :: ((value.map Expr.tokens).getD [] ++ [.symbol .semicolon])
  | .breakLoop _ => [.keyword .breakWord, .symbol .semicolon]
  | .continueLoop _ => [.keyword .continueWord, .symbol .semicolon]

def tokensOf : List Stmt → List Token
  | [] => []
  | s :: rest => s.tokens ++ tokensOf rest

end

/-- A declaration of a variable that can be made, with a size that has a literal and room for the
initial values. -/
def Decl.isProper : Decl → Bool
  | .scalar _ type init _ => type.isStorable && init.all Expr.isProper
  | .array _ elem size init _ =>
    elem.isStorable && 0 < size && size ≤ 2147483647 &&
      init.all fun values => values.length ≤ size && properAll values

def Simple.isProper : Simple → Bool
  | .declare d => d.isProper
  | .assign target _ value _ => target.isPlace && target.isProper && value.isProper
  | .effect e _ => e.isProper

def Simple.isDeclaration : Simple → Bool
  | .declare _ => true
  | _ => false

mutual

/-- A statement that the grammar has: all of its parts are, and no update clause declares. -/
def Stmt.isProper : Stmt → Bool
  | .simple s => s.isProper
  | .block body _ => properBody body
  | .branch cond yes none _ => cond.isProper && properBody yes
  | .branch cond yes (some no) _ => cond.isProper && properBody yes && properBody no
  | .whileLoop cond body _ => cond.isProper && properBody body
  | .forLoop init cond update body _ =>
    init.all Simple.isProper && cond.all Expr.isProper &&
      update.all (fun s => s.isProper && !s.isDeclaration) && properBody body
  | .leave value _ => value.all Expr.isProper
  | .breakLoop _ | .continueLoop _ => true

def properBody : List Stmt → Bool
  | [] => true
  | s :: rest => s.isProper && properBody rest

end

def Decl.erase : Decl → Decl
  | .scalar name type init _ => .scalar name type (init.map Expr.erase) .start
  | .array name elem size init _ => .array name elem size (init.map eraseAll) .start

def Simple.erase : Simple → Simple
  | .declare d => .declare d.erase
  | .assign target op value _ => .assign target.erase op value.erase .start
  | .effect e _ => .effect e.erase .start

mutual

def Stmt.erase : Stmt → Stmt
  | .simple s => .simple s.erase
  | .block body _ => .block (eraseBody body) .start
  | .branch cond yes none _ => .branch cond.erase (eraseBody yes) none .start
  | .branch cond yes (some no) _ =>
    .branch cond.erase (eraseBody yes) (some (eraseBody no)) .start
  | .whileLoop cond body _ => .whileLoop cond.erase (eraseBody body) .start
  | .forLoop init cond update body _ =>
    .forLoop (init.map Simple.erase) (cond.map Expr.erase) (update.map Simple.erase)
      (eraseBody body) .start
  | .leave value _ => .leave (value.map Expr.erase) .start
  | .breakLoop _ => .breakLoop .start
  | .continueLoop _ => .continueLoop .start

def eraseBody : List Stmt → List Stmt
  | [] => []
  | s :: rest => s.erase :: eraseBody rest

end

/-! Programs -/

def Member.tokens (m : Member) : List Token := m.type.tokens ++ [.ident m.name]

def properMembers (members : List Member) : Bool :=
  members.all (·.type.isStorable) && decide (members.map (·.name)).Nodup

def Item.tokens : Item → List Token
  | .function f =>
    f.returns.tokens ++ .ident f.name :: .symbol .openParen ::
      (separated (f.params.map Member.tokens) ++ .symbol .closeParen :: braces (tokensOf f.body))
  | .struct s =>
    .keyword .structWord :: .ident s.name :: .symbol .openBrace ::
      (s.fields.flatMap (fun m => m.tokens ++ [.symbol .semicolon]) ++
      [.symbol .closeBrace, .symbol .semicolon])
  | .global d => d.tokens ++ [.symbol .semicolon]

/-- An item that the grammar has. No function returns a struct, and no struct is empty. -/
def Item.isProper : Item → Bool
  | .function f =>
    f.returns.isPlain && !f.returns.isStruct && properMembers f.params && properBody f.body
  | .struct s => !s.fields.isEmpty && properMembers s.fields
  | .global d => d.isProper

def Item.erase : Item → Item
  | .function f =>
    .function { f with body := eraseBody f.body, pos := .start, endPos := .start }
  | .struct s => .struct { s with pos := .start }
  | .global d => .global d.erase

namespace Program

def tokens (p : Program) : List Token := p.flatMap Item.tokens

def isProper (p : Program) : Bool := p.all Item.isProper

def erase (p : Program) : Program := p.map Item.erase

end Program

end Stepwise
