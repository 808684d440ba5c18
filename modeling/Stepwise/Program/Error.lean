import Stepwise.Program.Basic
import Stepwise.Source.Lexer

/-! Why a source text is no program: it cannot be cut into tokens, its tokens do not fit the
grammar, it uses a part of C that the subset leaves out, or its names do not fit together. -/

namespace Stepwise

inductive Construct where
  | word (r : Reserved)
  | conditional
  | bitwise (s : Symbol)
  | computedCall
  | strayString
  | pointerCast (t : CType)
  | castTo (t : CType)
  | scanTarget
  | otherMalloc
  | arrayField
  | structReturn
  | pointerArrayParameter
  | pointerToPointer
  | arrayOfArrays
  | computedSize
  | structVariable
  | label
  | chainedAssignment
  | severalInForHeader
  | mainParameters
deriving DecidableEq, Repr

def Construct.text : Construct → String
  | word r => s!"'{r.spelling}'"
  | conditional => "conditional operator '?:'"
  | bitwise s => "bitwise operator " ++ (Token.symbol s).describe
  | computedCall => "call through an expression"
  | strayString => "string literal outside a format string"
  | pointerCast t => "pointer cast to " ++ t.text
  | castTo t => "cast to " ++ t.text
  | scanTarget => "scanf target that is not '&lvalue'"
  | otherMalloc => "malloc other than malloc(sizeof(struct T))"
  | arrayField => "array field in struct"
  | structReturn => "struct returned by value"
  | pointerArrayParameter => "array of pointers parameter"
  | pointerToPointer => "pointer to pointer"
  | arrayOfArrays => "multi-dimensional array"
  | computedSize => "array size that is not an integer constant"
  | structVariable => "struct value variable"
  | label => "label"
  | chainedAssignment => "chained assignment"
  | severalInForHeader => "several declarations in a for initializer"
  | mainParameters => "parameters on 'main'"

inductive Expected where
  | symbol (s : Symbol) (context : String)
  | identifier
  | type
  | expression
deriving DecidableEq, Repr

def Expected.text : Expected → String
  | symbol s context => s!"'{String.ofList s.spelling}' {context}"
  | identifier => "identifier"
  | type => "type"
  | expression => "expression"

inductive ParseError.Cause where
  | lexical (cause : LexError.Cause)
  | unsupported (c : Construct)
  | expected (what : Expected) (found : Token)
  | outOfRange (n : Int)
  | needsFormat (function : String)
  | duplicateField (field struct : String)
  | noFields (struct : String)
  | duplicateParameter (name : String)
  | voidVariable
  | listForScalar (name : String)
  | tooManyItems (name : String) (size given : Nat)
  | noSize (name : String)
  | badSize
  | misplacedDeclaration
  | notAssignable
  /-- A rule was asked to go on without anything consumed. No source text leads here. -/
  | noProgress
  /-- A token was asked for behind the end of the text. No source text leads here either. -/
  | pastEnd
  | structTwice (name : String)
  | builtinRedefined (name : String)
  | functionTwice (name : String)
  | noMain
  | unknownStruct (name : String)
  | unknownFunction (name : String)
  | arity (function : String) (wanted given : Nat)
deriving DecidableEq, Repr

structure ParseError where
  cause : ParseError.Cause
  pos : Position
deriving DecidableEq, Repr

namespace ParseError

def unsupported (c : Construct) (pos : Position) : ParseError := ⟨.unsupported c, pos⟩

def ofLexError (e : LexError) : ParseError := ⟨.lexical e.cause, e.pos⟩

def Cause.message : Cause → String
  | lexical cause => LexError.message ⟨cause, .start⟩
  | unsupported c => "unsupported construct: " ++ c.text
  | expected what found => s!"Expected {what.text}, found {found.describe}"
  | outOfRange n => s!"Integer literal out of range: {n}"
  | needsFormat function => s!"{function} needs a string literal format"
  | duplicateField field struct => s!"duplicate field '{field}' in struct {struct}"
  | noFields struct => s!"struct {struct} has no fields"
  | duplicateParameter name => s!"duplicate parameter '{name}'"
  | voidVariable => "variable declared void"
  | listForScalar name => s!"initializer list for non-array '{name}'"
  | tooManyItems name size given => s!"too many initializers for '{name}[{size}]' ({given} given)"
  | noSize name => s!"array '{name}' needs a size or an initializer"
  | badSize => "array size must be a positive int"
  | misplacedDeclaration => "a declaration is not allowed here; wrap it in braces"
  | notAssignable => "invalid assignment target"
  | noProgress => "no progress"
  | pastEnd => "past the end"
  | structTwice name => s!"redefinition of struct {name}"
  | builtinRedefined name => s!"'{name}' is a built-in function and cannot be redefined"
  | functionTwice name => s!"redefinition of function '{name}'"
  | noMain => "program has no 'main' function"
  | unknownStruct name => s!"unknown struct '{name}'"
  | unknownFunction name => s!"call to undefined function '{name}'"
  | arity function wanted given => s!"'{function}' expects {wanted} argument(s) but {given} given"

def message (e : ParseError) : String := e.cause.message

def text (e : ParseError) : String := s!"parse error at {e.pos.text}: {e.message}"

end ParseError

end Stepwise
