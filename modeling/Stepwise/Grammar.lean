import Stepwise.Grammar.Items
import Stepwise.Program.References

/-! From a source text to a program whose names fit together. -/

namespace Stepwise

def Program.ofSource (source : String) : Except ParseError Program := do
  let tokens ← (tokenize source).mapError ParseError.ofLexError
  Program.ofTokens tokens

/-- The program that a source text writes, with all its references checked. -/
def Program.parse (source : String) : Except ParseError Program := do
  let p ← Program.ofSource source
  p.checkReferences
  return p

end Stepwise
