import Stepwise.Format.Input
import Stepwise.Format.Output
import Stepwise.Run.Place

/-! What a program does besides computing: formatted output and input, and heap nodes. -/

namespace Stepwise

def Format.Error.cause : Format.Error → Fault.Cause
  | missingArgument c => .internal (.badFormat (missingArgument c).message)
  | capacityOverflow => .capacityOverflow
  | e => .badFormat e.message

def Run.ofFormat {α : Type} (pos : Position) : Except Format.Error α → Run α
  | .ok a => pure a
  | .error e => Run.fail e.cause pos

def printFormatted (format : String) (values : List Value) (pos : Position) : Run String := do
  let text ← Run.ofFormat pos (Format.output format values)
  Run.print text
  return text

def Format.Conversion.fits (c : Format.Conversion) (t : CType) : Bool :=
  !t.isPointer && match c with
    | .int | .unsigned | .hex | .char => t.base == .int || t.base == .char
    | .float | .exp => t.isFloating
    | .pointer => false

def checkTargets (pos : Position) : List Format.Conversion → List Place → Run Unit
  | c :: cs, p :: ps =>
    if p.arrayLen.isSome ∨ !c.fits p.type then
      Run.fail (.typeMismatch ("target for " ++ c.name ++ " input") p.type.text) pos
    else checkTargets pos cs ps
  | _, _ => pure ()

def storeAll (pos : Position) : List Value → List Place → List Expr → Run (List (String × Value))
  | v :: vs, p :: ps, target :: targets => do
    let stored ← p.write v pos
    let more ← storeAll pos vs ps targets
    return (target.render, stored) :: more
  | _, _, _ => pure []

structure Reading where
  result : Int32
  bound : List (String × Value)

/-- Reads input by a template into places. The places were all found before anything is read, and
all of it is read before anything is stored. -/
def readFormatted (format : String) (targets : List Expr) (places : List Place) (pos : Position) :
    Run Reading := do
  let (scan, rest) := Format.scan format (← get).input
  modify fun m => { m with input := rest }
  let scan ← Run.ofFormat pos scan
  let conversions := scan.conversions.length
  let given := places.length
  if conversions ≠ given then
    Run.fail (.badFormat s!"format has {conversions} conversion(s) but {given} target(s) given") pos
  checkTargets pos scan.conversions places
  let bound ← storeAll pos scan.values places targets
  return ⟨scan.result, bound⟩

def newNode (s : Setting) (struct : String) (pos : Position) : Run Value :=
  match s.structs.find? struct with
  | none => Run.fail (.internal (.typeMismatch "defined struct" ("struct " ++ struct))) pos
  | some d => do
    let env ← Run.environment
    let (a, memory) := env.memory.allocateNode struct (d.fields.map (·.type))
    Run.changeEnvironment fun env => { env with memory }
    return .address a

/-- Ends the heap node that a pointer points at; the pointer to nothing is let be. -/
def freeNode (args : List Value) (pos : Position) : Run Value :=
  match args with
  | [.address a] =>
    if a = 0 then pure .undefined
    else do
      let env ← Run.environment
      match (env.memory.allocation? a).filter (·.struct?.isSome) with
      | none => Run.fail (.badFree a) pos
      | some al =>
        if al.live then
          Run.changeEnvironment fun env => { env with memory := env.memory.retire a }
          return .undefined
        else Run.fail (.dangling a) pos
  | [v] => Run.fail (.typeMismatch "pointer" v.shape) pos
  | _ => Run.fail (.internal (.typeMismatch "1 argument to free" (toString args.length))) pos

end Stepwise
