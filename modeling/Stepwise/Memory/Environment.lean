import Stepwise.Memory.Frame
import Stepwise.Memory.Table

/-! The state of a running program: memory, the call stack and the global names. -/

namespace Stepwise

inductive Scope where
  | global
  | local
deriving DecidableEq, Repr, Inhabited

/-- Memory, the frames of the calls that are under way (innermost first), and the global names. -/
structure Environment where
  memory : Memory
  frames : List Frame
  globals : Bindings
deriving Inhabited

namespace Environment

def empty : Environment := ⟨.empty, [], .empty⟩

def depth (env : Environment) : Nat := env.frames.length

def onFrame (env : Environment) (f : Frame → Frame) : Environment :=
  match env.frames with
  | [] => env
  | top :: rest => { env with frames := f top :: rest }

/-- Binds a name in the innermost block, or globally before any function is entered. -/
def declare (env : Environment) (name : String) (a : Address) : Environment :=
  match env.frames with
  | [] => { env with globals := env.globals.insert name a }
  | top :: rest => { env with frames := top.declare name a :: rest }

def locals (env : Environment) : Bindings :=
  match env.frames with
  | [] => .empty
  | top :: _ => top.bindings

def lookup? (env : Environment) (name : String) : Option (Address × Scope) :=
  match env.locals.find? name with
  | some a => some (a, .local)
  | none => (env.globals.find? name).map (·, .global)

def openBlock (env : Environment) : Environment := env.onFrame Frame.openBlock

/-- Closes the innermost block; what was declared in it ends. -/
def closeBlock (env : Environment) : Environment :=
  match env.frames with
  | [] => env
  | top :: rest =>
    let (ended, top) := top.closeBlock
    { env with memory := env.memory.retireAll ended, frames := top :: rest }

def pushFrame (env : Environment) (f : Frame) : Environment :=
  { env with frames := f :: env.frames }

def popFrame (env : Environment) : Environment :=
  match env.frames with
  | [] => env
  | top :: rest =>
    { env with memory := env.memory.retireAll top.unwind.1, frames := rest }

end Environment

end Stepwise
