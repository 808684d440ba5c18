import Stepwise.Run
import Stepwise.Trace.Encoding

/-! The command: it traces the program in a file and writes the trace. What it needs from its
surroundings is given to it, so the command itself is a plain function of them. -/

namespace Stepwise.Command

inductive ReadError where
  /-- The system gave a reason and its number. -/
  | system (reason : String) (code : Nat)
  /-- The bytes are no text. -/
  | notText
deriving DecidableEq, Repr

def ReadError.message : ReadError → String
  | system reason code => s!"{reason} (os error {code})"
  | notText => "stream did not contain valid UTF-8"

structure Surroundings (m : Type → Type) where
  /-- The bytes of a file. -/
  file : String → m (Except ReadError ByteArray)
  /-- All bytes of the standard input. -/
  input : m (Except ReadError ByteArray)
  /-- The text of an environment variable. -/
  lookup : String → m (Option String)

inductive Failure where
  | usage
  | unreadableFile (path : String) (reason : ReadError)
  | unreadableInput (reason : ReadError)
  /-- The run left nothing of itself. -/
  | crash
deriving DecidableEq, Repr

def Failure.message : Failure → String
  | usage => "usage: ctrace <file.c> [stdin-file|-]"
  | unreadableFile path reason => "cannot read '" ++ path ++ "': " ++ reason.message
  | unreadableInput reason => "cannot read standard input: " ++ reason.message
  | crash => Format.Error.capacityOverflow.message

def Failure.code : Failure → Nat
  | crash => 101
  | _ => 64

/-- What a command leaves behind: a code, and a text on either output. -/
structure Outcome where
  code : Nat
  out : String
  err : String
deriving DecidableEq, Repr

/-- The last line about a trace, and the code that goes with it. -/
def summary (t : Trace) : String × Nat :=
  let count := t.steps.length
  match t.status with
  | .completed => (s!"completed: {count} steps", 0)
  | .parseError line column message =>
    (s!"parse error at line {line}, column {column}: {message}", 1)
  | .runtimeError _ message stepIndex _ _ => (s!"runtime error at step {stepIndex}: {message}", 2)
  | .limitExceeded kind message =>
    ("limit exceeded (" ++ kind.name ++ s!") after {count} steps: {message}", 3)

def Outcome.ofTrace (t : Trace) : Outcome :=
  let (line, code) := summary t
  ⟨code, t.prettyText ++ "\n", line ++ "\n"⟩

def Outcome.ofFailure (f : Failure) : Outcome := ⟨f.code, "", "error: " ++ f.message ++ "\n"⟩

def decode (bytes : ByteArray) : Except ReadError String :=
  match String.fromUTF8? bytes with
  | some text => .ok text
  | none => .error .notText

section

variable {m : Type → Type} [Monad m]

def readFile (world : Surroundings m) (path : String) : ExceptT Failure m String := do
  let bytes ← world.file path
  match bytes.bind decode with
  | .ok text => return text
  | .error e => throw (.unreadableFile path e)

/-- The input of the program: none, the standard input, or the text of a file. -/
def readInput (world : Surroundings m) : Option String → ExceptT Failure m String
  | none => return ""
  | some "-" => do
    let bytes ← world.input
    match bytes.bind decode with
    | .ok text => return text
    | .error e => throw (.unreadableInput e)
  | some path => readFile world path

def readLimits (world : Surroundings m) : m Limits := do
  let texts ← Limits.variableNames.mapM fun name => do return (name, ← world.lookup name)
  return .ofVariables fun name => (texts.lookup name).join

def traceFor (world : Surroundings m) (args : List String) : ExceptT Failure m Trace := do
  let (path, inputPath) ← match args with
    | [path] => pure (path, none)
    | [path, inputPath] => pure (path, some inputPath)
    | _ => throw .usage
  let source ← readFile world path
  let input ← readInput world inputPath
  let limits ← (readLimits world : m Limits)
  match reportSource? source input limits false with
  | some t => return t
  | none => throw .crash

def run (world : Surroundings m) (args : List String) : m Outcome := do
  match ← (traceFor world args).run with
  | .ok t => return .ofTrace t
  | .error f => return .ofFailure f

end

end Stepwise.Command
