import Stepwise.Command

/-! The command line. -/

namespace Stepwise.Command

def systemReason : IO.Error → String × UInt32
  | .alreadyExists _ code details | .otherError code details | .resourceBusy code details
  | .resourceVanished code details | .unsupportedOperation code details
  | .hardwareFault code details | .unsatisfiedConstraints code details
  | .illegalOperation code details | .protocolError code details | .timeExpired code details
  | .interrupted _ code details | .noFileOrDirectory _ code details
  | .invalidArgument _ code details | .permissionDenied _ code details
  | .resourceExhausted _ code details | .inappropriateType _ code details
  | .noSuchThing _ code details => (details, code)
  | .unexpectedEof => ("unexpected end of file", 0)
  | .userError details => (details, 0)

def reading (action : IO ByteArray) : IO (Except ReadError ByteArray) := do
  try return .ok (← action)
  catch e =>
    let (reason, code) := systemReason e
    return .error (.system reason code.toNat)

def surroundings : Surroundings IO where
  file path := reading (IO.FS.readBinFile path)
  input := reading do (← IO.getStdin).readBinToEnd
  lookup name := IO.getEnv name

end Stepwise.Command

def main (args : List String) : IO UInt32 := do
  let outcome ← Stepwise.Command.run Stepwise.Command.surroundings args
  (← IO.getStdout).putStr outcome.out
  (← IO.getStderr).putStr outcome.err
  return UInt32.ofNat outcome.code
