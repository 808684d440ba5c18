import Stepwise.Run

/-! Tracing against the clock. Limits only ever cut a trace short, so a run is tried with few steps
first and then with more and more of them; the clock is read between two tries. -/

namespace Stepwise.Deadline

/-- The text of a number of milliseconds, in the largest unit that leaves a whole part. -/
def durationText (ms : Nat) : String :=
  if ms = 0 then "0ns"
  else if ms < 1000 then s!"{ms}ms"
  else
    let fraction := ((Nat.toDigits 10 (1000 + ms % 1000)).drop 1).reverse.dropWhile (· == '0')
    let tail := if fraction.isEmpty then "" else "." ++ String.ofList fraction.reverse
    toString (ms / 1000) ++ tail ++ "s"

structure Timeout where
  ms : Nat
deriving DecidableEq, Repr

def Timeout.message (t : Timeout) : String := "trace did not finish within " ++ durationText t.ms

/-- The numbers of steps to try: doubling ones, and last the limit itself. -/
def trials (limit : Nat) : List Nat :=
  ((List.range 64).map (256 <<< ·)).takeWhile (· < limit) ++ [limit]

def ranShort (t : Trace) : Bool :=
  match t.status with
  | .limitExceeded .steps _ => true
  | _ => false

/-- Tries one number of steps after another until the time is up at `stop`. A run that crashed is
never there in time. -/
def tryAll (stop : Nat) (attempt : Nat → Option Trace) : List Nat → IO (Option Trace)
  | [] => return none
  | steps :: more => do
    if stop ≤ (← IO.monoNanosNow) then return none
    let some t := attempt steps | return none
    if ranShort t && !more.isEmpty then tryAll stop attempt more
    else if stop ≤ (← IO.monoNanosNow) then return none
    else return some t

def traceWithin (ms : Nat) (source input : String) (limits : Limits) :
    IO (Except Timeout Trace) := do
  let start ← IO.monoNanosNow
  let attempt (steps : Nat) := reportSource? source input { limits with steps } false
  match ← tryAll (start + ms * 1000000) attempt (trials limits.steps) with
  | some t => return .ok t
  | none => return .error ⟨ms⟩

end Stepwise.Deadline
