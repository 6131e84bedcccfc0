/-
# The program

It answers what its arguments ask for.  A run is carried out stage by stage, and
each stage is timed.
-/
import FeatureSynth.CommandLine

namespace FeatureSynth

namespace CommandLine

/-- A result, and the time it took in nanoseconds. -/
def timed {α : Type} (compute : Unit → Except BuildError α) : ExceptT BuildError IO (α × Nat) :=
  ExceptT.mk do
    let before ← IO.monoNanosNow
    let result ← IO.lazyPure compute
    let after ← IO.monoNanosNow
    return result.map fun a => (a, after - before)

/-- A run, with the times of its stages. -/
def timedRun (c : Config) : ExceptT BuildError IO Answer := do
  let (request, orders) ← ExceptT.mk (return c.input)
  let (rules, admission) ← timed fun _ => request.accept .listed c.options
  let (registry, compliance) ← timed fun _ => .ok (request.registry .default)
  let (analysed, analysis) ← timed fun _ =>
    (request.analyse? .default (c.sampler orders) c.options rules
      (request.analysisStart registry .never)).elim (.ok none) fun result => result.map some
  let some a := analysed | return ended
  let (outcome, construction) ← timed fun _ => request.construct .default c.options rules a
  let total := admission + compliance + analysis + construction
  return c.reported ⟨total, analysis, construction, compliance⟩ outcome orders.length

/-- What the arguments ask for, carried out. -/
def perform (terminal : Bool) (arguments : List String) : IO Answer := do
  match read terminal arguments with
  | .ok (.run c) =>
    match ← (timedRun c).run with
    | .ok a => return a
    | .error e => return failed e
  | command => return answer ⟨0, 0, 0, 0⟩ command

end CommandLine

end FeatureSynth

def main (arguments : List String) : IO UInt32 := do
  let output ← IO.getStdout
  let a ← FeatureSynth.CommandLine.perform (← output.isTty) arguments
  output.putStr a.output
  (← IO.getStderr).putStr a.errors
  return a.code.toUInt32
