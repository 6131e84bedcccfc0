/-
# The command line

The program builds the demo and reports what it built.  Options are read from left
to right, and later ones win; help and the version are answered as soon as they are
asked for.  A value follows its option, behind an equals sign or as the next
argument.
-/
import FeatureSynth.Calendar.Reader
import FeatureSynth.Demo
import FeatureSynth.Demo.Orders
import FeatureSynth.Report

namespace FeatureSynth

namespace CommandLine

/-! ## What can be asked for -/

/-- A run of the demo. -/
structure Config where
  options : Options
  seed : Nat
  customers : Nat
  /-- Date of the last orders. -/
  reference : Date
  color : Bool

/-- What a command line asks for. -/
inductive Command where
  | help
  | version
  | run (config : Config)

/-- What is wrong with a command line. -/
inductive UsageError where
  | unknownOption (argument : String)
  | missingValue (option : String)
  | unknownMode (value : String)
  | invalidNumber (option value : String)
  | invalidReference (value : String)
  | noCustomers
deriving DecidableEq, Repr

def versionText : String := "fieldsmith 0.4.0"

def helpText : String :=
  versionText ++ "

Builds derived fields for a generated customers/orders demo and reports them.

Usage:
  fieldsmith [OPTIONS]

Options:
  --mode <mode>              standard, optimized or sparse. Default: optimized
  --min-block-size <n>       Smallest actual partition size realized as a block
                             in sparse mode. Default: 0
  --max-fields <n>           Cap on new candidate fields.
  --indexed-names            Name fields ConstructedFeature<N>.
  --no-regularization        Leave every cost at 0.
  --target <field>           Customer field excluded from cost annotation.
  --seed <n>                 Seed of the demo data and tie-breaks. Default: 1
  --customers <n>            Number of generated customers. Default: 400
  --reference <date>         Most recent order date, YYYY-MM-DD.
                             Default: 2024-06-30
  --color                    Force ANSI color output.
  --no-color                 Disable ANSI color output.
  -h, --help                 Show this help message.
  -V, --version              Print version information.

Environment:
  RUST_LOG=fieldsmith=debug  Trace analysis, ledgers and field creation.

Exit codes:
  0  Success.
  1  Build error.
  2  Invalid arguments.
"

def UsageError.message : UsageError → String
  | unknownOption argument => "error: unknown option '" ++ argument ++ "'\n\n" ++ helpText
  | missingValue option => "error: " ++ option ++ " expects a value"
  | unknownMode value =>
    "error: unknown mode '" ++ value ++ "' (expected standard, optimized or sparse)"
  | invalidNumber option value =>
    "error: invalid " ++ option ++ " '" ++ value ++ "' (expected a non-negative integer)"
  | invalidReference value =>
    "error: invalid --reference '" ++ value ++ "' (expected YYYY-MM-DD)"
  | noCustomers => "error: --customers must be at least 1"

/-! ## Arguments -/

/-- An option, and the value behind its equals sign; only long options take one there. -/
def splitArgument (argument : String) : String × Option String :=
  match argument.toList.span (· != '=') with
  | (option, '=' :: rest) =>
    if ['-', '-'].isPrefixOf option then (String.ofList option, some (String.ofList rest))
    else (argument, none)
  | _ => (argument, none)

/-- A number of 64 bits, in digits, perhaps behind a plus sign. -/
def number? (value : String) : Option Nat :=
  let digits := match value.toList with
    | '+' :: rest => rest
    | digits => digits
  if digits.isEmpty then none else (Text.digitsValue? digits).filter (· < Nat.pow 2 64)

def numberFor (option value : String) : Except UsageError Nat :=
  match number? value with
  | some n => .ok n
  | none => .error (.invalidNumber option value)

/-- The configuration in a mode. -/
def setMode (c : Config) (value : String) : Except UsageError Config :=
  match value with
  | "standard" => .ok { c with options := { c.options with shareRules := false, sparse := false } }
  | "optimized" => .ok { c with options := { c.options with shareRules := true, sparse := false } }
  | "sparse" => .ok { c with options := { c.options with shareRules := true, sparse := true } }
  | other => .error (.unknownMode other)

/-- What an option without a value changes. -/
def switch? (option : String) : Option (Config → Config) :=
  match option with
  | "--color" => some fun c => { c with color := true }
  | "--no-color" => some fun c => { c with color := false }
  | "--indexed-names" => some fun c => { c with options := { c.options with readableNames := false } }
  | "--no-regularization" => some fun c => { c with options := { c.options with regularize := false } }
  | _ => none

/-- What an option changes by its value. -/
def setting? (option : String) : Option (Config → String → Except UsageError Config) :=
  match option with
  | "--mode" => some setMode
  | "--min-block-size" => some fun c value => do
    return { c with options := { c.options with minBlockSize := ← numberFor option value } }
  | "--max-fields" => some fun c value => do
    return { c with options := { c.options with maxFields := some (← numberFor option value) } }
  | "--target" => some fun c value => .ok { c with options := { c.options with target := some value } }
  | "--seed" => some fun c value => do return { c with seed := ← numberFor option value }
  | "--customers" => some fun c value => do return { c with customers := ← numberFor option value }
  | "--reference" => some fun c value =>
    match Date.ofText? value with
    | some reference => .ok { c with reference }
    | none => .error (.invalidReference value)
  | _ => none

/-- The end of the arguments: a run needs customers. -/
def finish (c : Config) : Except UsageError Command :=
  if c.customers = 0 then .error .noCustomers else .ok (.run c)

/-- What arguments ask for, from the options read before them. -/
def readFrom (c : Config) : List String → Except UsageError Command
  | [] => finish c
  | argument :: rest =>
    let (option, inline) := splitArgument argument
    if option = "-h" ∨ option = "--help" then .ok .help
    else if option = "-V" ∨ option = "--version" then .ok .version
    else
      match switch? option, setting? option with
      | some change, _ => readFrom (change c) rest
      | none, none => .error (.unknownOption argument)
      | none, some set =>
        match inline, rest with
        | some value, rest =>
          match set c value with
          | .ok c => readFrom c rest
          | .error e => .error e
        | none, [] => .error (.missingValue option)
        | none, value :: rest =>
          match set c value with
          | .ok c => readFrom c rest
          | .error e => .error e

/-- The run without any option; a report to a terminal is coloured. -/
def defaults (terminal : Bool) : Config :=
  { options := .default, seed := 1, customers := 400, reference := ⟨2024, 6, 30⟩, color := terminal }

/-- What arguments ask for. -/
def read (terminal : Bool) (arguments : List String) : Except UsageError Command :=
  readFrom (defaults terminal) arguments

/-! ## Answers -/

/-- What the program leaves: the exit code, and what it wrote. -/
structure Answer where
  code : Nat
  output : String
  errors : String
deriving DecidableEq, Repr

/-- What a run builds from: the request of the demo, and its orders. -/
def Config.input (c : Config) : Except BuildError (Request × List Demo.Order) := do
  return (← Demo.request, Demo.ordersFor c.customers c.seed c.reference)

/-- The samples that a run takes from orders. -/
def Config.sampler (c : Config) (orders : List Demo.Order) : Sampler :=
  (Demo.samples c.customers orders).sampler

/-- The outcome of a run, if it has one, and the number of orders it was over.  Candidates that tie
stay in the order in which the demo lists them. -/
def Config.outcome (c : Config) : Option (Except BuildError (Outcome × Nat)) :=
  match c.input with
  | .error e => some (.error e)
  | .ok (request, orders) =>
    (request.run? .default .listed (c.sampler orders) c.options .never).map fun result =>
      result.map fun outcome => (outcome, orders.length)

/-- What is left of a run on which the program ended. -/
def ended : Answer := ⟨101, "", ""⟩

/-- The answer of a run that failed. -/
def failed (e : BuildError) : Answer := ⟨1, "", "error: " ++ e.message ++ "\n"⟩

/-- The answer of a run that succeeded: the report on its outcome. -/
def Config.reported (c : Config) (times : Report.Times) (outcome : Outcome) (orders : Nat) :
    Answer :=
  let input : Report.Input := ⟨c.customers, orders, outcome.counts.requested⟩
  ⟨0, Report.text ⟨c.color⟩ input (.ofOptions c.options) times outcome, ""⟩

/-- The answer of a run that took some times. -/
def Config.answer (c : Config) (times : Report.Times) : Answer :=
  match c.outcome with
  | none => ended
  | some (.error e) => failed e
  | some (.ok (outcome, orders)) => c.reported times outcome orders

/-- What the program answers; the times of a run come from outside. -/
def answer (times : Report.Times) : Except UsageError Command → Answer
  | .error e => ⟨2, "", e.message ++ "\n"⟩
  | .ok .help => ⟨0, helpText ++ "\n", ""⟩
  | .ok .version => ⟨0, versionText ++ "\n", ""⟩
  | .ok (.run c) => c.answer times

end CommandLine

end FeatureSynth
