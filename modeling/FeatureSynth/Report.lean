/-
# Reports

A report tells what came of a request over the demo data: how the dimensions were
cut, which fields and blocks were created and what they compute, how long it took
and how much was shared.  Colours are terminal sequences around the words; a plain
report has none of them.
-/
import FeatureSynth.Request
import FeatureSynth.Text.Duration

namespace FeatureSynth

namespace Report

/-! ## Colours -/

/-- How a word stands out. -/
inductive Style where
  | dim
  | bold
  | green
  | yellow
  | blue
  | cyan
  | gray
deriving DecidableEq, Repr

/-- Number of the terminal attribute. -/
def Style.code : Style → String
  | dim => "2"
  | bold => "1"
  | green => "32"
  | yellow => "33"
  | blue => "34"
  | cyan => "36"
  | gray => "90"

/-- A terminal sequence. -/
def sequence (code : String) : String := "\x1b[" ++ code ++ "m"

/-- Whether words stand out at all. -/
structure Palette where
  enabled : Bool

/-- A word in a style. -/
def Palette.paint (p : Palette) (style : Style) (word : String) : String :=
  if p.enabled then sequence style.code ++ word ++ sequence "0" else word

/-! ## What is reported -/

/-- Size of the input. -/
structure Input where
  customers : Nat
  orders : Nat
  candidates : Nat

/-- Durations of a run and of its parts, in nanoseconds. -/
structure Times where
  total : Nat
  analysis : Nat
  construction : Nat
  compliance : Nat

/-! ## Parts -/

/-- A heading, behind an empty line. -/
def heading (p : Palette) (title : String) : List String :=
  ["", p.paint .gray ("━━━ " ++ title ++ " ━━━")]

def title (p : Palette) (input : Input) (mode : Mode) : List String :=
  let text := "⚙  Building: " ++ toString input.customers ++ " customers, " ++
    toString input.orders ++ " orders, " ++ toString input.candidates ++ " candidates (" ++
    mode.label ++ " mode)"
  ["", p.paint .bold (p.paint .cyan text)]

/-- Text of a number, always positional. -/
def number (x : Float) : String := String.ofList (Scalar.plainText x)

/-- The values of a partile, behind its index. -/
def partileText : Partile → String
  | .interval lower upper index =>
    toString index ++ ":]" ++ number lower ++ ", " ++ number upper ++ "]"
  | .value v index [] => toString index ++ ":\x7b" ++ v ++ "\x7d"
  | .value _ index outside =>
    toString index ++ ":not \x7b" ++ String.intercalate ", " outside ++ "\x7d"

/-- The partiles of one granularity. -/
def levelLine (p : Palette) (l : Level) : String :=
  "    " ++ p.paint .yellow ("G" ++ toString l.granularity) ++ " " ++
    p.paint .dim (String.intercalate "  " (l.partiles.map partileText))

/-- Name of a dimension: its field or the operator of its rule, behind its class. -/
def dimensionName (d : Dimension) : String :=
  d.className ++ "." ++
    match d.origin with
    | .field name _ => name
    | .rule r => r.name

/-- The partiles of a dimension, if it was analysed. -/
def dimensionLines (p : Palette) (d : Dimension) : List String :=
  match d.levels with
  | none => []
  | some levels =>
    let granularities := "[" ++ String.intercalate ", " (levels.granularities.map toString) ++ "]"
    ("  " ++ p.paint .blue (dimensionName d) ++ " " ++
      p.paint .dim ("granularities " ++ granularities)) :: levels.map (levelLine p)

def analysisLines (p : Palette) (o : Outcome) : List String :=
  ("  Sampled " ++ p.paint .blue (toString o.counts.objects) ++ " objects for " ++
    p.paint .blue (toString o.counts.dimensions) ++ " operands  │  dropped " ++
    p.paint .yellow (toString o.counts.dropped) ++ " of " ++ toString o.counts.requested ++
    " candidates") :: o.space.dimensions.flatMap (dimensionLines p)

/-- What a field computes, if it was not stored. -/
def definition? (f : Field) : Option String :=
  match f.formula, f.block, f.key with
  | some formula, _, _ => some formula.text
  | none, some block, some key => some ("member " ++ toString key ++ " of " ++ block)
  | none, _, _ => none

/-- The line of a formula. -/
def formulaLine (p : Palette) (text : String) : String :=
  "      " ++ p.paint .dim "formula:" ++ " " ++ p.paint .cyan text

/-- A class and a name in it. -/
def pathText (p : Palette) (path : FieldPath) : String :=
  p.paint .bold (p.paint .green (path.className ++ "." ++ path.name))

/-- A created field, behind its position among the created ones. -/
def fieldLines (p : Palette) (s : Schema) (path : FieldPath) (position : Nat) : List String :=
  match (s.entity? path.className).bind (·.field? path.name) with
  | none => []
  | some f =>
    let status := if f.used then p.paint .green "used" else p.paint .dim "intermediate"
    ["  " ++ p.paint .gray ("[" ++ toString position ++ "]") ++ " " ++ pathText p path ++ " " ++
        p.paint .dim "│" ++ " " ++ status ++ " " ++ p.paint .yellow ("cost " ++ number f.cost),
      "      " ++ p.paint .dim "type:" ++ " " ++ p.paint .blue f.type.text] ++
      (definition? f).toList.map (formulaLine p)

/-- Why there may be no new field. -/
def noFieldLines (p : Palette) : List String :=
  [ p.paint .dim "  No field created", "", p.paint .yellow "Possible reasons:",
    "  • Every candidate formula already existed", "  • --max-fields is 0",
    "  • Candidate parts did not resolve after analysis" ]

def createdLines (p : Palette) (o : Outcome) : List String :=
  if o.createdFields = [] then noFieldLines p
  else o.createdFields.zipIdx.flatMap fun (path, position) => fieldLines p o.schema path position

/-- A created block. -/
def blockLines (p : Palette) (s : Schema) (path : FieldPath) : List String :=
  match s.entity? path.className with
  | none => []
  | some e =>
    match e.block? path.name with
    | none => []
    | some b =>
      ["  " ++ pathText p path ++ " " ++ p.paint .dim "│" ++ " " ++
          p.paint .yellow (toString (e.members path.name).length ++ " members"),
        formulaLine p b.formula.text]

def blocksLines (p : Palette) (o : Outcome) : List String :=
  if o.createdBlocks = [] then []
  else heading p "Blocks" ++ o.createdBlocks.flatMap (blockLines p o.schema)

def timesLine (p : Palette) (t : Times) : String :=
  "  Total: " ++ p.paint .green (Text.durationText t.total) ++ "  │  Analysis: " ++
    p.paint .cyan (Text.durationText t.analysis) ++ "  │  Construction: " ++
    p.paint .cyan (Text.durationText t.construction) ++ "  │  Compliance: " ++
    p.paint .dim (Text.durationText t.compliance)

def countsLine (p : Palette) (c : BuildCounts) : String :=
  "  " ++ p.paint .dim "reused:" ++ " " ++ p.paint .yellow (toString c.fieldsReused) ++ "  " ++
    p.paint .dim "used rules:" ++ " " ++ p.paint .yellow (toString c.fieldRules) ++ "  " ++
    p.paint .dim "block rules:" ++ " " ++ p.paint .yellow (toString c.blockRules)

/-! ## The whole -/

def lines (p : Palette) (input : Input) (mode : Mode) (times : Times) (o : Outcome) : List String :=
  title p input mode ++ heading p "Analysis" ++ analysisLines p o ++
    heading p "Created fields" ++ createdLines p o ++ blocksLines p o ++
    heading p "Timing" ++ [timesLine p times, countsLine p o.counts.construction, ""]

/-- The report, each line with its end. -/
def text (p : Palette) (input : Input) (mode : Mode) (times : Times) (o : Outcome) : String :=
  String.join ((lines p input mode times o).map (· ++ "\n"))

end Report

end FeatureSynth
