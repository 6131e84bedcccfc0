/-
# Kinds and types

A `Kind` says what sort of value a field, an operand slot or a result carries.
A `FieldType` is the concrete type of a field: relations also name the class they
lead to, structures the structure they hold.  `Kind.part` occurs in slots only;
it marks the operand that picks one part of a partition.
-/

namespace FeatureSynth

/-- The sort of value a field, a slot or a result carries. -/
inductive Kind where
  | continuous
  | symbol
  | date
  | time
  | timestamp
  | timestampTZ
  | object
  | objectArray
  | structured
  | part
deriving DecidableEq, Repr

namespace Kind

/-- Values that stand for themselves. -/
def isSimple : Kind → Bool
  | continuous | symbol | date | time | timestamp | timestampTZ => true
  | object | objectArray | structured | part => false

/-- References to records of another class. -/
def isRelation : Kind → Bool
  | object | objectArray => true
  | _ => false

/-- The word for a kind in reports and messages. -/
def label : Kind → String
  | continuous => "Numerical"
  | symbol => "Categorical"
  | date => "Date"
  | time => "Time"
  | timestamp => "Timestamp"
  | timestampTZ => "TimestampTZ"
  | object => "Entity"
  | objectArray => "Table"
  | structured => "Structure"
  | part => "Part"

end Kind

/-- The type of a field. -/
inductive FieldType where
  | continuous
  | symbol
  | date
  | time
  | timestamp
  | timestampTZ
  /-- One record of a class. -/
  | object (className : String)
  /-- A table of records of a class. -/
  | objectArray (className : String)
  | structured (name : String)
deriving DecidableEq, Repr

namespace FieldType

def kind : FieldType → Kind
  | continuous => .continuous
  | symbol => .symbol
  | date => .date
  | time => .time
  | timestamp => .timestamp
  | timestampTZ => .timestampTZ
  | object _ => .object
  | objectArray _ => .objectArray
  | structured _ => .structured

/-- The type of a simple kind; the other kinds need a name besides. -/
def ofKind? : Kind → Option FieldType
  | .continuous => some continuous
  | .symbol => some symbol
  | .date => some date
  | .time => some time
  | .timestamp => some timestamp
  | .timestampTZ => some timestampTZ
  | .object | .objectArray | .structured | .part => none

/-- The class a relation leads to. -/
def class? : FieldType → Option String
  | object c | objectArray c => some c
  | _ => none

/-- The text of a type: its kind, with the name it carries in parentheses. -/
def text : FieldType → String
  | object c => "Entity(" ++ c ++ ")"
  | objectArray c => "Table(" ++ c ++ ")"
  | structured name => "Structure(" ++ name ++ ")"
  | t => t.kind.label

theorem kind_ofKind? {k : Kind} {t : FieldType} (h : ofKind? k = some t) : t.kind = k := by
  cases k <;> simp [ofKind?] at h <;> subst h <;> rfl

end FieldType

end FeatureSynth
