import LC3.Format.Parts
import LC3.Text.Blank

/-!
The settings of a processor, and how they are read from text. Features are listed with commas;
blanks around a feature and empty places in the list do not count. Two environment variables may set
them, and both are read as text before either is understood.
-/

namespace LC3

structure Features where
  /-- Constant bits of instructions are not checked. -/
  lenient : Bool := false
  deriving DecidableEq, Repr

inductive FeatureError where
  | unknown (word : List Char)
  | repeated (word : List Char)
  deriving DecidableEq, Repr

def FeatureError.message : FeatureError → String
  | .unknown word => s!"Unknown feature '{String.ofList word}'"
  | .repeated word => s!"Cannot specify feature '{String.ofList word}' twice"

namespace Features

def decoding (f : Features) : Decoding := if f.lenient then .lenient else .strict

def lenientName : List Char := ['l', 'e', 'n', 'i', 'e', 'n', 't']

/-- Adds one word of a list. -/
def add (f : Features) (word : List Char) : Except FeatureError Features :=
  if word = [] then .ok f
  else if word = lenientName then
    if f.lenient then .error (.repeated word) else .ok { f with lenient := true }
  else .error (.unknown word)

def ofText (text : List Char) : Except FeatureError Features :=
  ((splitCommas text).map trim).foldlM add {}

def text (f : Features) : String := if f.lenient then String.ofList lenientName else ""

end Features

inductive Variable where
  | features
  | maxCycles
  deriving DecidableEq, Repr

def Variable.name : Variable → String
  | .features => "LC3SIM_FEATURES"
  | .maxCycles => "LC3SIM_MAX_CYCLES"

inductive ConfigError where
  | features (cause : FeatureError)
  | maxCycles (text : List Char)
  | notUnicode (name : Variable)
  deriving DecidableEq, Repr

def ConfigError.message : ConfigError → String
  | .features cause => s!"invalid {Variable.features.name}: {cause.message}"
  | .maxCycles text =>
    s!"invalid {Variable.maxCycles.name} '{String.ofList text}', expected a non-negative integer"
  | .notUnicode v => s!"{v.name} is not valid unicode"

structure Config where
  features : Features := {}
  /-- How many instructions a run may retire. -/
  maxCycles : Option Nat := none
  deriving DecidableEq, Repr

namespace Config

/-- A count is written in decimal digits after an optional plus sign, and is below 2 to the 64th. -/
def countOf? (text : List Char) : Option Nat :=
  let digits := match text with
    | '+' :: rest => rest
    | _ => text
  if digits ≠ [] ∧ digits.all Char.isDigit then
    let count := digits.foldl (fun n c => n * 10 + (c.toNat - '0'.toNat)) 0
    if count < 0x10000000000000000 then some count else none
  else none

/-- The settings of two texts, where there are any. -/
def ofTexts (features maxCycles : Option (List Char)) : Except ConfigError Config := do
  let features ← match features with
    | none => .ok {}
    | some text => (Features.ofText text).mapError .features
  let maxCycles ← match maxCycles with
    | none => .ok none
    | some text =>
      match countOf? (trim text) with
      | some count => .ok (some count)
      | none => .error (.maxCycles text)
  return { features, maxCycles }

/-- The text of a variable, from its bytes. -/
def textOf (v : Variable) : Option ByteArray → Except ConfigError (Option (List Char))
  | none => .ok none
  | some bytes =>
    match String.fromUTF8? bytes with
    | some text => .ok (some text.toList)
    | none => .error (.notUnicode v)

/-- The settings of an environment in which the variables have these bytes, if they are set. -/
def ofEnvironment (features maxCycles : Option ByteArray) : Except ConfigError Config := do
  let features ← textOf .features features
  let maxCycles ← textOf .maxCycles maxCycles
  ofTexts features maxCycles

end Config
end LC3
