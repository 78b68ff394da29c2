import PointsTo.Config
import PointsTo.Text.Blank

/-!
# Presets

Named configurations, from quick to precise. `fast` does not tell fields apart
and looks for cycles only when no node is left; `thorough` looks for them every
64 pops and works depth first; `balanced` lies between them and is the default.
A name is read without regard to case and to blanks around it.
-/

namespace PointsTo

inductive Preset where
  | fast
  | balanced
  | thorough
deriving DecidableEq, Inhabited

namespace Preset

def all : List Preset := [.fast, .balanced, .thorough]

def name : Preset → String
  | .fast => "fast"
  | .balanced => "balanced"
  | .thorough => "thorough"

/-- Whether two texts differ at most in the case of ASCII letters. -/
def sameLetters (s t : List Char) : Bool := s.map Char.toLower == t.map Char.toLower

def parse (s : String) : Except ConfigError Preset :=
  match all.find? fun p => sameLetters p.name.toList (Text.trim s.toList) with
  | some p => .ok p
  | none => .error (.unknownPreset s)

def config : Preset → Config
  | .fast =>
    { fieldSensitive := false
      optimize := true
      cyclePass := true
      equivalencePass := false
      sccInterval := 0
      worklist := .fifo
      limits := .unbounded
      parallelThreshold := 50000
      dumpConstraints := false
      dumpResult := false
      dumpDebug := false }
  | .balanced =>
    { fieldSensitive := true
      optimize := true
      cyclePass := true
      equivalencePass := true
      sccInterval := 1000
      worklist := .fifo
      limits := .unbounded
      parallelThreshold := 10000
      dumpConstraints := false
      dumpResult := false
      dumpDebug := false }
  | .thorough =>
    { fieldSensitive := true
      optimize := true
      cyclePass := true
      equivalencePass := true
      sccInterval := 64
      worklist := .lifo
      limits := .unbounded
      parallelThreshold := 512
      dumpConstraints := false
      dumpResult := false
      dumpDebug := false }

end Preset

def Config.default : Config := Preset.balanced.config

end PointsTo
