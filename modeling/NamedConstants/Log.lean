import NamedConstants.InsertionSet

/-!
Development warnings. Each warning has a key and is reported once; forgetting the key
lets it be reported again. Outside development nothing is reported or remembered.
-/
namespace NamedConstants

inductive WarningArea where
  | constants
  | constraints
deriving DecidableEq, Repr

namespace WarningArea

def text : WarningArea → String
  | constants => "constants"
  | constraints => "constraints"

end WarningArea

structure Warning (κ : Type) where
  area : WarningArea
  key : κ
  detail : String
deriving DecidableEq, Repr

namespace Warning

def text {κ : Type} (w : Warning κ) : String :=
  "[anchorline][" ++ w.area.text ++ "] " ++ w.detail

end Warning

structure Log (κ : Type) where
  devMode : Bool
  /-- The keys that have been reported and not been forgotten. -/
  reported : InsertionSet (WarningArea × κ) := ∅
  /-- Every warning written so far. -/
  lines : List (Warning κ) := []

namespace Log

variable {κ : Type} [DecidableEq κ]

def warn (log : Log κ) (area : WarningArea) (key : κ) (detail : String) : Log κ :=
  if !log.devMode || decide ((area, key) ∈ log.reported) then log
  else
    { log with
      reported := log.reported.insert (area, key)
      lines := log.lines ++ [{ area, key, detail }] }

def forget (log : Log κ) (area : WarningArea) (key : κ) : Log κ :=
  { log with reported := log.reported.erase (area, key) }

end Log

end NamedConstants
