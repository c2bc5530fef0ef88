import Offside.Position

/-!
# Remarks

A remark points out something odd in a source that is read all the same. Remarks
never change the forest.
-/

namespace Offside

/-- How much a remark weighs. -/
inductive Severity where
  | warning
  | note
deriving DecidableEq

/-- The word for a severity. -/
def Severity.label : Severity → String
  | .warning => "warning"
  | .note => "note"

/-- What a remark is about. -/
inductive Oddity where
  /-- Blank text behind a call, dropped instead of becoming an argument. -/
  | blankArgument
  /-- A line that holds nothing but an indent. -/
  | indentOnlyLine
  /-- A line below a call that holds nothing but an indent, so that no block begins there. -/
  | cancelledBlock
  /-- A line without any character. -/
  | emptyLine
deriving DecidableEq

namespace Oddity

/-- Only empty lines are merely noted. -/
def severity : Oddity → Severity
  | .emptyLine => .note
  | _ => .warning

/-- The wording of an oddity. -/
def message : Oddity → String
  | .blankArgument => "text with only whitespace is not passed to the macro"
  | .indentOnlyLine => "line contains only indent"
  | .cancelledBlock => "block starting line contains only indent, its indentation is ignored"
  | .emptyLine => "empty line"

end Oddity

/-- An oddity and the place where it was found. -/
structure Remark where
  /-- What is odd. -/
  oddity : Oddity
  /-- Where. -/
  position : Position
deriving DecidableEq

namespace Remark

/-- How much the remark weighs. -/
def severity (remark : Remark) : Severity :=
  remark.oddity.severity

/-- The written form of a remark, as in `note at 2:1: empty line`. -/
def display (remark : Remark) : String :=
  remark.severity.label ++ " at " ++ remark.position.display ++ ": " ++ remark.oddity.message

end Remark

end Offside
