import Offside.Remark

/-!
# Events

What reading and expanding announce while they run, in the order in which it
happens. An observer sees a level, the part of the library that speaks, a message
and named fields.
-/

namespace Offside

/-- Something worth announcing. -/
inductive Event where
  /-- A remark was made. -/
  | remarked (remark : Remark)
  /-- A source was read in full, into so many roots and with so many remarks. -/
  | compiled (roots remarks : Nat)
  /-- A call is about to be expanded, inside so many others. -/
  | expanding (name : String) (position : Position) (depth : Nat)
  /-- A value was logged. -/
  | logged (value : String)
deriving DecidableEq

namespace Event

/-- How important an event is. -/
inductive Level where
  | trace
  | debug
  | info
  | warn
deriving DecidableEq

/-- Which part of the library announces an event. -/
inductive Source where
  | layout
  | frontEnd
  | expansion
  | log
deriving DecidableEq

/-- How important an event is. A note is information and a warning a warning. -/
def level : Event → Level
  | .remarked remark =>
    match remark.severity with
    | .warning => .warn
    | .note => .info
  | .compiled .. => .debug
  | .expanding .. => .trace
  | .logged _ => .info

/-- Which part of the library announces an event. -/
def source : Event → Source
  | .remarked _ => .layout
  | .compiled .. => .frontEnd
  | .expanding .. => .expansion
  | .logged _ => .log

/-- The message of an event. -/
def message : Event → String
  | .remarked remark => "[syntax " ++ remark.severity.label ++ "] " ++ remark.oddity.message
  | .compiled .. => "compiled source"
  | .expanding .. => "expanding macro"
  | .logged value => value

/-- The fields of an event, each as a name, an equals sign and a value. -/
def fields : Event → List String
  | .remarked remark => ["position=" ++ remark.position.display]
  | .compiled roots remarks => ["roots=" ++ toString roots, "diagnostics=" ++ toString remarks]
  | .expanding name position depth =>
    ["name=" ++ name, "position=" ++ position.display, "depth=" ++ toString depth]
  | .logged _ => []

end Event

end Offside
