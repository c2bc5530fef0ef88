import Offside.Expansion.Registry
import Offside.Settings
import Offside.Text.Blank
import Offside.Text.Numeral

/-!
# Built-in macros

Three macros that steer expansion or show what it does: one logs its arguments, one
repeats them, and one hands them on unexpanded.
-/

namespace Offside

namespace Action

variable {ε : Type}

/-- Expands items so many times in a row, behind the `output` so far, latest first, and
yields all that came of it. The first fault ends the repetition. -/
def repeatItems (items output : List Item) : Nat → Action ε
  | 0 => .yield output.reverse
  | count + 1 => .expand (.items items) fun
    | .ok more => repeatItems items (more.reverse ++ output) count
    | .error fault => .fail fault

end Action

namespace Macro

variable {ε : Type}

/-- Hands each argument to a sink in turn and yields nothing. -/
def ofSink (sink : Item → Action ε → Action ε) : Macro ε where
  evaluate arguments := arguments.foldr sink (.yield [])

/-- Logs the written form of each argument. -/
def log : Macro ε :=
  ofSink fun item next => .log item.display next

/-- A description of the logging macro. -/
def logDisplay : String := "Log \x7b .. \x7d"

/-- The count that an item denotes: it has to be a text, and blanks around it do not
matter. -/
def countOf (item : Item) : Except Fault Nat :=
  match item.text?.bind fun content => Text.readCount? (Text.trim content) with
  | some count => .ok count
  | none => .error (.invalidRepeatCount item.display)

/-- Sets the count apart and quotes the rest, so that only the evaluator expands it. -/
def quoteBody : List Item → List Item
  | [] => []
  | count :: body => [count, .quoted body]

/-- Expands its other arguments as many times as the first one says. -/
def repetition : Macro ε where
  transform arguments env := (.ok (quoteBody arguments), env)
  evaluate
    | [] => .fail .missingRepeatCount
    | count :: body =>
      match countOf count with
      | .ok times => .repeatItems (body.flatMap Item.unquoted) [] times
      | .error fault => .fail fault

/-- Keeps its raw arguments and yields those of the latest call. -/
def lazy : Macro ε where
  keeps := true
  transform _ env := (.ok [], env)
  evaluate _ := .recall .yield

end Macro

/-- The built-in macros and their names without sigils. -/
def builtins {ε : Type} : List (String × Macro ε) :=
  [("log", .log), ("repeat", .repetition), ("lazy", .lazy)]

end Offside
