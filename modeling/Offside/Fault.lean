import Offside.Position
import Offside.Text.Quoted

/-!
# Faults

A fault ends the current tokenizing, parsing or expansion. Each constructor is
one cause; `Fault.message` is the only place that words it.
-/

namespace Offside

/-- Why a text could not be read, or a forest not be expanded. -/
inductive Fault where
  /-- The sigil is a blank character. -/
  | blankSigil (sigil : Char)
  /-- A place where the document goes on but no rule matches: a carriage return that no line feed
  follows. -/
  | strayReturn (position : Position)
  /-- A second indent on one line. -/
  | repeatedIndent (position : Position)
  /-- An indent behind text. -/
  | indentAfterText (position : Position)
  /-- An indent behind a call. -/
  | indentAfterCall (position : Position)
  /-- Text at the start of a line, where it belongs to no call. -/
  | unindentedText (position : Position)
  /-- A line whose indent is not the column of any open block. -/
  | unmatchedIndent (width : Nat) (position : Position)
  /-- A call below as many open calls as are allowed. -/
  | nestedTooDeep (limit : Nat) (position : Position)
  /-- A token that needs an open call, or a text to continue, and finds none. -/
  | noOpenCall (position : Position)
  /-- A call whose name is not registered. -/
  | unknownMacro (name : String) (position : Position)
  /-- The first argument of a repetition is not a count. -/
  | invalidRepeatCount (value : String)
  /-- A repetition without arguments. -/
  | missingRepeatCount
  /-- More calls active, or waiting inside one another, than are allowed. -/
  | expandedTooDeep (limit : Nat)
  /-- A failure that a macro raised itself. -/
  | custom (message : String)
deriving DecidableEq

namespace Fault

/-- The place that a fault points to, if it has one. -/
def position? : Fault → Option Position
  | .strayReturn position => some position
  | .repeatedIndent position => some position
  | .indentAfterText position => some position
  | .indentAfterCall position => some position
  | .unindentedText position => some position
  | .unmatchedIndent _ position => some position
  | .nestedTooDeep _ position => some position
  | .noOpenCall position => some position
  | .unknownMacro _ position => some position
  | .blankSigil _ => none
  | .invalidRepeatCount _ => none
  | .missingRepeatCount => none
  | .expandedTooDeep _ => none
  | .custom _ => none

/-- The wording of a fault. -/
def message : Fault → String
  | .blankSigil sigil => "sigil " ++ Text.quoteChar sigil ++ " must not be whitespace"
  | .strayReturn position => "[tokenizer] invalid token at " ++ position.display
  | .repeatedIndent position => "[parser] double indent in a line at " ++ position.display
  | .indentAfterText position => "[parser] indent after text at " ++ position.display
  | .indentAfterCall position => "[parser] indent after macro at " ++ position.display
  | .unindentedText position =>
    "[syntax] text at " ++ position.display ++
      " starts with zero indent, it cannot be a macro argument"
  | .unmatchedIndent width position =>
    "[syntax] no macro matches the indent of " ++ toString width ++ " at " ++ position.display
  | .nestedTooDeep limit position =>
    "[parser] macros nested deeper than " ++ toString limit ++ " levels at " ++ position.display
  | .noOpenCall position => "[internal] parent macro frame not found at " ++ position.display
  | .unknownMacro name position =>
    "[executor] macro `" ++ name ++ "` not found at " ++ position.display
  | .invalidRepeatCount value =>
    "[executor] first argument of repeat should be a non-negative integer, got " ++
      Text.quoteText value
  | .missingRepeatCount => "[executor] repeat expects a count argument"
  | .expandedTooDeep limit =>
    "[executor] maximum expansion depth of " ++ toString limit ++ " exceeded"
  | .custom text => "[macro] " ++ text

end Fault

end Offside
