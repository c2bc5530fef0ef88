import Offside.Layout.State

/-!
# Parsing

A parser reads token lists into forests, one list after another. It is reset before each
list, so nothing that an earlier list has left in it matters, and it remembers the remarks
on the latest list, whether or not that list could be read.
-/

namespace Offside

/-- A reader of token lists. -/
structure Parser where
  /-- How many calls may be open at once, the outermost included. -/
  limit : Nat := 128
  /-- Where in a line the list that was read last ended, or could not be read further. -/
  phase : Phase := .lineStart
  /-- The open calls, innermost first. Between two lists there are none. -/
  frames : List Frame := []
  /-- The closed outermost calls, latest first. Between two lists there are none. -/
  closed : List Call := []
  /-- The remarks on the list that was read last, in order. -/
  remarks : List Remark := []

/-- What came of reading a token list. -/
structure Parsed where
  /-- The outermost calls in order, or what is wrong with the list. -/
  outcome : Except Fault (List Call)
  /-- The parser with the remarks on this list. -/
  parser : Parser
  /-- The events in order. -/
  events : List Event

namespace Parser

/-- The parser with the usual limit. -/
def standard : Parser := {}

/-- What the parser knows as a reader. -/
def state (parser : Parser) : State :=
  ⟨parser.phase, parser.frames, parser.closed, parser.remarks.reverse, []⟩

/-- The parser without anything that earlier lists have left in it. -/
def reset (parser : Parser) : Parser :=
  { parser with phase := .lineStart, frames := [], closed := [], remarks := [] }

/-- Reads a token list from the start. Its forest is handed over, and what a list that cannot be
read has left open or closed is dropped. -/
def parse (parser : Parser) (tokens : List Token) : Parsed :=
  let result := parser.reset.state.run parser.limit tokens
  { outcome := match result.1 with
      | some fault => .error fault
      | none => .ok result.2.forest
    parser :=
      { parser with
        phase := result.2.phase
        frames := []
        closed := []
        remarks := result.2.remarks.reverse }
    events := result.2.events.reverse }

/-- Once it is reset, a parser is a reader before the first token. -/
theorem state_reset (parser : Parser) : parser.reset.state = .initial := rfl

end Parser

/-- The forest of a token list, without the remarks on it. -/
def parse (tokens : List Token) : Except Fault (List Call) :=
  (Parser.standard.parse tokens).outcome

end Offside
