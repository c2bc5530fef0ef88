import Offside.Position

/-!
# Tokens

The words that a source is made of, each with the place of its first character.
-/

namespace Offside

/-- A word of a source. -/
inductive Word where
  /-- A call: two sigils and the name behind them, all of which is the name of the macro. -/
  | call (name : String)
  /-- The end of a line that is not the last one. -/
  | lineBreak
  /-- The blanks at the start of a line, of which only their number matters. -/
  | indent (width : Nat)
  /-- Literal text. -/
  | text (content : String)
deriving DecidableEq

/-- A word and the place where it begins. -/
structure Token where
  /-- The word. -/
  word : Word
  /-- Where it begins. -/
  position : Position
deriving DecidableEq

end Offside
