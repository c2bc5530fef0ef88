/-!
# Places in a source text

Lines and columns count from one, and a column counts characters. Walking over
the characters of a text moves a place forward, so the place of any part of a
text is determined by the characters before it.
-/

namespace Offside

/-- A line and a column of a source text, both counted from one. -/
structure Position where
  /-- The number of line feeds before the place, plus one. -/
  line : Nat
  /-- The number of characters since the last line feed, plus one. -/
  column : Nat
deriving DecidableEq

namespace Position

/-- The place of an item that was not read from a text. -/
def nowhere : Position := ⟨0, 0⟩

/-- The place of the first character of a text. -/
def first : Position := ⟨1, 1⟩

/-- The written form of a place, as in `3:14`. -/
def display (place : Position) : String :=
  toString place.line ++ ":" ++ toString place.column

/-- The place after one character: a line feed starts the next line. -/
def step (place : Position) (c : Char) : Position :=
  if c = '\n' then ⟨place.line + 1, 1⟩ else ⟨place.line, place.column + 1⟩

/-- The place after a run of characters. -/
def advance (place : Position) (chars : List Char) : Position :=
  chars.foldl step place

/-- Without characters a walk stays where it is. -/
theorem advance_nil (place : Position) : place.advance [] = place := rfl

/-- A walk over some characters steps over the first one and goes on from there. -/
theorem advance_cons (place : Position) (c : Char) (chars : List Char) :
    place.advance (c :: chars) = (place.step c).advance chars := rfl

/-- Walking over two runs in turn is walking over their concatenation. -/
theorem advance_append (place : Position) (front back : List Char) :
    place.advance (front ++ back) = (place.advance front).advance back :=
  List.foldl_append

end Position

end Offside
