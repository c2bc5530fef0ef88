import Offside.Proofs.Layout.Ancestry
import Offside.Fault
import Offside.Token.Piece
import Offside.Tree.Basic

/-!
# The outline of a text

The lines of a text that are not empty form an outline by their indents alone. A line is a
call or a text; it is in its place or not; and what it contributes is an item that holds the
items of the lines below it. Nothing here reads the text in order.
-/

namespace Offside

/-- A line that is not empty. -/
structure SourceLine where
  /-- Which line of the text it is, counted from one. -/
  number : Nat
  /-- Its characters before the break. -/
  content : List Char
deriving Inhabited

namespace SourceLine

/-- How many blanks begin the line. -/
def indent (line : SourceLine) : Nat :=
  (line.content.takeWhile Text.isBlank).length

/-- What follows the indent. -/
def body (line : SourceLine) : List Char :=
  line.content.dropWhile Text.isBlank

/-- Whether a call follows the indent. -/
def isCall (sigil : Char) (line : SourceLine) : Bool :=
  opensCall sigil line.body

/-- Where the line begins. -/
def start (line : SourceLine) : Position := ⟨line.number, 1⟩

/-- Where the line continues behind its indent. -/
def bodyStart (line : SourceLine) : Position := ⟨line.number, line.indent + 1⟩

/-- A line at the left edge has no indent to continue behind. -/
theorem bodyStart_eq_start {line : SourceLine} (h : line.indent = 0) :
    line.bodyStart = line.start := by
  rw [bodyStart, h, start]

/-- The arguments of a call from the pieces behind it on its line: texts that are not blank,
then the next call with the rest. The last call of the line takes in the given items. -/
def inlineItems (items : List Item) (place : Position) : List Piece → List Item
  | [] => items
  | .call name :: rest =>
    [.call (String.ofList name) place (inlineItems items (place.advance name) rest)]
  | .text content :: rest =>
    if Text.isBlankText (String.ofList content) then inlineItems items (place.advance content) rest
    else .text (String.ofList content) :: inlineItems items (place.advance content) rest
  | piece :: rest => inlineItems items (place.advance piece.chars) rest

/-- What a line comes to: its text as a whole, or its first call, where the given items are
the arguments that the last call of the line has from the lines below. -/
def item (sigil : Char) (line : SourceLine) (items : List Item) : Item :=
  match bodyPieces sigil line.body with
  | .call name :: rest =>
    .call (String.ofList name) line.bodyStart
      (inlineItems items (line.bodyStart.advance name) rest)
  | _ => .text (String.ofList line.body)

/-- What is wrong with a line that is not in its place. -/
def misplaced (line : SourceLine) : Fault :=
  if line.indent = 0 then .unindentedText line.start
  else .unmatchedIndent line.indent line.start

end SourceLine

/-! ### Outlines -/

/-- Numbers lines from the given number on and leaves out those that are empty. -/
def numberLines (number : Nat) : List Line → List SourceLine
  | [] => []
  | line :: later =>
    if line.content = [] then numberLines (number + 1) later
    else ⟨number, line.content⟩ :: numberLines (number + 1) later

/-- The lines of a text that are not empty. -/
def outline (text : String) : List SourceLine :=
  numberLines 1 (Line.ofChars text.toList)

namespace Outline

variable (sigil : Char) (lines : List SourceLine)

/-- The line with the given index. -/
def line (i : ℕ) : SourceLine := lines.getD i default

/-- The indents of the lines. -/
def indents (i : ℕ) : ℕ := (line lines i).indent

/-- Which lines are calls. -/
def calls (i : ℕ) : Bool := (line lines i).isCall sigil

/-- A line is at the left edge and a call; or the nearest earlier line that is indented less
is a call, and the line behind that one has the same indent as this one. -/
def Sound (i : ℕ) : Prop := InPlace (indents lines) (calls sigil lines) i

/-- The lines at the left edge before line `n`, in order. -/
def rootsBefore (n : ℕ) : List ℕ := (List.range n).filter fun i => indents lines i = 0

/-- The lines at the left edge, in order. -/
def roots : List ℕ := rootsBefore lines lines.length

/-- What a line comes to together with all lines below it. The items of the lines that belong
to it are, in order, the last arguments of the last call on the line. -/
def item (i : ℕ) : Item :=
  (line lines i).item sigil
    ((children (indents lines) i lines.length).attach.map fun j => item j.val)
termination_by lines.length - i
decreasing_by
  obtain ⟨hj, hparent⟩ := mem_children.mp j.property
  have := hparent.1
  omega

/-- A line comes to its own content and the items of the lines that belong to it. -/
theorem item_eq (i : ℕ) :
    item sigil lines i = (line lines i).item sigil
      ((children (indents lines) i lines.length).map (item sigil lines)) := by
  rw [item, List.attach_map_val]

end Outline

end Offside
