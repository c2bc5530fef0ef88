import Offside.Position
import Offside.Token.Piece

/-!
# Placed pieces

Pieces that are placed one behind the other are tokens, each at the place that the characters
before it lead to. A text has such tokens unless it holds a carriage return that no line feed
follows.
-/

namespace Offside

/-- The place of the first carriage return that no line feed follows, in characters that
begin at the given place. -/
def strayReturn? (place : Position) : List Char → Option Position
  | [] => none
  | '\r' :: '\n' :: rest => strayReturn? ((place.step '\r').step '\n') rest
  | '\r' :: _ => some place
  | c :: rest => strayReturn? (place.step c) rest

/-- The tokens of pieces that begin at the given place, behind the tokens that are
`placed` already, latest first. -/
def placeBehind (placed : List Token) (place : Position) : List Piece → List Token
  | [] => placed.reverse
  | piece :: rest => placeBehind (⟨piece.word, place⟩ :: placed) (place.advance piece.chars) rest

/-- The tokens of pieces that begin at the given place. -/
def placePieces (place : Position) (pieces : List Piece) : List Token :=
  placeBehind [] place pieces

/-- What was placed before stays in front. -/
theorem placeBehind_eq_append (placed : List Token) (place : Position) (pieces : List Piece) :
    placeBehind placed place pieces = placed.reverse ++ placePieces place pieces := by
  unfold placePieces
  induction pieces generalizing placed place with
  | nil => simp [placeBehind]
  | cons piece rest ih =>
    rw [placeBehind, placeBehind, ih, ih [_]]
    simp

/-- Without pieces there are no tokens. -/
theorem placePieces_nil (place : Position) : placePieces place [] = [] := rfl

/-- The first piece stands at the given place, the next ones behind its characters. -/
theorem placePieces_cons (place : Position) (piece : Piece) (rest : List Piece) :
    placePieces place (piece :: rest) =
      ⟨piece.word, place⟩ :: placePieces (place.advance piece.chars) rest := by
  rw [placePieces, placeBehind, placeBehind_eq_append]
  rfl

end Offside
