import Offside.Text.Blank
import Offside.Token.Basic
import Offside.Token.Line

/-!
# Pieces of a text

Each line is cut into pieces: its leading blanks, then calls and texts in turn, then
its break. A call begins where two sigils stand before a character that is not
blank, and runs to the next blank. Any other piece is text, and text is only
interrupted where two sigils stand before an ASCII letter, a digit or an underscore.

This is the grammar seen one line at a time, without its rules. `tokenize` follows the
rules, and `tokenize_eq` says that the two come to the same.
-/

namespace Offside

/-- A stretch of a text that makes up one word. -/
inductive Piece where
  /-- The blanks at the start of a line. -/
  | indent (blanks : List Char)
  /-- A call. -/
  | call (name : List Char)
  /-- Literal text. -/
  | text (content : List Char)
  /-- The break behind a line. -/
  | lineBreak (kind : LineBreak)
deriving DecidableEq

namespace Piece

/-- The characters of a piece. -/
def chars : Piece → List Char
  | .indent blanks => blanks
  | .call name => name
  | .text content => content
  | .lineBreak kind => kind.chars

/-- The word that a piece spells. -/
def word : Piece → Word
  | .indent blanks => .indent blanks.length
  | .call name => .call (String.ofList name)
  | .text content => .text (String.ofList content)
  | .lineBreak _ => .lineBreak

end Piece

/-! ### Where calls begin -/

/-- Whether two sigils and a character that is not blank stand at the front. -/
def opensCall (sigil : Char) : List Char → Bool
  | a :: b :: c :: _ => a == sigil && b == sigil && !Text.isBlank c
  | _ => false

/-- Whether a character can stand first in a name that interrupts text. -/
def isNameStart (c : Char) : Bool :=
  c.isAlphanum || c == '_'

/-- Whether two sigils and the start of a name stand at the front, as they must to
interrupt text. -/
def interruptsText (sigil : Char) : List Char → Bool
  | a :: b :: c :: _ => a == sigil && b == sigil && isNameStart c
  | _ => false

/-- The text that has begun with `taken`, latest character first, to its end, and what is
left behind it. -/
def takeText (sigil : Char) (taken : List Char) : List Char → List Char × List Char
  | [] => (taken.reverse, [])
  | c :: rest =>
    if interruptsText sigil (c :: rest) then (taken.reverse, c :: rest)
    else takeText sigil (c :: taken) rest

/-- Taking text loses nothing. -/
theorem takeText_append (sigil : Char) (taken chars : List Char) :
    (takeText sigil taken chars).1 ++ (takeText sigil taken chars).2 = taken.reverse ++ chars := by
  induction chars generalizing taken with
  | nil => simp [takeText]
  | cons c rest ih =>
    unfold takeText
    split
    · rfl
    · simpa using ih (c :: taken)

/-- What is left behind a text is no longer than what was there. -/
theorem length_takeText_le (sigil : Char) (taken chars : List Char) :
    (takeText sigil taken chars).2.length ≤ chars.length := by
  induction chars generalizing taken with
  | nil => simp [takeText]
  | cons c rest ih =>
    unfold takeText
    split
    · exact Nat.le_refl _
    · exact Nat.le_trans (ih (c :: taken)) (Nat.le_succ _)

/-- What is left once leading characters are dropped is no longer than what was there. -/
theorem length_dropWhile_le (p : Char → Bool) (chars : List Char) :
    (chars.dropWhile p).length ≤ chars.length :=
  (List.dropWhile_sublist p).length_le

/-! ### Cutting a line -/

/-- Cuts what follows the indent of a line into calls and texts, behind the pieces that
are `found` already, latest first. The first character of a text needs no test: a name
that could interrupt there would begin a call. -/
def cutBody (sigil : Char) (found : List Piece) : List Char → List Piece
  | [] => found.reverse
  | c :: rest =>
    if opensCall sigil (c :: rest) then
      cutBody sigil (.call (c :: rest.takeWhile fun d => !Text.isBlank d) :: found)
        (rest.dropWhile fun d => !Text.isBlank d)
    else
      cutBody sigil (.text (takeText sigil [c] rest).1 :: found) (takeText sigil [c] rest).2
termination_by chars => chars.length
decreasing_by
  · exact Nat.lt_succ_of_le (length_dropWhile_le _ rest)
  · exact Nat.lt_succ_of_le (length_takeText_le sigil [c] rest)

/-- The calls and texts of a line behind its indent. -/
def bodyPieces (sigil : Char) (chars : List Char) : List Piece :=
  cutBody sigil [] chars

/-- The pieces of a line. -/
def Line.pieces (sigil : Char) (line : Line) : List Piece :=
  let blanks := line.content.takeWhile Text.isBlank
  let body := line.content.dropWhile Text.isBlank
  (if blanks.isEmpty then [] else [.indent blanks]) ++ bodyPieces sigil body ++
    line.ending.elim [] fun kind => [.lineBreak kind]

/-- The pieces of a text, line after line. -/
def pieces (sigil : Char) (chars : List Char) : List Piece :=
  (Line.ofChars chars).flatMap (Line.pieces sigil)

/-! ### One equation for each kind of piece -/

/-- The name of a call that begins with the given character, and what is left behind it. -/
theorem cutBody_call {sigil c : Char} {rest : List Char} (h : opensCall sigil (c :: rest) = true)
    (found : List Piece) :
    cutBody sigil found (c :: rest) =
      cutBody sigil (.call (c :: rest.takeWhile fun d => !Text.isBlank d) :: found)
        (rest.dropWhile fun d => !Text.isBlank d) := by
  rw [cutBody, if_pos h]

/-- Whatever does not begin a call begins a text. -/
theorem cutBody_text {sigil c : Char} {rest : List Char} (h : opensCall sigil (c :: rest) = false)
    (found : List Piece) :
    cutBody sigil found (c :: rest) =
      cutBody sigil (.text (takeText sigil [c] rest).1 :: found) (takeText sigil [c] rest).2 := by
  rw [cutBody, if_neg (by simp [h])]

/-- What was found before stays in front. -/
theorem cutBody_eq_append (sigil : Char) (found : List Piece) :
    ∀ chars, cutBody sigil found chars = found.reverse ++ bodyPieces sigil chars
  | [] => by simp [bodyPieces, cutBody]
  | c :: rest => by
    unfold bodyPieces
    cases h : opensCall sigil (c :: rest) with
    | true =>
      rw [cutBody_call h, cutBody_call h, cutBody_eq_append, cutBody_eq_append sigil [_]]
      simp
    | false =>
      rw [cutBody_text h, cutBody_text h, cutBody_eq_append, cutBody_eq_append sigil [_]]
      simp
termination_by chars => chars.length
decreasing_by
  · exact Nat.lt_succ_of_le (length_takeText_le sigil [c] rest)
  · exact Nat.lt_succ_of_le (length_takeText_le sigil [c] rest)
  · exact Nat.lt_succ_of_le (length_dropWhile_le _ rest)
  · exact Nat.lt_succ_of_le (length_dropWhile_le _ rest)

/-- Behind the indent of an empty line there is nothing. -/
theorem bodyPieces_nil (sigil : Char) : bodyPieces sigil [] = [] := by
  simp [bodyPieces, cutBody]

/-- A call is a piece up to the next blank. -/
theorem bodyPieces_call {sigil c : Char} {rest : List Char}
    (h : opensCall sigil (c :: rest) = true) :
    bodyPieces sigil (c :: rest) =
      .call (c :: rest.takeWhile fun d => !Text.isBlank d) ::
        bodyPieces sigil (rest.dropWhile fun d => !Text.isBlank d) := by
  rw [bodyPieces, cutBody_call h, cutBody_eq_append]
  rfl

/-- A text is a piece up to the next interruption. -/
theorem bodyPieces_text {sigil c : Char} {rest : List Char}
    (h : opensCall sigil (c :: rest) = false) :
    bodyPieces sigil (c :: rest) =
      .text (takeText sigil [c] rest).1 :: bodyPieces sigil (takeText sigil [c] rest).2 := by
  rw [bodyPieces, cutBody_text h, cutBody_eq_append]
  rfl

end Offside
