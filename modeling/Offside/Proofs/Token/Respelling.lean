import Mathlib.Data.List.TakeWhile
import Offside.Proofs.Token.Document

/-!
# Other characters in the same places

The characters of a text may be replaced by others, one by one. If blanks stay blank, line
breaks stay as they are, characters that can begin a name stay such, and the sigil is replaced
by the one that takes its place, then the text has the same tokens as before at the same places,
with the characters in them replaced.
-/

namespace Offside

/-- A text with its characters replaced. -/
def Text.respell (f : Char → Char) (text : String) : String :=
  String.ofList (text.toList.map f)

/-- The characters of the text are replaced one by one. -/
theorem Text.toList_respell (f : Char → Char) (text : String) :
    (respell f text).toList = text.toList.map f :=
  String.toList_ofList

/-- Replacing characters before they make up a text comes to the same. -/
theorem Text.respell_ofList (f : Char → Char) (chars : List Char) :
    respell f (String.ofList chars) = String.ofList (chars.map f) := by
  rw [respell, String.toList_ofList]

/-- A replacement of characters that keeps what tells the words of a text apart, where one
character takes the place of another one as the sigil. -/
structure Respells (f : Char → Char) (sigil other : Char) : Prop where
  /-- Blanks stay blank. -/
  isBlank_eq : ∀ c, Text.isBlank (f c) = Text.isBlank c
  /-- The first characters of names stay such. -/
  isNameStart_eq : ∀ c, isNameStart (f c) = isNameStart c
  /-- Only a line feed becomes a line feed. -/
  feed_iff : ∀ c, f c = '\n' ↔ c = '\n'
  /-- Only a carriage return becomes a carriage return. -/
  return_iff : ∀ c, f c = '\r' ↔ c = '\r'
  /-- Only the sigil becomes the sigil. -/
  sigil_iff : ∀ c, f c = other ↔ c = sigil

/-! ### Words and pieces with other characters -/

/-- The word with its name or its text spelled otherwise. -/
def Word.respelled (spell : String → String) : Word → Word
  | .call name => .call (spell name)
  | .text content => .text (spell content)
  | word => word

/-- The token with its name or its text spelled otherwise. -/
def Token.respelled (spell : String → String) (token : Token) : Token :=
  ⟨token.word.respelled spell, token.position⟩

/-- The piece with its characters replaced. -/
def Piece.map (f : Char → Char) : Piece → Piece
  | .indent blanks => .indent (blanks.map f)
  | .call name => .call (name.map f)
  | .text content => .text (content.map f)
  | .lineBreak kind => .lineBreak kind

/-- The line with its characters replaced, but not its break. -/
def Line.map (f : Char → Char) (line : Line) : Line :=
  ⟨line.content.map f, line.ending⟩

/-- A piece with other characters stands for the same word, spelled otherwise. -/
theorem Piece.word_map (f : Char → Char) (piece : Piece) :
    (piece.map f).word = piece.word.respelled (Text.respell f) := by
  cases piece with
  | indent blanks => exact congrArg Word.indent (List.length_map f)
  | call name => exact congrArg Word.call (Text.respell_ofList f name).symm
  | text content => exact congrArg Word.text (Text.respell_ofList f content).symm
  | lineBreak kind => rfl

namespace Respells

variable {f : Char → Char} {sigil other : Char}

/-! ### Lines -/

/-- Line breaks stay what they are. -/
theorem map_break (h : Respells f sigil other) (kind : LineBreak) :
    kind.chars.map f = kind.chars := by
  have hfeed : f '\n' = '\n' := (h.feed_iff '\n').mpr rfl
  have hreturn : f '\r' = '\r' := (h.return_iff '\r').mpr rfl
  cases kind <;> simp [LineBreak.chars, hfeed, hreturn]

/-- Putting a character in front of lines ends a line where it did before. -/
theorem attach_map (h : Respells f sigil other) (c : Char) (cut : Line × List Line) :
    Line.attach (f c) (cut.1.map f, cut.2.map (Line.map f)) =
      ((Line.attach c cut).1.map f, (Line.attach c cut).2.map (Line.map f)) := by
  have hempty : cut.1.map f = ⟨[], some .feed⟩ ↔ cut.1 = ⟨[], some .feed⟩ := by
    obtain ⟨⟨content, ending⟩, later⟩ := cut
    simp [Line.map]
  unfold Line.attach
  simp only [h.feed_iff, h.return_iff, hempty]
  split
  · rfl
  · split <;> rfl

/-- A text breaks into lines where it did before. -/
theorem cut_map (h : Respells f sigil other) (chars : List Char) :
    Line.cut (chars.map f) =
      ((Line.cut chars).1.map f, (Line.cut chars).2.map (Line.map f)) := by
  induction chars with
  | nil => rfl
  | cons c rest ih => rw [List.map_cons, Line.cut_cons, ih, h.attach_map, Line.cut_cons]

/-- The lines of a text are those that it had before, with other characters. -/
theorem ofChars_map (h : Respells f sigil other) (chars : List Char) :
    Line.ofChars (chars.map f) = (Line.ofChars chars).map (Line.map f) := by
  rw [Line.ofChars, h.cut_map, Line.ofChars, List.map_cons]

/-! ### Pieces -/

/-- A character is the one sigil if it comes from the other one. -/
theorem sigil_eq (h : Respells f sigil other) (c : Char) : (f c == other) = (c == sigil) := by
  rw [Bool.eq_iff_iff, beq_iff_eq, beq_iff_eq, h.sigil_iff]

/-- A call begins where one began before. -/
theorem opensCall_map (h : Respells f sigil other) (chars : List Char) :
    opensCall other (chars.map f) = opensCall sigil chars := by
  match chars with
  | [] => rfl
  | [_] => rfl
  | [_, _] => rfl
  | _ :: _ :: _ :: _ => simp only [List.map_cons, opensCall, h.sigil_eq, h.isBlank_eq]

/-- A text is interrupted where it was before. -/
theorem interruptsText_map (h : Respells f sigil other) (chars : List Char) :
    interruptsText other (chars.map f) = interruptsText sigil chars := by
  match chars with
  | [] => rfl
  | [_] => rfl
  | [_, _] => rfl
  | _ :: _ :: _ :: _ => simp only [List.map_cons, interruptsText, h.sigil_eq, h.isNameStart_eq]

/-- A text goes on as far as before. -/
theorem takeText_map (h : Respells f sigil other) (taken chars : List Char) :
    takeText other (taken.map f) (chars.map f) =
      ((takeText sigil taken chars).1.map f, (takeText sigil taken chars).2.map f) := by
  induction chars generalizing taken with
  | nil => simp [takeText]
  | cons c rest ih =>
    rw [takeText, List.map_cons, takeText, ← List.map_cons, h.interruptsText_map]
    split
    · simp
    · exact ih (c :: taken)

/-- What stands behind an indent has the pieces that it had before. -/
theorem bodyPieces_map (h : Respells f sigil other) (chars : List Char) :
    bodyPieces other (chars.map f) = (bodyPieces sigil chars).map (Piece.map f) := by
  induction chars using bodyPieces_induction sigil with
  | nil => rw [List.map_nil, bodyPieces_nil, bodyPieces_nil, List.map_nil]
  | call c rest hopens ih =>
    have hmapped : opensCall other (f c :: rest.map f) = true := (h.opensCall_map _).trans hopens
    rw [List.map_cons, bodyPieces_call hmapped, bodyPieces_call hopens, List.map_cons, ← ih]
    simp only [List.takeWhile_map, List.dropWhile_map, Function.comp_def, h.isBlank_eq, Piece.map,
      List.map_cons]
  | text c rest hopens ih =>
    have hmapped : opensCall other (f c :: rest.map f) = false := (h.opensCall_map _).trans hopens
    have htaken := h.takeText_map [c] rest
    rw [List.map_cons, bodyPieces_text hmapped, bodyPieces_text hopens, List.map_cons, ← ih]
    rw [List.map_cons, List.map_nil] at htaken
    rw [htaken]
    rfl

/-- A line has the pieces that it had before. -/
theorem line_pieces_map (h : Respells f sigil other) (line : Line) :
    (line.map f).pieces other = (line.pieces sigil).map (Piece.map f) := by
  have hindent (blanks : List Char) :
      (if (blanks.map f).isEmpty then [] else [Piece.indent (blanks.map f)]) =
        (if blanks.isEmpty then [] else [Piece.indent blanks]).map (Piece.map f) := by
    cases blanks <;> rfl
  have hbreak : (line.ending.elim [] fun kind => [Piece.lineBreak kind]) =
      (line.ending.elim [] fun kind => [Piece.lineBreak kind]).map (Piece.map f) := by
    cases line.ending <;> rfl
  have hblank : Text.isBlank ∘ f = Text.isBlank := funext h.isBlank_eq
  simp only [Line.pieces, Line.map, List.takeWhile_map, List.dropWhile_map, hblank, hindent,
    h.bodyPieces_map, List.map_append, ← hbreak]

/-- A text has the pieces that it had before. -/
theorem pieces_map (h : Respells f sigil other) (chars : List Char) :
    pieces other (chars.map f) = (pieces sigil chars).map (Piece.map f) := by
  rw [pieces, h.ofChars_map, pieces, List.flatMap_map, List.map_flatMap]
  exact congrArg (List.flatMap · _) (funext h.line_pieces_map)

/-! ### Places -/

/-- The characters of a piece are replaced one by one. -/
theorem chars_map (h : Respells f sigil other) (piece : Piece) :
    (piece.map f).chars = piece.chars.map f := by
  cases piece with
  | lineBreak kind => exact (h.map_break kind).symm
  | _ => rfl

/-- A replaced character leads on to the same place: it is a line feed only if it was one. -/
theorem step_map (h : Respells f sigil other) (place : Position) (c : Char) :
    place.step (f c) = place.step c := by
  simp only [Position.step, h.feed_iff]

/-- A walk over replaced characters leads where it led before. -/
theorem advance_map (h : Respells f sigil other) (place : Position) (chars : List Char) :
    place.advance (chars.map f) = place.advance chars := by
  induction chars generalizing place with
  | nil => rfl
  | cons c rest ih =>
    rw [List.map_cons, Position.advance_cons, Position.advance_cons, h.step_map, ih]

/-- Placed pieces stay at their places. -/
theorem placePieces_map (h : Respells f sigil other) (place : Position) (pieces : List Piece) :
    placePieces place (pieces.map (Piece.map f)) =
      (placePieces place pieces).map (Token.respelled (Text.respell f)) := by
  induction pieces generalizing place with
  | nil => rfl
  | cons piece rest ih =>
    rw [List.map_cons, placePieces_cons, placePieces_cons, Piece.word_map, h.chars_map,
      h.advance_map, ih]
    rfl

/-- A stray return is where it was before. -/
theorem strayReturn?_map (h : Respells f sigil other) (place : Position) (chars : List Char) :
    strayReturn? place (chars.map f) = strayReturn? place chars := by
  induction chars generalizing place with
  | nil => rfl
  | cons c rest ih =>
    by_cases hc : c = '\r'
    · have hhead : (rest.map f).head? = some '\n' ↔ rest.head? = some '\n' := by
        cases rest <;> simp [h.feed_iff]
      rw [List.map_cons, (h.return_iff c).mpr hc, hc, strayReturn?_return, strayReturn?_return, ih]
      simp only [hhead]
    · have hother : f c ≠ '\r' := fun heq => hc ((h.return_iff c).mp heq)
      rw [List.map_cons, strayReturn?_cons_of_ne hother, strayReturn?_cons_of_ne hc, h.step_map,
        ih]

/-- A text with other characters has the tokens that it had before, or the same fault. -/
theorem tokenize_respell (h : Respells f sigil other) (hsigil : Text.isBlank sigil = false)
    (text : String) :
    tokenize other (Text.respell f text) =
      (tokenize sigil text).map (List.map (Token.respelled (Text.respell f))) := by
  have hother : Text.isBlank other = false := by
    rw [← (h.sigil_iff sigil).mpr rfl, h.isBlank_eq, hsigil]
  rw [tokenize_eq hsigil, tokenize_eq hother]
  simp only [Text.toList_respell, h.strayReturn?_map, h.pieces_map, h.placePieces_map]
  cases strayReturn? .first text.toList <;> rfl

end Respells

end Offside
