import Mathlib.Data.List.TakeWhile
import Offside.Proofs.Token.Document

/-!
# The tokens of a text tile it

A text has tokens exactly when each of its carriage returns is followed by a line feed;
otherwise the first one that is not is at fault. The tokens stand for consecutive stretches
of the text that leave nothing out, and each token knows where its stretch begins.
-/

namespace Offside

/-! ### Stretches of a text -/

/-- A stretch of a text is what a word stands for. -/
inductive Word.Spells : Word → List Char → Prop where
  | call (name : List Char) : Spells (.call (String.ofList name)) name
  | text (content : List Char) : Spells (.text (String.ofList content)) content
  | feed : Spells .lineBreak ['\n']
  | returnFeed : Spells .lineBreak ['\r', '\n']
  | indent (blanks : List Char)
      (hblank : ∀ c ∈ blanks, Text.isBlank c = true ∧ c ≠ '\n' ∧ c ≠ '\r') :
      Spells (.indent blanks.length) blanks

/-- Stretches that make up a text, one for each token, none of them empty. -/
structure Tiles (tokens : List Token) (chars : List Char) (tiles : List (List Char)) : Prop where
  /-- There are as many stretches as tokens. -/
  length_eq : tiles.length = tokens.length
  /-- One after the other they are the text. -/
  flatten_eq : tiles.flatten = chars
  /-- Each token takes up some of the text. -/
  ne_nil : ∀ tile ∈ tiles, tile ≠ []
  /-- A token spells its stretch and stands where that begins. -/
  spells : ∀ (k : Nat) (hk : k < tokens.length),
    tokens[k].word.Spells tiles[k] ∧ tokens[k].position = .behind (tiles.take k).flatten

/-- A piece that can be found in a text without stray returns: it is not empty, and an
indent holds only blanks that break no line. -/
def Piece.IsSound : Piece → Prop
  | .indent blanks => blanks ≠ [] ∧ ∀ c ∈ blanks, Text.isBlank c = true ∧ c ≠ '\n' ∧ c ≠ '\r'
  | .call name => name ≠ []
  | .text content => content ≠ []
  | .lineBreak _ => True

/-- A piece behind the indent of a line can be found in a text. -/
theorem Piece.IsBody.isSound {piece : Piece} (h : piece.IsBody) : piece.IsSound := by
  cases piece with
  | indent blanks => exact h.elim
  | call name => exact h
  | text content => exact h
  | lineBreak kind => exact h.elim

/-- No piece that can be found is empty. -/
theorem Piece.IsSound.chars_ne_nil {piece : Piece} (h : piece.IsSound) : piece.chars ≠ [] := by
  cases piece with
  | indent blanks => exact h.1
  | call name => exact h
  | text content => exact h
  | lineBreak kind => cases kind <;> exact List.cons_ne_nil _ _

/-- The word of a piece stands for the characters of the piece. -/
theorem Piece.IsSound.spells {piece : Piece} (h : piece.IsSound) :
    piece.word.Spells piece.chars := by
  cases piece with
  | indent blanks => exact .indent blanks h.2
  | call name => exact .call name
  | text content => exact .text content
  | lineBreak kind =>
    cases kind with
    | feed => exact .feed
    | returnFeed => exact .returnFeed

/-- The pieces of a plain line are sound. -/
theorem Line.isSound_of_mem_pieces (sigil : Char) {line : Line} (hplain : line.IsPlain) :
    ∀ piece ∈ line.pieces sigil, piece.IsSound := by
  intro piece hpiece
  simp only [pieces, List.mem_append] at hpiece
  rcases hpiece with (hindent | hbody) | hbreak
  · split at hindent
    · cases hindent
    · next hempty =>
      obtain rfl := List.mem_singleton.mp hindent
      constructor
      · simpa using hempty
      · intro c hc
        have hmem : c ∈ line.content := (List.takeWhile_sublist _).subset hc
        have hblank : Text.isBlank c = true := by simpa using List.mem_takeWhile_imp hc
        refine ⟨hblank, ?_, ?_⟩
        · rintro rfl
          exact hplain.1 hmem
        · rintro rfl
          exact hplain.2 hmem
  · exact (isBody_of_mem_bodyPieces sigil _ piece hbody).isSound
  · cases hending : line.ending with
    | none => simp [hending] at hbreak
    | some kind =>
      obtain rfl : piece = .lineBreak kind := by simpa [hending] using hbreak
      trivial

/-- The pieces of a text without stray returns are sound. -/
theorem isSound_of_mem_pieces (sigil : Char) {chars : List Char} (h : Unstrayed chars) :
    ∀ piece ∈ pieces sigil chars, piece.IsSound := by
  intro piece hpiece
  obtain ⟨line, hline, hpiece⟩ := List.mem_flatMap.mp hpiece
  exact Line.isSound_of_mem_pieces sigil (Line.isPlain_of_mem_ofChars h hline) piece hpiece

/-- Placed pieces are as many tokens. -/
theorem length_placePieces (place : Position) (pieces : List Piece) :
    (placePieces place pieces).length = pieces.length := by
  induction pieces generalizing place with
  | nil => rfl
  | cons piece rest ih => rw [placePieces_cons, List.length_cons, ih, List.length_cons]

/-- A placed piece keeps its word and stands behind the pieces before it. -/
theorem getElem?_placePieces (place : Position) (pieces : List Piece) (k : Nat) :
    (placePieces place pieces)[k]? = pieces[k]?.map fun piece =>
      ⟨piece.word, place.advance ((pieces.take k).flatMap Piece.chars)⟩ := by
  induction pieces generalizing place k with
  | nil => simp [placePieces_nil]
  | cons piece rest ih =>
    cases k with
    | zero => simp [placePieces_cons, Position.advance_nil]
    | succ k => simp [placePieces_cons, ih, Position.advance_append]

/-- Sound pieces tile what they spell, placed from its first character on. -/
theorem tiles_placePieces {pieces : List Piece} (h : ∀ piece ∈ pieces, piece.IsSound) :
    Tiles (placePieces .first pieces) (pieces.flatMap Piece.chars) (pieces.map Piece.chars) where
  length_eq := by rw [List.length_map, length_placePieces]
  flatten_eq := (List.flatMap_def ..).symm
  ne_nil := by
    intro tile htile
    obtain ⟨piece, hpiece, rfl⟩ := List.mem_map.mp htile
    exact (h piece hpiece).chars_ne_nil
  spells := by
    intro k hk
    have hk' : k < pieces.length := by rwa [length_placePieces] at hk
    have htoken := getElem?_placePieces .first pieces k
    rw [List.getElem?_eq_getElem hk, List.getElem?_eq_getElem hk', Option.map_some,
      Option.some.injEq] at htoken
    rw [htoken, List.getElem_map, Position.first_advance, ← List.map_take, ← List.flatMap_def]
    exact ⟨(h _ (List.getElem_mem hk')).spells, rfl⟩

/-! ### Tokenizing -/

/-- A text has tokens exactly when each of its carriage returns is followed by a line feed.
If one is not, the first such is reported with its place. The tokens of a text stand for
consecutive stretches that make it up, and each stands where its stretch begins. -/
theorem tokenize_tiles (sigil : Char) (hsigil : Text.isBlank sigil = false) (text : String) :
    ((∃ tokens, tokenize sigil text = .ok tokens) ↔ ∀ i, ¬ IsStrayReturn text.toList i) ∧
    ((¬ ∀ i, ¬ IsStrayReturn text.toList i) →
      ∃ i, IsStrayReturn text.toList i ∧ (∀ j < i, ¬ IsStrayReturn text.toList j) ∧
        tokenize sigil text = .error (.strayReturn (.behind (text.toList.take i)))) ∧
    ∀ tokens, tokenize sigil text = .ok tokens → ∃ tiles, Tiles tokens text.toList tiles := by
  have herror (h : ¬ Unstrayed text.toList) :
      ∃ i, IsStrayReturn text.toList i ∧ (∀ j < i, ¬ IsStrayReturn text.toList j) ∧
        tokenize sigil text = .error (.strayReturn (.behind (text.toList.take i))) := by
    obtain ⟨i, hi, hfirst⟩ := exists_first_stray h
    refine ⟨i, hi, hfirst, ?_⟩
    rw [tokenize_of_first_stray hsigil hi hfirst, Position.first_advance]
  have hunstrayed (tokens : List Token) (htokens : tokenize sigil text = .ok tokens) :
      Unstrayed text.toList := by
    by_contra h
    obtain ⟨_, _, _, hfault⟩ := herror h
    rw [hfault] at htokens
    cases htokens
  refine ⟨?_, herror, ?_⟩
  · constructor
    · rintro ⟨tokens, htokens⟩
      exact hunstrayed tokens htokens
    · intro h
      exact ⟨_, tokenize_of_unstrayed hsigil h⟩
  · intro tokens htokens
    have h := hunstrayed tokens htokens
    obtain rfl : placePieces .first (pieces sigil text.toList) = tokens :=
      Except.ok.inj ((tokenize_of_unstrayed hsigil h).symm.trans htokens)
    have htiles := tiles_placePieces (isSound_of_mem_pieces sigil h)
    rw [flatMap_chars_pieces] at htiles
    exact ⟨_, htiles⟩

/-- The tokens of a call with a block below it tile the two lines. -/
theorem tokenize_tiles_block : Text.isBlank '$' = false ∧
    tokenize '$' "$$a x\r\n\t$$b" = .ok
      [⟨.call "$$a", ⟨1, 1⟩⟩, ⟨.text " x", ⟨1, 4⟩⟩, ⟨.lineBreak, ⟨1, 6⟩⟩,
        ⟨.indent 1, ⟨2, 1⟩⟩, ⟨.call "$$b", ⟨2, 2⟩⟩] ∧
    ∃ tiles, Tiles
      [⟨.call "$$a", ⟨1, 1⟩⟩, ⟨.text " x", ⟨1, 4⟩⟩, ⟨.lineBreak, ⟨1, 6⟩⟩,
        ⟨.indent 1, ⟨2, 1⟩⟩, ⟨.call "$$b", ⟨2, 2⟩⟩] "$$a x\r\n\t$$b".toList tiles := by
  have htokens : tokenize '$' "$$a x\r\n\t$$b" = .ok
      [⟨.call "$$a", ⟨1, 1⟩⟩, ⟨.text " x", ⟨1, 4⟩⟩, ⟨.lineBreak, ⟨1, 6⟩⟩,
        ⟨.indent 1, ⟨2, 1⟩⟩, ⟨.call "$$b", ⟨2, 2⟩⟩] := by
    decide +kernel
  exact ⟨by decide, htokens, (tokenize_tiles '$' (by decide) _).2.2 _ htokens⟩

end Offside
