import Mathlib.Data.List.Pairwise
import Offside.Proofs.Token.Lines

/-!
# The shape of a line of tokens

An indent stands first in its line, and a break stands last. A token of a text can be traced
back to its line, to the tokens before it there, and to the characters that it spells.
-/

namespace Offside

/-! ### The pieces of a line -/

/-- A call begins with two sigils and a character that is not blank. -/
theorem exists_name_of_mem_bodyPieces {sigil : Char} (hsigil : Text.isBlank sigil = false)
    {name chars : List Char} (h : .call name ∈ bodyPieces sigil chars) :
    ∃ c rest, name = sigil :: sigil :: c :: rest ∧ Text.isBlank c = false := by
  induction chars using bodyPieces_induction sigil with
  | nil => simp [bodyPieces_nil] at h
  | call c rest hopens ih =>
    rw [bodyPieces_call hopens] at h
    rcases List.mem_cons.mp h with heq | hmem
    · obtain ⟨third, later, hchars, hthird⟩ := exists_of_opensCall hopens
      obtain ⟨rfl, rfl⟩ := List.cons.inj hchars
      rw [Piece.call.inj heq]
      exact ⟨third, later.takeWhile fun d => !Text.isBlank d, by simp [hsigil, hthird], hthird⟩
    · exact ih hmem
  | text c rest hopens ih =>
    rw [bodyPieces_text hopens] at h
    rcases List.mem_cons.mp h with heq | hmem
    · cases heq
    · exact ih hmem

namespace Line

variable {sigil : Char} {line : Line}

/-- A piece of a line is its indent, a call or a text behind that, or its break. -/
theorem of_mem_pieces {piece : Piece} (h : piece ∈ line.pieces sigil) :
    (line.content.takeWhile Text.isBlank ≠ [] ∧
        piece = .indent (line.content.takeWhile Text.isBlank)) ∨
      piece ∈ bodyPieces sigil (line.content.dropWhile Text.isBlank) ∨
      ∃ kind, piece = .lineBreak kind := by
  simp only [pieces, List.mem_append] at h
  rcases h with (hindent | hbody) | hbreak
  · split at hindent
    · cases hindent
    · next hsome => exact .inl ⟨by simpa using hsome, List.mem_singleton.mp hindent⟩
  · exact .inr (.inl hbody)
  · cases hending : line.ending with
    | none => simp [hending] at hbreak
    | some kind => exact .inr (.inr ⟨kind, by simpa [hending] using hbreak⟩)

/-- An indent of a line holds the blanks at its start. -/
theorem blanks_of_mem_pieces {blanks : List Char} (h : .indent blanks ∈ line.pieces sigil) :
    blanks = line.content.takeWhile Text.isBlank ∧ blanks ≠ [] := by
  rcases of_mem_pieces h with ⟨hsome, heq⟩ | hbody | ⟨kind, heq⟩
  · rw [Piece.indent.inj heq]
    exact ⟨rfl, hsome⟩
  · exact (isBody_of_mem_bodyPieces sigil _ _ hbody).elim
  · cases heq

/-- The calls of a line begin with two sigils and a character that is not blank. -/
theorem exists_name_of_mem_pieces (hsigil : Text.isBlank sigil = false) {name : List Char}
    (h : .call name ∈ line.pieces sigil) :
    ∃ c rest, name = sigil :: sigil :: c :: rest ∧ Text.isBlank c = false := by
  rcases of_mem_pieces h with ⟨-, heq⟩ | hbody | ⟨kind, heq⟩
  · cases heq
  · exact exists_name_of_mem_bodyPieces hsigil hbody
  · cases heq

/-- In a line nothing stands behind the break, and no indent stands behind anything. -/
theorem pairwise_pieces (sigil : Char) (line : Line) :
    (line.pieces sigil).Pairwise fun earlier later =>
      earlier.word ≠ .lineBreak ∧ ∀ width, later.word ≠ .indent width := by
  have hbody : ∀ piece ∈ bodyPieces sigil (line.content.dropWhile Text.isBlank),
      piece.word ≠ .lineBreak ∧ ∀ width, piece.word ≠ .indent width := by
    intro piece hpiece
    have hkind := isBody_of_mem_bodyPieces sigil _ piece hpiece
    cases piece with
    | call name => simp [Piece.word]
    | text content => simp [Piece.word]
    | indent blanks => exact hkind.elim
    | lineBreak kind => exact hkind.elim
  have hindent : ∀ piece ∈ (if (line.content.takeWhile Text.isBlank).isEmpty then []
      else [Piece.indent (line.content.takeWhile Text.isBlank)]), piece.word ≠ .lineBreak := by
    split <;> simp [Piece.word]
  have hbreak : ∀ piece ∈ line.ending.elim [] fun kind => [Piece.lineBreak kind],
      ∀ width, piece.word ≠ .indent width := by
    cases line.ending <;> simp [Piece.word]
  simp only [pieces, List.pairwise_append, List.mem_append]
  refine ⟨⟨?_, ?_, ?_⟩, ?_, ?_⟩
  · split <;> simp
  · exact List.pairwise_of_forall_mem_list fun earlier hearlier later hlater =>
      ⟨(hbody earlier hearlier).1, (hbody later hlater).2⟩
  · intro earlier hearlier later hlater
    exact ⟨hindent earlier hearlier, (hbody later hlater).2⟩
  · cases line.ending <;> simp
  · rintro earlier (hearlier | hearlier) later hlater
    · exact ⟨hindent earlier hearlier, hbreak later hlater⟩
    · exact ⟨(hbody earlier hearlier).1, hbreak later hlater⟩

/-- A piece with others before it is no indent, and none of those is a break. -/
theorem words_of_pieces_eq_append {front back : List Piece} {piece : Piece}
    (h : line.pieces sigil = front ++ piece :: back) :
    ∀ earlier ∈ front, earlier.word ≠ .lineBreak ∧ ∀ width, piece.word ≠ .indent width := by
  have hpairs := pairwise_pieces sigil line
  rw [h] at hpairs
  obtain ⟨-, -, hcross⟩ := List.pairwise_append.mp hpairs
  exact fun earlier hearlier => hcross earlier hearlier piece List.mem_cons_self

/-- A line that begins with text begins neither with a blank nor with a call. -/
theorem content_of_pieces_eq_cons {content : List Char} {back : List Piece}
    (h : line.pieces sigil = .text content :: back) :
    ∃ c rest, line.content = c :: rest ∧ Text.isBlank c = false ∧
      opensCall sigil line.content = false := by
  by_cases hempty : line.content.takeWhile Text.isBlank = []
  · have hbody : line.content.dropWhile Text.isBlank = line.content := by
      have happend := List.takeWhile_append_dropWhile (p := Text.isBlank) (l := line.content)
      rwa [hempty, List.nil_append] at happend
    rw [pieces, hempty, hbody, List.isEmpty_nil, if_pos rfl, List.nil_append] at h
    cases hcontent : line.content with
    | nil =>
      rw [hcontent, bodyPieces_nil] at h
      cases hending : line.ending <;> simp [hending] at h
    | cons c rest =>
      have hc : Text.isBlank c = false := by
        by_contra hblank
        rw [hcontent, List.takeWhile_cons_of_pos (by simpa using hblank)] at hempty
        cases hempty
      refine ⟨c, rest, rfl, hc, ?_⟩
      by_contra hopens
      rw [hcontent, bodyPieces_call (by simpa using hopens)] at h
      cases h
  · rw [pieces, if_neg (by simpa using hempty)] at h
    cases h

end Line

/-! ### From tokens back to pieces -/

/-- Placed pieces keep their words. -/
theorem map_word_placePieces (place : Position) (pieces : List Piece) :
    (placePieces place pieces).map Token.word = pieces.map Piece.word := by
  induction pieces generalizing place with
  | nil => rfl
  | cons piece rest ih => rw [placePieces_cons, List.map_cons, List.map_cons, ih]

/-- A placed piece stands behind the characters of those before it. -/
theorem exists_piece_of_placePieces {place : Position} {pieces : List Piece}
    {read rest : List Token} {token : Token}
    (h : placePieces place pieces = read ++ token :: rest) :
    ∃ front piece back, pieces = front ++ piece :: back ∧ read = placePieces place front ∧
      token = ⟨piece.word, place.advance (front.flatMap Piece.chars)⟩ := by
  induction pieces generalizing place read with
  | nil => simp [placePieces_nil] at h
  | cons first pieces ih =>
    rw [placePieces_cons] at h
    cases read with
    | nil =>
      obtain ⟨htoken, -⟩ := List.cons.inj h
      exact ⟨[], first, pieces, rfl, rfl, htoken.symm⟩
    | cons earlier read =>
      obtain ⟨hearlier, hread⟩ := List.cons.inj h
      obtain ⟨front, piece, back, rfl, rfl, rfl⟩ := ih hread
      refine ⟨first :: front, piece, back, rfl, ?_, ?_⟩
      · rw [placePieces_cons, hearlier]
      · rw [List.flatMap_cons, Position.advance_append]

/-- A token of some lines stands in one of them, behind the tokens of the lines before. -/
theorem exists_line_of_lineTokens {sigil : Char} {number : ℕ} {lines : List Line}
    {read rest : List Token} {token : Token}
    (h : lineTokens sigil number lines = read ++ token :: rest) :
    ∃ before line after front piece back, lines = before ++ line :: after ∧
      line.pieces sigil = front ++ piece :: back ∧
      read = lineTokens sigil number before ++ placePieces ⟨number + before.length, 1⟩ front ∧
      token = ⟨piece.word,
        Position.advance ⟨number + before.length, 1⟩ (front.flatMap Piece.chars)⟩ := by
  induction lines generalizing number read with
  | nil => simp [lineTokens] at h
  | cons first lines ih =>
    rw [lineTokens] at h
    -- the token is in the first line, or behind it
    have hsplit : (∃ tail, placePieces ⟨number, 1⟩ (first.pieces sigil) = read ++ token :: tail) ∨
        ∃ tail, read = placePieces ⟨number, 1⟩ (first.pieces sigil) ++ tail ∧
          lineTokens sigil (number + 1) lines = tail ++ token :: rest := by
      rcases List.append_eq_append_iff.mp h with ⟨tail, hread, htail⟩ | ⟨tail, hline, htail⟩
      · exact .inr ⟨tail, hread, htail⟩
      · cases tail with
        | nil => exact .inr ⟨[], by simpa using hline.symm, htail.symm⟩
        | cons other tail =>
          obtain ⟨rfl, -⟩ := List.cons.inj htail
          exact .inl ⟨tail, hline⟩
    rcases hsplit with ⟨tail, hline⟩ | ⟨tail, hread, htail⟩
    · obtain ⟨front, piece, back, hpieces, rfl, htoken⟩ := exists_piece_of_placePieces hline
      exact ⟨[], first, lines, front, piece, back, rfl, hpieces, rfl, htoken⟩
    · obtain ⟨before, line, after, front, piece, back, rfl, hpieces, rfl, htoken⟩ := ih htail
      rw [Nat.add_right_comm, Nat.add_assoc] at hread htoken
      refine ⟨first :: before, line, after, front, piece, back, rfl, hpieces, ?_, htoken⟩
      rw [hread, lineTokens, List.append_assoc, List.length_cons]

end Offside
