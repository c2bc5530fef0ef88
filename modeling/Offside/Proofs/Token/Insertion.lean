import Offside.Proofs.Token.Lines

/-!
# Putting a line into a text

A line that is put between two lines of a text leaves the other lines as they are. The tokens
of the lines in front of it stay where they are, and the tokens of the lines behind it move
down by one line.
-/

namespace Offside

/-! ### Lines in front of a text -/

namespace Line

/-- All lines that have lines behind them are broken. -/
theorem Consecutive.ending_ne_none {first : Line} {later before after : List Line}
    (h : first.Consecutive later) (hlines : first :: later = before ++ after)
    (hafter : after ≠ []) : ∀ line ∈ before, line.ending ≠ none := by
  induction before generalizing first later with
  | nil => simp
  | cons line before ih =>
    obtain ⟨rfl, hlater⟩ := List.cons.inj hlines
    cases later with
    | nil => exact absurd (List.append_eq_nil_iff.mp hlater.symm).2 hafter
    | cons next rest => exact List.forall_mem_cons.mpr ⟨h.1, ih h.2 hlater⟩

/-- Plain lines, each with its break, are the first lines of a text that begins with them. -/
theorem ofChars_flatMap_append {front : List Line} (hplain : ∀ line ∈ front, line.IsPlain)
    (hbroken : ∀ line ∈ front, line.ending ≠ none) (rest : List Char) :
    ofChars (front.flatMap chars ++ rest) = front ++ ofChars rest := by
  induction front with
  | nil => rfl
  | cons line front ih =>
    obtain ⟨⟨hfeed, hreturn⟩, hothers⟩ := List.forall_mem_cons.mp hplain
    obtain ⟨hending, hendings⟩ := List.forall_mem_cons.mp hbroken
    obtain ⟨content, ending⟩ := line
    obtain ⟨kind, rfl⟩ := Option.ne_none_iff_exists'.mp hending
    have hchars : chars ⟨content, some kind⟩ = content ++ kind.chars := rfl
    rw [List.flatMap_cons, hchars, List.append_assoc, List.append_assoc,
      ofChars_broken hfeed hreturn, ih hothers hendings, List.cons_append]

end Line

/-- What stands behind something is as free of stray returns as all of it. -/
theorem unstrayed_of_append {front back : List Char} (h : Unstrayed (front ++ back)) :
    Unstrayed back := by
  induction front with
  | nil => exact h
  | cons c front ih => exact ih (unstrayed_cons.mp h).2

/-- Plain lines in front bring in no stray return. -/
theorem unstrayed_flatMap_append {front : List Line} (hplain : ∀ line ∈ front, line.IsPlain)
    {rest : List Char} (hrest : Unstrayed rest) : Unstrayed (front.flatMap Line.chars ++ rest) := by
  induction front with
  | nil => exact hrest
  | cons line front ih =>
    obtain ⟨⟨-, hreturn⟩, hothers⟩ := List.forall_mem_cons.mp hplain
    rw [List.flatMap_cons, List.append_assoc, Line.chars, List.append_assoc]
    apply unstrayed_append hreturn
    cases line.ending with
    | none => exact ih hothers
    | some kind => exact unstrayed_break kind (ih hothers)

/-- A plain line that is broken can be put in front of any line of a text. It is then a line
of the text, and the others are as they were. -/
theorem Line.ofChars_insert {text : List Char} (h : Unstrayed text) {before after : List Line}
    (hlines : ofChars text = before ++ after) (hafter : after ≠ []) {line : Line}
    (hplain : line.IsPlain) (hbroken : line.ending ≠ none) :
    let widened := (before ++ line :: after).flatMap chars
    ofChars widened = before ++ line :: after ∧ Unstrayed widened := by
  intro widened
  have hbefore : ∀ other ∈ before, other.IsPlain := fun other hother =>
    isPlain_of_mem_ofChars h (hlines ▸ List.mem_append_left after hother)
  have hending : ∀ other ∈ before, other.ending ≠ none :=
    (consecutive_cut text).ending_ne_none hlines hafter
  have htext : text = before.flatMap chars ++ after.flatMap chars := by
    rw [← List.flatMap_append, ← hlines, flatMap_chars_ofChars]
  -- the lines behind are those that their own characters spell
  have hback : ofChars (after.flatMap chars) = after := by
    rw [htext, ofChars_flatMap_append hbefore hending] at hlines
    exact List.append_cancel_left hlines
  have hfront : ∀ other ∈ before ++ [line], other.IsPlain ∧ other.ending ≠ none := by
    intro other hother
    rcases List.mem_append.mp hother with hmem | hmem
    · exact ⟨hbefore other hmem, hending other hmem⟩
    · rw [List.mem_singleton.mp hmem]
      exact ⟨hplain, hbroken⟩
  have hwidened : widened = (before ++ [line]).flatMap chars ++ after.flatMap chars := by
    rw [← List.flatMap_append, List.append_assoc, List.singleton_append]
  rw [hwidened]
  constructor
  · rw [ofChars_flatMap_append (fun other hother => (hfront other hother).1)
      (fun other hother => (hfront other hother).2), hback, List.append_assoc,
      List.singleton_append]
  · apply unstrayed_flatMap_append fun other hother => (hfront other hother).1
    rw [htext] at h
    exact unstrayed_of_append h

/-! ### Where tokens stand -/

namespace Position

/-- The same place one line further down. -/
def down (place : Position) : Position := ⟨place.line + 1, place.column⟩

/-- Where a place comes to be if a line is put in behind the first lines, so many in number. -/
def moved (number : ℕ) (place : Position) : Position :=
  if number < place.line then place.down else place

/-- Places on later lines move down by one. -/
theorem moved_of_lt {number : ℕ} {place : Position} (h : number < place.line) :
    place.moved number = place.down := if_pos h

/-- Places on the first lines stay. -/
theorem moved_of_le {number : ℕ} {place : Position} (h : place.line ≤ number) :
    place.moved number = place := if_neg (Nat.not_lt.mpr h)

/-- A walk that starts one line further down ends one line further down. -/
theorem advance_down (place : Position) (chars : List Char) :
    place.down.advance chars = (place.advance chars).down := by
  induction chars generalizing place with
  | nil => rfl
  | cons c rest ih =>
    have hstep : place.down.step c = (place.step c).down := by
      unfold step
      split <;> rfl
    rw [advance_cons, advance_cons, hstep, ih]

end Position

/-- Where a token comes to be if a line is put in behind the first lines, so many in number. -/
def Token.moved (number : ℕ) (token : Token) : Token :=
  ⟨token.word, token.position.moved number⟩

/-- Pieces that break no line all begin on one line. -/
theorem line_of_mem_placePieces {pieces : List Piece} (h : '\n' ∉ pieces.flatMap Piece.chars)
    (place : Position) : ∀ token ∈ placePieces place pieces, token.position.line = place.line := by
  induction pieces generalizing place with
  | nil => simp [placePieces_nil]
  | cons piece rest ih =>
    rw [List.flatMap_cons, List.mem_append, not_or] at h
    have hline : (place.advance piece.chars).line = place.line := by
      rw [Position.advance_of_not_mem h.1]
    rw [placePieces_cons]
    exact List.forall_mem_cons.mpr ⟨rfl, fun token htoken => (ih h.2 _ token htoken).trans hline⟩

/-- The tokens of a line are on this line, its break included. -/
theorem line_of_mem_placePieces_line (sigil : Char) {line : Line} (hfeed : '\n' ∉ line.content)
    (number : ℕ) :
    ∀ token ∈ placePieces ⟨number, 1⟩ (line.pieces sigil), token.position.line = number := by
  have hpieces : line.pieces sigil = Line.pieces sigil ⟨line.content, none⟩ ++
      line.ending.elim [] fun kind => [.lineBreak kind] := by
    simp only [Line.pieces, Option.elim_none, List.append_nil]
  have hcontent : (Line.pieces sigil ⟨line.content, none⟩).flatMap Piece.chars = line.content := by
    rw [Line.flatMap_chars_pieces, Line.chars, Option.elim_none, List.append_nil]
  rw [hpieces, placePieces_append, hcontent]
  intro token htoken
  rcases List.mem_append.mp htoken with hmem | hmem
  · exact line_of_mem_placePieces (by rwa [hcontent]) ⟨number, 1⟩ token hmem
  · cases hending : line.ending with
    | none =>
      rw [hending, Option.elim_none, placePieces_nil] at hmem
      cases hmem
    | some kind =>
      rw [hending, Option.elim_some, placePieces_cons, placePieces_nil] at hmem
      rw [List.mem_singleton.mp hmem, Position.advance_of_not_mem hfeed]

/-- The tokens of lines are on these lines. -/
theorem line_of_mem_lineTokens (sigil : Char) {lines : List Line}
    (hfeed : ∀ line ∈ lines, '\n' ∉ line.content) (number : ℕ) :
    ∀ token ∈ lineTokens sigil number lines,
      number ≤ token.position.line ∧ token.position.line < number + lines.length := by
  induction lines generalizing number with
  | nil => simp [lineTokens]
  | cons line later ih =>
    obtain ⟨hline, hlater⟩ := List.forall_mem_cons.mp hfeed
    intro token htoken
    rw [List.length_cons]
    rcases List.mem_append.mp htoken with hmem | hmem
    · have hnumber := line_of_mem_placePieces_line sigil hline number token hmem
      omega
    · have hbounds := ih hlater (number + 1) token hmem
      omega

/-- The tokens of later lines follow those of the lines before. -/
theorem lineTokens_append (sigil : Char) (number : ℕ) (front back : List Line) :
    lineTokens sigil number (front ++ back) =
      lineTokens sigil number front ++ lineTokens sigil (number + front.length) back := by
  induction front generalizing number with
  | nil => rfl
  | cons line front ih =>
    rw [List.cons_append, lineTokens, ih, lineTokens, List.append_assoc, List.length_cons,
      Nat.add_assoc, Nat.add_comm 1]

/-- Pieces that are placed one line further down have their tokens one line further down. -/
theorem placePieces_down (place : Position) (pieces : List Piece) :
    placePieces place.down pieces =
      (placePieces place pieces).map fun token => ⟨token.word, token.position.down⟩ := by
  induction pieces generalizing place with
  | nil => rfl
  | cons piece rest ih =>
    rw [placePieces_cons, placePieces_cons, Position.advance_down, ih, List.map_cons]

/-- Lines that are numbered from one number further on have their tokens one line further
down. -/
theorem lineTokens_down (sigil : Char) (number : ℕ) (lines : List Line) :
    lineTokens sigil (number + 1) lines =
      (lineTokens sigil number lines).map fun token => ⟨token.word, token.position.down⟩ := by
  induction lines generalizing number with
  | nil => rfl
  | cons line later ih =>
    rw [lineTokens, lineTokens, List.map_append, ih, ← placePieces_down]
    rfl

/-- The tokens of lines in front stay where they are. -/
theorem lineTokens_moved_before (sigil : Char) {before : List Line}
    (hfeed : ∀ line ∈ before, '\n' ∉ line.content) :
    (lineTokens sigil 1 before).map (Token.moved before.length) = lineTokens sigil 1 before := by
  rw [List.map_congr_left (g := id), List.map_id]
  intro token htoken
  have hbounds := line_of_mem_lineTokens sigil hfeed 1 token htoken
  rw [Token.moved, Position.moved_of_le (by omega)]
  rfl

/-- The tokens of lines behind move down. -/
theorem lineTokens_moved_after (sigil : Char) {after : List Line}
    (hfeed : ∀ line ∈ after, '\n' ∉ line.content) (number : ℕ) :
    (lineTokens sigil (number + 1) after).map (Token.moved number) =
      lineTokens sigil (number + 2) after := by
  rw [lineTokens_down sigil (number + 1)]
  apply List.map_congr_left
  intro token htoken
  have hbounds := line_of_mem_lineTokens sigil hfeed (number + 1) token htoken
  rw [Token.moved, Position.moved_of_lt (by omega)]

end Offside
