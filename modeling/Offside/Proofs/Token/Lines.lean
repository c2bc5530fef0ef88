import Offside.Proofs.Token.Pieces
import Offside.Proofs.Token.Place
import Offside.Proofs.Token.StrayReturn

/-!
# Reading a text line by line

The lines of a text hold no line feed, and no carriage return unless one is astray. Every
line but the last one is broken, so its successor begins at the start of a line of its own,
and the tokens of a text are the tokens of its lines one line after the other.
-/

namespace Offside

/-! ### Characters of a line -/

namespace Line

/-- A line whose characters break no line. -/
def IsPlain (line : Line) : Prop :=
  '\n' ∉ line.content ∧ '\r' ∉ line.content

/-- A text that begins with a line feed has an empty first line. -/
theorem cut_fst_of_head? {chars : List Char} (h : chars.head? = some '\n') :
    (cut chars).1 = ⟨[], some .feed⟩ := by
  cases chars with
  | nil => cases h
  | cons c rest =>
    have hc : c = '\n' := by simpa using h
    rw [cut_cons, attach, if_pos hc]

/-- What holds of the first line and of the later ones holds of all lines. -/
theorem forall_mem_ofChars {chars : List Char} {p : Line → Prop} :
    (∀ line ∈ ofChars chars, p line) ↔ p (cut chars).1 ∧ ∀ line ∈ (cut chars).2, p line := by
  simp [ofChars]

/-- No line of a text holds a line feed. -/
theorem feed_not_mem_content (chars : List Char) :
    ∀ line ∈ ofChars chars, '\n' ∉ line.content := by
  rw [forall_mem_ofChars]
  induction chars with
  | nil => simp [cut]
  | cons c rest ih =>
    obtain ⟨hfirst, hlater⟩ := ih
    rw [cut_cons, attach]
    split
    · exact ⟨List.not_mem_nil, List.forall_mem_cons.mpr ⟨hfirst, hlater⟩⟩
    · next hc =>
      split
      · exact ⟨List.not_mem_nil, hlater⟩
      · exact ⟨List.not_mem_cons_of_ne_of_not_mem (fun heq => hc heq.symm) hfirst, hlater⟩

/-- No line of a text without stray returns holds a carriage return. -/
theorem return_not_mem_content {chars : List Char} (h : Unstrayed chars) :
    ∀ line ∈ ofChars chars, '\r' ∉ line.content := by
  rw [forall_mem_ofChars]
  induction chars with
  | nil => simp [cut]
  | cons c rest ih =>
    obtain ⟨hreturn, hrest⟩ := unstrayed_cons.mp h
    obtain ⟨hfirst, hlater⟩ := ih hrest
    rw [cut_cons, attach]
    split
    · exact ⟨List.not_mem_nil, List.forall_mem_cons.mpr ⟨hfirst, hlater⟩⟩
    · split
      · exact ⟨List.not_mem_nil, hlater⟩
      · next hbreak =>
        have hc : '\r' ≠ c := by
          intro heq
          exact hbreak ⟨heq.symm, cut_fst_of_head? (hreturn heq.symm)⟩
        exact ⟨List.not_mem_cons_of_ne_of_not_mem hc hfirst, hlater⟩

/-- Without stray returns the lines of a text hold neither feeds nor returns. -/
theorem isPlain_of_mem_ofChars {chars : List Char} (h : Unstrayed chars) {line : Line}
    (hline : line ∈ ofChars chars) : line.IsPlain :=
  ⟨feed_not_mem_content chars line hline, return_not_mem_content h line hline⟩

/-! ### Lines that make up a text -/

/-- Every line but the last one is broken, and the last one is not, as in a text. -/
def Consecutive : Line → List Line → Prop
  | line, [] => line.ending = none
  | line, next :: later => line.ending ≠ none ∧ Consecutive next later

/-- The lines of a text are consecutive. -/
theorem consecutive_cut (chars : List Char) : Consecutive (cut chars).1 (cut chars).2 := by
  induction chars with
  | nil => rfl
  | cons c rest ih =>
    rw [cut_cons, attach]
    split
    · exact ⟨by simp, ih⟩
    · split
      · next hbreak =>
        rw [hbreak.2] at ih
        cases hlater : (cut rest).2 with
        | nil => simp [hlater, Consecutive] at ih
        | cons next later =>
          rw [hlater] at ih
          exact ⟨by simp, ih.2⟩
      · -- the first line grows, but its break stays
        cases hlater : (cut rest).2 with
        | nil =>
          rw [hlater] at ih
          exact ih
        | cons next later =>
          rw [hlater] at ih
          exact ⟨ih.1, ih.2⟩

/-- Plain characters in front of a text lengthen its first line. -/
theorem cut_append {front : List Char} (hfeed : '\n' ∉ front) (hreturn : '\r' ∉ front)
    (rest : List Char) :
    cut (front ++ rest) = (⟨front ++ (cut rest).1.content, (cut rest).1.ending⟩, (cut rest).2) := by
  induction front with
  | nil => rfl
  | cons c front ih =>
    have hc : c ≠ '\n' := by
      rintro rfl
      exact hfeed List.mem_cons_self
    have hc' : ¬ (c = '\r' ∧ (cut (front ++ rest)).1 = ⟨[], some .feed⟩) := by
      rintro ⟨rfl, _⟩
      exact hreturn List.mem_cons_self
    have hrest := ih (fun hmem => hfeed (List.mem_cons_of_mem c hmem))
      (fun hmem => hreturn (List.mem_cons_of_mem c hmem))
    rw [List.cons_append, cut_cons, attach, if_neg hc, if_neg hc', hrest]
    rfl

/-- Plain characters alone are one line. -/
theorem ofChars_singleton {content : List Char} (hfeed : '\n' ∉ content)
    (hreturn : '\r' ∉ content) : ofChars content = [⟨content, none⟩] := by
  rw [ofChars, ← List.append_nil content, cut_append hfeed hreturn]
  simp [cut]

/-- A line break starts the next line. -/
theorem cut_break (kind : LineBreak) (rest : List Char) :
    cut (kind.chars ++ rest) = (⟨[], some kind⟩, (cut rest).1 :: (cut rest).2) := by
  cases kind with
  | feed => rfl
  | returnFeed =>
    change attach '\r' (attach '\n' (cut rest)) = _
    rw [attach, if_neg (by decide), if_pos ⟨rfl, rfl⟩]
    rfl

/-- A plain line with its break is the first line of a text that begins with it. -/
theorem ofChars_broken {content : List Char} (hfeed : '\n' ∉ content) (hreturn : '\r' ∉ content)
    (kind : LineBreak) (rest : List Char) :
    ofChars (content ++ (kind.chars ++ rest)) = ⟨content, some kind⟩ :: ofChars rest := by
  rw [ofChars, cut_append hfeed hreturn, cut_break, List.append_nil]
  rfl

end Line

/-! ### The tokens of lines -/

/-- The tokens of lines, the first of which has the given number. -/
def lineTokens (sigil : Char) (number : Nat) : List Line → List Token
  | [] => []
  | line :: later =>
    placePieces ⟨number, 1⟩ (line.pieces sigil) ++ lineTokens sigil (number + 1) later

/-- Pieces behind others begin where those end. -/
theorem placePieces_append (place : Position) (front back : List Piece) :
    placePieces place (front ++ back) =
      placePieces place front ++ placePieces (place.advance (front.flatMap Piece.chars)) back := by
  induction front generalizing place with
  | nil => rfl
  | cons piece front ih =>
    rw [List.cons_append, placePieces_cons, placePieces_cons, ih, List.flatMap_cons,
      Position.advance_append, List.cons_append]

/-- Behind a broken line the next one begins. -/
theorem advance_line {line : Line} (hfeed : '\n' ∉ line.content) (hbroken : line.ending ≠ none)
    (number : Nat) : Position.advance ⟨number, 1⟩ line.chars = ⟨number + 1, 1⟩ := by
  obtain ⟨kind, hkind⟩ := Option.ne_none_iff_exists'.mp hbroken
  rw [Line.chars, hkind, Position.advance_append, Position.advance_of_not_mem hfeed]
  cases kind <;> rfl

/-- Consecutive lines have their tokens one line after the other, each line at its start. -/
theorem placePieces_lines (sigil : Char) {first : Line} {later : List Line}
    (hfeed : ∀ line ∈ first :: later, '\n' ∉ line.content) (h : first.Consecutive later)
    (number : Nat) :
    placePieces ⟨number, 1⟩ ((first :: later).flatMap (Line.pieces sigil)) =
      lineTokens sigil number (first :: later) := by
  induction later generalizing first number with
  | nil => simp [lineTokens]
  | cons next later ih =>
    obtain ⟨hbroken, hnext⟩ := h
    have hrest := ih (fun line hline => hfeed line (List.mem_cons_of_mem first hline)) hnext
      (number + 1)
    rw [List.flatMap_cons, placePieces_append, Line.flatMap_chars_pieces,
      advance_line (hfeed first List.mem_cons_self) hbroken, hrest]
    rfl

/-- A text without stray returns has the tokens of its lines. -/
theorem placePieces_pieces (sigil : Char) (chars : List Char) :
    placePieces .first (pieces sigil chars) = lineTokens sigil 1 (Line.ofChars chars) :=
  placePieces_lines sigil (Line.feed_not_mem_content chars) (Line.consecutive_cut chars) 1

end Offside
