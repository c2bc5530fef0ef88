import Offside.Proofs.Token.Document
import Offside.Proofs.Token.Insertion

/-!
# One text below another

A text that is put below another one, on lines of its own, is cut into the same pieces as alone.
Its tokens move down by as many lines as stand above it, and so does its stray return if it has
one. What the upper text ends with does not matter, nor what the lower one begins with.
-/

namespace Offside

variable {upper : List Char}

/-! ### Lines and pieces -/

/-- The lines of a text are some that are broken and a last one that is not. -/
theorem Line.exists_ofChars_eq_concat (chars : List Char) :
    ∃ before content, ofChars chars = before ++ [⟨content, none⟩] ∧
      ∀ line ∈ before, line.ending ≠ none := by
  have hlast {first : Line} {later : List Line} (h : first.Consecutive later) :
      ∃ before content, first :: later = before ++ [⟨content, none⟩] := by
    induction later generalizing first with
    | nil =>
      obtain ⟨content, ending⟩ := first
      obtain rfl : ending = none := h
      exact ⟨[], content, rfl⟩
    | cons next later ih =>
      obtain ⟨before, content, hnext⟩ := ih h.2
      exact ⟨first :: before, content, by rw [hnext, List.cons_append]⟩
  obtain ⟨before, content, hlines⟩ := hlast (consecutive_cut chars)
  exact ⟨before, content, hlines,
    (consecutive_cut chars).ending_ne_none hlines (List.cons_ne_nil _ _)⟩

/-- Below a line feed a text has the pieces that it has alone. -/
theorem pieces_append_feed (sigil : Char) (hupper : Unstrayed upper) (lower : List Char) :
    pieces sigil (upper ++ '\n' :: lower) =
      pieces sigil upper ++ .lineBreak .feed :: pieces sigil lower := by
  obtain ⟨before, content, hlines, hbroken⟩ := Line.exists_ofChars_eq_concat upper
  have hplain : ∀ line ∈ before ++ [⟨content, none⟩], line.IsPlain := by
    intro line hline
    exact Line.isPlain_of_mem_ofChars hupper (hlines ▸ hline)
  have hbefore : ∀ line ∈ before, line.IsPlain := fun line hline =>
    hplain line (List.mem_append_left _ hline)
  obtain ⟨hfeed, hreturn⟩ := hplain ⟨content, none⟩ (by simp)
  have hchars : upper = before.flatMap Line.chars ++ content := by
    have hspelled := Line.flatMap_chars_ofChars upper
    rw [hlines, List.flatMap_append] at hspelled
    simpa [Line.chars] using hspelled.symm
  -- the last upper line is broken now
  have hjoined : Line.ofChars (upper ++ '\n' :: lower) =
      before ++ ⟨content, some .feed⟩ :: Line.ofChars lower := by
    rw [hchars, List.append_assoc, Line.ofChars_flatMap_append hbefore hbroken]
    exact congrArg (before ++ ·) (Line.ofChars_broken hfeed hreturn .feed lower)
  simp only [pieces, hjoined, hlines, List.flatMap_append, List.flatMap_cons, List.flatMap_nil,
    Line.pieces, Option.elim_none, Option.elim_some, List.append_nil, List.append_assoc,
    List.cons_append, List.nil_append]

/-! ### Places -/

namespace Position

/-- The same place so many lines further down. -/
def lowered (lines : ℕ) (place : Position) : Position :=
  ⟨place.line + lines, place.column⟩

/-- Going down by one line more is one more step down. -/
theorem lowered_succ (lines : ℕ) (place : Position) :
    place.lowered (lines + 1) = (place.lowered lines).down := rfl

/-- A walk that starts further down ends as much further down. -/
theorem advance_lowered (lines : ℕ) (place : Position) (chars : List Char) :
    (place.lowered lines).advance chars = (place.advance chars).lowered lines := by
  induction lines with
  | zero => rfl
  | succ lines ih => rw [lowered_succ, advance_down, ih, lowered_succ]

/-- Behind a text and a line feed begins the line below the text. -/
theorem step_behind_feed (before : List Char) :
    (behind before).step '\n' = first.lowered (before.count '\n' + 1) := by
  rw [step, if_pos rfl, behind, first, lowered, Nat.add_comm 1]

end Position

/-- The token so many lines further down. -/
def Token.lowered (lines : ℕ) (token : Token) : Token :=
  ⟨token.word, token.position.lowered lines⟩

/-- Pieces that are placed further down have their tokens as much further down. -/
theorem placePieces_lowered (lines : ℕ) (place : Position) (pieces : List Piece) :
    placePieces (place.lowered lines) pieces =
      (placePieces place pieces).map (Token.lowered lines) := by
  induction lines with
  | zero => exact (List.map_id _).symm
  | succ lines ih =>
    rw [Position.lowered_succ, placePieces_down, ih, List.map_map]
    rfl

/-! ### Stray returns -/

/-- The stray return of a text is below the text above it. -/
theorem strayReturn?_append_feed (hupper : Unstrayed upper) (place : Position)
    (lower : List Char) :
    strayReturn? place (upper ++ '\n' :: lower) =
      strayReturn? ((place.advance upper).step '\n') lower := by
  induction upper generalizing place with
  | nil => exact strayReturn?_cons_of_ne (by decide) place lower
  | cons c rest ih =>
    obtain ⟨hreturn, hrest⟩ := unstrayed_cons.mp hupper
    rw [List.cons_append, Position.advance_cons, ← ih hrest]
    by_cases hc : c = '\r'
    · -- the feed that belongs to this return is in the upper text
      have hhead : (rest ++ '\n' :: lower).head? = some '\n' := by
        rw [List.head?_append, hreturn hc, Option.some_or]
      rw [hc, strayReturn?_return, if_pos hhead]
    · exact strayReturn?_cons_of_ne hc place _

/-- A stray return further down is reported there. -/
theorem strayReturn?_lowered (lines : ℕ) (place : Position) (chars : List Char) :
    strayReturn? (place.lowered lines) chars =
      (strayReturn? place chars).map (Position.lowered lines) := by
  by_cases h : Unstrayed chars
  · rw [(strayReturn?_eq_none_iff _ chars).mpr h, (strayReturn?_eq_none_iff _ chars).mpr h,
      Option.map_none]
  · obtain ⟨i, hi, hfirst⟩ := exists_first_stray h
    rw [strayReturn?_of_first hi hfirst, strayReturn?_of_first hi hfirst, Option.map_some,
      Position.advance_lowered]

/-! ### Tokenizing -/

/-- A text below one that tokenizes tokenizes as it does alone. Its tokens follow those of the
upper text and the break behind that, as many lines further down as there are above. If it does
not tokenize, its stray return is reported as much further down. -/
theorem tokenize_append_feed {sigil : Char} (hsigil : Text.isBlank sigil = false)
    {upper : String} {front : List Token} (hupper : tokenize sigil upper = .ok front)
    (lower : String) :
    let lines := upper.toList.count '\n' + 1
    (∀ back, tokenize sigil lower = .ok back →
      tokenize sigil (upper ++ "\n" ++ lower) =
        .ok (front ++ ⟨.lineBreak, .behind upper.toList⟩ :: back.map (Token.lowered lines))) ∧
    (∀ fault, tokenize sigil lower = .error fault →
      ∃ place, fault = .strayReturn place ∧
        tokenize sigil (upper ++ "\n" ++ lower) = .error (.strayReturn (place.lowered lines))) := by
  intro lines
  obtain ⟨hunstrayed, hfront⟩ := unstrayed_of_tokenize hupper
  have hchars : (upper ++ "\n" ++ lower).toList = upper.toList ++ '\n' :: lower.toList := by
    simp
  have hbelow : (Position.first.advance upper.toList).step '\n' = Position.first.lowered lines := by
    rw [Position.first_advance, Position.step_behind_feed]
  have hstray : strayReturn? .first (upper ++ "\n" ++ lower).toList =
      (strayReturn? .first lower.toList).map (Position.lowered lines) := by
    rw [hchars, strayReturn?_append_feed hunstrayed, hbelow, strayReturn?_lowered]
  have hplaced : placePieces .first (pieces sigil (upper ++ "\n" ++ lower).toList) =
      front ++ ⟨.lineBreak, .behind upper.toList⟩ ::
        (placePieces .first (pieces sigil lower.toList)).map (Token.lowered lines) := by
    rw [hchars, pieces_append_feed sigil hunstrayed, placePieces_append, ← hfront,
      placePieces_cons, flatMap_chars_pieces, ← placePieces_lowered, ← hbelow,
      Position.first_advance]
    rfl
  rw [tokenize_eq hsigil, tokenize_eq hsigil, hstray, hplaced]
  cases strayReturn? .first lower.toList with
  | none =>
    constructor
    · intro back hback
      rw [← Except.ok.inj hback]
      rfl
    · intro fault hfault
      cases hfault
  | some place =>
    constructor
    · intro back hback
      cases hback
    · intro fault hfault
      exact ⟨place, (Except.error.inj hfault).symm, rfl⟩

/-- Below two lines a call moves down by two lines, and so does a stray return. -/
theorem tokenize_append_feed_block : Text.isBlank '$' = false ∧
    tokenize '$' "$$a\n x" = .ok
      [⟨.call "$$a", ⟨1, 1⟩⟩, ⟨.lineBreak, ⟨1, 4⟩⟩, ⟨.indent 1, ⟨2, 1⟩⟩, ⟨.text "x", ⟨2, 2⟩⟩] ∧
    tokenize '$' "$$b" = .ok [⟨.call "$$b", ⟨1, 1⟩⟩] ∧
    tokenize '$' ("$$a\n x" ++ "\n" ++ "$$b") = .ok
      [⟨.call "$$a", ⟨1, 1⟩⟩, ⟨.lineBreak, ⟨1, 4⟩⟩, ⟨.indent 1, ⟨2, 1⟩⟩, ⟨.text "x", ⟨2, 2⟩⟩,
        ⟨.lineBreak, ⟨2, 3⟩⟩, ⟨.call "$$b", ⟨3, 1⟩⟩] ∧
    tokenize '$' "$$b\r" = .error (.strayReturn ⟨1, 4⟩) ∧
    tokenize '$' ("$$a\n x" ++ "\n" ++ "$$b\r") = .error (.strayReturn ⟨3, 4⟩) := by
  have hupper : tokenize '$' "$$a\n x" = .ok
      [⟨.call "$$a", ⟨1, 1⟩⟩, ⟨.lineBreak, ⟨1, 4⟩⟩, ⟨.indent 1, ⟨2, 1⟩⟩,
        ⟨.text "x", ⟨2, 2⟩⟩] := by
    decide +kernel
  have hlower : tokenize '$' "$$b" = .ok [⟨.call "$$b", ⟨1, 1⟩⟩] := by decide +kernel
  have hstray : tokenize '$' "$$b\r" = .error (.strayReturn ⟨1, 4⟩) := by decide +kernel
  obtain ⟨hjoined, -⟩ := tokenize_append_feed (by decide) hupper "$$b"
  obtain ⟨-, hfault⟩ := tokenize_append_feed (by decide) hupper "$$b\r"
  obtain ⟨place, hplace, hlowered⟩ := hfault _ hstray
  rw [← Fault.strayReturn.inj hplace] at hlowered
  exact ⟨by decide, hupper, hlower, hjoined _ hlower, hstray, hlowered⟩

end Offside
