import Offside.Proofs.Token.Lines
import Offside.Proofs.Token.Rules

/-!
# Reading a document

The rules of the grammar read a document one line after the other, and no rule reaches from one
line into the next. Within a line reading never gets stuck: where no call begins, a text does.
At its end only a break leads on, so reading stops at the end of the document or at the first
stray return, and nothing that was tried has failed further on. The sigil in front moves the
first line by one column, which the tokens of the text do not show.
-/

namespace Offside

namespace Scan

variable {sigil : Char} {behind content : List Char}

/-- The scan that has read the given pieces and has the given characters left. -/
def past (pieces : List Piece) (behind : List Char) (scan : Scan) : Scan :=
  ⟨behind, scan.offset + (pieces.flatMap Piece.chars).length,
    scan.place.advance (pieces.flatMap Piece.chars),
    (placePieces scan.place pieces).reverse ++ scan.found, scan.furthest⟩

/-- Reading two stretches in turn is reading both. -/
theorem past_append (front back : List Piece) (between behind : List Char) (scan : Scan) :
    (scan.past front between).past back behind = scan.past (front ++ back) behind := by
  simp only [past, List.flatMap_append, List.length_append, Position.advance_append,
    placePieces_append, List.reverse_append, List.append_assoc, Nat.add_assoc]

/-- A failure further on makes an earlier one forgotten. -/
theorem fail_past (pieces : List Piece) (behind : List Char) (scan : Scan) :
    (scan.fail.past pieces behind).fail = (scan.past pieces behind).fail := by
  simp only [fail, past, mk.injEq, true_and]
  omega

/-- A rule that matches a piece reads it. -/
theorem attempt_eq_past {scan : Scan} (rule : Rule) {piece : Piece}
    (hrest : scan.rest = piece.chars ++ behind)
    (hlength : rule.pattern.length? sigil (piece.chars ++ behind) = some piece.chars.length)
    (hword : rule.word piece.chars = piece.word) :
    scan.attempt sigil rule = .ok (scan.past [piece] behind) := by
  unfold attempt
  rw [hrest, hlength]
  simp only [List.take_left, List.drop_left, hword, past, List.flatMap_cons, List.flatMap_nil,
    List.append_nil, placePieces_cons, placePieces_nil, List.reverse_singleton,
    List.singleton_append]

/-- A rule that matches nothing fails. -/
theorem attempt_eq_fail {scan : Scan} {rule : Rule}
    (hlength : rule.pattern.length? sigil scan.rest = none) :
    scan.attempt sigil rule = .error scan.fail := by
  unfold attempt
  rw [hlength]

/-! ### A line -/

/-- The blanks at the front of a line are read as its indent. -/
theorem attempt_indent (hblanks : content.takeWhile Text.isBlank ≠ []) (hfeed : '\n' ∉ content)
    (hreturn : '\r' ∉ content) (hbehind : EndsLine behind)
    {scan : Scan} (hrest : scan.rest = content ++ behind) :
    scan.attempt sigil .indent =
      .ok (scan.past [.indent (content.takeWhile Text.isBlank)]
        (content.dropWhile Text.isBlank ++ behind)) := by
  have hsplit : Piece.chars (.indent (content.takeWhile Text.isBlank)) ++
      (content.dropWhile Text.isBlank ++ behind) = content ++ behind := by
    rw [Piece.chars, ← List.append_assoc, List.takeWhile_append_dropWhile]
  apply attempt_eq_past
  · exact hrest.trans hsplit.symm
  · rw [hsplit, Rule.length?_indent hfeed hreturn hbehind, if_neg hblanks]
    rfl
  · rfl

/-- Where a call begins it is read to the next blank. -/
theorem attempt_call {c : Char} {rest : List Char} (hopens : opensCall sigil (c :: rest) = true)
    (hsigil : Text.isBlank sigil = false) (hbehind : EndsLine behind)
    {scan : Scan} (hrest : scan.rest = c :: rest ++ behind) :
    scan.attempt sigil .call =
      .ok (scan.past [.call (c :: rest.takeWhile fun d => !Text.isBlank d)]
        ((rest.dropWhile fun d => !Text.isBlank d) ++ behind)) := by
  have hsplit : Piece.chars (.call (c :: rest.takeWhile fun d => !Text.isBlank d)) ++
      ((rest.dropWhile fun d => !Text.isBlank d) ++ behind) = c :: rest ++ behind := by
    rw [Piece.chars, ← List.append_assoc, List.cons_append, List.takeWhile_append_dropWhile]
  apply attempt_eq_past
  · exact hrest.trans hsplit.symm
  · rw [hsplit, Rule.length?_call hopens hsigil hbehind]
    rfl
  · rfl

/-- Where no call begins a text is read up to the next interruption. -/
theorem attempt_text {c : Char} {rest : List Char} (hcloses : opensCall sigil (c :: rest) = false)
    (hsigil : Text.isBlank sigil = false) (hfeed : '\n' ∉ c :: rest)
    (hreturn : '\r' ∉ c :: rest) (hbehind : EndsLine behind)
    {scan : Scan} (hrest : scan.rest = c :: rest ++ behind) :
    scan.attempt sigil .text =
      .ok (scan.past [.text (takeText sigil [c] rest).1]
        ((takeText sigil [c] rest).2 ++ behind)) := by
  have hsplit : Piece.chars (.text (takeText sigil [c] rest).1) ++
      ((takeText sigil [c] rest).2 ++ behind) = c :: rest ++ behind := by
    rw [Piece.chars, ← List.append_assoc, takeText_append]
    rfl
  apply attempt_eq_past
  · exact hrest.trans hsplit.symm
  · rw [hsplit, Rule.length?_text hcloses hsigil hfeed hreturn hbehind]
    rfl
  · rfl

/-- The calls and texts of a line are read to its end. Where no call begins a text does, unless
the line is over, and there both rules fail. -/
theorem contents_eq (hsigil : Text.isBlank sigil = false) (hfeed : '\n' ∉ content)
    (hreturn : '\r' ∉ content) (hbehind : EndsLine behind)
    (scan : Scan) (hrest : scan.rest = content ++ behind) :
    scan.contents sigil = (scan.past (bodyPieces sigil content) behind).fail := by
  -- one case for each way in which the next piece is cut off; the scan goes along with it
  induction content using bodyPieces_induction sigil generalizing scan with
  | nil =>
    obtain rfl : behind = scan.rest := hrest.symm
    have hcloses : opensCall sigil scan.rest = false :=
      opensCall_append hsigil hbehind.isBlank []
    have hcall := attempt_eq_fail (Rule.length?_call_eq_none hcloses)
    have htext : scan.fail.attempt sigil .text = .error scan.fail.fail :=
      attempt_eq_fail (Rule.length?_text_eq_none hbehind)
    rw [contents_of_error hcall htext, bodyPieces_nil]
    exact fail_past [] scan.rest scan
  | call c rest hopens ih =>
    have hleft {d : Char} (hd : d ∉ c :: rest) : d ∉ rest.dropWhile fun d => !Text.isBlank d :=
      fun hmem => hd (List.mem_cons_of_mem c ((List.dropWhile_sublist _).subset hmem))
    rw [contents_of_call (attempt_call hopens hsigil hbehind hrest),
      ih (hleft hfeed) (hleft hreturn) _ rfl, past_append, bodyPieces_call hopens,
      List.singleton_append]
  | text c rest hcloses ih =>
    have hleft {d : Char} (hd : d ∉ c :: rest) : d ∉ (takeText sigil [c] rest).2 := by
      intro hmem
      apply hd
      change d ∈ [c].reverse ++ rest
      rw [← takeText_append sigil [c] rest]
      exact List.mem_append_right _ hmem
    -- a call is tried first, and what stands behind the line cannot make one begin here
    have hclosed : opensCall sigil scan.rest = false := by
      rw [hrest, opensCall_append hsigil hbehind.isBlank, hcloses]
    have hcall := attempt_eq_fail (Rule.length?_call_eq_none hclosed)
    have htext : scan.fail.attempt sigil .text = .ok (scan.fail.past _ _) :=
      attempt_text hcloses hsigil hfeed hreturn hbehind hrest
    rw [contents_of_text hcall htext, ih (hleft hfeed) (hleft hreturn) _ rfl, past_append,
      fail_past, bodyPieces_text hcloses, List.singleton_append]

/-- A line is read to its end: its indent if it has one, then its calls and texts. -/
theorem line_eq (hsigil : Text.isBlank sigil = false) (hfeed : '\n' ∉ content)
    (hreturn : '\r' ∉ content) (hbehind : EndsLine behind)
    (scan : Scan) (hrest : scan.rest = content ++ behind) :
    scan.line sigil = (scan.past (Line.pieces sigil ⟨content, none⟩) behind).fail := by
  have hleft {d : Char} (hd : d ∉ content) : d ∉ content.dropWhile Text.isBlank :=
    fun hmem => hd ((List.dropWhile_sublist _).subset hmem)
  unfold line Line.pieces
  by_cases hblanks : content.takeWhile Text.isBlank = []
  · have hbody : content.dropWhile Text.isBlank = content := by
      have hsplit := List.takeWhile_append_dropWhile (p := Text.isBlank) (l := content)
      rwa [hblanks, List.nil_append] at hsplit
    have hindent : scan.attempt sigil .indent = .error scan.fail := by
      apply attempt_eq_fail
      rw [hrest, Rule.length?_indent hfeed hreturn hbehind, if_pos hblanks]
    rw [hindent]
    simp only [contents_eq hsigil hfeed hreturn hbehind scan.fail hrest, fail_past,
      hblanks, hbody, List.isEmpty_nil, if_true, List.nil_append, Option.elim_none,
      List.append_nil]
  · have hcontents := contents_eq hsigil (hleft hfeed) (hleft hreturn) hbehind
      (scan.past [.indent (content.takeWhile Text.isBlank)]
        (content.dropWhile Text.isBlank ++ behind)) rfl
    rw [attempt_indent hblanks hfeed hreturn hbehind hrest]
    simp only [hcontents, past_append, List.isEmpty_iff, hblanks, if_false, Option.elim_none,
      List.append_nil]

/-! ### The lines of a document -/

/-- Behind the last line nothing is left, or a return that no break can begin with. -/
theorem endsLine_of_stray (hbehind : behind = [] ∨ IsStrayReturn behind 0) : EndsLine behind := by
  intro c hc
  rcases hbehind with rfl | ⟨hreturn, -⟩
  · cases hc
  · left
    rw [← List.head?_eq_getElem?, hc] at hreturn
    exact Option.some.inj hreturn

/-- The lines of a text are read one after the other, and the breaks between them. -/
theorem furtherLines_eq (hsigil : Text.isBlank sigil = false) {first : Line} {later : List Line}
    (hplain : ∀ line ∈ first :: later, line.IsPlain) (hlines : first.Consecutive later)
    (hbehind : behind = [] ∨ IsStrayReturn behind 0)
    (scan : Scan) (hrest : scan.rest = (first :: later).flatMap Line.chars ++ behind) :
    (scan.line sigil).furtherLines sigil =
      (scan.past ((first :: later).flatMap (Line.pieces sigil)) behind).fail := by
  induction later generalizing first scan with
  | nil =>
    obtain ⟨content, ending⟩ := first
    obtain rfl : ending = none := hlines
    obtain ⟨hfeed, hreturn⟩ := hplain _ List.mem_cons_self
    have hline := line_eq hsigil hfeed hreturn (endsLine_of_stray hbehind) scan
      (by simpa [Line.chars] using hrest)
    have hbreak : (scan.line sigil).attempt sigil .lineBreak = .error (scan.line sigil).fail := by
      apply attempt_eq_fail
      rw [hline]
      exact Rule.length?_lineBreak_eq_none hbehind
    rw [furtherLines_of_error hbreak, hline, List.flatMap_cons, List.flatMap_nil, List.append_nil]
    exact fail_past [] behind (scan.past _ behind)
  | cons next later ih =>
    obtain ⟨hbroken, hnext⟩ := hlines
    obtain ⟨content, ending⟩ := first
    obtain ⟨kind, rfl⟩ := Option.ne_none_iff_exists'.mp hbroken
    obtain ⟨hfeed, hreturn⟩ := hplain _ List.mem_cons_self
    have hline := line_eq hsigil hfeed hreturn (endsLine_break kind _) scan
      (by rw [hrest, List.flatMap_cons, Line.chars, Option.elim_some, List.append_assoc,
        List.append_assoc])
    have hbreak : (scan.line sigil).attempt sigil .lineBreak =
        .ok ((scan.line sigil).past [.lineBreak kind]
          ((next :: later).flatMap Line.chars ++ behind)) := by
      apply attempt_eq_past
      · rw [hline]
        rfl
      · exact Rule.length?_lineBreak kind _
      · rfl
    rw [furtherLines_of_break hbreak,
      ih (fun line hmem => hplain line (List.mem_cons_of_mem _ hmem)) hnext _ rfl, past_append,
      hline, fail_past, past_append]
    simp [Line.pieces]

end Scan

/-! ### The first line of a document -/

namespace Position

/-- The place in a document of a place in the text behind its sigil. -/
def inDocument (place : Position) : Position :=
  if place.line = 1 then ⟨place.line, place.column + 1⟩ else place

/-- A place of a text: lines and columns count from one. -/
def IsCounted (place : Position) : Prop :=
  0 < place.line ∧ 0 < place.column

/-- Counting starts at the first place. -/
theorem isCounted_first : first.IsCounted := ⟨Nat.one_pos, Nat.one_pos⟩

/-- A step leads from a counted place to a counted one. -/
theorem IsCounted.step {place : Position} (h : place.IsCounted) (c : Char) :
    (place.step c).IsCounted := by
  obtain ⟨hline, hcolumn⟩ := h
  unfold Position.step
  split
  · exact ⟨Nat.succ_pos _, Nat.one_pos⟩
  · exact ⟨hline, Nat.succ_pos _⟩

/-- So does a walk. -/
theorem IsCounted.advance {place : Position} (h : place.IsCounted) (chars : List Char) :
    (place.advance chars).IsCounted := by
  induction chars generalizing place with
  | nil => exact h
  | cons c rest ih => exact ih (h.step c)

/-- The shift of the first line is undone. -/
theorem inText_inDocument {place : Position} (h : place.IsCounted) :
    place.inDocument.inText = place := by
  obtain ⟨line, column⟩ := place
  obtain ⟨-, hcolumn⟩ := h
  unfold inDocument inText
  by_cases hline : line = 1
  · have hback : max (column + 1 - 1) 1 = column := by
      have : 0 < column := hcolumn
      omega
    simp only [hline, if_true, hback]
  · simp only [hline, if_false]

/-- A walk over the document moves on as one over the text does: the first line is the only one
that is shifted, and no line feed leads back to it. -/
theorem advance_inDocument {place : Position} (h : place.IsCounted) (chars : List Char) :
    place.inDocument.advance chars = (place.advance chars).inDocument := by
  induction chars generalizing place with
  | nil => rfl
  | cons c rest ih =>
    have hstep : place.inDocument.step c = (place.step c).inDocument := by
      obtain ⟨line, column⟩ := place
      obtain ⟨hline, -⟩ := h
      unfold inDocument Position.step
      by_cases hc : c = '\n'
      · have : line ≠ 0 := Nat.ne_of_gt hline
        by_cases hfirst : line = 1 <;> simp [hc, hfirst, this]
      · by_cases hfirst : line = 1 <;> simp [hc, hfirst]
    rw [advance_cons, advance_cons, hstep, ih (h.step c)]

end Position

/-- Pieces that are placed behind the sigil of a document are placed in its text. -/
theorem map_inText_placePieces {place : Position} (h : place.IsCounted) (pieces : List Piece) :
    (placePieces place.inDocument pieces).map
        (fun token => ⟨token.word, token.position.inText⟩) = placePieces place pieces := by
  induction pieces generalizing place with
  | nil => rfl
  | cons piece rest ih =>
    rw [placePieces_cons, placePieces_cons, List.map_cons, Position.inText_inDocument h,
      Position.advance_inDocument h, ih (h.advance piece.chars)]

/-! ### Tokenizing -/

variable {sigil : Char} {front behind : List Char}

/-- A document is read up to its end or to the first return that no feed follows. There every
rule fails, and none has failed further on. -/
theorem document_eq (hsigil : Text.isBlank sigil = false) (hfront : Unstrayed front)
    (hbehind : behind = [] ∨ IsStrayReturn behind 0) :
    document (sigil :: (front ++ behind)) =
      if behind = [] then .ok (placePieces Position.first.inDocument (pieces sigil front))
      else .error (Position.first.inDocument.advance front) := by
  have hfirst : Position.first.step sigil = Position.first.inDocument := by
    have hfeed : sigil ≠ '\n' := by
      rintro rfl
      exact absurd hsigil (by decide)
    rw [Position.step, if_neg hfeed]
    rfl
  have hread := Scan.furtherLines_eq hsigil
    (fun line hline => Line.isPlain_of_mem_ofChars hfront hline) (Line.consecutive_cut front)
    hbehind (.start sigil (front ++ behind))
    (congrArg (· ++ behind) (Line.flatMap_chars_ofChars front).symm)
  change (Scan.line sigil _).furtherLines sigil =
    (Scan.past (pieces sigil front) behind (.start sigil (front ++ behind))).fail at hread
  simp only [document, hread]
  simp only [Scan.fail, Scan.past, Scan.start, hfirst, List.append_nil, List.reverse_reverse,
    flatMap_chars_pieces, List.isEmpty_iff]
  -- the furthest failure is where reading stopped, behind the sigil and all that was read
  have hfurthest : max (max 0 (1 + front.length)) (1 + front.length) = front.length + 1 := by
    omega
  rw [hfurthest, List.take_succ_cons, List.take_left, Position.advance_cons, hfirst]

/-- Without a stray return the tokens are the placed pieces. -/
theorem tokenize_of_unstrayed (hsigil : Text.isBlank sigil = false) {text : String}
    (h : Unstrayed text.toList) :
    tokenize sigil text = .ok (placePieces .first (pieces sigil text.toList)) := by
  have hread := document_eq hsigil h (.inl rfl)
  rw [List.append_nil, if_pos rfl] at hread
  rw [tokenize, if_neg (by simp [hsigil]), hread]
  exact congrArg Except.ok (map_inText_placePieces Position.isCounted_first _)

/-- What stands before the first stray return has none itself. -/
theorem unstrayed_take {chars : List Char} {i : ℕ} (hi : IsStrayReturn chars i)
    (hfirst : ∀ j < i, ¬ IsStrayReturn chars j) : Unstrayed (chars.take i) := by
  rintro j ⟨hreturn, hfeed⟩
  obtain ⟨hj, -⟩ := List.getElem?_eq_some_iff.mp hreturn
  have hji : j < i := by
    rw [List.length_take] at hj
    omega
  rw [List.getElem?_take_of_lt hji] at hreturn
  apply hfirst j hji
  refine ⟨hreturn, ?_⟩
  by_cases hnext : j + 1 < i
  · rwa [List.getElem?_take_of_lt hnext] at hfeed
  · -- the next character is the stray return itself
    obtain rfl : i = j + 1 := by omega
    rw [hi.1]
    decide

/-- The first stray return is what is wrong with a text. -/
theorem tokenize_of_first_stray (hsigil : Text.isBlank sigil = false) {text : String} {i : ℕ}
    (hi : IsStrayReturn text.toList i) (hfirst : ∀ j < i, ¬ IsStrayReturn text.toList j) :
    tokenize sigil text =
      .error (.strayReturn (Position.first.advance (text.toList.take i))) := by
  have hbehind : IsStrayReturn (text.toList.drop i) 0 := by
    simpa [IsStrayReturn] using hi
  have hread := document_eq hsigil (unstrayed_take hi hfirst) (.inr hbehind)
  have hnil : text.toList.drop i ≠ [] := by
    intro hnil
    rw [hnil] at hbehind
    exact absurd hbehind.1 (by simp)
  rw [List.take_append_drop, if_neg hnil] at hread
  rw [tokenize, if_neg (by simp [hsigil]), hread]
  simp only [Position.advance_inDocument Position.isCounted_first,
    Position.inText_inDocument (Position.isCounted_first.advance _)]

/-- A text tokenizes as it is read line by line: unless it has a stray return, its tokens are
its placed pieces. -/
theorem tokenize_eq (hsigil : Text.isBlank sigil = false) (text : String) :
    tokenize sigil text =
      match strayReturn? .first text.toList with
      | some place => .error (.strayReturn place)
      | none => .ok (placePieces .first (pieces sigil text.toList)) := by
  by_cases h : Unstrayed text.toList
  · rw [tokenize_of_unstrayed hsigil h, (strayReturn?_eq_none_iff _ _).mpr h]
  · obtain ⟨i, hi, hfirst⟩ := exists_first_stray h
    rw [tokenize_of_first_stray hsigil hi hfirst, strayReturn?_of_first hi hfirst]

/-- Nothing tokenizes with a blank for its sigil. -/
theorem not_isBlank_of_tokenize {text : String} {tokens : List Token}
    (h : tokenize sigil text = .ok tokens) : Text.isBlank sigil = false := by
  by_contra hblank
  rw [tokenize, if_pos (by simpa using hblank)] at h
  cases h

/-- What tokenizes has no stray return, and its tokens are its pieces. -/
theorem unstrayed_of_tokenize {text : String} {tokens : List Token}
    (h : tokenize sigil text = .ok tokens) :
    Unstrayed text.toList ∧ tokens = placePieces .first (pieces sigil text.toList) := by
  rw [tokenize_eq (not_isBlank_of_tokenize h)] at h
  split at h
  · cases h
  · next hstray => exact ⟨(strayReturn?_eq_none_iff _ _).mp hstray, (Except.ok.inj h).symm⟩

end Offside
