import Offside.Proofs.Compile
import Offside.Proofs.Layout.BlankLine
import Offside.Proofs.Layout.Rejects
import Offside.Proofs.Token.LineShape
import Offside.Proofs.Token.Tiling

/-!
# What a source can be at fault for

Of all faults only four can come from a text: a stray carriage return, text at the left edge,
an indent that leads to no block, and calls that nest too deep. Indents are never misplaced,
because the tokens of a line hold one indent at most, at its start. Each fault points to what
is wrong in the text.
-/

namespace Offside

/-- A fault that a text can have under the given settings, with what it points to. -/
inductive Fault.PointsInto (settings : Settings) (text : String) : Fault → Prop where
  /-- The first carriage return that no line feed follows. -/
  | strayReturn {i : ℕ} (hstray : IsStrayReturn text.toList i)
      (hfirst : ∀ j < i, ¬ IsStrayReturn text.toList j) :
      PointsInto settings text (.strayReturn (.behind (text.toList.take i)))
  /-- The start of a line that begins neither with a blank nor with a call. -/
  | unindentedText {number : ℕ} {line : Line} {c : Char} {rest : List Char}
      (hline : (Line.ofChars text.toList)[number]? = some line)
      (hcontent : line.content = c :: rest) (hblank : Text.isBlank c = false)
      (hcall : opensCall settings.sigil line.content = false) :
      PointsInto settings text (.unindentedText ⟨number + 1, 1⟩)
  /-- The start of a line that begins with as many blanks, one at least. -/
  | unmatchedIndent {number width : ℕ} {line : Line}
      (hline : (Line.ofChars text.toList)[number]? = some line)
      (hwidth : width = (line.content.takeWhile Text.isBlank).length) (hpositive : 1 ≤ width) :
      PointsInto settings text (.unmatchedIndent width ⟨number + 1, 1⟩)
  /-- The first sigil of a call. -/
  | nestedTooDeep {tokens : List Token} {before after name : List Char} {c : Char}
      {rest : List Char} (htokens : tokenize settings.sigil text = .ok tokens)
      (htoken : ⟨.call (String.ofList name), .behind before⟩ ∈ tokens)
      (htext : text.toList = before ++ (name ++ after))
      (hname : name = settings.sigil :: settings.sigil :: c :: rest)
      (hblank : Text.isBlank c = false) :
      PointsInto settings text (.nestedTooDeep settings.nestingLimit (.behind before))

/-! ### From a rejected token to the text -/

/-- A token is read at the start of a line exactly if it is the first one of its line. -/
theorem State.startsLine_iff_of_run {limit : ℕ} {sigil : Char} {before : List Line} {line : Line}
    {front back : List Piece} {piece : Piece} {place : Position} {last : State}
    (hbroken : ∀ line ∈ before, line.ending ≠ none)
    (hpieces : line.pieces sigil = front ++ piece :: back)
    (hrun : initial.run limit (lineTokens sigil 1 before ++ placePieces place front) =
      (none, last)) : last.StartsLine ↔ front = [] := by
  obtain ⟨between, hbefore, hfront⟩ := exists_run_of_append hrun
  have hbetween : between.StartsLine := phase_of_run_lineTokens hbroken (.inl rfl) hbefore
  constructor
  · intro hstarts
    by_contra hsome
    refine not_startsLine_of_run ?_ ?_ hfront hstarts
    · rw [← List.length_pos_iff, length_placePieces]
      exact List.length_pos_iff.mpr hsome
    · intro token htoken
      have hword : token.word ∈ front.map Piece.word := by
        rw [← map_word_placePieces place]
        exact List.mem_map_of_mem htoken
      obtain ⟨earlier, hearlier, heq⟩ := List.mem_map.mp hword
      rw [← heq]
      exact (Line.words_of_pieces_eq_append hpieces earlier hearlier).1
  · rintro rfl
    obtain rfl : between = last := congrArg Prod.snd hfront
    exact hbetween

namespace FrontEnd

variable {frontEnd : FrontEnd} {text : String} {fault : Fault} {last : State}

/-- A call of a text stands in the text where the token says. -/
theorem pointsInto_of_call (h : Unstrayed text.toList) {name : String} {place : Position}
    (hcall : ⟨.call name, place⟩ ∈
      lineTokens frontEnd.settings.sigil 1 (Line.ofChars text.toList)) :
    (Fault.nestedTooDeep frontEnd.settings.nestingLimit place).PointsInto frontEnd.settings
      text := by
  have htokens := frontEnd.tokenize_eq h
  obtain ⟨read, rest, hread⟩ := List.append_of_mem hcall
  rw [← placePieces_pieces] at hread
  obtain ⟨front, piece, back, hpieces, -, htoken⟩ := exists_piece_of_placePieces hread
  obtain ⟨hword, hplace⟩ := Token.mk.inj htoken
  cases piece with
  | indent blanks => cases hword
  | text content => cases hword
  | lineBreak kind => cases hword
  | call chars =>
    obtain rfl := Word.call.inj hword
    rw [Position.first_advance] at hplace
    have hmem : .call chars ∈ pieces frontEnd.settings.sigil text.toList := by
      rw [hpieces]
      exact List.mem_append_right front List.mem_cons_self
    obtain ⟨line, -, hline⟩ := List.mem_flatMap.mp hmem
    obtain ⟨c, later, hname, hblank⟩ :=
      Line.exists_name_of_mem_pieces frontEnd.sigil_not_blank hline
    have htext := flatMap_chars_pieces frontEnd.settings.sigil text.toList
    rw [hpieces, List.flatMap_append, List.flatMap_cons] at htext
    rw [hplace]
    exact .nestedTooDeep htokens (hplace ▸ hcall) htext.symm hname hblank

/-- Where reading a text stops, the text is at fault. -/
theorem pointsInto_of_run (h : Unstrayed text.toList)
    (hrun : State.initial.run frontEnd.settings.nestingLimit
      (lineTokens frontEnd.settings.sigil 1 (Line.ofChars text.toList)) = (some fault, last)) :
    fault.PointsInto frontEnd.settings text := by
  obtain ⟨read, token, rest, htokens, hread, hfeed⟩ := State.exists_feed_of_run_error hrun
  have hmem : token ∈ lineTokens frontEnd.settings.sigil 1 (Line.ofChars text.toList) := by
    rw [htokens]
    exact List.mem_append_right read List.mem_cons_self
  obtain ⟨before, line, after, front, piece, back, hlines, hpieces, rfl, rfl⟩ :=
    exists_line_of_lineTokens htokens
  obtain ⟨hsteady, -⟩ := State.steady_of_run (List.append_nil _) hread
  have hrejects := hsteady.rejects_of_feed hfeed
  have hbroken : ∀ line ∈ before, line.ending ≠ none :=
    (Line.consecutive_cut text.toList).ending_ne_none hlines (List.cons_ne_nil line after)
  have hstarts : last.StartsLine ↔ front = [] :=
    State.startsLine_iff_of_run hbroken hpieces hread
  have hnumber : (Line.ofChars text.toList)[before.length]? = some line := by
    rw [hlines]
    simp
  cases piece with
  | call name =>
    cases hrejects with
    | crowded hphase hfull => exact pointsInto_of_call h hmem
  | text content =>
    cases hrejects with
    | unindented hphase =>
      obtain rfl := hstarts.mp hphase
      obtain ⟨c, later, hcontent, hblank, hcall⟩ := Line.content_of_pieces_eq_cons hpieces
      rw [List.flatMap_nil, Position.advance_nil, Nat.add_comm]
      exact .unindentedText hnumber hcontent hblank hcall
  | indent blanks =>
    -- an indent is the first token of its line, so it is in no other place at fault
    have hfront : front = [] := by
      by_contra hsome
      obtain ⟨earlier, hearlier⟩ := List.exists_mem_of_ne_nil front hsome
      obtain ⟨-, hother⟩ := Line.words_of_pieces_eq_append hpieces earlier hearlier
      exact hother blanks.length rfl
    have hphase : last.StartsLine := hstarts.mpr hfront
    subst hfront
    have hindent : .indent blanks ∈ line.pieces frontEnd.settings.sigil :=
      hpieces ▸ List.mem_cons_self
    obtain ⟨hblanks, hsome⟩ := Line.blanks_of_mem_pieces hindent
    have hpositive : 1 ≤ blanks.length := List.length_pos_iff.mpr hsome
    cases hrejects with
    | unmatched hstart =>
      rw [List.flatMap_nil, Position.advance_nil, Nat.add_comm]
      exact .unmatchedIndent hnumber (congrArg List.length hblanks) hpositive
    | behindText hother => rcases hphase with hphase | hphase <;> simp [hphase] at hother
    | behindCall hother => rcases hphase with hphase | hphase <;> simp [hphase] at hother
    | repeated hother => rcases hphase with hphase | hphase <;> simp [hphase] at hother
  | lineBreak kind => cases hrejects

end FrontEnd

/-! ### Compiling -/

/-- A text that cannot be compiled is at fault for one of four things, and the fault points to
it: the first carriage return that no line feed follows, the start of a line that begins neither
with a blank nor with a call, the start of a line whose indent leads to no block, with the number
of its blanks, or the first sigil of a call that nests too deep, with the limit. The first of
them is the fault exactly if there is such a carriage return. -/
theorem compile_fault_pointsInto (frontEnd : FrontEnd) (text : String) :
    (∀ fault, (frontEnd.compile text).1 = .error fault →
      fault.PointsInto frontEnd.settings text) ∧
    ((∃ place, (frontEnd.compile text).1 = .error (.strayReturn place)) ↔
      ∃ i, IsStrayReturn text.toList i) := by
  have hpoints : ∀ fault, (frontEnd.compile text).1 = .error fault →
      fault.PointsInto frontEnd.settings text := by
    intro fault hfault
    by_cases h : Unstrayed text.toList
    · rcases hrun : State.initial.run frontEnd.settings.nestingLimit
        (lineTokens frontEnd.settings.sigil 1 (Line.ofChars text.toList)) with ⟨_ | other, last⟩
      · rw [FrontEnd.compile_of_run h hrun] at hfault
        cases hfault
      · rw [FrontEnd.compile_of_run_error h hrun] at hfault
        obtain rfl := Except.error.inj hfault
        exact FrontEnd.pointsInto_of_run h hrun
    · obtain ⟨i, hi, hfirst⟩ := exists_first_stray h
      rw [FrontEnd.compile_of_first_stray hi hfirst] at hfault
      obtain rfl := Except.error.inj hfault
      exact .strayReturn hi hfirst
  refine ⟨hpoints, ?_, ?_⟩
  · rintro ⟨place, hfault⟩
    cases hpoints _ hfault with
    | strayReturn hstray hfirst => exact ⟨_, hstray⟩
  · rintro ⟨i, hstray⟩
    obtain ⟨first, hfirst, hearlier⟩ := exists_first_stray fun h => h i hstray
    exact ⟨_, FrontEnd.compile_of_first_stray hfirst hearlier⟩

/-- An indent that leads to no block is reported where its line starts, with its width. -/
theorem compile_fault_pointsInto_block :
    let text := "$$a\n    $$b\n  x"
    (FrontEnd.standard.compile text).1.map Compilation.roots =
        .error (.unmatchedIndent 2 ⟨3, 1⟩) ∧
      (Fault.unmatchedIndent 2 ⟨3, 1⟩).PointsInto .standard text := by
  intro text
  have hmap : (FrontEnd.standard.compile text).1.map Compilation.roots =
      .error (.unmatchedIndent 2 ⟨3, 1⟩) := by
    decide +kernel
  have hfault := State.map_eq_error hmap
  exact ⟨hmap, (compile_fault_pointsInto .standard text).1 _ hfault⟩

end Offside
