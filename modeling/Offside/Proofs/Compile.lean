import Offside.FrontEnd
import Offside.Proofs.Layout.Reads
import Offside.Proofs.Token.Document

/-!
# From text to forest

A text without stray carriage returns is compiled by reading the tokens of its lines, one
line after the other.
-/

namespace Offside.FrontEnd

variable {frontEnd : FrontEnd} {text : String} {last : State}

/-- The tokens of a text are those of its lines. -/
theorem tokenize_eq (h : Unstrayed text.toList) :
    frontEnd.tokenize text =
      .ok (lineTokens frontEnd.settings.sigil 1 (Line.ofChars text.toList)) := by
  rw [tokenize, tokenize_of_unstrayed frontEnd.sigil_not_blank h, placePieces_pieces]

/-- A text whose lines can all be read is compiled into the forest at the end. -/
theorem compile_of_run (h : Unstrayed text.toList)
    (hrun : State.initial.run frontEnd.settings.nestingLimit
      (lineTokens frontEnd.settings.sigil 1 (Line.ofChars text.toList)) = (none, last)) :
    (frontEnd.compile text).1 = .ok ⟨last.forest, last.remarks.reverse⟩ := by
  simp only [compile, tokenize_eq h, Parser.parse, Parser.state_reset, hrun]

/-- A text that cannot be read to its end is at fault where reading stops. -/
theorem compile_of_run_error {fault : Fault} (h : Unstrayed text.toList)
    (hrun : State.initial.run frontEnd.settings.nestingLimit
      (lineTokens frontEnd.settings.sigil 1 (Line.ofChars text.toList)) = (some fault, last)) :
    (frontEnd.compile text).1 = .error fault := by
  simp only [compile, tokenize_eq h, Parser.parse, Parser.state_reset, hrun]

/-- A text with a stray return is at fault for the first one. -/
theorem compile_of_first_stray {i : Nat} (hi : IsStrayReturn text.toList i)
    (hfirst : ∀ j < i, ¬ IsStrayReturn text.toList j) :
    (frontEnd.compile text).1 = .error (.strayReturn (.behind (text.toList.take i))) := by
  have htokens := tokenize_of_first_stray frontEnd.sigil_not_blank hi hfirst
  rw [Position.first_advance] at htokens
  simp only [compile, tokenize, htokens]

/-- What is compiled has no stray return and was read to the end. -/
theorem exists_run_of_compile {compilation : Compilation}
    (h : (frontEnd.compile text).1 = .ok compilation) :
    Unstrayed text.toList ∧ ∃ last, State.initial.run frontEnd.settings.nestingLimit
      (lineTokens frontEnd.settings.sigil 1 (Line.ofChars text.toList)) = (none, last) ∧
        compilation.roots = last.forest := by
  have hreturns : Unstrayed text.toList := by
    by_contra hstray
    obtain ⟨i, hi, hfirst⟩ := exists_first_stray hstray
    rw [compile_of_first_stray hi hfirst] at h
    cases h
  refine ⟨hreturns, ?_⟩
  rcases hrun : State.initial.run frontEnd.settings.nestingLimit
    (lineTokens frontEnd.settings.sigil 1 (Line.ofChars text.toList)) with ⟨_ | fault, last⟩
  · rw [compile_of_run hreturns hrun] at h
    obtain rfl := Except.ok.inj h
    exact ⟨last, rfl, rfl⟩
  · rw [compile_of_run_error hreturns hrun] at h
    cases h

end Offside.FrontEnd
