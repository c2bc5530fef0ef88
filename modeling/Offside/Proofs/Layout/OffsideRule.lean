import Offside.Proofs.Compile
import Offside.Proofs.Layout.OutlineReading

/-!
# The offside rule

Reading a text token by token comes to the same as looking at its outline. The text can be
read when every line is in its place, and then its forest is the forest of the outline. If
some line is not in its place, the first such line is at fault.
-/

namespace Offside

/-! ### The lines of an outline -/

/-- The lines of an outline are lines of the text. -/
theorem exists_line_of_mem_numberLines {number : ℕ} {lines : List Line} {source : SourceLine}
    (h : source ∈ numberLines number lines) : ∃ line ∈ lines, line.content = source.content := by
  induction lines generalizing number with
  | nil => cases h
  | cons line later ih =>
    have hlater (hmem : source ∈ numberLines (number + 1) later) :
        ∃ other ∈ line :: later, other.content = source.content := by
      obtain ⟨other, hother, hcontent⟩ := ih hmem
      exact ⟨other, List.mem_cons_of_mem line hother, hcontent⟩
    rw [numberLines] at h
    split at h
    · exact hlater h
    · rcases List.mem_cons.mp h with rfl | h
      · exact ⟨line, List.mem_cons_self, rfl⟩
      · exact hlater h

/-- No line of a text is longer than the text. -/
theorem Line.length_content_le {chars : List Char} {line : Line} (h : line ∈ ofChars chars) :
    line.content.length ≤ chars.length := by
  have hline : line.chars.Sublist chars := by
    have hmem : line.chars ∈ (ofChars chars).map Line.chars := List.mem_map.mpr ⟨line, h, rfl⟩
    have hflat := List.sublist_flatten_of_mem hmem
    rwa [← List.flatMap_def, flatMap_chars_ofChars] at hflat
  exact Nat.le_trans (List.sublist_append_left _ _).length_le hline.length_le

/-- No line is indented by more blanks than the text has characters. -/
theorem Outline.indents_le (text : String) {i : ℕ} (hi : i < (outline text).length) :
    indents (outline text) i ≤ text.length := by
  have hmem : line (outline text) i ∈ outline text := by
    rw [line, ← List.getElem_eq_getD default]
    exact List.getElem_mem hi
  obtain ⟨other, hother, hcontent⟩ := exists_line_of_mem_numberLines hmem
  have hlength := Line.length_content_le hother
  rw [hcontent, String.length_toList] at hlength
  exact Nat.le_trans (List.takeWhile_prefix _).length_le hlength

/-! ### The rule -/

/-- A text without stray returns and without lines of mere blanks can be compiled, if its
calls are not nested too deep, exactly when every line of its outline is in its place. Its
forest is then that of the outline: each line comes to an item, and the items of the lines
that belong to a line are the last arguments of the last call there. If not, the first line
that is not in its place is at fault. A text that fits in memory has fewer characters than
the greatest count, so every indent leads to a column. -/
theorem compile_offside (frontEnd : FrontEnd) (text : String) (hreturns : Unstrayed text.toList)
    (hblank : ∀ line ∈ Line.ofChars text.toList,
      line.content = [] ∨ line.content.all Text.isBlank = false)
    (hfits : text.length < Text.greatestCount)
    (hlimit : ∀ limit place, (frontEnd.compile text).1 ≠ .error (.nestedTooDeep limit place)) :
    let sigil := frontEnd.settings.sigil
    let lines := outline text
    ((∃ compilation, (frontEnd.compile text).1 = .ok compilation) ↔
        ∀ i < lines.length, Outline.Sound sigil lines i) ∧
      (∀ compilation, (frontEnd.compile text).1 = .ok compilation →
        compilation.roots.map Call.toItem =
          (Outline.roots lines).map (Outline.item sigil lines)) ∧
      ∀ i < lines.length, (∀ j < i, Outline.Sound sigil lines j) →
        ¬ Outline.Sound sigil lines i →
          (frontEnd.compile text).1 = .error (Outline.line lines i).misplaced := by
  intro sigil lines
  have hends : Outline.Ends sigil lines frontEnd.settings.nestingLimit
      (State.initial.run frontEnd.settings.nestingLimit
        (lineTokens sigil 1 (Line.ofChars text.toList))) := by
    apply Outline.run_lines rfl (Nat.zero_le _) (Line.consecutive_cut _)
    · exact Line.feed_not_mem_content text.toList
    · exact hblank
    · intro i hi
      exact Nat.lt_of_le_of_lt (Outline.indents_le text hi) hfits
    · constructor
      · rfl
      · simp [trail]
      · intro _
        rfl
    · rfl
    · intro i hi
      omega
  generalize hrun : State.initial.run _ _ = result at hends
  cases hends with
  | tooDeep place last =>
    exact absurd (FrontEnd.compile_of_run_error hreturns hrun) (hlimit _ place)
  | @misplaced k last hk hbefore hn =>
    have herror := FrontEnd.compile_of_run_error hreturns hrun
    refine ⟨?_, ?_, ?_⟩
    · constructor
      · rintro ⟨compilation, hok⟩
        rw [herror] at hok
        cases hok
      · intro hall
        exact absurd (hall k hk) hn
    · intro compilation hok
      rw [herror] at hok
      cases hok
    · intro i hi hfirst hnot
      -- there is only one first line that is not in its place
      have hik : i = k := by
        rcases Nat.lt_trichotomy i k with hlt | heq | hgt
        · exact absurd (hbefore i hlt) hnot
        · exact heq
        · exact absurd (hfirst k hgt) hn
      rw [herror, hik]
  | whole hsound hstate =>
    have hok := FrontEnd.compile_of_run hreturns hrun
    refine ⟨?_, ?_, ?_⟩
    · constructor
      · intro _
        exact hsound
      · intro _
        exact ⟨_, hok⟩
    · intro compilation hcompilation
      obtain rfl := Except.ok.inj (hok.symm.trans hcompilation)
      apply hstate.forest_eq hsound
      intro i _
      rfl
    · intro i hi _ hnot
      exact absurd (hsound i hi) hnot

/-- A call and a text belong to the second call of the first line, whatever is empty between
them. -/
theorem compile_offside_block :
    (FrontEnd.standard.compile "$$a $$b\n  $$c\n\n  x y").1.map Compilation.roots =
        .ok [⟨"$$a", ⟨1, 1⟩, [.call "$$b" ⟨1, 5⟩ [.call "$$c" ⟨2, 3⟩ [], .text "x y"]]⟩] ∧
      (∀ i < 3, Outline.Sound '$' (outline "$$a $$b\n  $$c\n\n  x y") i) ∧
      (Outline.roots (outline "$$a $$b\n  $$c\n\n  x y")).map
          (Outline.item '$' (outline "$$a $$b\n  $$c\n\n  x y")) =
        [.call "$$a" ⟨1, 1⟩ [.call "$$b" ⟨1, 5⟩ [.call "$$c" ⟨2, 3⟩ [], .text "x y"]]] := by
  have hroots : (FrontEnd.standard.compile "$$a $$b\n  $$c\n\n  x y").1.map Compilation.roots =
      .ok [⟨"$$a", ⟨1, 1⟩, [.call "$$b" ⟨1, 5⟩ [.call "$$c" ⟨2, 3⟩ [], .text "x y"]]⟩] := by
    decide +kernel
  refine ⟨hroots, ?_⟩
  cases hcompile : (FrontEnd.standard.compile "$$a $$b\n  $$c\n\n  x y").1 with
  | error fault =>
    rw [hcompile] at hroots
    cases hroots
  | ok compilation =>
    rw [hcompile] at hroots
    obtain ⟨hsound, hforest, _⟩ := compile_offside .standard "$$a $$b\n  $$c\n\n  x y"
      ((strayReturn?_eq_none_iff .first _).mp (by decide)) (by decide) (by decide)
      (fun _ _ h => by rw [hcompile] at h; cases h)
    refine ⟨hsound.mp ⟨compilation, hcompile⟩, (hforest compilation hcompile).symm.trans ?_⟩
    rw [show compilation.roots = _ from Except.ok.inj hroots]
    rfl

end Offside
