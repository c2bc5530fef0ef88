import Mathlib.Logic.Equiv.Basic
import Offside.FrontEnd
import Offside.Proofs.Layout.Transfer
import Offside.Proofs.Token.Respelling

/-!
# The choice of the sigil

Which character is the sigil does not matter. If a text is written with another one, and the old
one stands wherever the other one stood, then it is compiled into the same forest with the two
characters swapped in its names and texts. This holds for any two characters that are not blank,
as long as both can begin a name or neither can.
-/

namespace Offside

/-! ### Forests with other characters -/

/-- The call with its names and texts spelled otherwise. -/
def Call.respelled (spell : String → String) (call : Call) : Call :=
  ⟨spell call.name, call.position, call.arguments.map (Item.recast spell id)⟩

/-- The compilation with the names and texts of its forest spelled otherwise. -/
def Compilation.respelled (spell : String → String) (compilation : Compilation) : Compilation :=
  ⟨compilation.roots.map (Call.respelled spell), compilation.remarks⟩

namespace Transfer

/-- Carries a source to where its names and texts are spelled otherwise. -/
def spelling (spell : String → String) : Transfer := { spell := spell }

/-- The transfer spells tokens otherwise and leaves them at their places. -/
theorem token_spelling (spell : String → String) :
    (spelling spell).token = Token.respelled spell := by
  funext ⟨word, place⟩
  cases word <;> rfl

/-- It spells calls otherwise as well. -/
theorem call_spelling (spell : String → String) : (spelling spell).call = Call.respelled spell :=
  rfl

/-- A reader does not tell other characters that keep what tells words apart. -/
theorem keeps_spelling {f : Char → Char} {sigil other : Char} (h : Respells f sigil other) :
    (spelling (Text.respell f)).Keeps Set.univ where
  spell_append start content := by
    simp [spelling, Text.respell]
  isBlankText_spell content := by
    simp only [spelling, Text.isBlankText, Text.toList_respell, List.all_map, Function.comp_def,
      h.isBlank_eq]
  zero_mem := trivial
  width_zero := rfl
  width_lt _ _ _ _ := Iff.rfl
  width_fits _ _ := Iff.rfl

end Transfer

/-! ### Compiling with other characters -/

/-- A text with other characters is compiled into the forest that it had before, with these
characters in its names and texts, or is at fault in the same way at the same place. -/
theorem Respells.compile_respell {f : Char → Char} {one two : FrontEnd}
    (h : Respells f one.settings.sigil two.settings.sigil)
    (hlimit : two.settings.nestingLimit = one.settings.nestingLimit) (text : String) :
    two.compile (Text.respell f text) =
      ((one.compile text).1.map (Compilation.respelled (Text.respell f)),
        (one.compile text).2) := by
  have htokens : two.tokenize (Text.respell f text) = _ :=
    h.tokenize_respell one.sigil_not_blank text
  cases hone : one.tokenize text with
  | error fault =>
    rw [show tokenize one.settings.sigil text = .error fault from hone] at htokens
    simp only [FrontEnd.compile, hone, htokens]
    rfl
  | ok tokens =>
    rw [show tokenize one.settings.sigil text = .ok tokens from hone] at htokens
    obtain ⟨houtcome, hremarks, hevents⟩ := (Transfer.keeps_spelling h).parse_token
      (fun token (_ : token ∈ tokens) _ _ => trivial) rfl rfl rfl
      { limit := one.settings.nestingLimit }
    rw [Transfer.token_spelling, Transfer.call_spelling] at houtcome
    rw [Transfer.token_spelling, Transfer.remark_of_id rfl, List.map_id] at hremarks
    rw [Transfer.token_spelling, Transfer.event_of_id rfl, List.map_id] at hevents
    simp only [FrontEnd.compile, hone, htokens, hlimit, Except.map, houtcome, hremarks, hevents]
    cases (Parser.parse { limit := one.settings.nestingLimit } tokens).outcome with
    | error fault =>
      have hfault : (Transfer.spelling (Text.respell f)).fault = id := Transfer.fault_of_id rfl rfl
      simp only [Transfer.result, hfault, id]
    | ok roots => simp only [Transfer.result, Compilation.respelled, List.length_map]

/-! ### Swapping two characters -/

/-- Swapping two characters keeps what tells words apart, if neither is blank and both can begin
a name or neither can. -/
theorem respells_swap {sigil other : Char} (hsigil : Text.isBlank sigil = false)
    (hother : Text.isBlank other = false) (hclass : isNameStart sigil = isNameStart other) :
    Respells (Equiv.swap sigil other) sigil other := by
  have hkeeps (p : Char → Bool) (hp : p sigil = p other) (c : Char) :
      p (Equiv.swap sigil other c) = p c := by
    rw [Equiv.swap_apply_def]
    split
    · next hc => rw [hc, hp]
    · split
      · next hc => rw [hc, hp]
      · rfl
  have hfixed {blank : Char} (hblank : Text.isBlank blank = true) (c : Char) :
      Equiv.swap sigil other c = blank ↔ c = blank := by
    have hone : blank ≠ sigil := by
      rintro rfl
      rw [hsigil] at hblank
      cases hblank
    have htwo : blank ≠ other := by
      rintro rfl
      rw [hother] at hblank
      cases hblank
    exact (Equiv.swap sigil other).injective.eq_iff' (Equiv.swap_apply_of_ne_of_ne hone htwo)
  constructor
  · exact hkeeps Text.isBlank (hsigil.trans hother.symm)
  · exact hkeeps isNameStart hclass
  · exact hfixed (by decide)
  · exact hfixed (by decide)
  · intro c
    exact (Equiv.swap sigil other).injective.eq_iff' (Equiv.swap_apply_left sigil other)

/-- The choice of the sigil does not matter. Of two characters that are not blank, and that can
both begin a name or both not, let one be the sigil. If the two are swapped in a text, and the
other one is made the sigil, then the text has the same tokens at the same places and the same
forest, with the two swapped in all names and texts, and the same remarks and events; or it is
at fault in the same way at the same place. -/
theorem compile_swap (settings : Settings) {other : Char}
    (hsigil : Text.isBlank settings.sigil = false) (hother : Text.isBlank other = false)
    (hclass : isNameStart settings.sigil = isNameStart other) (text : String) :
    let swap := Text.respell (Equiv.swap settings.sigil other)
    let one : FrontEnd := ⟨settings, hsigil⟩
    let two : FrontEnd := ⟨{ settings with sigil := other }, hother⟩
    two.tokenize (swap text) = (one.tokenize text).map (List.map (Token.respelled swap)) ∧
      two.compile (swap text) =
        ((one.compile text).1.map (Compilation.respelled swap), (one.compile text).2) := by
  intro swap one two
  have hrespells : Respells (Equiv.swap settings.sigil other) one.settings.sigil
      two.settings.sigil := respells_swap hsigil hother hclass
  constructor
  · exact hrespells.tokenize_respell hsigil text
  · exact hrespells.compile_respell rfl text

/-- A text with both characters in its names and in its texts. -/
theorem compile_swap_block :
    let text := "$$a%$ %%b\n  $$%c $\n  %$"
    let swapped := "%%a$% $$b\n  %%$c %\n  $%"
    let two : FrontEnd := ⟨{ Settings.standard with sigil := '%' }, by decide⟩
    Text.isBlank '$' = false ∧ Text.isBlank '%' = false ∧ isNameStart '$' = isNameStart '%' ∧
      Text.respell (Equiv.swap '$' '%') text = swapped ∧
      (FrontEnd.standard.compile text).1.map Compilation.roots =
        .ok [⟨"$$a%$", ⟨1, 1⟩, [.text " %%b", .call "$$%c" ⟨2, 3⟩ [.text " $"], .text "%$"]⟩] ∧
      (two.compile swapped).1.map Compilation.roots =
        .ok [⟨"%%a$%", ⟨1, 1⟩, [.text " $$b", .call "%%$c" ⟨2, 3⟩ [.text " %"], .text "$%"]⟩] := by
  intro text swapped two
  have htext : Text.respell (Equiv.swap '$' '%') text = swapped := by decide +kernel
  have hone : (FrontEnd.standard.compile text).1.map Compilation.roots =
      .ok [⟨"$$a%$", ⟨1, 1⟩, [.text " %%b", .call "$$%c" ⟨2, 3⟩ [.text " $"], .text "%$"]⟩] := by
    decide +kernel
  refine ⟨by decide, by decide, by decide, htext, hone, ?_⟩
  obtain ⟨-, htwo⟩ := compile_swap .standard (show Text.isBlank '$' = false by decide)
    (show Text.isBlank '%' = false by decide) (by decide) text
  have hswapped : (two.compile swapped).1 = (FrontEnd.standard.compile text).1.map
      (Compilation.respelled (Text.respell (Equiv.swap '$' '%'))) := by
    rw [← htext]
    exact congrArg Prod.fst htwo
  rw [hswapped]
  cases hcompile : (FrontEnd.standard.compile text).1 with
  | error fault =>
    rw [hcompile] at hone
    cases hone
  | ok compilation =>
    rw [hcompile] at hone
    have hroots : compilation.roots = _ := Except.ok.inj hone
    simp only [Except.map, Compilation.respelled, hroots]
    decide +kernel

end Offside
