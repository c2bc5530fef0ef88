import Offside.Layout.Parser
import Offside.Settings
import Offside.Token.Grammar

/-!
# The front end

A front end reads texts under settings that have been checked once: text in, forest
and remarks out.
-/

namespace Offside

/-- A forest and the remarks on its source. -/
structure Compilation where
  /-- The outermost calls in order. -/
  roots : List Call
  /-- The remarks in order. -/
  remarks : List Remark

/-- A reader of texts, bound to settings whose sigil is not blank. -/
structure FrontEnd where
  /-- The settings. -/
  settings : Settings
  /-- The sigil can begin a call. -/
  sigil_not_blank : Text.isBlank settings.sigil = false

namespace FrontEnd

/-- The front end for the given settings, if they are sound. -/
def ofSettings? (settings : Settings) : Except Fault FrontEnd :=
  if h : Text.isBlank settings.sigil = false then .ok ⟨settings, h⟩
  else .error (.blankSigil settings.sigil)

/-- The front end for the settings that hold where nothing is chosen. -/
def standard : FrontEnd := ⟨.standard, by decide⟩

/-- A front end exists exactly for the settings that pass the check. -/
theorem ofSettings?_eq_check (settings : Settings) :
    (ofSettings? settings).map (fun _ => ()) = settings.check := by
  unfold ofSettings? Settings.check
  by_cases h : Text.isBlank settings.sigil = false
  · rw [dif_pos h, if_neg (by simp [h])]
    rfl
  · rw [dif_neg h, if_pos (by simpa using h)]
    rfl

/-- A front end keeps the settings it was made for. -/
theorem settings_of_ofSettings? {settings : Settings} {frontEnd : FrontEnd}
    (h : ofSettings? settings = .ok frontEnd) : frontEnd.settings = settings := by
  unfold ofSettings? at h
  split at h
  · cases h
    rfl
  · cases h

/-- The tokens of a text. -/
def tokenize (frontEnd : FrontEnd) (text : String) : Except Fault (List Token) :=
  Offside.tokenize frontEnd.settings.sigil text

/-- The forest of a text and the remarks on it, with the events in order. That a text was
compiled is announced last, and only if it was. -/
def compile (frontEnd : FrontEnd) (text : String) : Except Fault Compilation × List Event :=
  match frontEnd.tokenize text with
  | .error fault => (.error fault, [])
  | .ok tokens =>
    let parsed := Parser.parse { limit := frontEnd.settings.nestingLimit } tokens
    match parsed.outcome with
    | .error fault => (.error fault, parsed.events)
    | .ok roots =>
      let remarks := parsed.parser.remarks
      (.ok ⟨roots, remarks⟩, parsed.events ++ [.compiled roots.length remarks.length])

end FrontEnd

end Offside
