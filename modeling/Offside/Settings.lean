import Offside.Fault
import Offside.Text.Blank

/-!
# Settings

What may be chosen about the language: the character that marks calls, and how
deep calls may nest in a source and during expansion.
-/

namespace Offside

/-- The choices that a front end is made for. -/
structure Settings where
  /-- The character that, written twice, begins a call. -/
  sigil : Char := '$'
  /-- How many calls may be active at once during expansion. -/
  expansionLimit : Nat := 128
  /-- How many calls may be open at once in a source, the outermost included. -/
  nestingLimit : Nat := 128
deriving DecidableEq

namespace Settings

/-- The settings that hold where nothing is chosen. -/
def standard : Settings := {}

/-- The name of a macro as a source writes it, with its two sigils in front. -/
def macroName (settings : Settings) (name : String) : String :=
  String.ofList (settings.sigil :: settings.sigil :: name.toList)

/-- A sigil must not be blank. -/
def check (settings : Settings) : Except Fault Unit :=
  if Text.isBlank settings.sigil then .error (.blankSigil settings.sigil) else .ok ()

end Settings

end Offside
