import Offside.Fault
import Offside.Text.Blank
import Offside.Token.Basic
import Offside.Token.Pattern

/-!
# The grammar of a document

A document is its sigil and a text behind it: lines with breaks between them. A line is an
indent, if it has one, and calls and texts in any order. Whatever can be a call is one, and
a text goes on until something else has to begin.

Each attempt at a rule either finds a token and goes on behind it or fails, and the scan keeps
the furthest offset at which one failed. That is where a document is at fault that goes on where
no rule matches. Places are found in the document, so on its first line they are one column
behind those of the text.
-/

namespace Offside

/-- A rule of the grammar whose matches are tokens. -/
inductive Rule where
  /-- The blanks at the start of a line. -/
  | indent
  /-- A call. -/
  | call
  /-- Literal text. -/
  | text
  /-- The end of a line that is not the last one. -/
  | lineBreak

namespace Rule

/-- What neither indents nor texts may hold. -/
def lineEnd : Pattern :=
  .alt (.char '\r') (.char '\n')

/-- What makes two sigils interrupt a text. -/
def nameStart : Pattern :=
  .alt (.one Char.isAlphanum) (.char '_')

/-- What a rule matches. -/
def pattern : Rule → Pattern
  | .indent => .repeated (.seq (.absent lineEnd) (.one Text.isBlank))
  | .call => .seq .sigil (.seq .sigil (.repeated (.seq (.absent (.one Text.isBlank)) .any)))
  | .text =>
    .repeated (.seq (.absent (.seq .sigil (.seq .sigil nameStart)))
      (.seq (.absent lineEnd) .any))
  | .lineBreak => .alt (.seq (.char '\r') (.char '\n')) (.char '\n')

/-- The word that a match of a rule stands for. -/
def word : Rule → List Char → Word
  | .indent, chars => .indent chars.length
  | .call, chars => .call (String.ofList chars)
  | .text, chars => .text (String.ofList chars)
  | .lineBreak, _ => .lineBreak

/-- Every token takes up some characters. -/
theorem advances_pattern (rule : Rule) : rule.pattern.advances = true := by
  cases rule <;> rfl

end Rule

/-- How far the reading of a document has come. -/
structure Scan where
  /-- What is left of the document. -/
  rest : List Char
  /-- How many characters come before that. -/
  offset : Nat
  /-- The line and column that they lead to. -/
  place : Position
  /-- The tokens so far, latest first, each at its place in the document. -/
  found : List Token
  /-- The furthest offset at which a rule has failed. -/
  furthest : Nat

namespace Scan

variable {sigil : Char} {rule : Rule} {scan next stopped : Scan}

/-- The scan behind the sigil of a document. -/
def start (sigil : Char) (text : List Char) : Scan :=
  ⟨text, 1, Position.first.step sigil, [], 0⟩

/-- The scan that a failure at its offset has been noted in. -/
def fail (scan : Scan) : Scan :=
  { scan with furthest := max scan.furthest scan.offset }

/-- Tries a rule. If it matches, a token is found and the scan goes on behind it, and otherwise
it stays where it is. -/
def attempt (sigil : Char) (rule : Rule) (scan : Scan) : Except Scan Scan :=
  match rule.pattern.length? sigil scan.rest with
  | some length =>
    let chars := scan.rest.take length
    .ok ⟨scan.rest.drop length, scan.offset + length, scan.place.advance chars,
      ⟨rule.word chars, scan.place⟩ :: scan.found, scan.furthest⟩
  | none => .error scan.fail

/-- Behind a token there is less of the document left. -/
theorem length_rest_of_attempt (h : scan.attempt sigil rule = .ok next) :
    next.rest.length < scan.rest.length := by
  unfold attempt at h
  split at h
  · next length hlength =>
    have hpos := Pattern.length?_pos rule.advances_pattern hlength
    have hle := Pattern.length?_le _ hlength
    obtain rfl := Except.ok.inj h
    rw [List.length_drop]
    omega
  · cases h

/-- An attempt that fails takes up nothing. -/
theorem rest_of_attempt (h : scan.attempt sigil rule = .error stopped) :
    stopped.rest = scan.rest := by
  unfold attempt at h
  split at h
  · cases h
  · obtain rfl := Except.error.inj h
    rfl

/-- Reads calls and texts for as long as there are any. -/
def contents (sigil : Char) (scan : Scan) : Scan :=
  match hcall : scan.attempt sigil .call with
  | .ok next =>
    have := length_rest_of_attempt hcall
    contents sigil next
  | .error stopped =>
    match htext : stopped.attempt sigil .text with
    | .ok next =>
      have : next.rest.length < scan.rest.length := by
        -- the text was tried where the call had failed
        rw [← rest_of_attempt hcall]
        exact length_rest_of_attempt htext
      contents sigil next
    | .error stopped => stopped
termination_by scan.rest.length

/-- Behind a call there may be more. -/
theorem contents_of_call (hcall : scan.attempt sigil .call = .ok next) :
    scan.contents sigil = next.contents sigil := by
  rw [contents]
  split
  · next found hfound => rw [Except.ok.inj (hcall.symm.trans hfound)]
  · next hfailed => cases hcall.symm.trans hfailed

/-- Behind a text there may be more. -/
theorem contents_of_text (hcall : scan.attempt sigil .call = .error stopped)
    (htext : stopped.attempt sigil .text = .ok next) :
    scan.contents sigil = next.contents sigil := by
  rw [contents]
  split
  · next hfound => cases hcall.symm.trans hfound
  · next failed hfailed =>
    obtain rfl := Except.error.inj (hcall.symm.trans hfailed)
    split
    · next found hfound => rw [Except.ok.inj (htext.symm.trans hfound)]
    · next hfailed => cases htext.symm.trans hfailed

/-- Without a call or a text there is nothing more. -/
theorem contents_of_error (hcall : scan.attempt sigil .call = .error stopped)
    (htext : stopped.attempt sigil .text = .error next) : scan.contents sigil = next := by
  rw [contents]
  split
  · next hfound => cases hcall.symm.trans hfound
  · next failed hfailed =>
    obtain rfl := Except.error.inj (hcall.symm.trans hfailed)
    split
    · next hfound => cases htext.symm.trans hfound
    · next failed hfailed => exact Except.error.inj (hfailed.symm.trans htext)

/-- Reads a line up to its end. -/
def line (sigil : Char) (scan : Scan) : Scan :=
  match scan.attempt sigil .indent with
  | .ok next => next.contents sigil
  | .error stopped => stopped.contents sigil

/-- Reading calls and texts never goes back. -/
theorem length_rest_contents_le (sigil : Char) (scan : Scan) :
    (scan.contents sigil).rest.length ≤ scan.rest.length := by
  fun_induction contents sigil scan with
  | case1 scan next hcall hless ih => omega
  | case2 scan stopped hcall next htext hless ih => omega
  | case3 scan stopped hcall last htext =>
    have hrest := (rest_of_attempt htext).trans (rest_of_attempt hcall)
    exact Nat.le_of_eq (congrArg List.length hrest)

/-- Nor does reading a line. -/
theorem length_rest_line_le (sigil : Char) (scan : Scan) :
    (scan.line sigil).rest.length ≤ scan.rest.length := by
  unfold line
  split
  · next after hindent =>
    have := length_rest_of_attempt hindent
    have := length_rest_contents_le sigil after
    omega
  · next stopped hindent =>
    rw [← rest_of_attempt hindent]
    exact length_rest_contents_le sigil stopped

/-- Reads further lines for as long as there is a break in front of them. -/
def furtherLines (sigil : Char) (scan : Scan) : Scan :=
  match hbreak : scan.attempt sigil .lineBreak with
  | .ok next =>
    have : (next.line sigil).rest.length < scan.rest.length :=
      Nat.lt_of_le_of_lt (length_rest_line_le sigil next) (length_rest_of_attempt hbreak)
    furtherLines sigil (next.line sigil)
  | .error stopped => stopped
termination_by scan.rest.length

/-- Behind a break there is another line. -/
theorem furtherLines_of_break (hbreak : scan.attempt sigil .lineBreak = .ok next) :
    scan.furtherLines sigil = (next.line sigil).furtherLines sigil := by
  rw [furtherLines]
  split
  · next found hfound => rw [Except.ok.inj (hbreak.symm.trans hfound)]
  · next hfailed => cases hbreak.symm.trans hfailed

/-- Without a break there is none. -/
theorem furtherLines_of_error (hbreak : scan.attempt sigil .lineBreak = .error stopped) :
    scan.furtherLines sigil = stopped := by
  rw [furtherLines]
  split
  · next hfound => cases hbreak.symm.trans hfound
  · next failed hfailed => exact Except.error.inj (hfailed.symm.trans hbreak)

end Scan

/-- The tokens of a document, which gives its sigil first, or the furthest place at which a rule
has failed. Nothing but the end of the document may follow its last line. -/
def document : List Char → Except Position (List Token)
  | [] => .error .first
  | sigil :: text =>
    let scan := ((Scan.start sigil text).line sigil).furtherLines sigil
    if scan.rest.isEmpty then .ok scan.found.reverse
    else .error (Position.first.advance ((sigil :: text).take scan.fail.furthest))

/-- The place in a text of a place in the document with the sigil in front of the text. -/
def Position.inText (place : Position) : Position :=
  if place.line = 1 then ⟨place.line, max (place.column - 1) 1⟩ else place

/-- The tokens of a text, with the given character as the sigil. -/
def tokenize (sigil : Char) (text : String) : Except Fault (List Token) :=
  if Text.isBlank sigil then .error (.blankSigil sigil)
  else
    match document (sigil :: text.toList) with
    | .ok tokens => .ok (tokens.map fun token => ⟨token.word, token.position.inText⟩)
    | .error place => .error (.strayReturn place.inText)

end Offside
