/-!
# Lines of a text

A text is cut into lines at its line breaks. A break is a line feed, alone or right
behind a carriage return. Putting the lines together again, breaks included, gives
the text back. The rules of the grammar do not know lines in advance; that they read
a document line by line is a theorem about them.
-/

namespace Offside

/-- What ends a line. -/
inductive LineBreak where
  /-- A line feed. -/
  | feed
  /-- A carriage return and a line feed. -/
  | returnFeed
deriving DecidableEq

/-- The characters of a line break. -/
def LineBreak.chars : LineBreak → List Char
  | .feed => ['\n']
  | .returnFeed => ['\r', '\n']

/-- A line: its characters, and the break behind it unless it is the last one. -/
structure Line where
  /-- The characters before the break. -/
  content : List Char
  /-- The break, if there is one. -/
  ending : Option LineBreak
deriving DecidableEq

namespace Line

/-- All characters of a line, its break included. -/
def chars (line : Line) : List Char :=
  line.content ++ line.ending.elim [] LineBreak.chars

/-- Puts a character in front of a text that is already cut into its first line and the
later ones. -/
def attach (c : Char) (cut : Line × List Line) : Line × List Line :=
  if c = '\n' then (⟨[], some .feed⟩, cut.1 :: cut.2)
  else if c = '\r' ∧ cut.1 = ⟨[], some .feed⟩ then (⟨[], some .returnFeed⟩, cut.2)
  else (⟨c :: cut.1.content, cut.1.ending⟩, cut.2)

/-- The first line of a text and the later ones. -/
def cut (chars : List Char) : Line × List Line :=
  chars.foldr attach (⟨[], none⟩, [])

/-- The lines of a text. There is always one, and it may be empty. -/
def ofChars (chars : List Char) : List Line :=
  (cut chars).1 :: (cut chars).2

/-- A text is cut from its end: the first character joins the lines of the rest. -/
theorem cut_cons (c : Char) (chars : List Char) : cut (c :: chars) = attach c (cut chars) := rfl

/-- Putting a character in front adds it to what the lines spell. -/
theorem flatMap_chars_attach (c : Char) (cut : Line × List Line) :
    ((attach c cut).1 :: (attach c cut).2).flatMap chars = c :: (cut.1 :: cut.2).flatMap chars := by
  unfold attach
  by_cases hfeed : c = '\n'
  · simp [hfeed, chars, LineBreak.chars]
  · by_cases hreturn : c = '\r' ∧ cut.1 = ⟨[], some .feed⟩
    · simp [hreturn, chars, LineBreak.chars]
    · rw [if_neg hfeed, if_neg hreturn]
      simp [chars]

/-- The lines of a text spell the text. -/
theorem flatMap_chars_ofChars (text : List Char) : (ofChars text).flatMap chars = text := by
  induction text with
  | nil => rfl
  | cons c rest ih =>
    have h := flatMap_chars_attach c (cut rest)
    rw [← cut_cons] at h
    exact h.trans (congrArg (c :: ·) ih)

end Line

end Offside
