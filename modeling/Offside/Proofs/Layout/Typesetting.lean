import Mathlib.Data.List.TakeWhile
import Offside.Proofs.Layout.LineReading

/-!
# Writing a forest

A forest can be written with every call and every text on a line of its own. The arguments
of a call stand below it, further right than the call and all in one column. Which blanks
indent a line, how far a block is set in and how lines are broken is left open.
-/

namespace Offside

/-! ### What can be written -/

/-- A call begins with two sigils, and with something that is not blank behind them. -/
def IsName (sigil : Char) (name : String) : Prop :=
  ∃ first rest, name.toList = sigil :: sigil :: first :: rest ∧
    ∀ c ∈ first :: rest, Text.isBlank c = false

/-- Characters that begin with one that is not blank. -/
def BeginsInk (body : List Char) : Prop :=
  ∃ first rest, body = first :: rest ∧ Text.isBlank first = false

/-- A text for a line of its own: it has no line break and begins with a character that is
not blank, but not with a call. -/
def IsLineText (sigil : Char) (content : String) : Prop :=
  BeginsInk content.toList ∧ opensCall sigil content.toList = false ∧
    '\n' ∉ content.toList ∧ '\r' ∉ content.toList

namespace Item

mutual

/-- An item all of whose calls and texts can be written. -/
def IsWritable (sigil : Char) : Item → Prop
  | .text content => IsLineText sigil content
  | .call name _ arguments => IsName sigil name ∧ AreWritable sigil arguments
  | .quoted _ => False

/-- Items all of whose calls and texts can be written. -/
def AreWritable (sigil : Char) : List Item → Prop
  | [] => True
  | item :: rest => item.IsWritable sigil ∧ AreWritable sigil rest

end

mutual

/-- An item without the places at which its calls were written. -/
def unplaced : Item → Item
  | .text content => .text content
  | .call name _ arguments => .call name .first (unplacedAll arguments)
  | .quoted items => .quoted (unplacedAll items)

/-- Items without the places at which their calls were written. -/
def unplacedAll : List Item → List Item
  | [] => []
  | item :: rest => item.unplaced :: unplacedAll rest

end

end Item

/-- Blanks that indent a line up to the given column. -/
def IsIndent (column : ℕ) (blanks : List Char) : Prop :=
  blanks.length = column ∧ ∀ c ∈ blanks, Text.isBlank c = true ∧ c ≠ '\n' ∧ c ≠ '\r'

/-- Spaces indent a line. -/
theorem isIndent_replicate (column : ℕ) : IsIndent column (List.replicate column ' ') := by
  refine ⟨List.length_replicate, fun c hc => ?_⟩
  rw [List.eq_of_mem_replicate hc]
  decide

/-- Lines that hold the given items at the given column. -/
inductive Sets : ℕ → List Item → List (List Char) → Prop where
  /-- Without items there are no lines. -/
  | nil {column : ℕ} : Sets column [] []
  /-- A text is a line. -/
  | text {column : ℕ} {blanks : List Char} {content : String} {rest : List Item}
      {later : List (List Char)} (hblanks : IsIndent column blanks)
      (hrest : Sets column rest later) :
      Sets column (.text content :: rest) ((blanks ++ content.toList) :: later)
  /-- A call is a line, and its arguments are the next lines, in a column further right. -/
  | call {column block : ℕ} {blanks : List Char} {name : String} {position : Position}
      {arguments rest : List Item} {inner later : List (List Char)}
      (hblanks : IsIndent column blanks) (hright : column < block)
      (harguments : Sets block arguments inner) (hrest : Sets column rest later) :
      Sets column (.call name position arguments :: rest)
        ((blanks ++ name.toList) :: (inner ++ later))

/-- All items that can be written have lines that hold them. -/
theorem exists_sets {sigil : Char} (items : List Item) (column : ℕ)
    (h : Item.AreWritable sigil items) : ∃ contents, Sets column items contents := by
  match items, h with
  | [], _ => exact ⟨[], .nil⟩
  | .text content :: rest, ⟨_, hrest⟩ =>
    obtain ⟨later, hlater⟩ := exists_sets rest column hrest
    exact ⟨_, .text (isIndent_replicate column) hlater⟩
  | .call name position arguments :: rest, ⟨⟨_, harguments⟩, hrest⟩ =>
    obtain ⟨inner, hinner⟩ := exists_sets arguments (column + 1) harguments
    obtain ⟨later, hlater⟩ := exists_sets rest column hrest
    exact ⟨_, .call (isIndent_replicate column) (Nat.lt_succ_self column) hinner hlater⟩
  | .quoted _ :: _, ⟨hquoted, _⟩ => exact hquoted.elim
termination_by sizeOf items

/-- The characters of lines, each of which is broken; only the last one need not be. -/
inductive Spells : List (List Char) → List Char → Prop where
  /-- No lines have no characters. -/
  | nil : Spells [] []
  /-- The last line need not be broken. -/
  | last (content : List Char) : Spells [content] content
  /-- A line is broken in either way. -/
  | broken {later : List (List Char)} {chars : List Char} (content : List Char)
      (kind : LineBreak) (h : Spells later chars) :
      Spells (content :: later) (content ++ (kind.chars ++ chars))

/-- No carriage return of a written text is astray. -/
theorem Spells.unstrayed {contents : List (List Char)} {chars : List Char}
    (h : Spells contents chars) (hplain : ∀ content ∈ contents, '\n' ∉ content ∧ '\r' ∉ content) :
    Unstrayed chars := by
  induction h with
  | nil => exact unstrayed_nil
  | last content =>
    rw [← List.append_nil content]
    exact unstrayed_append (hplain content List.mem_cons_self).2 unstrayed_nil
  | broken content kind _ ih =>
    obtain ⟨hcontent, hlater⟩ := List.forall_mem_cons.mp hplain
    exact unstrayed_append hcontent.2 (unstrayed_break kind (ih hlater))

/-- No written line is longer than the text. -/
theorem Spells.length_le {contents : List (List Char)} {chars : List Char}
    (h : Spells contents chars) : ∀ content ∈ contents, content.length ≤ chars.length := by
  induction h with
  | nil => simp
  | last content => simp
  | broken content kind _ ih =>
    intro other hother
    rw [List.length_append, List.length_append]
    rcases List.mem_cons.mp hother with rfl | hother
    · omega
    · have := ih other hother
      omega

/-! ### The tokens of written lines -/

/-- The tokens of lines, all of which are broken; the first one has the given number. -/
def brokenTokens (sigil : Char) (number : ℕ) : List (List Char) → List Token
  | [] => []
  | content :: later =>
    (SourceLine.mk number content).tokens sigil ++
      ⟨.lineBreak, ⟨number, content.length + 1⟩⟩ :: brokenTokens sigil (number + 1) later

/-- Lines behind others have the next numbers. -/
theorem brokenTokens_append (sigil : Char) (number : ℕ) (front back : List (List Char)) :
    brokenTokens sigil number (front ++ back) =
      brokenTokens sigil number front ++ brokenTokens sigil (number + front.length) back := by
  induction front generalizing number with
  | nil => rfl
  | cons content front ih =>
    rw [List.cons_append, brokenTokens, ih, brokenTokens, List.length_cons, List.append_assoc,
      List.cons_append, Nat.add_assoc, Nat.add_comm 1]

/-- The tokens of a written text are those of its lines, except that its last line may be
without its break. -/
theorem brokenTokens_of_spells {contents : List (List Char)} {chars : List Char}
    (h : Spells contents chars) (hplain : ∀ content ∈ contents, '\n' ∉ content ∧ '\r' ∉ content)
    (sigil : Char) (number : ℕ) :
    ∃ back, brokenTokens sigil number contents =
        lineTokens sigil number (Line.ofChars chars) ++ back ∧
      ∀ token ∈ back, token.word = .lineBreak := by
  induction h generalizing number with
  | nil =>
    have hlines : Line.ofChars [] = [⟨[], none⟩] := rfl
    refine ⟨[], ?_, by simp⟩
    simp [hlines, brokenTokens, lineTokens, Line.pieces, bodyPieces_nil, placePieces_nil]
  | last content =>
    obtain ⟨hfeed, hreturn⟩ := hplain content List.mem_cons_self
    have hlines : Line.ofChars content = [⟨content, none⟩] :=
      Line.ofChars_singleton hfeed hreturn
    refine ⟨[⟨.lineBreak, ⟨number, content.length + 1⟩⟩], ?_, by simp⟩
    rw [hlines, lineTokens, SourceLine.placePieces_line sigil hfeed]
    simp [brokenTokens, lineTokens, placePieces_nil]
  | @broken later chars content kind _ ih =>
    obtain ⟨⟨hfeed, hreturn⟩, hrest⟩ := List.forall_mem_cons.mp hplain
    obtain ⟨back, hback, hbreaks⟩ := ih hrest (number + 1)
    refine ⟨back, ?_, hbreaks⟩
    rw [Line.ofChars_broken hfeed hreturn, lineTokens, SourceLine.placePieces_line sigil hfeed,
      brokenTokens, hback]
    simp [placePieces_cons, placePieces_nil, Piece.word]

/-! ### One written line -/

/-- The characters of a name are not blank. -/
theorem IsName.not_blank {sigil : Char} (hsigil : Text.isBlank sigil = false) {name : String}
    (h : IsName sigil name) : ∀ c ∈ name.toList, Text.isBlank c = false := by
  obtain ⟨first, rest, hname, hink⟩ := h
  rw [hname]
  exact List.forall_mem_cons.mpr ⟨hsigil, List.forall_mem_cons.mpr ⟨hsigil, hink⟩⟩

/-- A name begins with the sigil, and that is not blank. -/
theorem IsName.beginsInk {sigil : Char} (hsigil : Text.isBlank sigil = false) {name : String}
    (h : IsName sigil name) : BeginsInk name.toList := by
  obtain ⟨first, rest, hname, _⟩ := h
  exact ⟨sigil, sigil :: first :: rest, hname, hsigil⟩

/-- A name is one piece, which is a call. -/
theorem IsName.bodyPieces {sigil : Char} (hsigil : Text.isBlank sigil = false) {name : String}
    (h : IsName sigil name) : bodyPieces sigil name.toList = [.call name.toList] := by
  have hink := h.not_blank hsigil
  obtain ⟨first, rest, hname, hrest⟩ := h
  have hopens : opensCall sigil (sigil :: sigil :: first :: rest) = true := by
    simp [opensCall, hrest first List.mem_cons_self]
  rw [hname] at hink ⊢
  have hall : ∀ c ∈ sigil :: first :: rest, (!Text.isBlank c) = true := fun c hc => by
    rw [hink c (List.mem_cons_of_mem sigil hc)]
    rfl
  rw [bodyPieces_call hopens, List.takeWhile_eq_self_iff.mpr hall,
    List.dropWhile_eq_nil_iff.mpr hall, bodyPieces_nil]

/-- A line break is blank, so nothing without blanks breaks a line. -/
theorem not_mem_of_not_blank {chars : List Char} (h : ∀ c ∈ chars, Text.isBlank c = false) :
    '\n' ∉ chars ∧ '\r' ∉ chars := by
  constructor
  · intro hfeed
    exact absurd (h _ hfeed) (by decide)
  · intro hreturn
    exact absurd (h _ hreturn) (by decide)

/-- A line is longer than its indent is wide. -/
theorem IsIndent.column_lt {column bound : ℕ} {blanks body : List Char}
    (h : IsIndent column blanks) (hbound : (blanks ++ body).length < bound) : column < bound := by
  have hlength : blanks.length = column := h.1
  rw [List.length_append] at hbound
  omega

/-- Blanks that indent a line do not break it. -/
theorem IsIndent.not_mem {column : ℕ} {blanks body : List Char} (h : IsIndent column blanks)
    (hbody : '\n' ∉ body ∧ '\r' ∉ body) : '\n' ∉ blanks ++ body ∧ '\r' ∉ blanks ++ body := by
  obtain ⟨_, hblanks⟩ := h
  constructor
  · intro hfeed
    rcases List.mem_append.mp hfeed with hmem | hmem
    · exact (hblanks _ hmem).2.1 rfl
    · exact hbody.1 hmem
  · intro hreturn
    rcases List.mem_append.mp hreturn with hmem | hmem
    · exact (hblanks _ hmem).2.2 rfl
    · exact hbody.2 hmem

/-- No line of written items is broken inside. -/
theorem Sets.not_mem {sigil : Char} (hsigil : Text.isBlank sigil = false) {column : ℕ}
    {items : List Item} {contents : List (List Char)} (h : Sets column items contents)
    (hwritable : Item.AreWritable sigil items) :
    ∀ content ∈ contents, '\n' ∉ content ∧ '\r' ∉ content := by
  induction h with
  | nil => simp
  | text hblanks _ ih =>
    obtain ⟨⟨_, _, htext⟩, hrest⟩ := hwritable
    exact List.forall_mem_cons.mpr ⟨hblanks.not_mem htext, ih hrest⟩
  | call hblanks _ _ _ iharguments ihrest =>
    obtain ⟨⟨hname, harguments⟩, hrest⟩ := hwritable
    refine List.forall_mem_cons.mpr
      ⟨hblanks.not_mem (not_mem_of_not_blank (hname.not_blank hsigil)), fun content hmem => ?_⟩
    rcases List.mem_append.mp hmem with hmem | hmem
    · exact iharguments harguments content hmem
    · exact ihrest hrest content hmem

namespace SourceLine

variable {sigil : Char} {column : ℕ} {blanks body : List Char}

/-- The indent of a written line is its column. -/
theorem indent_append (hblanks : IsIndent column blanks) (hbody : BeginsInk body) (number : ℕ) :
    (SourceLine.mk number (blanks ++ body)).indent = column := by
  obtain ⟨first, rest, rfl, hfirst⟩ := hbody
  obtain ⟨hlength, hall⟩ := hblanks
  rw [indent, List.takeWhile_append_of_pos fun c hc => (hall c hc).1,
    List.takeWhile_cons_of_neg (by simp [hfirst]), List.append_nil, hlength]

/-- What follows the indent of a written line. -/
theorem body_append (hblanks : IsIndent column blanks) (hbody : BeginsInk body) (number : ℕ) :
    (SourceLine.mk number (blanks ++ body)).body = body := by
  obtain ⟨first, rest, rfl, hfirst⟩ := hbody
  obtain ⟨_, hall⟩ := hblanks
  rw [SourceLine.body, List.dropWhile_append_of_pos fun c hc => (hall c hc).1,
    List.dropWhile_cons_of_neg (by simp [hfirst])]

/-- A written line that is indented has its indent as the first token. -/
theorem tokens_of_pos (hblanks : IsIndent column blanks) (hbody : BeginsInk body)
    (hcolumn : 0 < column) (number : ℕ) :
    (SourceLine.mk number (blanks ++ body)).tokens sigil =
      ⟨.indent column, ⟨number, 1⟩⟩ ::
        placePieces ⟨number, column + 1⟩ (bodyPieces sigil body) := by
  rw [tokens, bodyStart, start, indent_append hblanks hbody, body_append hblanks hbody,
    if_neg (Nat.ne_of_gt hcolumn)]

/-- A written line at the left edge has no indent. -/
theorem tokens_of_zero (hblanks : IsIndent 0 blanks) (hbody : BeginsInk body) (number : ℕ) :
    (SourceLine.mk number (blanks ++ body)).tokens sigil =
      placePieces ⟨number, 1⟩ (bodyPieces sigil body) := by
  rw [tokens, bodyStart, indent_append hblanks hbody, body_append hblanks hbody, if_pos rfl]

end SourceLine

end Offside
