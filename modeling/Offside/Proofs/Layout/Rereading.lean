import Offside.Proofs.Layout.OneLine

/-!
# Reading a written call again

The written form of a call that was read from one line is again one line. In it each call has a
single space in front of it, whatever stood there before. A text keeps its own blanks, so where
a call comes next the space is one more character of the text.
-/

namespace Offside

namespace Item

/-! ### What a written item is read as -/

/-- Whether an item is a call. -/
def isCall : Item → Bool
  | .call .. => true
  | _ => false

mutual

/-- An item as it is read from its written form, given the argument behind it: a text in front of
a call ends in one more space. -/
def reread (next : Option Item) : Item → Item
  | .text content => .text (if next.any isCall then content ++ " " else content)
  | .call name position arguments => .call name position (rereadAll arguments)
  | .quoted items => .quoted items

/-- Arguments as they are read from their written form. -/
def rereadAll : List Item → List Item
  | [] => []
  | item :: rest => item.reread rest.head? :: rereadAll rest

end

mutual

/-- No text in an item has another argument behind it. -/
def EndsInText : Item → Prop
  | .text _ => True
  | .call _ _ arguments => EndInText arguments
  | .quoted _ => True

/-- No text in a list of arguments has another one behind it, and so inside each of them. -/
def EndInText : List Item → Prop
  | [] => True
  | item :: rest => (rest ≠ [] → item.text? = none) ∧ item.EndsInText ∧ EndInText rest

end

mutual

/-- Where texts come last, nothing changes. -/
theorem reread_of_endsInText : ∀ (item : Item) (next : Option Item),
    (next.isSome → item.text? = none) → item.EndsInText → item.reread next = item
  | .text content, next, hlast, _ => by
    cases next with
    | none => rfl
    | some other => cases hlast rfl
  | .call name position arguments, _, _, h => by
    rw [reread, rereadAll_of_endInText arguments h]
  | .quoted _, _, _, _ => rfl

/-- Arguments that end in text, if they hold any, are read as they were written. -/
theorem rereadAll_of_endInText : ∀ (items : List Item), EndInText items → rereadAll items = items
  | [], _ => rfl
  | item :: rest, ⟨hlast, hitem, hrest⟩ => by
    rw [rereadAll, rereadAll_of_endInText rest hrest, reread_of_endsInText item _ _ hitem]
    intro hsome
    apply hlast
    rintro rfl
    cases hsome

end

mutual

/-- The places of calls do not show in their written form. -/
theorem display_unplaced : ∀ item : Item, item.unplaced.display = item.display
  | .text _ => rfl
  | .call name position arguments => by
    rw [unplaced, display, display, displayArguments_unplacedAll arguments]
  | .quoted items => by rw [unplaced, display, display, displayAll_unplacedAll items]

/-- Arguments are written the same way without their places. -/
theorem displayArguments_unplacedAll :
    ∀ items : List Item, displayArguments (unplacedAll items) = displayArguments items
  | [] => rfl
  | item :: rest => by
    have hseparator : item.unplaced.separator = item.separator := by cases item <;> rfl
    rw [unplacedAll, displayArguments, displayArguments, hseparator, display_unplaced item,
      displayArguments_unplacedAll rest]

/-- Joined items are written the same way without their places. -/
theorem displayAll_unplacedAll :
    ∀ items : List Item, displayAll (unplacedAll items) = displayAll items
  | [] => rfl
  | item :: rest => by
    rw [unplacedAll, displayAll, displayAll, display_unplaced item, displayAll_unplacedAll rest]

end

end Item

namespace Call

/-- A call as it is read from its written form. -/
def reread (call : Call) : Call :=
  { call with arguments := Item.rereadAll call.arguments }

end Call

/-! ### The pieces of the written form -/

/-- The characters that are kept of a text behind a name: all of them, unless all are blank. -/
def keptText (content : List Char) : List Char :=
  if Text.isBlankText (String.ofList content) then [] else content

/-- The pieces that stand behind a name once the call is written. -/
def writtenPieces : List Piece → List Piece
  | .text content :: .call name :: rest =>
    .text (keptText content ++ [' ']) :: .call name :: writtenPieces rest
  | [.text content] => if Text.isBlankText (String.ofList content) then [] else [.text content]
  | pieces => pieces

/-- The written form keeps the same characters of a text as the arguments do. -/
theorem toList_displayArguments_textItems (content : List Char) (items : List Item) :
    (Item.displayArguments (textItems content ++ items)).toList =
      keptText content ++ (Item.displayArguments items).toList := by
  rw [textItems, keptText]
  split
  · rfl
  · rw [List.singleton_append, Item.displayArguments, Item.separator, Item.display,
      String.empty_append, String.toList_append, String.toList_ofList]

/-- A text in front of a call is read again with one more space, unless nothing is kept of it. -/
theorem rereadAll_textItems (content : List Char) (name : String) (position : Position)
    (arguments : List Item) :
    Item.rereadAll (textItems content ++ [.call name position arguments]) =
      textItems (keptText content ++ [' ']) ++
        [.call name position (Item.rereadAll arguments)] := by
  have hspace : Text.isBlankText (String.ofList (keptText content ++ [' '])) =
      Text.isBlankText (String.ofList content) := by
    have hblank : Text.isBlank ' ' = true := by decide
    rw [keptText]
    split
    · next h => rw [h]; rfl
    · simp [Text.isBlankText, hblank]
  rw [textItems, textItems, hspace, keptText]
  split
  · rfl
  · rw [String.ofList_append]
    rfl

/-- Joined lists lose their places as each of them does. -/
theorem unplacedAll_append (front back : List Item) :
    Item.unplacedAll (front ++ back) = Item.unplacedAll front ++ Item.unplacedAll back := by
  induction front with
  | nil => rfl
  | cons item front ih =>
    rw [List.cons_append, Item.unplacedAll, Item.unplacedAll, ih, List.cons_append]

variable {sigil : Char}

/-- What is uninterrupted in front of a name is so on its own. -/
theorem Uninterrupted.alone {content name : List Char} (h : Uninterrupted sigil content name) :
    Uninterrupted sigil content [] := by
  rintro i hi ⟨c, others, hdrop, hc⟩
  rw [List.append_nil] at hdrop
  exact h i hi ⟨c, others ++ name, by rw [hdrop]; rfl, hc⟩

/-- A text that is not interrupted on its own is not interrupted with a space at its end, whatever
comes behind it. -/
theorem Uninterrupted.append_space (hsigil : Text.isBlank sigil = false) {content : List Char}
    (h : Uninterrupted sigil content []) (name : List Char) :
    Uninterrupted sigil (content ++ [' ']) name := by
  have hspace : BeginsBlank (' ' :: name) := by
    intro c hc
    obtain rfl : ' ' = c := Option.some.inj hc
    decide
  intro i hi
  rw [List.length_append, List.length_singleton] at hi
  rw [List.drop_append_of_le_length (Nat.le_of_lt_succ hi), List.append_assoc,
    List.singleton_append, interrupts_append_iff hsigil hspace]
  rcases Nat.lt_or_ge i content.length with hlt | hge
  · simpa using h i hlt
  · rw [List.drop_eq_nil_of_le hge]
    rintro ⟨c, rest, hnil, -⟩
    cases hnil

namespace IsTail

/-- The written pieces can stand behind a name. -/
theorem isTail_writtenPieces (hsigil : Text.isBlank sigil = false) {rest : List Piece}
    (h : IsTail sigil rest) : IsTail sigil (writtenPieces rest) := by
  induction h with
  | nil => exact .nil
  | text hspaced hinside =>
    rw [writtenPieces]
    split
    · exact .nil
    · exact .text hspaced hinside
  | @call content name rest hspaced hname hink hinside hrest ih =>
    rw [writtenPieces, keptText]
    split
    · have hnone : Uninterrupted sigil [] [] := fun i hi => absurd hi (Nat.not_lt_zero i)
      exact .call ⟨' ', [], rfl, by decide⟩ hname hink (hnone.append_space hsigil name) ih
    · obtain ⟨c, more, rfl, hc⟩ := hspaced
      exact .call ⟨c, more ++ [' '], rfl, hc⟩ hname hink
        (hinside.alone.append_space hsigil name) ih

/-- Writing drops no call and adds none. -/
theorem countP_writtenPieces {rest : List Piece} (h : IsTail sigil rest) :
    (writtenPieces rest).countP Piece.isCall = rest.countP Piece.isCall := by
  induction h with
  | nil => rfl
  | text hspaced hinside =>
    rw [writtenPieces]
    split <;> rfl
  | call hspaced hname hink hinside hrest ih =>
    simp [writtenPieces, List.countP_cons, Piece.isCall, ih]

/-- Writing puts in nothing but spaces. -/
theorem mem_writtenPieces {rest : List Piece} (h : IsTail sigil rest) {c : Char}
    (hc : c ∈ (writtenPieces rest).flatMap Piece.chars) :
    c = ' ' ∨ c ∈ rest.flatMap Piece.chars := by
  induction h with
  | nil => exact .inr hc
  | text hspaced hinside =>
    rw [writtenPieces] at hc
    split at hc
    · cases hc
    · exact .inr hc
  | @call content name rest hspaced hname hink hinside hrest ih =>
    rw [writtenPieces, List.flatMap_cons, List.flatMap_cons] at hc
    rw [List.flatMap_cons, List.flatMap_cons, List.mem_append, List.mem_append]
    have hkept : c ∈ keptText content → c ∈ content := by
      rw [keptText]
      split
      · exact fun hnone => nomatch hnone
      · exact id
    rcases List.mem_append.mp hc with htext | hlater
    · rcases List.mem_append.mp htext with hmem | hspace
      · exact .inr (.inl (hkept hmem))
      · exact .inl (List.mem_singleton.mp hspace)
    · rcases List.mem_append.mp hlater with hmem | hmem
      · exact .inr (.inr (.inl hmem))
      · exact (ih hmem).imp_right fun hmem => .inr (.inr hmem)

/-- The written pieces spell the written arguments. -/
theorem chars_writtenPieces {rest : List Piece} (h : IsTail sigil rest) (place : Position) :
    (writtenPieces rest).flatMap Piece.chars =
      (Item.displayArguments (SourceLine.inlineItems [] place rest)).toList := by
  induction h generalizing place with
  | nil => rfl
  | @text content hspaced hinside =>
    rw [inlineItems_text, toList_displayArguments_textItems, writtenPieces, keptText]
    split <;> simp [Piece.chars, SourceLine.inlineItems, Item.displayArguments]
  | @call content name rest hspaced hname hink hinside hrest ih =>
    rw [inlineItems_text, toList_displayArguments_textItems, writtenPieces,
      SourceLine.inlineItems, List.flatMap_cons, List.flatMap_cons,
      ih ((place.advance content).advance name)]
    simp [Piece.chars, Item.displayArguments, Item.separator, Item.display]

/-- The arguments that the written pieces come to are read again from the written form. -/
theorem inlineItems_writtenPieces {rest : List Piece} (h : IsTail sigil rest)
    (place other : Position) :
    Item.unplacedAll (SourceLine.inlineItems [] other (writtenPieces rest)) =
      Item.unplacedAll (Item.rereadAll (SourceLine.inlineItems [] place rest)) := by
  induction h generalizing place other with
  | nil => rfl
  | @text content hspaced hinside =>
    rw [inlineItems_text, writtenPieces, textItems]
    split
    · rfl
    · next hblank => rw [inlineItems_text, textItems, if_neg hblank]; rfl
  | @call content name rest hspaced hname hink hinside hrest ih =>
    rw [writtenPieces, inlineItems_text, inlineItems_text, SourceLine.inlineItems,
      SourceLine.inlineItems, rereadAll_textItems, unplacedAll_append, unplacedAll_append]
    simp only [Item.unplacedAll, Item.unplaced]
    rw [ih]

end IsTail

/-! ### The round trip -/

/-- Whatever stands behind the name, the written form of a call of one line is a name with what
can stand behind it. -/
theorem toList_display (name : String) (position place : Position) {rest : List Piece}
    (h : IsTail sigil rest) :
    (Call.mk name position (SourceLine.inlineItems [] place rest)).display.toList =
      name.toList ++ (writtenPieces rest).flatMap Piece.chars := by
  rw [h.chars_writtenPieces place, ← String.toList_append]
  rfl

namespace FrontEnd

/-- The written form of a call that was read from one line compiles to the call again, except
that each text in front of a call has one more space at its end. Where every text comes last, it
is the same call, and it is written in the same way. -/
theorem compile_display (frontEnd : FrontEnd) {text : String} {compilation : Compilation}
    {root : Call} (hfeed : '\n' ∉ text.toList)
    (h : (frontEnd.compile text).1 = .ok compilation) (hroot : root ∈ compilation.roots) :
    ∃ again other, (frontEnd.compile root.display).1 = .ok again ∧ again.roots = [other] ∧
      other.toItem.unplaced = root.reread.toItem.unplaced ∧
      (root.toItem.EndsInText →
        other.toItem.unplaced = root.toItem.unplaced ∧ other.display = root.display) := by
  obtain ⟨hreturn, name, rest, hname, htail, htext, hroom, hroots⟩ :=
    exists_line_of_compile hfeed h (List.ne_nil_of_mem hroot)
  rw [hroots] at hroot
  obtain rfl := List.mem_singleton.mp hroot
  have hsigil := frontEnd.sigil_not_blank
  have hplain {c : Char} (hspace : c ≠ ' ') (hnot : c ∉ text.toList) :
      c ∉ (writtenPieces rest).flatMap Piece.chars := by
    intro hmem
    rw [htext] at hnot
    exact (htail.mem_writtenPieces hmem).elim hspace fun hmem =>
      hnot (List.mem_append_right _ hmem)
  obtain ⟨remarks, hcompile⟩ := compile_line hname (htail.isTail_writtenPieces hsigil)
    ⟨hplain (by decide) hfeed, hplain (by decide) hreturn⟩
    (toList_display name .first (Position.first.advance name.toList) htail)
    (by rwa [htail.countP_writtenPieces])
  have hunplaced := htail.inlineItems_writtenPieces (Position.first.advance name.toList)
    (Position.first.advance name.toList)
  refine ⟨_, _, hcompile, rfl, ?_, ?_⟩
  · simp only [Call.toItem, Call.reread, Item.unplaced, hunplaced]
  · intro hlast
    rw [Item.rereadAll_of_endInText _ hlast] at hunplaced
    have hsame : Item.unplaced (.call name .first (SourceLine.inlineItems []
        (Position.first.advance name.toList) (writtenPieces rest))) =
          Item.unplaced (.call name .first (SourceLine.inlineItems []
            (Position.first.advance name.toList) rest)) := by
      rw [Item.unplaced, Item.unplaced, hunplaced]
    refine ⟨hsame, ?_⟩
    rw [Call.display, Call.display, ← Item.display_unplaced, Call.toItem, hsame,
      Item.display_unplaced, Call.toItem]

/-- The compilation that a list of roots is from. -/
theorem exists_compilation {frontEnd : FrontEnd} {text : String} {roots : List Call}
    (h : (frontEnd.compile text).1.map Compilation.roots = .ok roots) :
    ∃ compilation, (frontEnd.compile text).1 = .ok compilation ∧ compilation.roots = roots := by
  cases hcompile : (frontEnd.compile text).1 with
  | error fault =>
    rw [hcompile] at h
    cases h
  | ok compilation =>
    rw [hcompile] at h
    exact ⟨compilation, rfl, Except.ok.inj h⟩

/-- A text in front of a call grows by one space, and blanks between two calls become one. With
its only text at the end a chain stays as it is. -/
theorem compile_display_chain :
    (FrontEnd.standard.compile "$$a x$$$b \t $$c y $").1.map Compilation.roots =
        .ok [⟨"$$a", ⟨1, 1⟩, [.text " x$", .call "$$b" ⟨1, 7⟩
          [.call "$$c" ⟨1, 13⟩ [.text " y $"]]]⟩] ∧
      (FrontEnd.standard.compile "$$a x$ $$b $$c y $").1.map (·.roots.map (·.toItem.unplaced)) =
        .ok [.call "$$a" ⟨1, 1⟩ [.text " x$ ", .call "$$b" ⟨1, 1⟩
          [.call "$$c" ⟨1, 1⟩ [.text " y $"]]]] ∧
      (FrontEnd.standard.compile "$$a\t$$b y ").1.map Compilation.roots =
        .ok [⟨"$$a", ⟨1, 1⟩, [.call "$$b" ⟨1, 5⟩ [.text " y "]]⟩] ∧
      ∃ other, (FrontEnd.standard.compile "$$a $$b y ").1.map Compilation.roots = .ok [other] ∧
        other.display = "$$a $$b y " := by
  have hbroken : (FrontEnd.standard.compile "$$a x$$$b \t $$c y $").1.map Compilation.roots =
      .ok [⟨"$$a", ⟨1, 1⟩, [.text " x$", .call "$$b" ⟨1, 7⟩
        [.call "$$c" ⟨1, 13⟩ [.text " y $"]]]⟩] := by
    decide +kernel
  have hplain : (FrontEnd.standard.compile "$$a\t$$b y ").1.map Compilation.roots =
      .ok [⟨"$$a", ⟨1, 1⟩, [.call "$$b" ⟨1, 5⟩ [.text " y "]]⟩] := by
    decide +kernel
  refine ⟨hbroken, ?_, hplain, ?_⟩
  · obtain ⟨compilation, hcompile, hroots⟩ := exists_compilation hbroken
    obtain ⟨again, other, hagain, hone, hunplaced, -⟩ :=
      compile_display .standard (by decide) hcompile (hroots ▸ List.mem_cons_self)
    have hdisplay : Call.display ⟨"$$a", ⟨1, 1⟩, [.text " x$", .call "$$b" ⟨1, 7⟩
        [.call "$$c" ⟨1, 13⟩ [.text " y $"]]]⟩ = "$$a x$ $$b $$c y $" := by
      decide +kernel
    rw [hdisplay] at hagain
    rw [hagain, Except.map, hone, List.map_singleton, hunplaced]
    decide +kernel
  · obtain ⟨compilation, hcompile, hroots⟩ := exists_compilation hplain
    obtain ⟨again, other, hagain, hone, -, hsame⟩ :=
      compile_display .standard (by decide) hcompile (hroots ▸ List.mem_cons_self)
    have hdisplay : Call.display ⟨"$$a", ⟨1, 1⟩, [.call "$$b" ⟨1, 5⟩ [.text " y "]]⟩ =
        "$$a $$b y " := by
      decide +kernel
    rw [hdisplay] at hagain hsame
    refine ⟨other, by rw [hagain, Except.map, hone], (hsame ?_).2⟩
    simp [Call.toItem, Item.EndsInText, Item.EndInText]

end FrontEnd

end Offside
