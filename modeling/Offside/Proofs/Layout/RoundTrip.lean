import Offside.Proofs.Compile
import Offside.Proofs.Layout.Nested
import Offside.Proofs.Layout.Typesetting
import Offside.Proofs.Tree.Height

/-!
# Reading back what was written

A forest that is written with every call and every text on a line of its own is read back as
it was. The lines below a call are read with that call open, and whatever they leave open
falls back into it.
-/

namespace Offside

namespace State

variable {sigil : Char} {limit : ℕ} {state : State} {column : ℕ} {blanks : List Char}
  {top : Frame} {below : List Frame}

/-! ### Reading one written line -/

/-- A line of text becomes an argument of the call whose block it is in. -/
theorem run_text_line {content : String} (hinvites : state.Invites column top below)
    (hcolumn : 0 < column) (hfits : column < Text.greatestCount)
    (hblanks : IsIndent column blanks) (hcontent : IsLineText sigil content) (number : ℕ)
    (place : Position) (rest : List Token) :
    ∃ next : State,
      state.run limit ((SourceLine.mk number (blanks ++ content.toList)).tokens sigil ++
        ⟨.lineBreak, place⟩ :: rest) = next.run limit rest ∧
      next.phase = .lineStart ∧
      next.frames = { top with block := .number column }.push (.text content) :: below ∧
      next.closed = state.closed ∧ next.remarks = state.remarks := by
  obtain ⟨hink, htext, _⟩ := hcontent
  obtain ⟨between, hfeed, hphase, hframes, hclosed, hremarks⟩ :=
    feed_indent_of_invites hinvites hfits limit ⟨number, 1⟩
  have hbody : content.toList ≠ [] := by
    obtain ⟨first, rest, hfirst, _⟩ := hink
    rw [hfirst]
    exact List.cons_ne_nil first rest
  have hrun : between.run limit
      (placePieces ⟨number, column + 1⟩ (bodyPieces sigil content.toList)) = _ :=
    run_text_body hphase hframes hbody htext ⟨number, column + 1⟩
  rw [SourceLine.tokens_of_pos hblanks hink hcolumn, List.cons_append, run_cons_of_ok hfeed,
    run_append hrun, run_cons_of_ok (feed_break_text rfl)]
  refine ⟨_, rfl, rfl, ?_, hclosed, hremarks⟩
  rw [String.ofList_toList]
  rfl

/-- A line that is a call opens it inside the call whose block the line is in. -/
theorem run_call_line {name : String} (hinvites : state.Invites column top below)
    (hcolumn : 0 < column) (hfits : column < Text.greatestCount)
    (hroom : below.length + 1 < limit) (hblanks : IsIndent column blanks)
    (hsigil : Text.isBlank sigil = false) (hname : IsName sigil name) (number : ℕ)
    (place : Position) (rest : List Token) :
    ∃ next : State,
      state.run limit ((SourceLine.mk number (blanks ++ name.toList)).tokens sigil ++
        ⟨.lineBreak, place⟩ :: rest) = next.run limit rest ∧
      next.phase = .blockStart ∧
      next.frames = .opened name ⟨number, column + 1⟩ (.number column) ::
        { top with block := .number column } :: below ∧
      next.closed = state.closed ∧ next.remarks = state.remarks := by
  obtain ⟨between, hfeed, hphase, hframes, hclosed, hremarks⟩ :=
    feed_indent_of_invites hinvites hfits limit ⟨number, 1⟩
  have hfree : between.frames.length < limit := by
    rw [hframes]
    exact hroom
  have hopen : between.feed limit ⟨.call name, ⟨number, column + 1⟩⟩ = _ :=
    feed_call_indented hphase name
  rw [openChild_of_lt hframes hfree] at hopen
  rw [SourceLine.tokens_of_pos hblanks (hname.beginsInk hsigil) hcolumn, hname.bodyPieces hsigil,
    List.cons_append, run_cons_of_ok hfeed, placePieces_cons, placePieces_nil, Piece.word,
    String.ofList_toList, List.singleton_append, run_cons_of_ok hopen,
    run_cons_of_ok (feed_break_call rfl)]
  exact ⟨_, rfl, rfl, rfl, hclosed, hremarks⟩

/-- A line at the left edge opens an outermost call. -/
theorem run_root_line {name : String}
    (hphase : state.phase = .lineStart ∨ state.phase = .blockStart)
    (hblanks : IsIndent 0 blanks) (hsigil : Text.isBlank sigil = false)
    (hname : IsName sigil name) (number : ℕ) (place : Position) (rest : List Token) :
    ∃ next : State,
      state.run limit ((SourceLine.mk number (blanks ++ name.toList)).tokens sigil ++
        ⟨.lineBreak, place⟩ :: rest) = next.run limit rest ∧
      next.phase = .blockStart ∧ next.frames = [.opened name ⟨number, 1⟩ .leftmost] ∧
      next.closed = state.closeAll ∧ next.remarks = state.remarks := by
  rw [SourceLine.tokens_of_zero hblanks (hname.beginsInk hsigil), hname.bodyPieces hsigil,
    placePieces_cons, placePieces_nil, Piece.word, String.ofList_toList, List.singleton_append,
    run_cons_of_ok (feed_call_start hphase name),
    run_cons_of_ok (feed_break_call rfl)]
  exact ⟨_, rfl, rfl, rfl, rfl, rfl⟩

/-! ### Reading written items -/

/-- The lines of some items, in the block of a call, are read into arguments of that call,
and what they leave open falls back into it. -/
theorem run_sets {items : List Item} {contents : List (List Char)}
    (h : Sets column items contents) (hsigil : Text.isBlank sigil = false)
    (hwritable : Item.AreWritable sigil items)
    (hfits : ∀ content ∈ contents, content.length < Text.greatestCount) (own number : ℕ)
    (hinvites : state.Invites column top below) (hfalls : state.FallsBack own top below)
    (hown : own < column) (hright : .number own < top.block)
    (hroom : below.length + 1 + Item.heightAll items ≤ limit) :
    ∃ next arguments block, state.run limit (brokenTokens sigil number contents) = (none, next) ∧
      Item.unplacedAll arguments = Item.unplacedAll items ∧ .number own < block ∧
      next.FallsBack own
        { top with block, arguments := arguments.reverse ++ top.arguments } below ∧
      next.closed = state.closed ∧ next.remarks = state.remarks := by
  induction h generalizing state top below own number with
  | nil => exact ⟨state, [], top.block, rfl, rfl, hright, hfalls, rfl, rfl⟩
  | @text column blanks content rest later hblanks _ ih =>
    obtain ⟨hcontent, hrest⟩ := hwritable
    obtain ⟨hline, hlater⟩ := List.forall_mem_cons.mp hfits
    have hcolumn : column < Text.greatestCount := hblanks.column_lt hline
    obtain ⟨between, hrun, hphase, hframes, hclosed, hremarks⟩ :=
      run_text_line hinvites (by omega) hcolumn hblanks hcontent number
        ⟨number, (blanks ++ content.toList).length + 1⟩ (brokenTokens sigil (number + 1) later)
    have hback (width : ℕ) : between.FallsBack width
        ({ top with block := .number column }.push (.text content)) below :=
      .of_lineStart hphase hframes width
    have hroom' : below.length + 1 + Item.heightAll rest ≤ limit := by
      simpa [Item.heightAll, Item.height] using hroom
    obtain ⟨next, arguments, block, hrun', hitems, hblock, hfalls', hclosed', hremarks'⟩ :=
      ih hrest hlater own (number + 1) (.inr ⟨hback column, rfl⟩) (hback own) hown
        (Column.number_lt_number.mpr hown) hroom'
    refine ⟨next, .text content :: arguments, block, hrun.trans hrun', ?_, hblock, ?_,
      hclosed'.trans hclosed, hremarks'.trans hremarks⟩
    · rw [Item.unplacedAll, Item.unplacedAll, hitems]
    · simpa [Frame.push] using hfalls'
  | @call column inset blanks name position inner rest front later hblanks hset _ _ iharguments
      ihrest =>
    obtain ⟨⟨hname, hwritten⟩, hrest⟩ := hwritable
    obtain ⟨hline, hlines⟩ := List.forall_mem_cons.mp hfits
    have hcolumn : column < Text.greatestCount := hblanks.column_lt hline
    rw [Item.heightAll, Item.height] at hroom
    have hfree : below.length + 1 < limit := by omega
    obtain ⟨between, hrun, hphase, hframes, hclosed, hremarks⟩ :=
      run_call_line hinvites (by omega) hcolumn hfree hblanks hsigil hname number
        ⟨number, (blanks ++ name.toList).length + 1⟩
        (brokenTokens sigil (number + 1) (front ++ later))
    -- the arguments are read with the new call on top
    have hinvited : between.Invites inset (.opened name ⟨number, column + 1⟩ (.number column))
        ({ top with block := .number column } :: below) :=
      .inl ⟨hphase, hframes, Column.number_lt_number.mpr hset⟩
    have hopened : between.FallsBack column (.opened name ⟨number, column + 1⟩ (.number column))
        ({ top with block := .number column } :: below) :=
      .of_blockStart hphase hframes (Column.number_le_number.mpr (Nat.le_refl column))
    have hinside : ({ top with block := .number column } :: below).length + 1 +
        Item.heightAll inner ≤ limit := by
      rw [List.length_cons]
      omega
    have hinner : ∀ content ∈ front, content.length < Text.greatestCount := by
      intro content hcontent
      exact hlines content (List.mem_append_left _ hcontent)
    have hlater : ∀ content ∈ later, content.length < Text.greatestCount := by
      intro content hcontent
      exact hlines content (List.mem_append_right _ hcontent)
    obtain ⟨inside, arguments, block, hrun', hitems, hblock, hfalls', hclosed', hremarks'⟩ :=
      iharguments hwritten hinner column (number + 1) hinvited hopened hset
        (Column.number_lt_beyond column) hinside
    -- then the call falls back into the one around it, where the next items go
    have hback : inside.FallsBack column
        ({ top with block := .number column }.push
          (.call name ⟨number, column + 1⟩ arguments)) below := by
      simpa [Frame.call, Frame.opened, Call.toItem] using hfalls'.close_into hblock
    have hahead : inside.FallsBack own
        ({ top with block := .number column }.push
          (.call name ⟨number, column + 1⟩ arguments)) below :=
      hback.mono (Nat.le_of_lt hown)
    obtain ⟨next, items, block', hrun'', hitems', hblock', hfalls'', hclosed'', hremarks''⟩ :=
      ihrest hrest hlater own (number + 1 + front.length) (.inr ⟨hback, rfl⟩) hahead hown
        (Column.number_lt_number.mpr hown) (by omega)
    refine ⟨next, .call name ⟨number, column + 1⟩ arguments :: items, block', ?_, ?_, hblock', ?_,
      ((hclosed''.trans hclosed').trans hclosed), (hremarks''.trans hremarks').trans hremarks⟩
    · rw [brokenTokens, hrun, brokenTokens_append, run_append hrun', hrun'']
    · rw [Item.unplacedAll, Item.unplacedAll, Item.unplaced, Item.unplaced, hitems, hitems']
    · simpa [Frame.push] using hfalls''

/-- The lines of outermost calls are read into those calls. -/
theorem run_roots {roots : List Call} {contents : List (List Char)}
    (h : Sets 0 (roots.map Call.toItem) contents) (hsigil : Text.isBlank sigil = false)
    (hwritable : Item.AreWritable sigil (roots.map Call.toItem))
    (hfits : ∀ content ∈ contents, content.length < Text.greatestCount)
    (hroom : ∀ root ∈ roots, root.nesting ≤ limit) (number : ℕ)
    (hphase : state.phase = .lineStart ∨ state.phase = .blockStart) :
    ∃ next calls, state.run limit (brokenTokens sigil number contents) = (none, next) ∧
      Item.unplacedAll (calls.map Call.toItem) = Item.unplacedAll (roots.map Call.toItem) ∧
      next.forest = state.forest ++ calls ∧ next.remarks = state.remarks := by
  induction roots generalizing state contents number with
  | nil =>
    cases h
    exact ⟨state, [], rfl, rfl, (List.append_nil _).symm, rfl⟩
  | cons root roots ih =>
    obtain ⟨name, position, arguments⟩ := root
    obtain ⟨⟨hname, hwritten⟩, hrest⟩ := hwritable
    obtain ⟨hheight, hlower⟩ := List.forall_mem_cons.mp hroom
    rw [Call.nesting, Item.nesting_eq_heightAll] at hheight
    cases h with
    | @call _ inset blanks _ _ _ _ front later hblanks hset harguments hlater =>
      obtain ⟨hline, hlines⟩ := List.forall_mem_cons.mp hfits
      obtain ⟨between, hrun, hopened, hframes, hclosed, hremarks⟩ :=
        run_root_line hphase hblanks hsigil hname number
          ⟨number, (blanks ++ name.toList).length + 1⟩
          (brokenTokens sigil (number + 1) (front ++ later))
      have hinvited : between.Invites inset (.opened name ⟨number, 1⟩ .leftmost) [] :=
        .inl ⟨hopened, hframes, Column.number_lt_number.mpr hset⟩
      have hfresh : between.FallsBack 0 (.opened name ⟨number, 1⟩ .leftmost) [] :=
        .of_blockStart hopened hframes (Column.number_le_number.mpr (Nat.le_refl 0))
      have hinner : ∀ content ∈ front, content.length < Text.greatestCount := by
        intro content hcontent
        exact hlines content (List.mem_append_left _ hcontent)
      have houter : ∀ content ∈ later, content.length < Text.greatestCount := by
        intro content hcontent
        exact hlines content (List.mem_append_right _ hcontent)
      obtain ⟨inside, items, block, hrun', hitems, _, hfalls, hclosed', hremarks'⟩ :=
        run_sets harguments hsigil hwritten hinner 0 (number + 1) hinvited hfresh hset
          (Column.number_lt_beyond 0) (by simpa using hheight)
      have hforest : inside.forest = state.forest ++ [⟨name, ⟨number, 1⟩, items⟩] := by
        rw [forest_eq, hfalls.close, hclosed', hclosed]
        simp [Frame.closeStack, Frame.assemble, Frame.call, Frame.opened, forest]
      obtain ⟨next, calls, hrun'', hcalls, hforest', hremarks''⟩ :=
        ih hlater hrest houter hlower (number + 1 + front.length)
          (hfalls.phase.imp_right And.left)
      refine ⟨next, ⟨name, ⟨number, 1⟩, items⟩ :: calls, ?_, ?_, ?_,
        (hremarks''.trans hremarks').trans hremarks⟩
      · rw [brokenTokens, hrun, brokenTokens_append, run_append hrun', hrun'']
      · simp only [List.map_cons, Call.toItem, Item.unplacedAll, Item.unplaced, hitems]
        exact congrArg _ hcalls
      · rw [hforest', hforest, List.append_assoc, List.singleton_append]

/-! ### The end of a text -/

/-- A line break does not change the forest, nor does it take remarks back. -/
theorem forest_of_break {token : Token} {next : State} (hbreak : token.word = .lineBreak)
    (h : Reads limit state token next) :
    next.forest = state.forest ∧ ∃ later, next.remarks = later ++ state.remarks := by
  cases h with
  | continued _ hcontent =>
    rw [hbreak] at hcontent
    cases hcontent
  | ended => exact ⟨rfl, [], rfl⟩
  | skippedIndent => exact ⟨rfl, [_], rfl⟩
  | @cancelled _ top below hframes _ =>
    constructor
    · rw [forest_eq, forest_eq, hframes]
      cases below <;> rfl
    · exact ⟨[_], rfl⟩
  | skippedLine => exact ⟨rfl, [_], rfl⟩
  | openedRoot | openedChild | dropped | added | settled | begun => cases hbreak

/-- Nor do line breaks at the end of a text. -/
theorem forest_of_breaks {tokens : List Token} {last : State}
    (hbreaks : ∀ token ∈ tokens, token.word = .lineBreak)
    (h : state.run limit tokens = (none, last)) :
    last.forest = state.forest ∧ ∃ later, last.remarks = later ++ state.remarks := by
  induction tokens generalizing state with
  | nil =>
    obtain rfl : state = last := congrArg Prod.snd h
    exact ⟨rfl, [], rfl⟩
  | cons token rest ih =>
    obtain ⟨hbreak, hrest⟩ := List.forall_mem_cons.mp hbreaks
    obtain ⟨next, hfeed, hrun⟩ := exists_feed_of_run h
    obtain ⟨hnext, earlier, hremarks⟩ := forest_of_break hbreak (reads_of_feed hfeed)
    obtain ⟨hlast, later, hremarks'⟩ := ih hrest hrun
    constructor
    · rw [hlast, hnext]
    · refine ⟨later ++ earlier, ?_⟩
      rw [hremarks', hremarks, List.append_assoc]

end State

/-- A forest that is written line by line, and does not nest too deep, is read back as it was,
up to the places of its calls, and nothing is remarked on. As before, a text that fits in
memory has fewer characters than the greatest count. -/
theorem compile_written (frontEnd : FrontEnd) {roots : List Call} {contents : List (List Char)}
    {text : String}
    (hwritable : Item.AreWritable frontEnd.settings.sigil (roots.map Call.toItem))
    (hnesting : ∀ root ∈ roots, root.nesting ≤ frontEnd.settings.nestingLimit)
    (hsets : Sets 0 (roots.map Call.toItem) contents) (hspells : Spells contents text.toList)
    (hfits : text.length < Text.greatestCount) :
    ∃ compilation, (frontEnd.compile text).1 = .ok compilation ∧
      Item.unplacedAll (compilation.roots.map Call.toItem) =
        Item.unplacedAll (roots.map Call.toItem) ∧
      compilation.remarks = [] := by
  have hsigil := frontEnd.sigil_not_blank
  have hplain := hsets.not_mem hsigil hwritable
  have hlengths : ∀ content ∈ contents, content.length < Text.greatestCount := fun content hmem =>
    Nat.lt_of_le_of_lt (String.length_toList ▸ hspells.length_le content hmem) hfits
  have hstart : State.initial.phase = .lineStart ∨ State.initial.phase = .blockStart := .inl rfl
  obtain ⟨last, calls, hrun, hcalls, hforest, hremarks⟩ :=
    State.run_roots hsets hsigil hwritable hlengths hnesting 1 hstart
  obtain ⟨back, htokens, hbreaks⟩ :=
    brokenTokens_of_spells hspells hplain frontEnd.settings.sigil 1
  rw [htokens] at hrun
  obtain ⟨behind, hfront, hback⟩ := State.exists_run_of_append hrun
  obtain ⟨hsame, later, hlater⟩ := State.forest_of_breaks hbreaks hback
  have hnone : behind.remarks = [] := (List.append_eq_nil_iff.mp (hlater ▸ hremarks)).2
  refine ⟨_, FrontEnd.compile_of_run (hspells.unstrayed hplain) hfront, ?_, ?_⟩
  · have hroots : behind.forest = calls := hsame.symm.trans hforest
    rw [hroots, hcalls]
  · rw [hnone]
    rfl

/-- A call with a text and a call below it is read back; the call in the text is part of it. -/
theorem compile_written_block :
    Item.AreWritable '$'
        [.call "$$a" .first [.text "x $$b", .call "$$c" .first [.text "y"]]] ∧
      ∃ compilation,
        (FrontEnd.standard.compile "$$a\n  x $$b\r\n  $$c\n    y\n").1 = .ok compilation ∧
        Item.unplacedAll (compilation.roots.map Call.toItem) =
          [.call "$$a" .first [.text "x $$b", .call "$$c" .first [.text "y"]]] ∧
        compilation.remarks = [] := by
  have ha : IsName '$' "$$a" := ⟨'a', [], rfl, List.forall_mem_singleton.mpr (by decide)⟩
  have hc : IsName '$' "$$c" := ⟨'c', [], rfl, List.forall_mem_singleton.mpr (by decide)⟩
  have hx : IsLineText '$' "x $$b" :=
    ⟨⟨'x', [' ', '$', '$', 'b'], rfl, by decide⟩, by decide, by decide, by decide⟩
  have hy : IsLineText '$' "y" := ⟨⟨'y', [], rfl, by decide⟩, by decide, by decide, by decide⟩
  have hwritable : Item.AreWritable '$'
      ([⟨"$$a", .first, [.text "x $$b", .call "$$c" .first [.text "y"]]⟩].map Call.toItem) :=
    ⟨⟨ha, hx, ⟨hc, hy, trivial⟩, trivial⟩, trivial⟩
  have hsets : Sets 0
      ([⟨"$$a", .first, [.text "x $$b", .call "$$c" .first [.text "y"]]⟩].map Call.toItem)
      ["$$a".toList, "  x $$b".toList, "  $$c".toList, "    y".toList] := by
    have hinner : Sets 4 [.text "y"] ["    y".toList] :=
      .text (isIndent_replicate 4) .nil
    have harguments : Sets 2 [.text "x $$b", .call "$$c" .first [.text "y"]]
        ["  x $$b".toList, "  $$c".toList, "    y".toList] :=
      .text (isIndent_replicate 2) (.call (isIndent_replicate 2) (by decide) hinner .nil)
    exact .call (isIndent_replicate 0) (by decide) harguments .nil
  have hspells : Spells ["$$a".toList, "  x $$b".toList, "  $$c".toList, "    y".toList]
      "$$a\n  x $$b\r\n  $$c\n    y\n".toList :=
    .broken _ .feed (.broken _ .returnFeed (.broken _ .feed (.broken _ .feed .nil)))
  have hnesting : ∀ root ∈ [(⟨"$$a", .first, [.text "x $$b", .call "$$c" .first [.text "y"]]⟩ :
      Call)], root.nesting ≤ 128 := by
    intro root hroot
    rw [List.mem_singleton.mp hroot, Call.nesting, Item.nesting_eq_heightAll]
    decide
  exact ⟨hwritable, compile_written .standard hwritable hnesting hsets hspells (by decide)⟩
end Offside
