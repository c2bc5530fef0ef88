import Mathlib.Data.Set.Defs
import Offside.Proofs.Layout.Offers

/-!
# The same source elsewhere

A source can be carried elsewhere: its names and texts are spelled otherwise, it stands at
other places, its indents have other widths, and something was read before it. The reader does
the same with it as before, and all that it knows is carried along, as long as texts are
spelled piece by piece and blank texts stay blank, and the widths keep their order.
-/

namespace Offside

/-! ### Items -/

namespace Item

mutual

/-- An item with its names and texts spelled otherwise and its calls at other places. -/
def recast (spell : String → String) (place : Position → Position) : Item → Item
  | .text content => .text (spell content)
  | .call name position arguments =>
    .call (spell name) (place position) (recastAll spell place arguments)
  | .quoted items => .quoted (recastAll spell place items)

/-- Items with their names and texts spelled otherwise and their calls at other places. -/
def recastAll (spell : String → String) (place : Position → Position) : List Item → List Item
  | [] => []
  | item :: rest => recast spell place item :: recastAll spell place rest

end

/-- Items are spelled otherwise one by one. -/
theorem recastAll_eq_map (spell : String → String) (place : Position → Position)
    (items : List Item) : recastAll spell place items = items.map (recast spell place) := by
  induction items with
  | nil => rfl
  | cons item rest ih => rw [recastAll, ih, List.map_cons]

mutual

/-- Nothing changes if all is spelled as before and stays at its place. -/
theorem recast_id : ∀ item : Item, item.recast id id = item
  | .text content => rfl
  | .call name position arguments => by rw [recast, recastAll_id arguments, id, id]
  | .quoted items => by rw [recast, recastAll_id items]

/-- Nor does anything change in a list of items. -/
theorem recastAll_id : ∀ items : List Item, recastAll id id items = items
  | [] => rfl
  | item :: rest => by rw [recastAll, recast_id item, recastAll_id rest]

end

end Item

/-! ### Transfers -/

/-- How a source is carried elsewhere. Where nothing is said it stays as it is, and nothing
was read before it. -/
structure Transfer where
  /-- How its names and texts are spelled. -/
  spell : String → String := id
  /-- Where its tokens stand. -/
  place : Position → Position := id
  /-- How wide its indents are. -/
  width : ℕ → ℕ := id
  /-- The outermost calls that were closed before, latest first. -/
  closed : List Call := []
  /-- The remarks that were made before, latest first. -/
  remarks : List Remark := []
  /-- The events that there were before, latest first. -/
  events : List Event := []

namespace Transfer

/-- An item that was carried elsewhere. -/
def item (t : Transfer) : Item → Item := Item.recast t.spell t.place

/-- A call that was carried elsewhere. -/
def call (t : Transfer) (call : Call) : Call :=
  ⟨t.spell call.name, t.place call.position, call.arguments.map t.item⟩

/-- A column that was carried elsewhere. -/
def column (t : Transfer) : Column → Column
  | .number width => .number (t.width width)
  | .beyond => .beyond

/-- A word that was carried elsewhere. -/
def word (t : Transfer) : Word → Word
  | .call name => .call (t.spell name)
  | .lineBreak => .lineBreak
  | .indent width => .indent (t.width width)
  | .text content => .text (t.spell content)

/-- A token that was carried elsewhere. -/
def token (t : Transfer) (token : Token) : Token := ⟨t.word token.word, t.place token.position⟩

/-- A remark that was carried elsewhere. -/
def remark (t : Transfer) (remark : Remark) : Remark := ⟨remark.oddity, t.place remark.position⟩

/-- An event of a reader that was carried elsewhere. -/
def event (t : Transfer) : Event → Event
  | .remarked remark => .remarked (t.remark remark)
  | event => event

/-- A fault of a reader that was carried elsewhere. -/
def fault (t : Transfer) : Fault → Fault
  | .repeatedIndent position => .repeatedIndent (t.place position)
  | .indentAfterText position => .indentAfterText (t.place position)
  | .indentAfterCall position => .indentAfterCall (t.place position)
  | .unindentedText position => .unindentedText (t.place position)
  | .unmatchedIndent width position => .unmatchedIndent (t.width width) (t.place position)
  | .nestedTooDeep limit position => .nestedTooDeep limit (t.place position)
  | .noOpenCall position => .noOpenCall (t.place position)
  | fault => fault

/-- An open call that was carried elsewhere. -/
def frame (t : Transfer) (frame : Frame) : Frame :=
  ⟨t.spell frame.name, t.place frame.position, t.column frame.column, t.column frame.block,
    frame.arguments.map t.item⟩

/-- What a reader knows that was carried elsewhere, behind what was read before. -/
def state (t : Transfer) (state : State) : State :=
  ⟨state.phase, state.frames.map t.frame, state.closed.map t.call ++ t.closed,
    state.remarks.map t.remark ++ t.remarks, state.events.map t.event ++ t.events⟩

/-- What came of an offer that was carried elsewhere. -/
def move (t : Transfer) : Move → Move
  | .taken next => .taken (t.state next)
  | .again next => .again (t.state next)

/-- A result that was carried elsewhere. -/
def result {α β : Type} (t : Transfer) (f : α → β) : Except Fault α → Except Fault β
  | .error fault => .error (t.fault fault)
  | .ok a => .ok (f a)

/-- A transfer between sources that a reader takes in the same way, if all their indents have
one of the given widths. -/
structure Keeps (t : Transfer) (widths : Set ℕ) : Prop where
  /-- A text is spelled piece by piece. -/
  spell_append : ∀ start content, t.spell (start ++ content) = t.spell start ++ t.spell content
  /-- A blank text stays blank, and no other one becomes blank. -/
  isBlankText_spell : ∀ content, Text.isBlankText (t.spell content) = Text.isBlankText content
  /-- The leftmost column counts. -/
  zero_mem : 0 ∈ widths
  /-- The leftmost column stays where it is. -/
  width_zero : t.width 0 = 0
  /-- The widths keep their order. -/
  width_lt : ∀ a ∈ widths, ∀ b ∈ widths, (t.width a < t.width b ↔ a < b)
  /-- No width becomes too large to mark a column, or ceases to be so. -/
  width_fits : ∀ a ∈ widths, (t.width a < Text.greatestCount ↔ a < Text.greatestCount)

/-- A transfer that leaves texts and widths alone is one that no reader can tell. -/
theorem keeps_univ (place : Position → Position) (closed : List Call) (remarks : List Remark)
    (events : List Event) : Keeps ⟨id, place, id, closed, remarks, events⟩ Set.univ where
  spell_append _ _ := rfl
  isBlankText_spell _ := rfl
  zero_mem := trivial
  width_zero := rfl
  width_lt _ _ _ _ := Iff.rfl
  width_fits _ _ := Iff.rfl

variable {t : Transfer} {widths : Set ℕ}

end Transfer

/-! ### Columns -/

/-- A column that one of the given widths leads to, or the one beyond all others. -/
def Column.Among (widths : Set ℕ) : Column → Prop
  | .number width => width ∈ widths
  | .beyond => True

/-- An indent of one of the given widths leads to one of these columns. -/
theorem Column.among_ofWidth {widths : Set ℕ} {width : ℕ} (h : width ∈ widths) :
    (Column.ofWidth width).Among widths := by
  unfold Column.ofWidth
  split
  · exact h
  · trivial

/-- All columns are among those that all widths lead to. -/
theorem Column.among_univ (column : Column) : column.Among Set.univ := by
  cases column <;> trivial

/-- The columns of an open call are among those that the given widths lead to. -/
def Frame.Among (widths : Set ℕ) (frame : Frame) : Prop :=
  frame.column.Among widths ∧ frame.block.Among widths

namespace State

/-- The columns of all open calls are among those that the given widths lead to. -/
def Among (widths : Set ℕ) (state : State) : Prop :=
  ∀ frame ∈ state.frames, frame.Among widths

/-- The columns of every state are among those that all widths lead to. -/
theorem among_univ (state : State) : state.Among Set.univ := fun _ _ =>
  ⟨Column.among_univ _, Column.among_univ _⟩

variable {widths : Set ℕ} {limit : ℕ} {state next : State} {token : Token}

/-- An indent of one of the given widths leads to no other column. -/
theorem among_of_reads (h : Reads limit state token next) (hzero : 0 ∈ widths)
    (hwidth : ∀ width, token.word = .indent width → width ∈ widths)
    (hamong : state.Among widths) : next.Among widths := by
  -- an argument of the innermost call changes no column
  have hsame {top grown : Frame} {below : List Frame} (hframes : state.frames = top :: below)
      (hgrown : grown.margins = top.margins) :
      ∀ frame ∈ grown :: below, frame.Among widths := by
    unfold Among at hamong
    rw [hframes] at hamong
    obtain ⟨htop, hbelow⟩ := List.forall_mem_cons.mp hamong
    refine List.forall_mem_cons.mpr ⟨?_, hbelow⟩
    have hcolumn : grown.column = top.column := congrArg Prod.fst hgrown
    have hblock : grown.block = top.block := congrArg Prod.snd hgrown
    exact ⟨hcolumn ▸ htop.1, hblock ▸ htop.2⟩
  have htop {top : Frame} {below : List Frame} (hframes : state.frames = top :: below) :
      top.Among widths ∧ ∀ frame ∈ below, frame.Among widths := by
    unfold Among at hamong
    rw [hframes] at hamong
    exact List.forall_mem_cons.mp hamong
  cases h with
  | continued hphase hcontent hframes hgrown =>
    exact hsame hframes (Frame.margins_of_continueText? hgrown)
  | openedRoot hphase => exact List.forall_mem_singleton.mpr ⟨hzero, trivial⟩
  | openedChild hframes hroom hcolumn =>
    refine List.forall_mem_cons.mpr ⟨⟨?_, trivial⟩, hframes ▸ hamong⟩
    rcases hcolumn with ⟨-, rfl⟩ | ⟨-, rfl⟩
    · exact (htop hframes).1.1
    · exact (htop hframes).1.2
  | dropped hphase hblank => exact hamong
  | added hframes hphase => exact hsame hframes rfl
  | settled hframes hphase hsettle =>
    intro frame hframe
    have hmem := (Frame.suffix_of_settle? hsettle).subset (List.mem_map_of_mem hframe)
    obtain ⟨other, hother, heq⟩ := List.mem_map.mp hmem
    have hcolumn : other.column = frame.column := congrArg Prod.fst heq
    have hblock : other.block = frame.block := congrArg Prod.snd heq
    obtain ⟨hothercolumn, hotherblock⟩ := hamong other (hframes ▸ hother)
    exact ⟨hcolumn ▸ hothercolumn, hblock ▸ hotherblock⟩
  | begun hframes hphase hright =>
    obtain ⟨hfirst, hbelow⟩ := htop hframes
    have hblock := Column.among_ofWidth (hwidth _ rfl)
    exact List.forall_mem_cons.mpr ⟨⟨hfirst.1, hblock⟩, hbelow⟩
  | ended hphase => exact hamong
  | skippedIndent hphase => exact hamong
  | cancelled hframes hphase =>
    obtain ⟨hfirst, hbelow⟩ := htop hframes
    exact List.forall_mem_cons.mpr ⟨⟨hfirst.1, trivial⟩, hbelow⟩
  | skippedLine hphase => exact hamong

end State

namespace Transfer

variable {t : Transfer} {widths : Set ℕ}

/-- An indent leads to the column that it led to, carried elsewhere. -/
theorem Keeps.column_ofWidth (h : t.Keeps widths) {width : ℕ} (hwidth : width ∈ widths) :
    t.column (.ofWidth width) = .ofWidth (t.width width) := by
  by_cases hfits : width < Text.greatestCount
  · rw [Column.ofWidth_of_lt hfits, Column.ofWidth_of_lt ((h.width_fits _ hwidth).mpr hfits)]
    rfl
  · have hbeyond : ¬ t.width width < Text.greatestCount := fun hlt =>
      hfits ((h.width_fits _ hwidth).mp hlt)
    rw [Column.ofWidth, if_neg hfits, Column.ofWidth, if_neg hbeyond]
    rfl

/-- Columns keep their order. -/
theorem Keeps.column_lt (h : t.Keeps widths) {a b : Column} (ha : a.Among widths)
    (hb : b.Among widths) : t.column a < t.column b ↔ a < b := by
  cases a with
  | beyond => exact iff_of_false (Column.not_beyond_lt _) (Column.not_beyond_lt _)
  | number a =>
    cases b with
    | beyond => exact iff_of_true (Column.number_lt_beyond _) (Column.number_lt_beyond _)
    | number b => exact h.width_lt a ha b hb

/-- Different columns stay different. -/
theorem Keeps.column_eq (h : t.Keeps widths) {a b : Column} (ha : a.Among widths)
    (hb : b.Among widths) : t.column a = t.column b ↔ a = b := by
  refine ⟨fun heq => ?_, congrArg _⟩
  cases a with
  | beyond =>
    cases b with
    | beyond => rfl
    | number b => cases heq
  | number a =>
    cases b with
    | beyond => cases heq
    | number b =>
      have hwidth : t.width a = t.width b := Column.number.inj heq
      have hab := h.width_lt a ha b hb
      have hba := h.width_lt b hb a ha
      have hnumber : a = b := by omega
      rw [hnumber]

/-! ### Open calls -/

/-- A call is carried elsewhere as the item that it is. -/
theorem toItem_call (call : Call) : (t.call call).toItem = t.item call.toItem := by
  simp only [Transfer.call, Call.toItem, item, Item.recast, Item.recastAll_eq_map]

/-- An open call is carried elsewhere as it would be once closed. -/
theorem call_frame (frame : Frame) : (t.frame frame).call = t.call frame.call := by
  simp only [Frame.call, Transfer.frame, Transfer.call, List.map_reverse]

/-- An argument is carried elsewhere with the call that it is added to. -/
theorem frame_push (frame : Frame) (item : Item) :
    t.frame (frame.push item) = (t.frame frame).push (t.item item) := rfl

/-- Calls that are closed elsewhere become arguments as they did. -/
theorem frame_closeInto (frame parent : Frame) :
    t.frame (frame.closeInto parent) = (t.frame frame).closeInto (t.frame parent) := by
  rw [Frame.closeInto, Frame.closeInto, frame_push, ← toItem_call, call_frame]

/-- A stack that was carried elsewhere comes to what the stack came to, carried elsewhere. -/
theorem assemble_frame (top : Frame) (below : List Frame) :
    (t.frame top).assemble (below.map t.frame) = t.call (top.assemble below) := by
  induction below generalizing top with
  | nil => exact call_frame top
  | cons parent rest ih =>
    rw [List.map_cons, Frame.assemble_cons, ← frame_closeInto, ih, Frame.assemble_cons]

/-- A text is continued as before. -/
theorem Keeps.continueText?_frame (h : t.Keeps widths) (frame : Frame) (content : String) :
    (t.frame frame).continueText? (t.spell content) =
      (frame.continueText? content).map t.frame := by
  obtain ⟨name, position, column, block, arguments⟩ := frame
  cases arguments with
  | nil => rfl
  | cons item earlier =>
    cases item with
    | text start =>
      simp only [Frame.continueText?, Transfer.frame, List.map_cons, item, Item.recast,
        Option.map_some, h.spell_append]
    | call name position arguments => rfl
    | quoted items => rfl

/-- Calls are closed for an indent as before. -/
theorem Keeps.settle?_frame (h : t.Keeps widths) {column : Column} (hcolumn : column.Among widths)
    {top : Frame} {below : List Frame} (hframes : ∀ frame ∈ top :: below, frame.Among widths) :
    (t.frame top).settle? (t.column column) (below.map t.frame) =
      (top.settle? column below).map (List.map t.frame) := by
  induction below generalizing top with
  | nil =>
    have htop := (hframes top List.mem_cons_self).2
    have heq : (t.frame top).block = t.column column ↔ top.block = column :=
      h.column_eq htop hcolumn
    rw [List.map_nil, Frame.settle?, Frame.settle?]
    by_cases hblock : top.block = column
    · rw [if_pos hblock, if_pos (heq.mpr hblock)]
      rfl
    · rw [if_neg hblock, if_neg fun hsame => hblock (heq.mp hsame)]
      rfl
  | cons parent rest ih =>
    obtain ⟨htop, hrest⟩ := List.forall_mem_cons.mp hframes
    obtain ⟨hparent, hlater⟩ := List.forall_mem_cons.mp hrest
    have hlt : t.column column < (t.frame top).block ↔ column < top.block :=
      h.column_lt hcolumn htop.2
    have heq : (t.frame top).block = t.column column ↔ top.block = column :=
      h.column_eq htop.2 hcolumn
    rw [List.map_cons, Frame.settle?, Frame.settle?]
    by_cases hright : column < top.block
    · rw [if_pos hright, if_pos (hlt.mpr hright), ← frame_closeInto]
      exact ih (List.forall_mem_cons.mpr ⟨hparent, hlater⟩)
    · rw [if_neg hright, if_neg fun hsame => hright (hlt.mp hsame)]
      by_cases hblock : top.block = column
      · rw [if_pos hblock, if_pos (heq.mpr hblock)]
        rfl
      · rw [if_neg hblock, if_neg fun hsame => hblock (heq.mp hsame)]
        rfl

/-! ### Operations -/

variable {state : State} {place : Position}

/-- What is closed elsewhere is what was closed, behind what was closed before. -/
theorem closeAll_state (state : State) :
    (t.state state).closeAll = state.closeAll.map t.call ++ t.closed := by
  obtain ⟨phase, frames, closed, remarks, events⟩ := state
  cases frames with
  | nil => rfl
  | cons top below =>
    exact congrArg (· :: (closed.map t.call ++ t.closed)) (assemble_frame top below)

/-- The forest elsewhere is the forest, behind the calls that were closed before. -/
theorem forest_state (state : State) :
    (t.state state).forest = t.closed.reverse ++ state.forest.map t.call := by
  rw [State.forest, closeAll_state, List.reverse_append, ← List.map_reverse]
  rfl

/-- An outermost call opens elsewhere as it did: the leftmost column stays leftmost. -/
theorem Keeps.openRoot_state (h : t.Keeps widths) (name : String) :
    (t.state state).openRoot (t.spell name) (t.place place) =
      t.state (state.openRoot name place) := by
  have hopened : t.frame (.opened name place .leftmost) =
      .opened (t.spell name) (t.place place) .leftmost := by
    simp [Transfer.frame, Frame.opened, column, Column.leftmost, h.width_zero]
  rw [State.openRoot, closeAll_state, ← hopened]
  rfl

/-- An argument is added elsewhere as it was, and fails to be where it failed. -/
theorem addArgument_state (item : Item) :
    (t.state state).addArgument (t.place place) (t.item item) =
      t.result t.state (state.addArgument place item) := by
  obtain ⟨phase, frames, closed, remarks, events⟩ := state
  cases frames <;> rfl

/-- A text is continued elsewhere if it was, since texts are spelled piece by piece. -/
theorem Keeps.continueText_state (h : t.Keeps widths) (content : String) :
    (t.state state).continueText (t.place place) (t.spell content) =
      t.result t.state (state.continueText place content) := by
  obtain ⟨phase, frames, closed, remarks, events⟩ := state
  cases frames with
  | nil => rfl
  | cons top below =>
    simp only [State.continueText, Transfer.state, List.map_cons, h.continueText?_frame]
    cases top.continueText? content <;> rfl

/-- A call opens inside another one elsewhere if there was room for it, and at the column that its
column leads to. -/
theorem openChild_state (limit : ℕ) (name : String) (column : Frame → Column)
    (hcolumn : ∀ frame, column (t.frame frame) = t.column (column frame)) :
    (t.state state).openChild limit (t.spell name) (t.place place) column =
      t.result t.state (state.openChild limit name place column) := by
  obtain ⟨phase, frames, closed, remarks, events⟩ := state
  cases frames with
  | nil => rfl
  | cons top below =>
    simp only [State.openChild, Transfer.state, List.map_cons, List.length_cons, List.length_map,
      hcolumn]
    split <;> rfl

/-- An indent closes the same calls elsewhere, since the order of the columns stays. -/
theorem Keeps.settle_state (h : t.Keeps widths) (hstate : state.Among widths) {width : ℕ}
    (hwidth : width ∈ widths) :
    (t.state state).settle (t.width width) (t.place place) =
      t.result t.state (state.settle width place) := by
  obtain ⟨phase, frames, closed, remarks, events⟩ := state
  cases frames with
  | nil => rfl
  | cons top below =>
    have hsettle := h.settle?_frame (Column.among_ofWidth hwidth) hstate
    simp only [State.settle, Transfer.state, List.map_cons, ← h.column_ofWidth hwidth, hsettle]
    cases top.settle? (.ofWidth width) below <;> rfl

/-! ### Offers -/

/-- A token that is taken with a further change of the state is taken elsewhere with the same
change. -/
theorem result_map_taken (t : Transfer) (result : Except Fault State) (f : State → State)
    (hf : ∀ next, f (t.state next) = t.state (f next)) :
    (t.result t.state result).map (fun next => Move.taken (f next)) =
      t.result t.move (result.map fun next => .taken (f next)) := by
  cases result with
  | error fault => rfl
  | ok next => exact congrArg (fun next => Except.ok (Move.taken next)) (hf next)

/-- A token is taken elsewhere as it was taken. -/
theorem Keeps.offer_state (h : t.Keeps widths) (hstate : state.Among widths) {token : Token}
    (hwidth : ∀ width, token.word = .indent width → width ∈ widths) (limit : ℕ) :
    (t.state state).offer limit (t.token token) = t.result t.move (state.offer limit token) := by
  obtain ⟨word, place⟩ := token
  have hphase : (t.state state).phase = state.phase := rfl
  cases word with
  | call name =>
    change (t.state state).offerCall limit (t.spell name) (t.place place) =
      t.result t.move (state.offerCall limit name place)
    unfold State.offerCall
    rw [hphase]
    cases state.phase with
    | lineStart | indented => rfl
    | blockStart =>
      rw [h.openRoot_state]
      rfl
    | text =>
      rw [h.continueText_state]
      exact result_map_taken t _ id fun _ => rfl
    | call =>
      rw [openChild_state limit name Frame.column fun _ => rfl]
      exact result_map_taken t _ id fun _ => rfl
    | blockIndented =>
      rw [openChild_state limit name Frame.block fun _ => rfl]
      exact result_map_taken t _ (·.goto .call) fun _ => rfl
  | text content =>
    change (t.state state).offerText (t.spell content) (t.place place) =
      t.result t.move (state.offerText content place)
    have hadd : (t.state state).addArgument (t.place place) (.text (t.spell content)) =
        t.result t.state (state.addArgument place (.text content)) :=
      addArgument_state (.text content)
    unfold State.offerText
    rw [hphase]
    cases state.phase with
    | lineStart | blockStart | indented => rfl
    | text =>
      rw [h.continueText_state]
      exact result_map_taken t _ id fun _ => rfl
    | call =>
      simp only [h.isBlankText_spell]
      split
      · rfl
      · rw [hadd]
        exact result_map_taken t _ id fun _ => rfl
    | blockIndented =>
      simp only [hadd]
      exact result_map_taken t _ (·.goto .text) fun _ => rfl
  | indent width =>
    have hmem : width ∈ widths := hwidth width rfl
    change (t.state state).offerIndent (t.width width) (t.place place) =
      t.result t.move (state.offerIndent width place)
    have hsettle : ((t.state state).settle (t.width width) (t.place place)).map
        (fun next => Move.taken (next.goto .indented)) =
          t.result t.move ((state.settle width place).map fun next =>
            .taken (next.goto .indented)) := by
      rw [h.settle_state hstate hmem]
      exact result_map_taken t _ (·.goto .indented) fun _ => rfl
    unfold State.offerIndent
    rw [hphase]
    cases state.phase with
    | text | call | indented | blockIndented => rfl
    | lineStart => exact hsettle
    | blockStart =>
      simp only [hsettle]
      cases hframes : state.frames with
      | nil =>
        simp only [Transfer.state, hframes]
        rfl
      | cons top below =>
        have htop : top.column.Among widths :=
          (hstate top (by rw [hframes]; exact List.mem_cons_self)).1
        have hlt : (t.frame top).column < .ofWidth (t.width width) ↔
            top.column < .ofWidth width := by
          rw [← h.column_ofWidth hmem]
          exact h.column_lt htop (Column.among_ofWidth hmem)
        simp only [Transfer.state, hframes, List.map_cons, hlt]
        split
        · rw [← h.column_ofWidth hmem]
          rfl
        · rfl
  | lineBreak =>
    change (t.state state).offerLineBreak (t.place place) =
      t.result t.move (state.offerLineBreak place)
    unfold State.offerLineBreak
    rw [hphase]
    cases state.phase with
    | lineStart | blockStart | text | call | indented => rfl
    | blockIndented =>
      obtain ⟨phase, frames, closed, remarks, events⟩ := state
      cases frames <;> rfl

/-- A token is read elsewhere as it was read. -/
theorem Keeps.feed_state (h : t.Keeps widths) (hstate : state.Among widths) {token : Token}
    (hwidth : ∀ width, token.word = .indent width → width ∈ widths) (limit : ℕ) :
    (t.state state).feed limit (t.token token) = t.result t.state (state.feed limit token) := by
  unfold State.feed
  rw [h.offer_state hstate hwidth]
  cases hoffer : state.offer limit token with
  | error fault => rfl
  | ok move =>
    cases move with
    | taken next => rfl
    | again between =>
      -- only the phase has changed
      have hbetween : between.Among widths := by
        rcases State.phase_of_again hoffer with ⟨-, rfl, -⟩ | ⟨-, rfl⟩ <;> exact hstate
      simp only [result, Transfer.move, h.offer_state hbetween hwidth]
      cases between.offer limit token with
      | error fault => rfl
      | ok move => cases move <;> rfl

/-- Tokens are read elsewhere as they were read. -/
theorem Keeps.run_state (h : t.Keeps widths) (hstate : state.Among widths) {tokens : List Token}
    (hwidths : ∀ token ∈ tokens, ∀ width, token.word = .indent width → width ∈ widths)
    (limit : ℕ) :
    (t.state state).run limit (tokens.map t.token) =
      ((state.run limit tokens).1.map t.fault, t.state (state.run limit tokens).2) := by
  induction tokens generalizing state with
  | nil => rfl
  | cons token rest ih =>
    obtain ⟨htoken, hrest⟩ := List.forall_mem_cons.mp hwidths
    have hfeed := h.feed_state hstate htoken limit
    rw [List.map_cons]
    cases hnext : state.feed limit token with
    | error fault =>
      rw [hnext] at hfeed
      rw [State.run_cons_of_error hfeed, State.run_cons_of_error hnext]
      rfl
    | ok next =>
      rw [hnext] at hfeed
      rw [State.run_cons_of_ok hfeed, State.run_cons_of_ok hnext]
      exact ih (State.among_of_reads (State.reads_of_feed hnext) h.zero_mem htoken hstate) hrest

/-- A token list elsewhere is parsed as it was, if nothing was read before it. -/
theorem Keeps.parse_token (h : t.Keeps widths) {tokens : List Token}
    (hwidths : ∀ token ∈ tokens, ∀ width, token.word = .indent width → width ∈ widths)
    (hclosed : t.closed = []) (hremarks : t.remarks = []) (hevents : t.events = [])
    (parser : Parser) :
    (parser.parse (tokens.map t.token)).outcome =
        t.result (List.map t.call) (parser.parse tokens).outcome ∧
      (parser.parse (tokens.map t.token)).parser.remarks =
        (parser.parse tokens).parser.remarks.map t.remark ∧
      (parser.parse (tokens.map t.token)).events = (parser.parse tokens).events.map t.event := by
  have hamong : State.initial.Among widths := fun _ hframe => nomatch hframe
  have hinitial : t.state State.initial = State.initial := by
    rw [Transfer.state, hclosed, hremarks, hevents]
    rfl
  have hrun := h.run_state hamong hwidths parser.limit
  rw [hinitial] at hrun
  rcases hresult : State.initial.run parser.limit tokens with ⟨fault?, last⟩
  rw [hresult] at hrun
  have hforest : (t.state last).forest = last.forest.map t.call := by
    rw [forest_state, hclosed, List.reverse_nil, List.nil_append]
  simp only [Parser.parse, Parser.state_reset, hrun, hresult, hforest]
  refine ⟨?_, ?_, ?_⟩
  · cases fault? <;> rfl
  · rw [Transfer.state, hremarks, List.append_nil, List.map_reverse]
  · rw [Transfer.state, hevents, List.append_nil, List.map_reverse]

/-! ### What a transfer leaves alone -/

/-- Items that are spelled as before and whose calls stay at their places are the same. -/
theorem item_of_id (hspell : t.spell = id) (hplace : t.place = id) : t.item = id := by
  funext item
  rw [Transfer.item, hspell, hplace, Item.recast_id]
  rfl

/-- Calls that are spelled as before and stay at their places are the same. -/
theorem call_of_id (hspell : t.spell = id) (hplace : t.place = id) : t.call = id := by
  funext call
  rw [Transfer.call, item_of_id hspell hplace, hspell, hplace, List.map_id]
  rfl

/-- Columns stay where they are if widths do. -/
theorem column_of_id (hwidth : t.width = id) : t.column = id := by
  funext column
  cases column with
  | number width =>
    rw [Transfer.column, hwidth]
    rfl
  | beyond => rfl

/-- Open calls are the same if nothing in them changes. -/
theorem frame_of_id (hspell : t.spell = id) (hplace : t.place = id) (hwidth : t.width = id) :
    t.frame = id := by
  funext frame
  rw [Transfer.frame, item_of_id hspell hplace, column_of_id hwidth, hspell, hplace, List.map_id]
  rfl

/-- Words are the same if they are spelled as before and indents keep their widths. -/
theorem word_of_id (hspell : t.spell = id) (hwidth : t.width = id) : t.word = id := by
  funext word
  cases word <;> simp only [Transfer.word, hspell, hwidth, id]

/-- Remarks whose places stay are the same. -/
theorem remark_of_id (hplace : t.place = id) : t.remark = id := by
  funext remark
  rw [Transfer.remark, hplace]
  rfl

/-- Events whose places stay are the same. -/
theorem event_of_id (hplace : t.place = id) : t.event = id := by
  funext event
  cases event with
  | remarked remark =>
    rw [Transfer.event, remark_of_id hplace]
    rfl
  | _ => rfl

/-- Faults are the same if their places stay and indents keep their widths. -/
theorem fault_of_id (hplace : t.place = id) (hwidth : t.width = id) : t.fault = id := by
  funext fault
  cases fault <;> simp only [Transfer.fault, hplace, hwidth, id]

/-! ### What was read before -/

/-- Leaves a source as it is, behind calls that were closed before it, remarks that were made
and events that there were, latest first. -/
def prior (closed : List Call) (remarks : List Remark) (events : List Event) : Transfer :=
  { closed := closed, remarks := remarks, events := events }

variable (closed : List Call) (remarks : List Remark) (events : List Event)

/-- What was read before is kept behind what is read now. -/
theorem state_prior (state : State) : (prior closed remarks events).state state =
    ⟨state.phase, state.frames, state.closed ++ closed, state.remarks ++ remarks,
      state.events ++ events⟩ := by
  have hcall : (prior closed remarks events).call = id := call_of_id rfl rfl
  have hframe : (prior closed remarks events).frame = id := frame_of_id rfl rfl rfl
  have hremark : (prior closed remarks events).remark = id := remark_of_id rfl
  have hevent : (prior closed remarks events).event = id := event_of_id rfl
  simp only [Transfer.state, hcall, hframe, hremark, hevent, List.map_id]
  rfl

/-- The calls that were closed before come first in the forest. -/
theorem forest_prior (state : State) :
    ((prior closed remarks events).state state).forest = closed.reverse ++ state.forest := by
  rw [forest_state, call_of_id rfl rfl, List.map_id]
  rfl

/-- What was read before does not matter to the reading of what comes. -/
theorem run_prior (limit : ℕ) (state : State) (tokens : List Token) :
    ((prior closed remarks events).state state).run limit tokens =
      ((state.run limit tokens).1,
        (prior closed remarks events).state (state.run limit tokens).2) := by
  have hkeeps : (prior closed remarks events).Keeps Set.univ := keeps_univ _ _ _ _
  have hrun := hkeeps.run_state state.among_univ (fun token (_ : token ∈ tokens) _ _ => trivial)
    limit
  have htoken : (prior closed remarks events).token = id := by
    funext token
    rw [Transfer.token, word_of_id rfl rfl]
    rfl
  rwa [htoken, fault_of_id rfl rfl, List.map_id, Option.map_id] at hrun

end Transfer

end Offside
