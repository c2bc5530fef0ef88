import Offside.Proofs.Layout.Blocks

/-!
# Where the blocks come from

Which open call has its block in which column can be told from what has been read. An indent
below a call begins its block, and that stays where it is until the call is closed or the line
turns out to hold nothing but the indent. An indent that begins no block leads back to the call
whose block was begun in its column and is there still.
-/

namespace Offside

namespace State

variable {limit depth width : ℕ} {state next : State} {token : Token} {history : List Reading}
  {reading : Reading}

/-! ### What becomes of blocks -/

/-- The token is an indent of the given width, and it begins the block of the innermost call,
which stands inside so many others. -/
def Reading.SetsBlock (depth width : ℕ) (reading : Reading) : Prop :=
  reading.token.word = .indent width ∧ reading.after.phase = .blockIndented ∧
    reading.before.frames.length = depth + 1

/-- The call that stands inside so many others is closed, or its line ends behind the indent that
began its block. -/
def Reading.UnsetsBlock (depth : ℕ) (reading : Reading) : Prop :=
  (∃ name, reading.token.word = .call name) ∧ reading.before.StartsLine ∨
    reading.after.frames.length ≤ depth ∨
    reading.token.word = .lineBreak ∧ reading.before.phase = .blockIndented ∧
      reading.before.frames.length = depth + 1

/-- In the given history an indent of the given width began the block of the call that stands
inside so many others, and that call has been open with its block ever since. -/
def HasBlock (history : List Reading) (depth width : ℕ) : Prop :=
  ∃ earlier reading later, history = earlier ++ reading :: later ∧
    reading.SetsBlock depth width ∧ ∀ other ∈ later, ¬ other.UnsetsBlock depth

/-- Without a history no block has begun. -/
theorem not_hasBlock_nil : ¬ HasBlock [] depth width := by
  rintro ⟨earlier, reading, later, hhistory, -⟩
  simp at hhistory

/-- One more reading begins the block, or leaves it where it was. -/
theorem hasBlock_concat :
    HasBlock (history ++ [reading]) depth width ↔
      reading.SetsBlock depth width ∨
        HasBlock history depth width ∧ ¬ reading.UnsetsBlock depth := by
  constructor
  · rintro ⟨earlier, first, later, hhistory, hsets, hkept⟩
    rcases List.eq_nil_or_concat' later with rfl | ⟨middle, last, rfl⟩
    · obtain ⟨-, hlast⟩ := List.append_inj' hhistory rfl
      obtain rfl : reading = first := List.singleton_inj.mp hlast
      exact .inl hsets
    · rw [← List.cons_append, ← List.append_assoc] at hhistory
      obtain ⟨rfl, hlast⟩ := List.append_inj' hhistory rfl
      obtain rfl : reading = last := List.singleton_inj.mp hlast
      refine .inr ⟨⟨earlier, first, middle, rfl, hsets, fun other hother => ?_⟩, ?_⟩
      · exact hkept other (List.mem_append_left _ hother)
      · exact hkept reading (List.mem_append_right _ (List.mem_singleton_self reading))
  · rintro (hsets | ⟨⟨earlier, first, later, rfl, hsets, hkept⟩, hlast⟩)
    · exact ⟨history, reading, [], rfl, hsets, fun _ hother => nomatch hother⟩
    · refine ⟨earlier, first, later ++ [reading], by simp, hsets, fun other hother => ?_⟩
      rcases List.mem_append.mp hother with hother | hother
      · exact hkept other hother
      · obtain rfl := List.mem_singleton.mp hother
        exact hlast

/-! ### One more token -/

/-- The call that stands inside so many others has its block in a column behind a token just if
the token begins the block there, or the block was there before and stays. -/
def Reading.Tracks (depth width : ℕ) (reading : Reading) : Prop :=
  Frame.blockAt depth reading.after.frames = some (.number width) ↔
    reading.SetsBlock depth width ∧ width < Text.greatestCount ∨
      Frame.blockAt depth reading.before.frames = some (.number width) ∧
        ¬ reading.UnsetsBlock depth

/-- If no call is opened or closed and no block begins or is given up, blocks are where they
were. -/
theorem tracks_of_margins
    (hmargins : next.frames.map Frame.margins = state.frames.map Frame.margins)
    (hsets : ∀ width, token.word ≠ .indent width)
    (hunsets : Reading.UnsetsBlock depth ⟨state, token, next⟩ → next.frames.length ≤ depth) :
    Reading.Tracks depth width ⟨state, token, next⟩ := by
  rw [Reading.Tracks, ← Frame.blockAt_congr hmargins depth]
  constructor
  · intro hblock
    refine .inr ⟨hblock, fun hunset => ?_⟩
    exact absurd (Frame.lt_of_blockAt hblock) (Nat.not_lt.mpr (hunsets hunset))
  · rintro (⟨⟨hindent, -⟩, -⟩ | ⟨hblock, -⟩)
    · exact absurd hindent (hsets width)
    · exact hblock

/-- A token that is no call and changes the innermost call only leaves all other blocks. -/
theorem tracks_of_below {top changed : Frame} {below : List Frame}
    (hframes : state.frames = top :: below) (hnext : next.frames = changed :: below)
    (hdepth : depth ≠ below.length) (hword : ∀ name, token.word ≠ .call name) :
    Reading.Tracks depth width ⟨state, token, next⟩ := by
  have hlength : state.frames.length ≠ depth + 1 := by
    rw [hframes]
    exact fun h => hdepth (Nat.succ.inj h).symm
  rw [Reading.Tracks, hnext, hframes, Frame.blockAt_cons, Frame.blockAt_cons, if_neg hdepth,
    if_neg hdepth]
  constructor
  · intro hblock
    refine .inr ⟨hblock, ?_⟩
    rintro (⟨⟨name, hcall⟩, -⟩ | hclosed | ⟨-, -, hinnermost⟩)
    · exact hword name hcall
    · have hlt := Frame.lt_of_blockAt hblock
      rw [hnext] at hclosed
      exact absurd hclosed (Nat.not_le.mpr (Nat.lt_succ_of_lt hlt))
    · exact hlength hinnermost
  · rintro (⟨⟨-, -, hinnermost⟩, -⟩ | ⟨hblock, -⟩)
    · exact absurd hinnermost hlength
    · exact hblock

/-- Every reading says where blocks are behind it. -/
theorem tracks_of_reads (h : Reads limit state token next) (hawaits : state.AwaitsBlock) :
    Reading.Tracks depth width ⟨state, token, next⟩ := by
  cases h with
  | @continued token content top grown below hphase hcontent hframes hgrown =>
    have hword := Word.eq_of_content? hcontent
    refine tracks_of_margins ?_ ?_ ?_
    · simp [hframes, Frame.margins_of_continueText? hgrown]
    · intro other hother
      rcases hword with hword | hword <;> rw [hword] at hother <;> cases hother
    · rcases hword with hword | hword <;>
        simp [Reading.UnsetsBlock, StartsLine, hword, hphase]
  | @openedRoot name place hphase =>
    -- the only call that is open behind it has no block
    have hnone :
        Frame.blockAt depth [Frame.opened name place .leftmost] ≠ some (.number width) := by
      rw [Frame.blockAt_cons]
      split <;> intro hblock <;> cases hblock
    refine iff_of_false hnone ?_
    rintro (⟨⟨hindent, -⟩, -⟩ | ⟨-, hkept⟩)
    · cases hindent
    · exact hkept (.inl ⟨⟨name, rfl⟩, hphase⟩)
  | @openedChild name place column top below hframes hroom hcolumn =>
    have hinside : ¬ state.StartsLine := by
      rcases hcolumn with ⟨hphase, -⟩ | ⟨hphase | hphase, -⟩ <;> simp [StartsLine, hphase]
    constructor
    · intro hblock
      rw [Frame.blockAt_cons] at hblock
      split at hblock
      · cases hblock
      · have hlt := Frame.lt_of_blockAt hblock
        refine .inr ⟨by rwa [hframes], ?_⟩
        rintro (⟨-, hstart⟩ | hclosed | ⟨hbreak, -⟩)
        · exact hinside hstart
        · exact absurd hclosed (Nat.not_le.mpr (Nat.lt_succ_of_lt hlt))
        · cases hbreak
    · rintro (⟨⟨hindent, -⟩, -⟩ | ⟨hblock, -⟩)
      · cases hindent
      · rw [hframes] at hblock
        rw [Frame.blockAt_cons, if_neg (Nat.ne_of_lt (Frame.lt_of_blockAt hblock))]
        exact hblock
  | dropped hphase hblank =>
    refine tracks_of_margins rfl (by simp) ?_
    simp [Reading.UnsetsBlock, report]
  | added hframes hphase =>
    refine tracks_of_margins ?_ (by simp) ?_
    · rw [hframes]
      rfl
    · simp [Reading.UnsetsBlock]
  | settled hframes hphase hsettle =>
    have hsuffix := Frame.suffix_of_settle? hsettle
    rw [← hframes] at hsuffix
    constructor
    · intro hblock
      have hlt := Frame.lt_of_blockAt hblock
      refine .inr ⟨by rwa [← Frame.blockAt_of_suffix hsuffix hlt], ?_⟩
      rintro (⟨⟨name, hcall⟩, -⟩ | hclosed | ⟨hbreak, -⟩)
      · cases hcall
      · exact absurd hclosed (Nat.not_le.mpr hlt)
      · cases hbreak
    · rintro (⟨⟨-, hbegun, -⟩, -⟩ | ⟨hblock, hkept⟩)
      · cases hbegun
      · have hlt := Nat.lt_of_not_le fun hclosed => hkept (.inr (.inl hclosed))
        rwa [Frame.blockAt_of_suffix hsuffix hlt]
  | @begun other place top below hframes hphase hright =>
    by_cases hdepth : depth = below.length
    · have hnone : top.block = .beyond := hawaits (.inr hphase) top below hframes
      simp [Reading.Tracks, Frame.blockAt_cons, hdepth, hnone, hframes, Reading.SetsBlock,
        Column.ofWidth_eq_number]
    · exact tracks_of_below hframes rfl hdepth (by simp)
  | ended hphase =>
    refine tracks_of_margins rfl (by simp) ?_
    rcases hphase with ⟨hphase, rfl⟩ | ⟨hphase, rfl⟩ <;>
      simp [Reading.UnsetsBlock, goto, hphase]
  | skippedIndent hphase =>
    refine tracks_of_margins rfl (by simp) ?_
    simp [Reading.UnsetsBlock, goto, report, hphase]
  | @cancelled place top below hframes hphase =>
    by_cases hdepth : depth = below.length
    · simp [Reading.Tracks, Frame.blockAt_cons, hdepth, hframes, hphase, Reading.SetsBlock,
        Reading.UnsetsBlock]
    · exact tracks_of_below hframes rfl hdepth (by simp)
  | skippedLine hphase =>
    refine tracks_of_margins rfl (by simp) ?_
    rcases hphase with hphase | hphase <;>
      simp [Reading.UnsetsBlock, report, hphase]

/-! ### Behind any tokens -/

/-- A call has its block in a column if an indent of that width began it there, and if the call
has been open with its block ever since. -/
theorem blockAt_iff_of_run {tokens : List Token}
    (h : initial.run limit tokens = (none, state)) :
    Frame.blockAt depth state.frames = some (.number width) ↔
      width < Text.greatestCount ∧ HasBlock (initial.readings limit tokens) depth width := by
  induction tokens using List.reverseRecOn generalizing state with
  | nil =>
    obtain rfl : initial = state := congrArg Prod.snd h
    exact iff_of_false nofun fun hblock => not_hasBlock_nil hblock.2
  | append_singleton front token ih =>
    obtain ⟨between, hfront, htoken⟩ := exists_run_of_append h
    obtain ⟨next, hfeed, hnext⟩ := exists_feed_of_run htoken
    obtain rfl : next = state := congrArg Prod.snd hnext
    obtain ⟨hawaits, -⟩ := ascending_of_run hfront
    have hreadings : initial.readings limit (front ++ [token]) =
        initial.readings limit front ++ [⟨between, token, next⟩] := by
      rw [readings_append hfront, readings_cons_of_ok hfeed]
      rfl
    have htracks : Reading.Tracks depth width ⟨between, token, next⟩ :=
      tracks_of_reads (reads_of_feed hfeed) hawaits
    rw [Reading.Tracks, ih hfront] at htracks
    rw [hreadings, hasBlock_concat, htracks]
    tauto

/-- What comes of an indent that begins no block, if it has a column of its own. -/
theorem feed_indent_of_hasBlock {read : List Token} {place : Position}
    (hread : initial.run limit read = (none, state)) (hstart : state.AtStart)
    (hleft : ¬ state.BeginsBlock (.ofWidth width)) (hwidth : width < Text.greatestCount)
    (hblock : HasBlock (initial.readings limit read) depth width) :
    ∃ inner frame outer, state.frames = inner ++ frame :: outer ∧ outer.length = depth ∧
      state.feed limit ⟨.indent width, place⟩ = .ok { state with
        phase := .indented
        frames := Frame.closeInner inner frame :: outer } := by
  obtain ⟨inner, frame, outer, hframes, hdepth, hframe⟩ :=
    Frame.exists_of_blockAt ((blockAt_iff_of_run hread).mpr ⟨hwidth, hblock⟩)
  have hascending := (ascending_of_run hread).2
  rw [hframes] at hascending
  refine ⟨inner, frame, outer, hframes, hdepth, ?_⟩
  rw [feed_indent_of_not_begins hstart hleft, Column.ofWidth_of_lt hwidth, hframes,
    Frame.settleStack?_append (hascending.block_lt hframe) hframe]

/-- If no open call has its block there, the indent cannot be read. -/
theorem exists_hasBlock_of_feed_indent {read : List Token} {place : Position}
    (hread : initial.run limit read = (none, state)) (hstart : state.AtStart)
    (hleft : ¬ state.BeginsBlock (.ofWidth width)) (hwidth : width < Text.greatestCount)
    (h : state.feed limit ⟨.indent width, place⟩ = .ok next) :
    ∃ depth, HasBlock (initial.readings limit read) depth width := by
  rw [feed_indent_of_not_begins hstart hleft, Column.ofWidth_of_lt hwidth] at h
  cases hsettle : Frame.settleStack? (.number width) state.frames with
  | none =>
    rw [hsettle] at h
    cases h
  | some frames =>
    obtain ⟨frame, hmem, hframe⟩ := Frame.exists_block_of_settleStack? hsettle
    obtain ⟨depth, hdepth⟩ := Frame.exists_blockAt_of_mem hmem
    rw [hframe] at hdepth
    exact ⟨depth, ((blockAt_iff_of_run hread).mp hdepth).2⟩

/-- The innermost call has its block in no column of its own unless an indent began it in one. -/
theorem head?_block_eq_beyond_iff {read : List Token}
    (hread : initial.run limit read = (none, state)) :
    state.frames.head?.map Frame.block = some .beyond ↔ ∃ top below, state.frames = top :: below ∧
      ∀ width < Text.greatestCount,
        ¬ HasBlock (initial.readings limit read) below.length width := by
  cases hframes : state.frames with
  | nil => simp
  | cons top below =>
    have hagree (width : ℕ) : top.block = .number width ↔ width < Text.greatestCount ∧
        HasBlock (initial.readings limit read) below.length width := by
      rw [← blockAt_iff_of_run hread, hframes, Frame.blockAt_cons, if_pos rfl, Option.some_inj]
    constructor
    · intro hnone
      refine ⟨top, below, rfl, fun width hwidth hblock => ?_⟩
      have hsome := (hagree width).mpr ⟨hwidth, hblock⟩
      rw [List.head?_cons, Option.map_some, hsome] at hnone
      cases hnone
    · rintro ⟨_, _, hcons, hfree⟩
      obtain ⟨rfl, rfl⟩ := List.cons.inj hcons
      cases hblock : top.block with
      | beyond => rw [List.head?_cons, Option.map_some, hblock]
      | number width =>
        obtain ⟨hwidth, hset⟩ := (hagree width).mp hblock
        exact absurd hset (hfree width hwidth)

/-- What comes of an indent that begins no block and has no column of its own. -/
theorem feed_indent_greatest (hstart : state.AtStart)
    (hleft : ¬ state.BeginsBlock (.ofWidth Text.greatestCount)) (place : Position) :
    state.feed limit ⟨.indent Text.greatestCount, place⟩ =
      if state.frames.head?.map Frame.block = some .beyond
      then .ok { state with phase := .indented }
      else .error (.unmatchedIndent Text.greatestCount place) := by
  have hbeyond : Column.ofWidth Text.greatestCount = .beyond := if_neg (Nat.lt_irrefl _)
  rw [feed_indent_of_not_begins hstart hleft, hbeyond]
  cases hframes : state.frames with
  | nil => rfl
  | cons top below =>
    rw [Frame.settleStack?_beyond]
    by_cases hblock : top.block = .beyond <;> simp [hblock]

end State

/-- An indent that begins no block is read if it stands in the column of some block, which an
indent of the same width began and which is there still. Then the calls inside the call with that
block are closed, each into the one around it, and nothing else changes. Any other indent is at
fault. The one exception is an indent as wide as counts go: it is read if the innermost call has
no block in any other column, whether its block was begun or not, and nothing is closed for it. -/
theorem parse_settles (parser : Parser) {read : List Token} {state : State} {width : ℕ}
    (hread : State.initial.run parser.limit read = (none, state)) (hstart : state.StartsLine)
    (hleft : ¬ state.BeginsBlock (.ofWidth width)) (place : Position) (rest : List Token) :
    let history := State.initial.readings parser.limit read
    let token : Token := ⟨.indent width, place⟩
    let result := state.feed parser.limit token
    (width < Text.greatestCount →
      ((∃ next, result = .ok next) ↔ ∃ depth, State.HasBlock history depth width) ∧
      ∀ depth, State.HasBlock history depth width →
        ∃ inner frame outer, state.frames = inner ++ frame :: outer ∧ outer.length = depth ∧
          result = .ok { state with
            phase := .indented
            frames := Frame.closeInner inner frame :: outer }) ∧
    (width = Text.greatestCount →
      ((∃ next, result = .ok next) ↔ ∃ top below, state.frames = top :: below ∧
        ∀ other < Text.greatestCount, ¬ State.HasBlock history below.length other) ∧
      ∀ next, result = .ok next → next = { state with phase := .indented }) ∧
    ((∀ next, result ≠ .ok next) →
      result = .error (.unmatchedIndent width place) ∧
        (parser.parse (read ++ token :: rest)).outcome =
          .error (.unmatchedIndent width place)) := by
  intro history token result
  obtain ⟨hsteady, -⟩ := State.steady_of_run (List.append_nil _) hread
  have hopen : state.AtStart :=
    hstart.imp_right fun hphase => ⟨hphase, hsteady.frames_ne_nil (by simp [hphase])⟩
  refine ⟨?_, ?_, ?_⟩
  · intro hwidth
    refine ⟨⟨?_, ?_⟩, fun depth hblock => ?_⟩
    · rintro ⟨next, hnext⟩
      exact State.exists_hasBlock_of_feed_indent hread hopen hleft hwidth hnext
    · rintro ⟨depth, hblock⟩
      obtain ⟨inner, frame, outer, -, -, hfeed⟩ :=
        State.feed_indent_of_hasBlock hread hopen hleft hwidth hblock
      exact ⟨_, hfeed⟩
    · exact State.feed_indent_of_hasBlock hread hopen hleft hwidth hblock
  · rintro rfl
    have hfeed : result = _ := State.feed_indent_greatest hopen hleft place
    rw [hfeed, ← State.head?_block_eq_beyond_iff hread]
    split
    · next hfree =>
      exact ⟨iff_of_true ⟨_, rfl⟩ hfree, fun next hnext => (Except.ok.inj hnext).symm⟩
    · next hset => exact ⟨iff_of_false nofun hset, nofun⟩
  · intro hnone
    have hfault : result = .error (.unmatchedIndent width place) := by
      have hfeed : result = _ := State.feed_indent_of_not_begins hopen hleft
      split at hfeed
      · exact absurd hfeed (hnone _)
      · exact hfeed
    have hrun : State.initial.run parser.limit (read ++ token :: rest) =
        (some (.unmatchedIndent width place), state) := by
      rw [State.run_append hread, State.run_cons_of_error hfault]
    exact ⟨hfault, Parser.outcome_of_run_error hrun⟩

/-- An indent leads back to the outer one of two blocks. But if that block is as far to the right
as counts go, the same indent leads to the call inside, whose block was not begun. -/
theorem parse_settles_blocks :
    let apart : List Token := [⟨.call "$$a", ⟨1, 1⟩⟩, ⟨.lineBreak, ⟨1, 4⟩⟩, ⟨.indent 2, ⟨2, 1⟩⟩,
      ⟨.call "$$b", ⟨2, 3⟩⟩, ⟨.lineBreak, ⟨2, 6⟩⟩, ⟨.indent 4, ⟨3, 1⟩⟩, ⟨.text "x", ⟨3, 5⟩⟩,
      ⟨.lineBreak, ⟨3, 6⟩⟩]
    let inner : Frame := ⟨"$$b", ⟨2, 3⟩, .number 2, .number 4, [.text "x"]⟩
    let outer : Frame := ⟨"$$a", ⟨1, 1⟩, .leftmost, .number 2, []⟩
    let far : List Token := [⟨.call "$$a", ⟨1, 1⟩⟩, ⟨.lineBreak, ⟨1, 4⟩⟩,
      ⟨.indent Text.greatestCount, ⟨2, 1⟩⟩, ⟨.call "$$b", ⟨2, 2⟩⟩, ⟨.lineBreak, ⟨2, 5⟩⟩]
    let unbegun : State := ⟨.blockStart, [⟨"$$b", ⟨2, 2⟩, .beyond, .beyond, []⟩,
      ⟨"$$a", ⟨1, 1⟩, .leftmost, .beyond, []⟩], [], [], []⟩
    (State.HasBlock (State.initial.readings 128 apart) 0 2 ∧
      State.feed 128 ⟨.lineStart, [inner, outer], [], [], []⟩ ⟨.indent 2, ⟨4, 1⟩⟩ =
        .ok ⟨.indented, [outer.push (.call "$$b" ⟨2, 3⟩ [.text "x"])], [], [], []⟩) ∧
    State.HasBlock (State.initial.readings 128 far) 0 Text.greatestCount ∧
      (∀ width, ¬ State.HasBlock (State.initial.readings 128 far) 1 width) ∧
      unbegun.feed 128 ⟨.indent Text.greatestCount, ⟨3, 1⟩⟩ =
        .ok { unbegun with phase := .indented } := by
  intro apart inner outer far unbegun
  have hapart : State.initial.run 128 apart = (none, ⟨.lineStart, [inner, outer], [], [], []⟩) :=
    rfl
  have hblock : State.HasBlock (State.initial.readings 128 apart) 0 2 :=
    ((State.blockAt_iff_of_run hapart).mp rfl).2
  obtain ⟨hown, -, -⟩ := parse_settles .standard hapart (.inl rfl)
    (show ¬ State.BeginsBlock _ (.ofWidth 2) from nofun) ⟨4, 1⟩ []
  obtain ⟨closed, frame, around, hframes, hdepth, hfeed⟩ := (hown (by decide)).2 0 hblock
  obtain rfl := List.length_eq_zero_iff.mp hdepth
  have hsplit : [inner] ++ [outer] = closed ++ [frame] := hframes
  obtain ⟨rfl, hlast⟩ := List.append_inj' hsplit rfl
  obtain rfl := List.singleton_inj.mp hlast
  have hfar : State.initial.run 128 far = (none, unbegun) := rfl
  have hbegun : State.HasBlock (State.initial.readings 128 far) 0 Text.greatestCount := by
    refine ⟨[_, _], _, [⟨_, ⟨.call "$$b", ⟨2, 2⟩⟩, _⟩, ⟨_, ⟨.lineBreak, ⟨2, 5⟩⟩, _⟩], rfl,
      ⟨rfl, rfl, rfl⟩, ?_⟩
    simp [State.Reading.UnsetsBlock, State.StartsLine, State.goto]
  have hfree (width : ℕ) : ¬ State.HasBlock (State.initial.readings 128 far) 1 width := by
    rintro ⟨earlier, reading, later, hhistory, ⟨-, hphase, hlength⟩, -⟩
    have hmem : reading ∈ State.initial.readings 128 far := by
      rw [hhistory]
      exact List.mem_append_right earlier List.mem_cons_self
    have houter : ∀ reading ∈ State.initial.readings 128 far,
        reading.after.phase = .blockIndented → reading.before.frames.length ≠ 2 := by decide
    exact houter reading hmem hphase hlength
  have hlevel : ¬ unbegun.BeginsBlock (.ofWidth Text.greatestCount) := by
    rintro ⟨-, top, htop, hright⟩
    obtain rfl := Option.some.inj htop
    exact Column.not_beyond_lt _ hright
  obtain ⟨-, hgreatest, -⟩ := parse_settles .standard hfar (.inr rfl) hlevel ⟨3, 1⟩ []
  obtain ⟨hread, hsame⟩ := hgreatest rfl
  obtain ⟨next, hnext⟩ := hread.mpr ⟨_, _, rfl, fun other _ => hfree other⟩
  obtain rfl := hsame next hnext
  exact ⟨⟨hblock, hfeed⟩, hbegun, hfree, hnext⟩

end Offside
