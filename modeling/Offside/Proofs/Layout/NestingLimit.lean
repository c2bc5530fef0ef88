import Offside.Proofs.Layout.ForestHeight
import Offside.Proofs.Layout.Stack

/-!
# The nesting limit cuts off

A parser that allows fewer calls to be open at once reads a token list just as any other does,
up to the first call that would be one too many. There it stops. As many calls are open as
levels are reached in the forest, so a list that can be read is cut off exactly when its
forest is deeper than allowed.
-/

namespace Offside

namespace State

variable {limit other : ℕ} {state next : State} {token : Token}

/-! ### Calls that are opened inside others -/

/-- A token that is a call, where calls are arguments of the innermost open one. -/
def Nests (state : State) (token : Token) : Prop :=
  (∃ name, token.word = .call name) ∧
    (state.phase = .call ∨ state.phase = .indented ∨ state.phase = .blockIndented)

namespace Reading

/-- A reading that opens a call inside the innermost open one. -/
def OpensChild (reading : Reading) : Prop :=
  ∃ name column, reading.token.word = .call name ∧ reading.before.frames ≠ [] ∧
    reading.after.frames =
      .opened name reading.token.position column :: reading.before.frames

/-- A reading that opens a call inside others, as many of which are open as allowed. -/
def Exceeds (limit : ℕ) (reading : Reading) : Prop :=
  reading.OpensChild ∧ limit ≤ reading.before.frames.length

end Reading

/-- Where calls are arguments there is a call around them and room for one more, and the new
call is then the innermost one. -/
theorem Reads.of_nests (h : Reads limit state token next) (hnests : state.Nests token) :
    state.frames ≠ [] ∧ state.frames.length < limit ∧ next.closed = state.closed ∧
      ∃ name column, token.word = .call name ∧
        next.frames = .opened name token.position column :: state.frames := by
  obtain ⟨⟨name, hword⟩, hnests⟩ := hnests
  cases h with
  | continued hphase hcontent hframes hgrown => simp [hphase] at hnests
  | openedRoot hphase => rcases hphase with hphase | hphase <;> simp [hphase] at hnests
  | @openedChild name place column top below hframes hroom hcolumn =>
    exact ⟨by simp [hframes], hroom, rfl, name, column, rfl, by simp [hframes]⟩
  | dropped | added | settled | begun | ended | skippedIndent | cancelled | skippedLine =>
    cases hword

/-- A reading opens a call inside another one exactly where calls are arguments. -/
theorem opensChild_iff (h : Reads limit state token next) :
    Reading.OpensChild ⟨state, token, next⟩ ↔ state.Nests token := by
  constructor
  · rintro ⟨name, column, hword, hsome, hopened⟩
    refine ⟨⟨name, hword⟩, ?_⟩
    cases h with
    | continued hphase hcontent hframes hgrown =>
      -- the stack is as high as it was
      have hlength := congrArg List.length hopened
      simp [hframes] at hlength
    | openedRoot hphase => exact absurd (List.cons.inj hopened).2.symm hsome
    | openedChild hframes hroom hcolumn => exact hcolumn.imp And.left And.left
    | dropped | added | settled | begun | ended | skippedIndent | cancelled | skippedLine =>
      cases hword
  · intro hnests
    obtain ⟨hsome, -, -, name, column, hword, hopened⟩ := h.of_nests hnests
    exact ⟨name, column, hword, hsome, hopened⟩

/-! ### Reading under two limits -/

/-- The limit only matters where a call is opened inside another one, and there only whether
there is room. -/
theorem feed_eq_feed
    (hroom : state.Nests token → state.frames.length < limit ∧ state.frames.length < other) :
    state.feed limit token = state.feed other token := by
  have hopen (hnests : state.Nests token) (name : String) (place : Position)
      (column : Frame → Column) :
      state.openChild limit name place column = state.openChild other name place column := by
    obtain ⟨hlimit, hother⟩ := hroom hnests
    cases hframes : state.frames with
    | nil => simp only [openChild, hframes]
    | cons top below =>
      rw [openChild_of_lt hframes hlimit, openChild_of_lt hframes hother]
  obtain ⟨word, place⟩ := token
  cases word with
  | call name =>
    cases hphase : state.phase with
    | lineStart | blockStart =>
      rw [feed_call_start (by simp [hphase]), feed_call_start (by simp [hphase])]
    | indented | blockIndented =>
      rw [feed_call_indented (by simp [hphase]), feed_call_indented (by simp [hphase]),
        hopen ⟨⟨name, rfl⟩, by simp [hphase]⟩]
    | text => rw [feed_call_text hphase, feed_call_text hphase]
    | call =>
      rw [feed_call_call hphase, feed_call_call hphase,
        hopen ⟨⟨name, rfl⟩, by simp [hphase]⟩]
  | text content => rfl
  | indent width => rfl
  | lineBreak => rfl

/-- Where calls are arguments, the token is a call and there is a call around it. -/
theorem Steady.exists_of_nests (h : state.Steady) (hnests : state.Nests token) :
    ∃ name place top below, token = ⟨.call name, place⟩ ∧ state.frames = top :: below ∧
      (state.phase = .call ∨ state.phase = .indented ∨ state.phase = .blockIndented) := by
  obtain ⟨⟨name, hword⟩, hphase⟩ := hnests
  obtain ⟨word, place⟩ := token
  obtain rfl : word = .call name := hword
  obtain ⟨top, below, hframes⟩ :=
    h.exists_frames (by rcases hphase with hphase | hphase | hphase <;> simp [hphase])
  exact ⟨name, place, top, below, rfl, hframes, hphase⟩

/-- A call can be opened inside another one as long as there is room. -/
theorem Steady.exists_feed_of_nests (h : state.Steady) (hnests : state.Nests token)
    (hroom : state.frames.length < limit) : ∃ next, state.feed limit token = .ok next := by
  obtain ⟨name, place, top, below, rfl, hframes, hphase⟩ := h.exists_of_nests hnests
  rcases hphase with hphase | hphase
  · exact ⟨_, feed_of_reads (.openedChild hframes hroom (.inl ⟨hphase, rfl⟩))⟩
  · exact ⟨_, feed_of_reads (.openedChild hframes hroom (.inr ⟨hphase, rfl⟩))⟩

/-- Without room it is nested too deep. -/
theorem Steady.feed_of_nests_of_le (h : state.Steady) (hnests : state.Nests token)
    (hfull : limit ≤ state.frames.length) :
    state.feed limit token = .error (.nestedTooDeep limit token.position) := by
  obtain ⟨name, place, top, below, rfl, hframes, hphase⟩ := h.exists_of_nests hnests
  rcases hphase with hphase | hphase
  · rw [feed_call_call hphase, openChild_of_le hframes hfull]
  · rw [feed_call_indented hphase, openChild_of_le hframes hfull]
    rfl

/-- What is read under one limit is read under another one, unless it exceeds that. -/
theorem feed_of_not_exceeds (h : state.feed other token = .ok next)
    (hfits : ¬ Reading.Exceeds limit ⟨state, token, next⟩) : state.feed limit token = .ok next := by
  have hreads := reads_of_feed h
  rw [← h]
  apply feed_eq_feed
  intro hnests
  obtain ⟨-, hroom, -⟩ := hreads.of_nests hnests
  constructor
  · by_contra hfull
    exact hfits ⟨(opensChild_iff hreads).mpr hnests, Nat.le_of_not_lt hfull⟩
  · exact hroom

/-- What exceeds a limit is nested too deep under it. -/
theorem Steady.feed_of_exceeds (h : state.Steady) (hreads : Reads other state token next)
    (hexceeds : Reading.Exceeds limit ⟨state, token, next⟩) :
    state.feed limit token = .error (.nestedTooDeep limit token.position) := by
  obtain ⟨hopens, hfull⟩ := hexceeds
  exact h.feed_of_nests_of_le ((opensChild_iff hreads).mp hopens) hfull

/-- What cannot be read although there is room cannot be read under any limit. -/
theorem Steady.feed_of_error {fault : Fault} (h : state.Steady)
    (hfault : state.feed other token = .error fault) (hroom : state.frames.length < other) :
    state.feed limit token = .error fault := by
  rw [← hfault]
  apply feed_eq_feed
  intro hnests
  obtain ⟨next, hnext⟩ := h.exists_feed_of_nests hnests hroom
  rw [hfault] at hnext
  cases hnext

/-! ### Runs under two limits -/

/-- A token opens an outermost call, with all others closed, or one more call if there is room,
or none. -/
theorem length_frames_cases (h : Reads limit state token next) :
    next.frames.length = 1 ∨
      state.frames.length < limit ∧ next.frames.length = state.frames.length + 1 ∨
      next.frames.length ≤ state.frames.length := by
  cases h with
  | continued hphase hcontent hframes hgrown => exact .inr (.inr (by simp [hframes]))
  | openedRoot hphase => exact .inl rfl
  | openedChild hframes hroom hcolumn => exact .inr (.inl ⟨hroom, by simp [hframes]⟩)
  | dropped hphase hblank => exact .inr (.inr (Nat.le_refl _))
  | added hframes hphase => exact .inr (.inr (by simp [hframes]))
  | settled hframes hphase hsettle =>
    have hsuffix := (Frame.suffix_of_settle? hsettle).length_le
    rw [List.length_map, List.length_map, ← hframes] at hsuffix
    exact .inr (.inr hsuffix)
  | begun hframes hphase hright => exact .inr (.inr (by simp [hframes]))
  | ended hphase => exact .inr (.inr (Nat.le_refl _))
  | skippedIndent hphase => exact .inr (.inr (Nat.le_refl _))
  | cancelled hframes hphase => exact .inr (.inr (by simp [hframes]))
  | skippedLine hphase => exact .inr (.inr (Nat.le_refl _))

/-- A token opens one call at most. -/
theorem length_frames_of_reads (h : Reads limit state token next) :
    next.frames.length ≤ state.frames.length + 1 := by
  rcases length_frames_cases h with hroot | ⟨-, hchild⟩ | hnone
  · omega
  · exact Nat.le_of_eq hchild
  · exact Nat.le_succ_of_le hnone

/-- As long as no reading exceeds a limit, the run is the same under it. -/
theorem Steady.run_eq_run {tokens : List Token} (h : state.Steady)
    (hroom : state.frames.length + tokens.length < other)
    (hfits : ∀ reading ∈ state.readings other tokens, ¬ reading.Exceeds limit) :
    state.run limit tokens = state.run other tokens := by
  induction tokens generalizing state with
  | nil => rfl
  | cons token rest ih =>
    rw [List.length_cons] at hroom
    cases hfeed : state.feed other token with
    | error fault =>
      rw [run_cons_of_error hfeed, run_cons_of_error (h.feed_of_error hfeed (by omega))]
    | ok next =>
      rw [readings_cons_of_ok hfeed] at hfits
      obtain ⟨hfirst, hlater⟩ := List.forall_mem_cons.mp hfits
      have hreads := reads_of_feed hfeed
      have hlength := length_frames_of_reads hreads
      rw [run_cons_of_ok hfeed, run_cons_of_ok (feed_of_not_exceeds hfeed hfirst)]
      exact ih (steady_of_reads hreads h) (by omega) hlater

/-- What is read first is the first token. -/
theorem exists_of_readings_eq_cons {tokens : List Token} {first : Reading} {later : List Reading}
    (h : state.readings limit tokens = first :: later) :
    ∃ token rest next, tokens = token :: rest ∧ state.feed limit token = .ok next ∧
      first = ⟨state, token, next⟩ ∧ next.readings limit rest = later := by
  cases tokens with
  | nil => cases h
  | cons token rest =>
    cases hfeed : state.feed limit token with
    | error fault =>
      rw [readings, hfeed] at h
      cases h
    | ok next =>
      rw [readings_cons_of_ok hfeed] at h
      obtain ⟨hfirst, hlater⟩ := List.cons.inj h
      exact ⟨token, rest, next, rfl, hfeed, hfirst.symm, hlater⟩

/-- The first reading that exceeds a limit is where the run stops under it. -/
theorem Steady.run_of_exceeds {tokens : List Token} {before after : List Reading}
    {reading : Reading} (h : state.Steady)
    (hreadings : state.readings other tokens = before ++ reading :: after)
    (hbefore : ∀ earlier ∈ before, ¬ earlier.Exceeds limit) (hexceeds : reading.Exceeds limit) :
    state.run limit tokens =
      (some (.nestedTooDeep limit reading.token.position), reading.before) := by
  induction before generalizing state tokens with
  | nil =>
    obtain ⟨token, rest, next, rfl, hfeed, rfl, -⟩ := exists_of_readings_eq_cons hreadings
    exact run_cons_of_error (h.feed_of_exceeds (reads_of_feed hfeed) hexceeds) rest
  | cons first before ih =>
    obtain ⟨token, rest, next, rfl, hfeed, rfl, hrest⟩ := exists_of_readings_eq_cons hreadings
    obtain ⟨hfirst, hearlier⟩ := List.forall_mem_cons.mp hbefore
    rw [run_cons_of_ok (feed_of_not_exceeds hfeed hfirst)]
    exact ih (steady_of_reads (reads_of_feed hfeed) h) hrest hearlier

/-! ### Levels of the forest -/

/-- A reading leaves the forest no deeper than a limit exactly when that was so before and the
reading does not exceed the limit. -/
theorem height_le_iff_of_reads (hlimit : 1 ≤ limit) (h : Reads other state token next) :
    next.height ≤ limit ↔
      state.height ≤ limit ∧ ¬ Reading.Exceeds limit ⟨state, token, next⟩ := by
  by_cases hnests : state.Nests token
  · obtain ⟨-, -, hclosed, name, column, -, hopened⟩ := h.of_nests hnests
    have hopens : Reading.OpensChild ⟨state, token, next⟩ := (opensChild_iff h).mpr hnests
    rw [height_of_opened hopened hclosed, Reading.Exceeds]
    simp only [hopens, true_and]
    omega
  · have hfits : ¬ Reading.Exceeds limit ⟨state, token, next⟩ :=
      fun hexceeds => hnests ((opensChild_iff h).mp hexceeds.1)
    have hheight : next.height = max state.height 1 ∨ next.height = state.height := by
      cases h with
      | continued hphase hcontent hframes hgrown =>
        exact .inr (height_congr hframes rfl rfl (Frame.height_of_continueText? hgrown))
      | openedRoot hphase => exact .inl (height_openRoot state _ _)
      | openedChild hframes hroom hcolumn =>
        exact absurd ⟨⟨_, rfl⟩, hcolumn.imp And.left And.left⟩ hnests
      | added hframes hphase =>
        refine .inr (height_congr hframes rfl rfl ?_)
        rw [Frame.height_push, Item.height, Frame.height]
        omega
      | @settled width place top below frames hframes hphase hsettle =>
        have hforest : forest { state with frames } = state.forest :=
          forest_settle (settle_of_settle? hframes hsettle place)
        exact .inr (height_of_forest hforest)
      | begun hframes hphase hright => exact .inr (height_congr hframes rfl rfl rfl)
      | cancelled hframes hphase => exact .inr (height_congr hframes rfl rfl rfl)
      | dropped | ended | skippedIndent | skippedLine => exact .inr rfl
    simp only [hfits, not_false_eq_true, and_true]
    omega

/-- A run leaves the forest no deeper than a limit exactly when that was so before and no
reading exceeds the limit. -/
theorem height_le_iff_of_run (hlimit : 1 ≤ limit) {tokens : List Token} {last : State}
    (h : state.run other tokens = (none, last)) :
    last.height ≤ limit ↔
      state.height ≤ limit ∧ ∀ reading ∈ state.readings other tokens, ¬ reading.Exceeds limit := by
  induction tokens generalizing state with
  | nil =>
    obtain rfl : state = last := congrArg Prod.snd h
    simp [readings]
  | cons token rest ih =>
    obtain ⟨next, hfeed, hrest⟩ := exists_feed_of_run h
    rw [ih hrest, height_le_iff_of_reads hlimit (reads_of_feed hfeed), readings_cons_of_ok hfeed,
      List.forall_mem_cons, and_assoc]

end State

/-! ### Parsing -/

/-- Of the readings in a list that do not all fit, a first one exceeds the limit. -/
theorem State.exists_first_exceeding {limit : ℕ} {readings : List State.Reading}
    (h : ¬ ∀ reading ∈ readings, ¬ reading.Exceeds limit) :
    ∃ before reading after, readings = before ++ reading :: after ∧
      (∀ earlier ∈ before, ¬ earlier.Exceeds limit) ∧ reading.Exceeds limit := by
  induction readings with
  | nil => simp at h
  | cons first later ih =>
    by_cases hfirst : first.Exceeds limit
    · exact ⟨[], first, later, rfl, by simp, hfirst⟩
    · have hlater : ¬ ∀ reading ∈ later, ¬ reading.Exceeds limit :=
        fun hall => h (List.forall_mem_cons.mpr ⟨hfirst, hall⟩)
      obtain ⟨before, reading, after, rfl, hbefore, hexceeds⟩ := ih hlater
      exact ⟨first :: before, reading, after, rfl, List.forall_mem_cons.mpr ⟨hfirst, hbefore⟩,
        hexceeds⟩

/-- A limit on how many calls may be open at once only cuts off. If without it no call is opened
inside as many others, a token list is parsed as without it. If one is, the first such call is
nested too deep, and the remarks and events are those before it. What can be parsed without the
limit can be parsed with it exactly if no outermost call nests more deeply than it allows. -/
theorem parse_cut_off {limited free : Parser} (hlimit : 1 ≤ limited.limit)
    (hfree : free.limit = Text.greatestCount) {tokens : List Token}
    (hlength : tokens.length < Text.greatestCount) :
    let readings := State.initial.readings free.limit tokens
    let fits := ∀ reading ∈ readings, ¬ reading.Exceeds limited.limit
    (fits →
      (limited.parse tokens).outcome = (free.parse tokens).outcome ∧
        (limited.parse tokens).parser.remarks = (free.parse tokens).parser.remarks ∧
        (limited.parse tokens).events = (free.parse tokens).events) ∧
    (¬ fits →
      ∃ before reading after, readings = before ++ reading :: after ∧
        (∀ earlier ∈ before, ¬ earlier.Exceeds limited.limit) ∧
        reading.Exceeds limited.limit ∧
        (limited.parse tokens).outcome =
          .error (.nestedTooDeep limited.limit reading.token.position) ∧
        (limited.parse tokens).parser.remarks = reading.before.remarks.reverse ∧
        (limited.parse tokens).events = reading.before.events.reverse) ∧
    ∀ roots, (free.parse tokens).outcome = .ok roots →
      (fits ↔ ∀ root ∈ roots, root.nesting ≤ limited.limit) := by
  intro readings fits
  refine ⟨?_, ?_, ?_⟩
  · intro hfits
    have hroom : State.initial.frames.length + tokens.length < free.limit := by
      rw [hfree]
      change 0 + tokens.length < _
      omega
    have hrun := State.steady_initial.run_eq_run hroom hfits
    simp only [Parser.parse, Parser.state_reset, hrun, and_self]
  · intro hexceeds
    obtain ⟨before, reading, after, hreadings, hbefore, hreading⟩ :=
      State.exists_first_exceeding hexceeds
    have hrun := State.steady_initial.run_of_exceeds hreadings hbefore hreading
    refine ⟨before, reading, after, hreadings, hbefore, hreading, ?_⟩
    simp only [Parser.parse, Parser.state_reset, hrun, and_self]
  · intro roots hroots
    obtain ⟨last, hrun, rfl⟩ := Parser.exists_run_of_outcome hroots
    have hheight := State.height_le_iff_of_run hlimit hrun
    have hinitial : State.initial.height ≤ limited.limit := Nat.zero_le _
    rw [State.height_le_iff] at hheight
    simp only [Call.nesting_eq_height]
    exact ⟨fun hfits => hheight.mpr ⟨hinitial, hfits⟩, fun hdeep => (hheight.mp hdeep).2⟩

/-- Of three calls on one line the third one is cut off where two may be open, and what was
remarked on before it stays. -/
theorem parse_cut_off_chain :
    let limited : Parser := { limit := 2 }
    let free : Parser := { limit := Text.greatestCount }
    let tokens : List Token := [⟨.call "$$a", ⟨1, 1⟩⟩, ⟨.text " ", ⟨1, 4⟩⟩, ⟨.call "$$b", ⟨1, 5⟩⟩,
      ⟨.call "$$c", ⟨1, 8⟩⟩, ⟨.text " ", ⟨1, 11⟩⟩]
    let root : Call := ⟨"$$a", ⟨1, 1⟩, [.call "$$b" ⟨1, 5⟩ [.call "$$c" ⟨1, 8⟩ []]]⟩
    1 ≤ limited.limit ∧ free.limit = Text.greatestCount ∧ tokens.length < Text.greatestCount ∧
      (free.parse tokens).outcome = .ok [root] ∧ ¬ root.nesting ≤ limited.limit ∧
      ∃ reading ∈ State.initial.readings free.limit tokens, reading.Exceeds limited.limit ∧
        reading.token.position = ⟨1, 8⟩ ∧
        (limited.parse tokens).outcome = .error (.nestedTooDeep 2 ⟨1, 8⟩) ∧
        (limited.parse tokens).parser.remarks = [⟨.blankArgument, ⟨1, 4⟩⟩] := by
  intro limited free tokens root
  have hlength : tokens.length < Text.greatestCount := by decide
  have hfree : (free.parse tokens).outcome = .ok [root] := rfl
  have hlimited : (limited.parse tokens).outcome = .error (.nestedTooDeep 2 ⟨1, 8⟩) := rfl
  have hroot : ¬ root.nesting ≤ limited.limit := by
    rw [Call.nesting_eq_height]
    decide
  obtain ⟨-, hcut, hdeep⟩ := @parse_cut_off limited free (by decide) rfl tokens hlength
  have hexceeds : ¬ ∀ reading ∈ State.initial.readings free.limit tokens,
      ¬ reading.Exceeds limited.limit := by
    intro hfits
    exact hroot ((hdeep [root] hfree).mp hfits root List.mem_cons_self)
  obtain ⟨before, reading, after, hreadings, -, hreading, houtcome, -⟩ := hcut hexceeds
  have hposition : reading.token.position = ⟨1, 8⟩ := by
    rw [hlimited] at houtcome
    exact ((Fault.nestedTooDeep.inj (Except.error.inj houtcome)).2).symm
  refine ⟨by decide, rfl, hlength, hfree, hroot, reading, ?_, hreading, hposition, hlimited, rfl⟩
  rw [hreadings]
  exact List.mem_append_right before List.mem_cons_self

end Offside
