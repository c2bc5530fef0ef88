import Offside.Proofs.Layout.Offers

/-!
# What a token can be rejected for

What reading a token does is listed in `Reads`. Here the ways in which a token cannot be read
are listed too, each with its fault, which points to the token. Which fault it is depends on the
kind of the token and on where in a line the reader is.
-/

namespace Offside.State

variable {limit : ℕ} {state next last : State} {token : Token} {fault : Fault}

/-- At the start of a line. -/
def StartsLine (state : State) : Prop :=
  state.phase = .lineStart ∨ state.phase = .blockStart

/-- A state, a token that cannot be read in it, and the fault. -/
inductive Rejects (limit : ℕ) (state : State) : Token → Fault → Prop where
  /-- A call inside another one, when as many calls are open as allowed. -/
  | crowded {name : String} {place : Position}
      (hphase : state.phase = .call ∨ state.phase = .indented ∨ state.phase = .blockIndented)
      (hfull : limit ≤ state.frames.length) :
      Rejects limit state ⟨.call name, place⟩ (.nestedTooDeep limit place)
  /-- Text at the start of a line. -/
  | unindented {content : String} {place : Position} (hphase : state.StartsLine) :
      Rejects limit state ⟨.text content, place⟩ (.unindentedText place)
  /-- An indent that leads to no block. -/
  | unmatched {width : ℕ} {place : Position} (hphase : state.StartsLine) :
      Rejects limit state ⟨.indent width, place⟩ (.unmatchedIndent width place)
  /-- An indent behind text. -/
  | behindText {width : ℕ} {place : Position} (hphase : state.phase = .text) :
      Rejects limit state ⟨.indent width, place⟩ (.indentAfterText place)
  /-- An indent behind a call. -/
  | behindCall {width : ℕ} {place : Position} (hphase : state.phase = .call) :
      Rejects limit state ⟨.indent width, place⟩ (.indentAfterCall place)
  /-- An indent behind another one. -/
  | repeated {width : ℕ} {place : Position}
      (hphase : state.phase = .indented ∨ state.phase = .blockIndented) :
      Rejects limit state ⟨.indent width, place⟩ (.repeatedIndent place)

/-! ### The operations, when they fail -/

/-- The only reason why a call does not open inside another one is that too many are open. -/
theorem openChild_eq_error {name : String} {place : Position} {column : Frame → Column}
    (hframes : state.frames ≠ []) (h : state.openChild limit name place column = .error fault) :
    limit ≤ state.frames.length ∧ fault = .nestedTooDeep limit place := by
  obtain ⟨top, below, hcons⟩ := List.exists_cons_of_ne_nil hframes
  rcases Nat.lt_or_ge state.frames.length limit with hroom | hfull
  · rw [openChild_of_lt hcons hroom] at h
    cases h
  · rw [openChild_of_le hcons hfull] at h
    exact ⟨hfull, (Except.error.inj h).symm⟩

/-- Calls cannot be closed for an indent only if none of them has its block there. -/
theorem settle_eq_error {width : ℕ} {place : Position}
    (h : state.settle width place = .error fault) : fault = .unmatchedIndent width place := by
  unfold settle at h
  split at h
  · exact (Except.error.inj h).symm
  · split at h
    · cases h
    · exact (Except.error.inj h).symm

/-- An open call takes any argument. -/
theorem addArgument_ne_error {place : Position} (hframes : state.frames ≠ []) (item : Item) :
    state.addArgument place item ≠ .error fault := by
  obtain ⟨top, below, hcons⟩ := List.exists_cons_of_ne_nil hframes
  rw [addArgument_of_frames hcons]
  exact nofun

/-- Behind text there is a text to continue. -/
theorem Steady.continueText_ne_error {place : Position} (h : state.Steady)
    (hphase : state.phase = .text) (content : String) :
    state.continueText place content ≠ .error fault := by
  obtain ⟨top, below, start, earlier, hframes, harguments⟩ := h.ends_in_text hphase
  simp [continueText, hframes, Frame.continueText?, harguments]

/-! ### Every rejection is listed -/

variable {place : Position}

/-- A call is rejected only where there is no room for it inside the others. -/
theorem Steady.rejects_call {name : String} (h : state.Steady)
    (hfault : state.feed limit ⟨.call name, place⟩ = .error fault) :
    Rejects limit state ⟨.call name, place⟩ fault := by
  cases hphase : state.phase with
  | lineStart | blockStart =>
    rw [feed_call_start (by simp [hphase])] at hfault
    cases hfault
  | indented | blockIndented =>
    rw [feed_call_indented (by simp [hphase])] at hfault
    obtain ⟨hfull, rfl⟩ :=
      openChild_eq_error (h.frames_ne_nil (by simp [hphase])) (map_eq_error hfault)
    exact .crowded (by simp [hphase]) hfull
  | text =>
    rw [feed_call_text hphase] at hfault
    exact absurd hfault (h.continueText_ne_error hphase name)
  | call =>
    rw [feed_call_call hphase] at hfault
    obtain ⟨hfull, rfl⟩ := openChild_eq_error (h.frames_ne_nil (by simp [hphase])) hfault
    exact .crowded (by simp [hphase]) hfull

/-- A text is rejected only at the start of a line. -/
theorem Steady.rejects_text {content : String} (h : state.Steady)
    (hfault : state.feed limit ⟨.text content, place⟩ = .error fault) :
    Rejects limit state ⟨.text content, place⟩ fault := by
  cases hphase : state.phase with
  | lineStart | blockStart =>
    rw [feed_text_start (by simp [hphase])] at hfault
    obtain rfl := Except.error.inj hfault
    exact .unindented (by simp [StartsLine, hphase])
  | indented | blockIndented =>
    rw [feed_text_indented (by simp [hphase])] at hfault
    exact absurd (map_eq_error hfault)
      (addArgument_ne_error (h.frames_ne_nil (by simp [hphase])) _)
  | text =>
    rw [feed_text_text hphase] at hfault
    exact absurd hfault (h.continueText_ne_error hphase content)
  | call =>
    rw [feed_text_call hphase] at hfault
    split at hfault
    · cases hfault
    · exact absurd hfault (addArgument_ne_error (h.frames_ne_nil (by simp [hphase])) _)

/-- An indent is rejected inside a line, and at the start of one if it leads to no block. -/
theorem Steady.rejects_indent {width : ℕ} (h : state.Steady)
    (hfault : state.feed limit ⟨.indent width, place⟩ = .error fault) :
    Rejects limit state ⟨.indent width, place⟩ fault := by
  cases hphase : state.phase with
  | lineStart =>
    rw [feed_indent_lineStart hphase] at hfault
    obtain rfl := settle_eq_error (map_eq_error hfault)
    exact .unmatched (.inl hphase)
  | blockStart =>
    obtain ⟨top, below, hframes⟩ := h.exists_frames (by simp [hphase])
    rw [feed_indent_blockStart hphase hframes] at hfault
    split at hfault
    · cases hfault
    · obtain rfl := settle_eq_error (map_eq_error hfault)
      exact .unmatched (.inr hphase)
  | indented | blockIndented =>
    simp only [feed, offer, offerIndent, hphase] at hfault
    obtain rfl := Except.error.inj hfault
    exact .repeated (by simp [hphase])
  | text =>
    simp only [feed, offer, offerIndent, hphase] at hfault
    obtain rfl := Except.error.inj hfault
    exact .behindText hphase
  | call =>
    simp only [feed, offer, offerIndent, hphase] at hfault
    obtain rfl := Except.error.inj hfault
    exact .behindCall hphase

/-- A line may end anywhere. -/
theorem Steady.feed_lineBreak_ne_error (h : state.Steady) :
    state.feed limit ⟨.lineBreak, place⟩ ≠ .error fault := by
  cases hphase : state.phase with
  | lineStart | blockStart =>
    rw [feed_break_start (by simp [hphase])]
    exact nofun
  | indented =>
    rw [feed_break_indented hphase]
    exact nofun
  | blockIndented =>
    obtain ⟨top, below, hframes⟩ := h.exists_frames (by simp [hphase])
    rw [feed_break_blockIndented hphase hframes]
    exact nofun
  | text =>
    rw [feed_break_text hphase]
    exact nofun
  | call =>
    rw [feed_break_call hphase]
    exact nofun

/-- Whatever token cannot be read in a steady state is rejected in one of the listed ways. -/
theorem Steady.rejects_of_feed (h : state.Steady)
    (hfault : state.feed limit token = .error fault) : Rejects limit state token fault := by
  obtain ⟨word, place⟩ := token
  cases word with
  | call name => exact h.rejects_call hfault
  | text content => exact h.rejects_text hfault
  | indent width => exact h.rejects_indent hfault
  | lineBreak => exact absurd hfault h.feed_lineBreak_ne_error

/-! ### Where a run ends -/

/-- A run that fails has read some tokens and cannot read the next one. -/
theorem exists_feed_of_run_error {tokens : List Token}
    (h : state.run limit tokens = (some fault, last)) :
    ∃ read token rest, tokens = read ++ token :: rest ∧ state.run limit read = (none, last) ∧
      last.feed limit token = .error fault := by
  induction tokens generalizing state with
  | nil => cases h
  | cons token rest ih =>
    cases hfeed : state.feed limit token with
    | error first =>
      rw [run_cons_of_error hfeed] at h
      cases h
      exact ⟨[], token, rest, rfl, rfl, hfeed⟩
    | ok next =>
      rw [run_cons_of_ok hfeed] at h
      obtain ⟨read, failing, later, rfl, hread, hfailing⟩ := ih h
      exact ⟨token :: read, failing, later, rfl, by rw [run_cons_of_ok hfeed, hread], hfailing⟩

/-- The reader is at the start of a line behind a break, and only there. -/
theorem startsLine_iff_of_reads (h : Reads limit state token next) :
    next.StartsLine ↔ token.word = .lineBreak := by
  cases h with
  | @continued token content _ _ _ hphase hcontent hframes hgrown =>
    rcases Word.eq_of_content? hcontent with hword | hword <;> simp [StartsLine, hphase, hword]
  | added hframes hphase =>
    rcases hphase with ⟨-, rfl, -⟩ | ⟨-, rfl⟩ <;> simp [StartsLine]
  | dropped hphase hblank => simp [StartsLine, report, hphase]
  | openedRoot | openedChild | settled | begun => simp [StartsLine, goto]
  | ended hphase => rcases hphase with ⟨-, rfl⟩ | ⟨-, rfl⟩ <;> simp [StartsLine, goto]
  | skippedIndent | cancelled => simp [StartsLine, goto]
  | skippedLine hphase => rcases hphase with hphase | hphase <;> simp [StartsLine, report, hphase]

/-- Behind tokens that break no line the reader is not at the start of one. -/
theorem not_startsLine_of_run {tokens : List Token} (hsome : tokens ≠ [])
    (hwords : ∀ token ∈ tokens, token.word ≠ .lineBreak)
    (h : state.run limit tokens = (none, last)) : ¬ last.StartsLine := by
  obtain ⟨front, token, rfl⟩ := (List.eq_nil_or_concat' tokens).resolve_left hsome
  obtain ⟨between, -, htoken⟩ := exists_run_of_append h
  obtain ⟨next, hfeed, hnext⟩ := exists_feed_of_run htoken
  obtain rfl : next = last := congrArg Prod.snd hnext
  rw [startsLine_iff_of_reads (reads_of_feed hfeed)]
  exact hwords token (List.mem_append_right front (List.mem_singleton_self token))

end Offside.State
