import Offside.Proofs.Token.Pieces
import Offside.Proofs.Token.StrayReturn
import Offside.Token.Grammar

/-!
# What the rules match

Three of the rules repeat a test of the characters ahead, so each matches the longest run that
passes its test. At the front of a line, with a line end or nothing behind it, an indent matches
all blanks, a call goes on to the next blank and a text to the next interruption. No rule but
the one for breaks matches across the end of a line: indents and texts exclude it, and to a
call it is a blank.
-/

namespace Offside

/-! ### Runs of a test -/

/-- How many characters in turn pass a test of the text that begins with them. -/
def runLength (test : List Char → Bool) : List Char → Nat
  | [] => 0
  | c :: rest => if test (c :: rest) then runLength test rest + 1 else 0

/-- Whether a character with the given property stands at the front. -/
def headIs (p : Char → Bool) : List Char → Bool
  | [] => false
  | c :: _ => p c

/-- A run of characters with a property goes on to the first one without it, if the test tells
these apart and fails behind them. -/
theorem runLength_append {p : Char → Bool} {test : List Char → Bool}
    {content behind : List Char}
    (hpass : ∀ c ∈ content, p c = true → ∀ rest, test (c :: rest) = true)
    (hstop : ∀ c, p c = false → ∀ rest, test (c :: rest) = false)
    (hbehind : test behind = false) :
    runLength test (content ++ behind) = (content.takeWhile p).length := by
  induction content with
  | nil =>
    cases behind with
    | nil => rfl
    | cons c rest => exact if_neg (by simp [hbehind])
  | cons c content ih =>
    rw [List.cons_append, runLength]
    cases hc : p c with
    | true =>
      rw [if_pos (hpass c List.mem_cons_self hc _), List.takeWhile_cons_of_pos hc,
        List.length_cons, ih fun d hd => hpass d (List.mem_cons_of_mem c hd)]
    | false =>
      rw [hstop c hc, List.takeWhile_cons_of_neg (by simp [hc])]
      rfl

namespace Pattern

variable {sigil : Char} {pattern : Pattern} {test : List Char → Bool}

/-- A pattern takes up one character where a test passes, and fails where it does not. -/
def Tests (sigil : Char) (pattern : Pattern) (test : List Char → Bool) : Prop :=
  ∀ chars, pattern.length? sigil chars = if test chars then some 1 else none

/-- A first character is a test of that character. -/
theorem tests_one (allowed : Char → Bool) : (one allowed).Tests sigil (headIs allowed) := by
  intro chars
  cases chars <;> rfl

/-- A test is matched where it passes. -/
theorem Tests.isSome (h : pattern.Tests sigil test) (chars : List Char) :
    (pattern.length? sigil chars).isSome = test chars := by
  rw [h chars]
  cases test chars <;> rfl

/-- Looking ahead for something else makes a test stricter. -/
theorem Tests.absent_seq (h : pattern.Tests sigil test) {ahead : Pattern}
    {found : List Char → Bool}
    (hahead : ∀ chars, (ahead.length? sigil chars).isSome = found chars) :
    (seq (absent ahead) pattern).Tests sigil fun chars => !found chars && test chars := by
  intro chars
  have hseq : (seq (absent ahead) pattern).length? sigil chars =
      if (ahead.length? sigil chars).isSome then none else pattern.length? sigil chars := by
    simp only [length?]
    cases ahead.length? sigil chars with
    | none => simp
    | some length => simp
  rw [hseq, hahead, h chars]
  cases hfound : found chars <;> simp [hfound]

/-- Matching a test again passes the whole run. -/
theorem Tests.passAgain (h : pattern.Tests sigil test) (passed : Nat) (chars : List Char) :
    passAgain (pattern.length? sigil) passed chars = passed + runLength test chars := by
  induction chars generalizing passed with
  | nil => simp [Pattern.passAgain, runLength]
  | cons c rest ih =>
    rw [Pattern.passAgain, h (c :: rest), runLength]
    cases test (c :: rest) with
    | true =>
      simp only [if_true, ih, List.drop_zero]
      omega
    | false => simp

/-- A repeated test matches the longest run, which may not be empty. -/
theorem Tests.length?_repeated (h : pattern.Tests sigil test) (chars : List Char)
    (hnil : test [] = false) :
    pattern.repeated.length? sigil chars =
      if runLength test chars = 0 then none else some (runLength test chars) := by
  unfold length?
  rw [h chars]
  cases chars with
  | nil => simp [hnil, runLength]
  | cons c rest =>
    rw [runLength]
    cases test (c :: rest) with
    | true =>
      simp only [if_true, h.passAgain, List.drop_succ_cons, List.drop_zero]
      rw [if_neg (by omega), Nat.add_comm]
    | false => simp

/-- The second of two alternatives is what is left where the first one fails. -/
theorem length?_alt (first second : Pattern) (chars : List Char) :
    (alt first second).length? sigil chars =
      (first.length? sigil chars).or (second.length? sigil chars) := by
  simp only [length?]
  cases first.length? sigil chars <;> rfl

/-- Behind a first character the next pattern goes on. -/
theorem length?_one_seq (allowed : Char → Bool) (second : Pattern) (c : Char) (rest : List Char) :
    (seq (one allowed) second).length? sigil (c :: rest) =
      if allowed c then (second.length? sigil rest).map (1 + ·) else none := by
  simp only [length?, first?]
  cases allowed c <;> rfl

/-- Behind a sigil the next pattern goes on. -/
theorem length?_sigil_seq (second : Pattern) (c : Char) (rest : List Char) :
    (seq .sigil second).length? sigil (c :: rest) =
      if c == sigil then (second.length? sigil rest).map (1 + ·) else none :=
  length?_one_seq (· == sigil) second c rest

end Pattern

/-! ### The tests of the rules -/

/-- Whether a line end stands at the front. -/
def atLineEnd : List Char → Bool :=
  headIs fun c => c == '\r' || c == '\n'

/-- Nothing but a line end stands behind a line. -/
def EndsLine (behind : List Char) : Prop :=
  ∀ c ∈ behind.head?, c = '\r' ∨ c = '\n'

/-- A character that ends no line is no line end. -/
theorem atLineEnd_cons {c : Char} (hreturn : c ≠ '\r') (hfeed : c ≠ '\n') (rest : List Char) :
    atLineEnd (c :: rest) = false := by
  simp [atLineEnd, headIs, hreturn, hfeed]

/-- With a break behind it a line ends. -/
theorem endsLine_break (kind : LineBreak) (rest : List Char) : EndsLine (kind.chars ++ rest) := by
  intro c hc
  cases kind with
  | feed => exact .inr (Option.some.inj hc).symm
  | returnFeed => exact .inl (Option.some.inj hc).symm

/-- A line end is blank. -/
theorem EndsLine.isBlank {behind : List Char} (h : EndsLine behind) :
    ∀ c ∈ behind.head?, Text.isBlank c = true := by
  intro c hc
  rcases h c hc with rfl | rfl <;> decide

/-- What stands behind a line is a line end or nothing. -/
theorem EndsLine.eq_nil_or {behind : List Char} (h : EndsLine behind) :
    behind = [] ∨ atLineEnd behind = true := by
  cases behind with
  | nil => exact .inl rfl
  | cons c rest =>
    right
    rcases h c rfl with rfl | rfl <;> rfl

namespace Rule

variable {sigil : Char}

/-- A line end is found where one stands. -/
theorem isSome_lineEnd (chars : List Char) :
    (lineEnd.length? sigil chars).isSome = atLineEnd chars := by
  rw [lineEnd, Pattern.length?_alt, Option.isSome_or, Pattern.char, (Pattern.tests_one _).isSome,
    Pattern.char, (Pattern.tests_one _).isSome]
  cases chars <;> rfl

/-- An interruption is found where one begins. -/
theorem isSome_interruption (chars : List Char) :
    ((Pattern.seq .sigil (.seq .sigil nameStart)).length? sigil chars).isSome =
      interruptsText sigil chars := by
  match chars with
  | [] => rfl
  | [a] =>
    rw [Pattern.length?_sigil_seq]
    split <;> rfl
  | [a, b] =>
    rw [Pattern.length?_sigil_seq, Pattern.length?_sigil_seq]
    cases a == sigil <;> cases b == sigil <;> rfl
  | a :: b :: c :: rest =>
    have hname : (nameStart.length? sigil (c :: rest)).isSome = isNameStart c := by
      rw [nameStart, Pattern.length?_alt, Option.isSome_or, (Pattern.tests_one _).isSome,
        Pattern.char, (Pattern.tests_one _).isSome]
      rfl
    rw [Pattern.length?_sigil_seq, Pattern.length?_sigil_seq, interruptsText, ← hname]
    cases a == sigil <;> cases b == sigil <;> simp

/-! ### What is matched on a line -/

/-- An indent is repeated over blanks that end no line. -/
theorem tests_indent :
    (Pattern.seq (.absent lineEnd) (.one Text.isBlank)).Tests sigil fun chars =>
      !atLineEnd chars && headIs Text.isBlank chars :=
  (Pattern.tests_one _).absent_seq isSome_lineEnd

/-- A call is repeated over characters that are not blank. -/
theorem tests_call :
    (Pattern.seq (.absent (.one Text.isBlank)) .any).Tests sigil fun chars =>
      !headIs Text.isBlank chars && headIs (fun _ => true) chars :=
  (Pattern.tests_one _).absent_seq (Pattern.tests_one _).isSome

/-- A text is repeated over characters where neither an interruption begins nor a line ends. -/
theorem tests_text :
    (Pattern.seq (.absent (.seq .sigil (.seq .sigil nameStart)))
      (.seq (.absent lineEnd) .any)).Tests sigil fun chars =>
        !interruptsText sigil chars && (!atLineEnd chars && headIs (fun _ => true) chars) :=
  ((Pattern.tests_one _).absent_seq isSome_lineEnd).absent_seq isSome_interruption

variable {behind : List Char}

/-- An indent matches all blanks at the front of a line. -/
theorem length?_indent {content : List Char} (hfeed : '\n' ∉ content) (hreturn : '\r' ∉ content)
    (hbehind : EndsLine behind) :
    Rule.indent.pattern.length? sigil (content ++ behind) =
      if content.takeWhile Text.isBlank = [] then none
      else some (content.takeWhile Text.isBlank).length := by
  have hrun : runLength (fun chars => !atLineEnd chars && headIs Text.isBlank chars)
      (content ++ behind) = (content.takeWhile Text.isBlank).length := by
    apply runLength_append
    · intro c hc hblank rest
      have hend : atLineEnd (c :: rest) = false := by
        apply atLineEnd_cons
        · rintro rfl
          exact hreturn hc
        · rintro rfl
          exact hfeed hc
      simp [hend, headIs, hblank]
    · intro c hc rest
      simp [headIs, hc]
    · rcases hbehind.eq_nil_or with rfl | hend
      · rfl
      · simp [hend]
  rw [pattern, tests_indent.length?_repeated _ rfl, hrun]
  simp only [List.length_eq_zero_iff]

/-- A call matches to the next blank, which the end of a line is as well. -/
theorem length?_call {c : Char} {rest : List Char} (hopens : opensCall sigil (c :: rest) = true)
    (hsigil : Text.isBlank sigil = false) (hbehind : EndsLine behind) :
    Rule.call.pattern.length? sigil (c :: rest ++ behind) =
      some (c :: rest.takeWhile fun d => !Text.isBlank d).length := by
  -- the name is what follows the two sigils, and its first character is not blank
  obtain ⟨third, others, hchars, hthird⟩ := exists_of_opensCall hopens
  obtain ⟨rfl, rfl⟩ := List.cons.inj hchars
  have hrun : runLength (fun chars => !headIs Text.isBlank chars && headIs (fun _ => true) chars)
      (third :: others ++ behind) =
        ((third :: others).takeWhile fun d => !Text.isBlank d).length := by
    apply runLength_append
    · intro d _ hd rest
      simpa [headIs] using hd
    · intro d hd rest
      simpa [headIs] using hd
    · cases behind with
      | nil => rfl
      | cons d rest => simp [headIs, hbehind.isBlank d rfl]
  rw [pattern, List.cons_append, List.cons_append, Pattern.length?_sigil_seq,
    Pattern.length?_sigil_seq, tests_call.length?_repeated _ rfl, hrun]
  simp [hsigil, hthird]
  omega

/-- No call is matched where none begins. -/
theorem length?_call_eq_none {chars : List Char} (h : opensCall sigil chars = false) :
    Rule.call.pattern.length? sigil chars = none := by
  match chars with
  | [] => rfl
  | [a] =>
    rw [pattern, Pattern.length?_sigil_seq]
    cases a == sigil <;> rfl
  | [a, b] =>
    rw [pattern, Pattern.length?_sigil_seq, Pattern.length?_sigil_seq,
      tests_call.length?_repeated _ rfl]
    cases a == sigil <;> cases b == sigil <;> rfl
  | a :: b :: c :: rest =>
    rw [pattern, Pattern.length?_sigil_seq, Pattern.length?_sigil_seq,
      tests_call.length?_repeated _ rfl, runLength]
    simp only [opensCall, Bool.and_eq_false_iff] at h
    rcases h with (h | h) | h
    · simp [h]
    · simp [h]
    · simp only [Bool.not_eq_false'] at h
      simp [h, headIs]

/-- A text goes on to the next interruption, or to the end of its line. -/
theorem runLength_text (hsigil : Text.isBlank sigil = false) (hbehind : EndsLine behind)
    {content : List Char} (hfeed : '\n' ∉ content) (hreturn : '\r' ∉ content)
    (taken : List Char) :
    (takeText sigil taken content).1.length = taken.length +
      runLength (fun chars =>
        !interruptsText sigil chars && (!atLineEnd chars && headIs (fun _ => true) chars))
          (content ++ behind) := by
  induction content generalizing taken with
  | nil =>
    rcases hbehind.eq_nil_or with rfl | hend
    · simp [takeText, runLength]
    · cases behind with
      | nil => simp [takeText, runLength]
      | cons c rest => simp [takeText, runLength, hend]
  | cons c rest ih =>
    have hend : atLineEnd (c :: (rest ++ behind)) = false := by
      apply atLineEnd_cons
      · rintro rfl
        exact hreturn List.mem_cons_self
      · rintro rfl
        exact hfeed List.mem_cons_self
    have hrest := ih (fun hmem => hfeed (List.mem_cons_of_mem c hmem))
      (fun hmem => hreturn (List.mem_cons_of_mem c hmem)) (c :: taken)
    have hstop := interruptsText_append hsigil hbehind.isBlank (c :: rest)
    rw [List.cons_append] at hstop
    rw [takeText, List.cons_append, runLength, hstop]
    cases interruptsText sigil (c :: rest) with
    | true => simp
    | false =>
      simp only [hend, headIs, Bool.false_eq_true, if_false, Bool.not_false, Bool.and_self,
        if_true, hrest, List.length_cons]
      omega

/-- Whatever does not begin a call on a line begins a text. The first character passes the test,
since two sigils that could interrupt a text would begin a call. -/
theorem length?_text {c : Char} {rest : List Char} (hcloses : opensCall sigil (c :: rest) = false)
    (hsigil : Text.isBlank sigil = false) (hfeed : '\n' ∉ c :: rest)
    (hreturn : '\r' ∉ c :: rest) (hbehind : EndsLine behind) :
    Rule.text.pattern.length? sigil (c :: rest ++ behind) =
      some (takeText sigil [c] rest).1.length := by
  have hgoes : interruptsText sigil (c :: rest) = false := by
    rw [Bool.eq_false_iff]
    intro h
    rw [opensCall_of_interruptsText h] at hcloses
    cases hcloses
  have hrun := runLength_text hsigil hbehind hfeed hreturn []
  rw [takeText, hgoes, if_neg Bool.false_ne_true, List.length_nil, Nat.zero_add] at hrun
  have hpos : 0 < (takeText sigil [c] rest).1.length :=
    List.length_pos_iff.mpr (takeText_fst_ne_nil sigil c rest)
  rw [pattern, tests_text.length?_repeated _ rfl, ← hrun, if_neg (by omega)]

/-- No text is matched at the end of a line. -/
theorem length?_text_eq_none (hbehind : EndsLine behind) :
    Rule.text.pattern.length? sigil behind = none := by
  rw [pattern, tests_text.length?_repeated _ rfl]
  rcases hbehind.eq_nil_or with rfl | hend
  · rfl
  · cases behind with
    | nil => rfl
    | cons c rest => simp [runLength, hend]

/-- A line break is matched whichever it is. -/
theorem length?_lineBreak (kind : LineBreak) (rest : List Char) :
    Rule.lineBreak.pattern.length? sigil (kind.chars ++ rest) = some kind.chars.length := by
  cases kind <;> rfl

/-- A return without its feed is no line break. -/
theorem length?_lineBreak_eq_none (h : behind = [] ∨ IsStrayReturn behind 0) :
    Rule.lineBreak.pattern.length? sigil behind = none := by
  rcases h with rfl | ⟨hreturn, hfeed⟩
  · rfl
  · match behind with
    | [c] =>
      obtain rfl : c = '\r' := by simpa using hreturn
      rfl
    | c :: d :: rest =>
      obtain rfl : c = '\r' := by simpa using hreturn
      have hd : (d == '\n') = false := by simpa using hfeed
      rw [pattern, Pattern.length?_alt, Pattern.char, Pattern.length?_one_seq, Pattern.char,
        Pattern.tests_one, headIs, hd]
      rfl

end Rule

end Offside
