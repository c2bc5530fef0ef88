import Mathlib.Data.List.Chain
import Offside.Proofs.Token.LineShape
import Offside.Proofs.Token.Tiling

/-!
# Calls and texts in turn

Behind the indent of a line calls and texts take turns. A call goes on to the next blank. A text
goes on to the end of the line or to the first two sigils with the start of a name behind them.
There is only one way to cut a text like this, so these rules say what the tokens of a text are.
-/

namespace Offside

/-! ### The rules -/

/-- Two sigils and a character that is not blank stand at the front. -/
def BeginsCall (sigil : Char) (chars : List Char) : Prop :=
  ∃ c rest, chars = sigil :: sigil :: c :: rest ∧ Text.isBlank c = false

/-- Two sigils and an ASCII letter, a digit or an underscore stand at the front. -/
def Interrupts (sigil : Char) (chars : List Char) : Prop :=
  ∃ c rest, chars = sigil :: sigil :: c :: rest ∧ isNameStart c = true

/-- A blank stands at the front, or nothing does. -/
def BeginsBlank (chars : List Char) : Prop :=
  ∀ c ∈ chars.head?, Text.isBlank c = true

namespace Piece

/-- A piece ends where it has to, if the given pieces of its line are behind it and the given
characters are behind the line. -/
def EndsRight (sigil : Char) (behind : List Char) (later : List Piece) : Piece → Prop
  -- two sigils and the longest run of characters that are not blank, one at least
  | .call name => ∃ run, run ≠ [] ∧ name = sigil :: sigil :: run ∧
      (∀ c ∈ run, Text.isBlank c = false) ∧ BeginsBlank (later.flatMap chars ++ behind)
  -- no interruption inside, and the end of the line or an interruption behind
  | .text content => content ≠ [] ∧
      (∀ i < content.length,
        ¬ Interrupts sigil (content.drop i ++ later.flatMap chars ++ behind)) ∧
      (later = [] ∨ Interrupts sigil (later.flatMap chars ++ behind))
  | .indent _ => False
  | .lineBreak _ => False

/-- A text behind a call begins with a blank. A call behind a text begins as an interruption
does. Nothing else stands behind a call or a text in its line. -/
def Follows (sigil : Char) : Piece → Piece → Prop
  | .call _, .text content => ∃ c rest, content = c :: rest ∧ Text.isBlank c = true
  | .text _, .call name => Interrupts sigil name
  | _, _ => False

end Piece

/-- The calls and texts of a line behind its indent, cut as they have to be. -/
structure WellCut (sigil : Char) (behind content : List Char) (body : List Piece) : Prop where
  /-- The pieces spell what stands behind the indent. -/
  spells : body.flatMap Piece.chars = content
  /-- The first of them is a call exactly when a call begins there. -/
  begins : (∃ name later, body = .call name :: later) ↔ BeginsCall sigil content
  /-- Calls and texts take turns. -/
  in_turn : body.IsChain (Piece.Follows sigil)
  /-- Each of them ends where it has to. -/
  ends_right : ∀ front piece later, body = front ++ piece :: later →
    piece.EndsRight sigil behind later

/-- The pieces of lines, each line cut as it has to be: an indent that covers all blanks at the
start of the line, if there are any, the calls and texts behind it, and the break if there is
one. -/
inductive WellCutLines (sigil : Char) : List Line → List Piece → Prop where
  | nil : WellCutLines sigil [] []
  | cons {line : Line} {later : List Line} {body pieces : List Piece}
      (hbody : WellCut sigil (line.ending.elim [] LineBreak.chars ++ later.flatMap Line.chars)
        (line.content.dropWhile Text.isBlank) body)
      (hlater : WellCutLines sigil later pieces) :
      WellCutLines sigil (line :: later)
        ((if line.content.takeWhile Text.isBlank = [] then []
          else [.indent (line.content.takeWhile Text.isBlank)]) ++ body ++
        (line.ending.elim [] fun kind => [.lineBreak kind]) ++ pieces)

/-- Tokens of a text that is cut as it has to be, each where its stretch of the text begins. -/
def WellTokenized (sigil : Char) (chars : List Char) (tokens : List Token) : Prop :=
  ∃ pieces, WellCutLines sigil (Line.ofChars chars) pieces ∧
    tokens.map Token.word = pieces.map Piece.word ∧
    ∀ k (hk : k < tokens.length),
      tokens[k].position = .behind ((pieces.take k).flatMap Piece.chars)

variable {sigil : Char} {behind content : List Char} {piece : Piece} {body later : List Piece}

/-! ### Where calls begin -/

/-- The test for a call passes where one can begin. -/
theorem beginsCall_iff {chars : List Char} :
    BeginsCall sigil chars ↔ opensCall sigil chars = true := by
  constructor
  · rintro ⟨c, rest, rfl, hc⟩
    simp [opensCall, hc]
  · exact exists_of_opensCall

/-- The test for an interruption passes where a text has to end. -/
theorem interrupts_iff {chars : List Char} :
    Interrupts sigil chars ↔ interruptsText sigil chars = true := by
  constructor
  · rintro ⟨c, rest, rfl, hc⟩
    simp [interruptsText, hc]
  · intro h
    obtain _ | ⟨first, _ | ⟨second, _ | ⟨c, rest⟩⟩⟩ := chars
    · cases h
    · cases h
    · cases h
    · simp only [interruptsText, Bool.and_eq_true, beq_iff_eq] at h
      obtain ⟨⟨rfl, rfl⟩, hc⟩ := h
      exact ⟨c, rest, rfl, hc⟩

/-- Whatever interrupts a text begins a call. -/
theorem Interrupts.beginsCall {chars : List Char} (h : Interrupts sigil chars) :
    BeginsCall sigil chars := by
  obtain ⟨c, rest, hchars, hc⟩ := h
  exact ⟨c, rest, hchars, not_isBlank_of_isNameStart hc⟩

/-- Behind a blank no call begins. -/
theorem not_beginsCall_of_blank (hsigil : Text.isBlank sigil = false) {c : Char}
    (hc : Text.isBlank c = true) (rest : List Char) : ¬ BeginsCall sigil (c :: rest) := by
  rintro ⟨_, _, heq, -⟩
  rw [(List.cons.inj heq).1, hsigil] at hc
  cases hc

/-- An interruption does not reach over the end of its line. -/
theorem interrupts_append_iff (hsigil : Text.isBlank sigil = false) (hbehind : BeginsBlank behind)
    (chars : List Char) : Interrupts sigil (chars ++ behind) ↔ Interrupts sigil chars := by
  rw [interrupts_iff, interrupts_iff, interruptsText_append hsigil hbehind]

/-! ### Where texts end -/

/-- A text that is taken is not interrupted inside, and ends at an interruption or where nothing
is left. -/
theorem takeText_ends (sigil : Char) (taken chars : List Char) :
    ∃ more, (takeText sigil taken chars).1 = taken.reverse ++ more ∧
      chars = more ++ (takeText sigil taken chars).2 ∧
      (∀ i < more.length, ¬ Interrupts sigil (chars.drop i)) ∧
      ((takeText sigil taken chars).2 = [] ∨ Interrupts sigil (takeText sigil taken chars).2) := by
  induction chars generalizing taken with
  | nil => exact ⟨[], by simp [takeText], by simp [takeText], by simp, .inl rfl⟩
  | cons c rest ih =>
    unfold takeText
    split
    · next hstop =>
      exact ⟨[], by simp, rfl, by simp, .inr (interrupts_iff.mpr hstop)⟩
    · next hgo =>
      obtain ⟨more, hfirst, hrest, hinside, hend⟩ := ih (c :: taken)
      refine ⟨c :: more, by simp [hfirst], by rw [List.cons_append, ← hrest], ?_, hend⟩
      intro i hi
      cases i with
      | zero => exact fun h => hgo (interrupts_iff.mp h)
      | succ i => exact hinside i (Nat.lt_of_succ_lt_succ hi)

/-- Text is taken up to the first interruption. -/
theorem takeText_append_of_ends {more rest : List Char}
    (hinside : ∀ i < more.length, ¬ Interrupts sigil (more.drop i ++ rest))
    (hend : rest = [] ∨ Interrupts sigil rest) (taken : List Char) :
    takeText sigil taken (more ++ rest) = (taken.reverse ++ more, rest) := by
  induction more generalizing taken with
  | nil =>
    rw [List.nil_append, List.append_nil]
    rcases hend with rfl | hend
    · rfl
    · cases rest with
      | nil => rfl
      | cons c rest => rw [takeText, if_pos (interrupts_iff.mp hend)]
  | cons c more ih =>
    have hgo : ¬ interruptsText sigil (c :: (more ++ rest)) = true :=
      fun h => hinside 0 (Nat.succ_pos _) (interrupts_iff.mpr h)
    rw [List.cons_append, takeText, if_neg hgo,
      ih (fun i hi => hinside (i + 1) (Nat.succ_lt_succ hi)), List.reverse_cons,
      List.append_assoc, List.singleton_append]

/-- A text that begins with the given character keeps it. -/
theorem exists_takeText_eq_cons (sigil c : Char) (rest : List Char) :
    ∃ more, (takeText sigil [c] rest).1 = c :: more := by
  obtain ⟨more, hfirst, -⟩ := takeText_ends sigil [c] rest
  exact ⟨more, hfirst⟩

/-! ### There is a way to cut -/

namespace WellCut

/-- A piece that ends where it has to may stand before a line that is cut as it has to be. -/
theorem cons (hlater : WellCut sigil behind content later)
    (hright : piece.EndsRight sigil behind later)
    (hfollows : ∀ next ∈ later.head?, piece.Follows sigil next)
    (hbegins : (∃ name, piece = .call name) ↔ BeginsCall sigil (piece.chars ++ content)) :
    WellCut sigil behind (piece.chars ++ content) (piece :: later) where
  spells := by rw [List.flatMap_cons, hlater.spells]
  begins := by
    rw [← hbegins]
    simp
  in_turn := List.isChain_cons.mpr ⟨hfollows, hlater.in_turn⟩
  ends_right := by
    intro front other rest hbody
    cases front with
    | nil =>
      obtain ⟨rfl, rfl⟩ := List.cons.inj hbody
      exact hright
    | cons first front => exact hlater.ends_right front other rest (List.cons.inj hbody).2

end WellCut

/-- What is left once all characters that are not blank are taken begins with a blank, if there
is anything. -/
theorem beginsBlank_dropWhile (hbehind : BeginsBlank behind) (chars : List Char) :
    BeginsBlank ((chars.dropWhile fun d => !Text.isBlank d) ++ behind) := by
  intro c hc
  cases hrest : chars.dropWhile fun d => !Text.isBlank d with
  | nil =>
    rw [hrest] at hc
    exact hbehind c hc
  | cons d others =>
    have hhead := List.head?_dropWhile_not (fun d => !Text.isBlank d) chars
    rw [hrest] at hc hhead
    obtain rfl : d = c := by simpa using hc
    simpa using hhead

/-- The calls and texts of a line are cut as they have to be. -/
theorem wellCut_bodyPieces (hsigil : Text.isBlank sigil = false) (hbehind : BeginsBlank behind)
    (content : List Char) : WellCut sigil behind content (bodyPieces sigil content) := by
  induction content using bodyPieces_induction sigil with
  | nil =>
    rw [bodyPieces_nil]
    exact ⟨rfl, by simp [BeginsCall], List.isChain_nil, by simp⟩
  | call c rest hopens ih =>
    obtain ⟨third, others, hchars, hthird⟩ := exists_of_opensCall hopens
    obtain ⟨rfl, rfl⟩ := List.cons.inj hchars
    have hblank := beginsBlank_dropWhile hbehind (c :: third :: others)
    rw [bodyPieces_call hopens]
    generalize hrest : ((c :: third :: others).dropWhile fun d => !Text.isBlank d) = rest at *
    have hspelled : c :: c :: third :: others =
        Piece.chars (.call (c :: (c :: third :: others).takeWhile fun d => !Text.isBlank d)) ++
          rest := by
      rw [← hrest, Piece.chars, List.cons_append, List.takeWhile_append_dropWhile]
    rw [hspelled]
    refine ih.cons ?_ ?_ ?_
    · refine ⟨(third :: others).takeWhile fun d => !Text.isBlank d, ?_, ?_, ?_, ?_⟩
      · simp [hthird]
      · simp [hsigil]
      · intro d hd
        simpa using List.mem_takeWhile_imp hd
      · rwa [flatMap_chars_bodyPieces]
    · intro next hnext
      cases rest with
      | nil => simp [bodyPieces_nil] at hnext
      | cons d later =>
        have hd : Text.isBlank d = true := hblank d rfl
        have hcloses : opensCall c (d :: later) = false := by
          rw [Bool.eq_false_iff, ne_eq, ← beginsCall_iff]
          exact not_beginsCall_of_blank hsigil hd later
        rw [bodyPieces_text hcloses, List.head?_cons] at hnext
        obtain rfl := Option.some.inj hnext
        obtain ⟨more, hmore⟩ := exists_takeText_eq_cons c d later
        exact ⟨d, more, hmore, hd⟩
    · rw [← hspelled, beginsCall_iff]
      simp [hopens]
  | text c rest hopens ih =>
    have hcloses : ¬ BeginsCall sigil (c :: rest) := by
      rw [beginsCall_iff, hopens]
      exact Bool.false_ne_true
    obtain ⟨more, hfirst, hrest, hinside, hend⟩ := takeText_ends sigil [c] rest
    rw [bodyPieces_text hopens]
    generalize (takeText sigil [c] rest).2 = left at *
    rw [hfirst]
    have hspelled : c :: rest = Piece.chars (.text ([c].reverse ++ more)) ++ left := by
      rw [hrest]
      rfl
    rw [hspelled]
    refine ih.cons ?_ ?_ ?_
    · refine ⟨List.cons_ne_nil c more, ?_, ?_⟩
      · intro i hi
        rw [flatMap_chars_bodyPieces, interrupts_append_iff hsigil hbehind]
        cases i with
        | zero =>
          change ¬ Interrupts sigil (c :: (more ++ left))
          rw [← hrest]
          exact fun h => hcloses h.beginsCall
        | succ i =>
          have hi' : i < more.length := by simpa using hi
          have hdrop : more.drop i ++ left = rest.drop i := by
            rw [hrest, List.drop_append_of_le_length (Nat.le_of_lt hi')]
          change ¬ Interrupts sigil (more.drop i ++ left)
          rw [hdrop]
          exact hinside i hi'
      · rcases hend with rfl | hend
        · exact .inl (bodyPieces_nil sigil)
        · rw [flatMap_chars_bodyPieces, interrupts_append_iff hsigil hbehind]
          exact .inr hend
    · intro next hnext
      rcases hend with rfl | hend
      · simp [bodyPieces_nil] at hnext
      · have hcall := beginsCall_iff.mp hend.beginsCall
        obtain ⟨third, others, rfl, hthird⟩ := hend
        rw [bodyPieces_call hcall, List.head?_cons] at hnext
        obtain rfl := Option.some.inj hnext
        refine ⟨third, others.takeWhile fun d => !Text.isBlank d, ?_, hthird⟩
        simp [hsigil, not_isBlank_of_isNameStart hthird]
    · rw [← hspelled]
      simp [hcloses]

/-! ### There is no other way to cut -/

/-- Characters that are not blank are taken up to the first blank. -/
theorem span_of_beginsBlank {run rest : List Char} (hrun : ∀ c ∈ run, Text.isBlank c = false)
    (hrest : BeginsBlank rest) :
    ((run ++ rest).takeWhile fun d => !Text.isBlank d) = run ∧
      ((run ++ rest).dropWhile fun d => !Text.isBlank d) = rest := by
  have htaken : ∀ c ∈ run, (!Text.isBlank c) = true := fun c hc => by simp [hrun c hc]
  rw [List.takeWhile_append_of_pos htaken, List.dropWhile_append_of_pos htaken]
  cases rest with
  | nil => simp
  | cons c rest =>
    have hc : Text.isBlank c = true := hrest c rfl
    simp [hc]

namespace WellCut

/-- Behind its first piece a line is still cut as it has to be. -/
theorem tail (hsigil : Text.isBlank sigil = false)
    (h : WellCut sigil behind content (piece :: later)) :
    WellCut sigil behind (later.flatMap Piece.chars) later := by
  have hchain := List.isChain_cons.mp h.in_turn
  refine ⟨rfl, ?_, hchain.2, ?_⟩
  · cases later with
    | nil => simp [BeginsCall]
    | cons next rest =>
      have hfollows := hchain.1 next rfl
      cases piece with
      | call name =>
        cases next with
        | text content =>
          obtain ⟨c, more, rfl, hc⟩ := hfollows
          simpa [Piece.chars] using not_beginsCall_of_blank hsigil hc _
        | call name => exact hfollows.elim
        | indent blanks => exact hfollows.elim
        | lineBreak kind => exact hfollows.elim
      | text content =>
        cases next with
        | call name =>
          obtain ⟨c, more, rfl, hc⟩ := hfollows.beginsCall
          simp [Piece.chars, BeginsCall, hc]
        | text content => exact hfollows.elim
        | indent blanks => exact hfollows.elim
        | lineBreak kind => exact hfollows.elim
      | indent blanks => exact hfollows.elim
      | lineBreak kind => exact hfollows.elim
  · intro front other rest hlater
    exact h.ends_right (piece :: front) other rest (by rw [hlater, List.cons_append])

/-- A line that is cut as it has to be is cut into its calls and texts. -/
theorem eq_bodyPieces (hsigil : Text.isBlank sigil = false) (hbehind : BeginsBlank behind)
    (h : WellCut sigil behind content body) : body = bodyPieces sigil content := by
  induction body generalizing content with
  | nil =>
    obtain rfl : [] = content := h.spells
    rw [bodyPieces_nil]
  | cons piece later ih =>
    have hlater := ih (h.tail hsigil)
    have hright := h.ends_right [] piece later rfl
    have hbegins := h.begins
    rw [← h.spells, List.flatMap_cons] at hbegins ⊢
    cases piece with
    | call name =>
      obtain ⟨run, -, rfl, hrun, hend⟩ := hright
      generalize later.flatMap Piece.chars = rest at *
      have hopens : opensCall sigil (sigil :: (sigil :: run ++ rest)) = true :=
        beginsCall_iff.mp (hbegins.mp ⟨_, later, rfl⟩)
      have hblank : BeginsBlank rest := by
        intro c hc
        refine hend c ?_
        rw [List.head?_append, Option.mem_def.mp hc]
        rfl
      have hname : ∀ c ∈ sigil :: run, Text.isBlank c = false :=
        List.forall_mem_cons.mpr ⟨hsigil, hrun⟩
      obtain ⟨htaken, hleft⟩ := span_of_beginsBlank hname hblank
      rw [Piece.chars, List.cons_append, bodyPieces_call hopens, htaken, hleft, ← hlater]
    | text run =>
      obtain ⟨hsome, hinside, hend⟩ := hright
      obtain ⟨c, more, rfl⟩ := List.exists_cons_of_ne_nil hsome
      generalize hrest : later.flatMap Piece.chars = rest at *
      have hcloses : opensCall sigil (c :: (more ++ rest)) = false := by
        rw [Bool.eq_false_iff, ne_eq, ← beginsCall_iff]
        exact fun hcall => by simpa using hbegins.mpr hcall
      have hmore : ∀ i < more.length, ¬ Interrupts sigil (more.drop i ++ rest) := by
        intro i hi
        rw [← interrupts_append_iff hsigil hbehind]
        exact hinside (i + 1) (Nat.succ_lt_succ hi)
      have hstop : rest = [] ∨ Interrupts sigil rest := by
        rw [← interrupts_append_iff hsigil hbehind]
        refine hend.imp_left fun hnil => ?_
        rw [← hrest, hnil, List.flatMap_nil]
      rw [Piece.chars, List.cons_append, bodyPieces_text hcloses,
        takeText_append_of_ends hmore hstop, ← hlater]
      rfl
    | indent blanks => exact hright.elim
    | lineBreak kind => exact hright.elim

end WellCut

/-! ### Tokens -/

/-- A line is cut as it has to be exactly when it is cut into its pieces. -/
theorem wellCutLines_cons_iff (hsigil : Text.isBlank sigil = false) {line : Line}
    {others : List Line}
    (hbehind : BeginsBlank (line.ending.elim [] LineBreak.chars ++ others.flatMap Line.chars))
    {pieces : List Piece} :
    WellCutLines sigil (line :: others) pieces ↔
      ∃ rest, WellCutLines sigil others rest ∧ pieces = line.pieces sigil ++ rest := by
  have hpieces : line.pieces sigil =
      (if line.content.takeWhile Text.isBlank = [] then []
        else [.indent (line.content.takeWhile Text.isBlank)]) ++
      bodyPieces sigil (line.content.dropWhile Text.isBlank) ++
      (line.ending.elim [] fun kind => [.lineBreak kind]) := by
    simp only [Line.pieces, List.isEmpty_iff]
  rw [hpieces]
  constructor
  · intro h
    cases h with
    | cons hbody hlater =>
      rw [hbody.eq_bodyPieces hsigil hbehind]
      exact ⟨_, hlater, rfl⟩
  · rintro ⟨rest, hlater, rfl⟩
    exact .cons (wellCut_bodyPieces hsigil hbehind _) hlater

/-- Lines are cut as they have to be exactly when each is cut into its pieces. -/
theorem wellCutLines_iff (hsigil : Text.isBlank sigil = false) {first : Line} {others : List Line}
    (h : first.Consecutive others) {pieces : List Piece} :
    WellCutLines sigil (first :: others) pieces ↔
      pieces = (first :: others).flatMap (Line.pieces sigil) := by
  induction others generalizing first pieces with
  | nil =>
    have hending : first.ending = none := h
    have hnil {rest : List Piece} : WellCutLines sigil [] rest ↔ rest = [] := by
      constructor
      · rintro ⟨⟩
        rfl
      · rintro rfl
        exact .nil
    rw [wellCutLines_cons_iff hsigil (by simp [hending, BeginsBlank])]
    simp [hnil]
  | cons next later ih =>
    obtain ⟨hbroken, hnext⟩ := h
    obtain ⟨kind, hkind⟩ := Option.ne_none_iff_exists'.mp hbroken
    have hbreak : BeginsBlank
        (first.ending.elim [] LineBreak.chars ++ (next :: later).flatMap Line.chars) := by
      rw [hkind]
      cases kind <;> simp [BeginsBlank, LineBreak.chars] <;> decide
    rw [wellCutLines_cons_iff hsigil hbreak]
    simp only [ih hnext, exists_eq_left, List.flatMap_cons]

/-- The tokens of a text are those that its lines have when they are cut as they have to be: an
indent that covers the blanks at the start of the line, then calls and texts in turn, each as long
as it has to be. -/
theorem wellTokenized_iff_eq (hsigil : Text.isBlank sigil = false) {text : String}
    {tokens : List Token} (h : tokenize sigil text = .ok tokens) (other : List Token) :
    WellTokenized sigil text.toList other ↔ other = tokens := by
  obtain ⟨-, rfl⟩ := unstrayed_of_tokenize h
  have hlines {cut : List Piece} :
      WellCutLines sigil (Line.ofChars text.toList) cut ↔ cut = pieces sigil text.toList :=
    wellCutLines_iff hsigil (Line.consecutive_cut text.toList)
  constructor
  · rintro ⟨cut, hcut, hwords, hplaces⟩
    obtain rfl := hlines.mp hcut
    apply List.ext_getElem?
    intro k
    have hword : other[k]?.map Token.word = (pieces sigil text.toList)[k]?.map Piece.word := by
      rw [← List.getElem?_map, hwords, List.getElem?_map]
    rw [getElem?_placePieces, Position.first_advance]
    by_cases hk : k < other.length
    · rw [List.getElem?_eq_getElem hk] at hword ⊢
      obtain ⟨piece, hpiece, hsame⟩ := Option.map_eq_some_iff.mp hword.symm
      rw [hpiece, Option.map_some, hsame, ← hplaces k hk]
    · rw [List.getElem?_eq_none (Nat.le_of_not_lt hk)] at hword ⊢
      rw [Option.map_eq_none_iff.mp hword.symm, Option.map_none]
  · rintro rfl
    refine ⟨_, hlines.mpr rfl, map_word_placePieces _ _, ?_⟩
    intro k hk
    have hplaced := getElem?_placePieces .first (pieces sigil text.toList) k
    rw [List.getElem?_eq_getElem hk] at hplaced
    obtain ⟨piece, -, hpiece⟩ := Option.map_eq_some_iff.mp hplaced.symm
    rw [← hpiece, Position.first_advance]

/-- A text with lone and tripled sigils, cut as it has to be. -/
theorem wellTokenized_iff_eq_sigils : Text.isBlank '$' = false ∧
    tokenize '$' " $$ $$$a $$$b\t$$c" = .ok
      [⟨.indent 1, ⟨1, 1⟩⟩, ⟨.text "$$ $", ⟨1, 2⟩⟩, ⟨.call "$$a", ⟨1, 6⟩⟩, ⟨.text " $", ⟨1, 9⟩⟩,
        ⟨.call "$$b", ⟨1, 11⟩⟩, ⟨.text "\t", ⟨1, 14⟩⟩, ⟨.call "$$c", ⟨1, 15⟩⟩] ∧
    ∀ other, WellTokenized '$' " $$ $$$a $$$b\t$$c".toList other ↔ other =
      [⟨.indent 1, ⟨1, 1⟩⟩, ⟨.text "$$ $", ⟨1, 2⟩⟩, ⟨.call "$$a", ⟨1, 6⟩⟩, ⟨.text " $", ⟨1, 9⟩⟩,
        ⟨.call "$$b", ⟨1, 11⟩⟩, ⟨.text "\t", ⟨1, 14⟩⟩, ⟨.call "$$c", ⟨1, 15⟩⟩] := by
  have htokens : tokenize '$' " $$ $$$a $$$b\t$$c" = .ok
      [⟨.indent 1, ⟨1, 1⟩⟩, ⟨.text "$$ $", ⟨1, 2⟩⟩, ⟨.call "$$a", ⟨1, 6⟩⟩, ⟨.text " $", ⟨1, 9⟩⟩,
        ⟨.call "$$b", ⟨1, 11⟩⟩, ⟨.text "\t", ⟨1, 14⟩⟩, ⟨.call "$$c", ⟨1, 15⟩⟩] := by
    decide +kernel
  exact ⟨by decide, htokens, wellTokenized_iff_eq (by decide) htokens⟩

end Offside
