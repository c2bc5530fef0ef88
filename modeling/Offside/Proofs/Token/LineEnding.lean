import Offside.Proofs.Compile
import Offside.Proofs.Token.Insertion

/-!
# Two spellings of a line break

A line may end with a line feed alone or with a carriage return before it. Which of the two it
is makes no difference: the lines hold the same characters, the break itself is the same token,
and what comes behind it stands on the next line either way.
-/

namespace Offside

/-- The second text is the first one with the carriage returns of some of its line breaks left
out: of any of them, of all or of none. -/
inductive DropsReturns : List Char → List Char → Prop where
  | nil : DropsReturns [] []
  /-- A character stays. -/
  | kept (c : Char) {rest other : List Char} (h : DropsReturns rest other) :
    DropsReturns (c :: rest) (c :: other)
  /-- A line break becomes a line feed. -/
  | dropped {rest other : List Char} (h : DropsReturns rest other) :
    DropsReturns ('\r' :: '\n' :: rest) ('\n' :: other)

namespace DropsReturns

variable {text other : List Char}

/-- A line feed at the front stays there. -/
theorem head?_eq (h : DropsReturns text other) (hfeed : text.head? = some '\n') :
    other.head? = some '\n' := by
  cases h with
  | nil => exact hfeed
  | kept c hrest => exact hfeed
  | dropped hrest => rfl

/-- Every return that is left has its line feed. -/
theorem unstrayed (h : DropsReturns text other) (htext : Unstrayed text) : Unstrayed other := by
  induction h with
  | nil => exact htext
  | kept c hrest ih =>
    obtain ⟨hreturn, hlater⟩ := unstrayed_cons.mp htext
    exact unstrayed_cons.mpr ⟨fun hc => hrest.head?_eq (hreturn hc), ih hlater⟩
  | @dropped rest other hrest ih =>
    obtain ⟨-, hfeed⟩ := unstrayed_cons.mp htext
    obtain ⟨-, hlater⟩ := unstrayed_cons.mp hfeed
    exact unstrayed_break .feed (ih hlater)

end DropsReturns

/-! ### The lines of the two texts -/

namespace Line

/-- The line with a line feed for its break, if it has one. -/
def fed (line : Line) : Line :=
  ⟨line.content, line.ending.map fun _ => .feed⟩

/-- A character in front is added to two texts alike if they are cut alike and, where it is
a carriage return, both go on with a line feed. -/
theorem fed_attach {c : Char} {text other : List Char}
    (hreturn : c = '\r' → text.head? = some '\n' ∧ other.head? = some '\n')
    (hfirst : (cut text).1.fed = (cut other).1.fed)
    (hlater : (cut text).2.map fed = (cut other).2.map fed) :
    (cut (c :: text)).1.fed = (cut (c :: other)).1.fed ∧
      (cut (c :: text)).2.map fed = (cut (c :: other)).2.map fed := by
  simp only [cut_cons, attach]
  by_cases hfeed : c = '\n'
  · simp only [if_pos hfeed, List.map_cons, hfirst, hlater, and_self]
  · by_cases hc : c = '\r'
    · obtain ⟨htext, hother⟩ := hreturn hc
      simp only [if_neg hfeed, if_pos (And.intro hc (cut_fst_of_head? htext)),
        if_pos (And.intro hc (cut_fst_of_head? hother)), hlater, and_self]
    · simp only [fed, mk.injEq] at hfirst
      obtain ⟨hcontent, hending⟩ := hfirst
      simp only [if_neg hfeed, hc, false_and, if_false, fed, hcontent, hending, true_and]
      exact hlater

end Line

/-- Lines hold the same characters whether or not returns are dropped, and the same lines are
broken. -/
theorem DropsReturns.map_fed_ofChars {text other : List Char} (h : DropsReturns text other)
    (htext : Unstrayed text) :
    (Line.ofChars text).map Line.fed = (Line.ofChars other).map Line.fed := by
  have hcut : (Line.cut text).1.fed = (Line.cut other).1.fed ∧
      (Line.cut text).2.map Line.fed = (Line.cut other).2.map Line.fed := by
    induction h with
    | nil => exact ⟨rfl, rfl⟩
    | kept c hrest ih =>
      obtain ⟨hreturn, hlater⟩ := unstrayed_cons.mp htext
      obtain ⟨hfirst, hlines⟩ := ih hlater
      exact Line.fed_attach
        (fun hc => ⟨hreturn hc, hrest.head?_eq (hreturn hc)⟩) hfirst hlines
    | @dropped rest other hrest ih =>
      obtain ⟨-, hfeed⟩ := unstrayed_cons.mp htext
      obtain ⟨-, hlater⟩ := unstrayed_cons.mp hfeed
      obtain ⟨hfirst, hlines⟩ := ih hlater
      have hbroken : Line.cut ('\r' :: '\n' :: rest) = _ := Line.cut_break .returnFeed rest
      have hfed : Line.cut ('\n' :: other) = _ := Line.cut_break .feed other
      rw [hbroken, hfed, List.map_cons, List.map_cons, hfirst, hlines]
      exact ⟨rfl, rfl⟩
  rw [Line.ofChars, Line.ofChars, List.map_cons, List.map_cons, hcut.1, hcut.2]

/-! ### Their tokens -/

/-- A line has the same tokens with either break. -/
theorem placePieces_fed (sigil : Char) (place : Position) (line : Line) :
    placePieces place (line.fed.pieces sigil) = placePieces place (line.pieces sigil) := by
  obtain ⟨content, ending⟩ := line
  cases ending with
  | none => rfl
  | some kind =>
    -- the break is the last piece, so nothing is placed behind its characters
    simp only [Line.fed, Line.pieces, Option.map_some, Option.elim_some, placePieces_append]
    rfl

/-- So have several lines. -/
theorem lineTokens_fed (sigil : Char) (number : Nat) (lines : List Line) :
    lineTokens sigil number (lines.map Line.fed) = lineTokens sigil number lines := by
  induction lines generalizing number with
  | nil => rfl
  | cons line later ih =>
    rw [List.map_cons, lineTokens, lineTokens, ih, placePieces_fed]

/-- How the lines of a text end makes no difference. If carriage returns are dropped from any of
its line breaks, a text that tokenizes has the same tokens at the same places, and every front
end with that sigil compiles it to the same result with the same events. -/
theorem tokenize_dropsReturns {sigil : Char} {text other : String} {tokens : List Token}
    (htokens : tokenize sigil text = .ok tokens)
    (hdrops : DropsReturns text.toList other.toList) :
    tokenize sigil other = .ok tokens ∧
      ∀ frontEnd : FrontEnd, frontEnd.settings.sigil = sigil →
        frontEnd.compile other = frontEnd.compile text := by
  have hother : tokenize sigil other = .ok tokens := by
    obtain ⟨hunstrayed, rfl⟩ := unstrayed_of_tokenize htokens
    rw [tokenize_of_unstrayed (not_isBlank_of_tokenize htokens) (hdrops.unstrayed hunstrayed),
      placePieces_pieces, placePieces_pieces, ← lineTokens_fed,
      ← hdrops.map_fed_ofChars hunstrayed, lineTokens_fed]
  refine ⟨hother, ?_⟩
  rintro frontEnd rfl
  simp only [FrontEnd.compile, FrontEnd.tokenize, htokens, hother]

/-- Of the three returns of a text the first and the last are dropped, the one of the empty line
stays. -/
theorem tokenize_dropsReturns_block :
    let text := "$$a\r\n\r\n  $$b x\r\n"
    let other := "$$a\n\r\n  $$b x\n"
    let tokens : List Token :=
      [⟨.call "$$a", ⟨1, 1⟩⟩, ⟨.lineBreak, ⟨1, 4⟩⟩, ⟨.lineBreak, ⟨2, 1⟩⟩, ⟨.indent 2, ⟨3, 1⟩⟩,
        ⟨.call "$$b", ⟨3, 3⟩⟩, ⟨.text " x", ⟨3, 6⟩⟩, ⟨.lineBreak, ⟨3, 8⟩⟩]
    tokenize '$' text = .ok tokens ∧ DropsReturns text.toList other.toList ∧
      tokenize '$' other = .ok tokens ∧
      FrontEnd.standard.compile other = FrontEnd.standard.compile text := by
  intro text other tokens
  have htokens : tokenize '$' text = .ok tokens := by decide +kernel
  have hdrops : DropsReturns text.toList other.toList := by
    simp only [text, other]
    apply_rules [DropsReturns.dropped, DropsReturns.kept, DropsReturns.nil]
  obtain ⟨hother, hcompile⟩ := tokenize_dropsReturns htokens hdrops
  exact ⟨htokens, hdrops, hother, hcompile .standard rfl⟩

end Offside
