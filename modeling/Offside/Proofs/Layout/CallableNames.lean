import Offside.Proofs.Layout.OneLine

/-!
# Where a name can be called

A macro is called by its name with two sigils in front. At the start of a line that works for
every name without blanks. Behind another call only a name that begins with an ASCII letter, a
digit or an underscore is called: any other one is text, or it is cut at sigils of its own.
-/

namespace Offside

variable {sigil : Char}

/-- A name with its sigils interrupts text exactly if it begins as such a name must. -/
theorem interrupts_name_iff (first : Char) (rest : List Char) :
    Interrupts sigil (sigil :: sigil :: first :: rest) ↔ isNameStart first = true := by
  constructor
  · rintro ⟨c, others, heq, hc⟩
    simp only [List.cons.injEq, true_and] at heq
    rwa [heq.1]
  · exact fun h => ⟨first, rest, rfl, h⟩

/-- Without blanks nothing stands behind a name. -/
theorem IsTail.eq_nil_of_ink {rest : List Piece} (h : IsTail sigil rest)
    (hink : ∀ c ∈ rest.flatMap Piece.chars, Text.isBlank c = false) : rest = [] := by
  cases h with
  | nil => rfl
  | text hspaced hinside =>
    obtain ⟨c, more, rfl, hc⟩ := hspaced
    rw [hink c (by simp [Piece.chars])] at hc
    cases hc
  | call hspaced hname hinkName hinside hrest =>
    obtain ⟨c, more, rfl, hc⟩ := hspaced
    rw [hink c (by simp [Piece.chars])] at hc
    cases hc

/-- Blanks and a name behind another name are one text, or a text and a call. The call is the
name as a whole exactly if the name interrupts text. -/
theorem IsTail.blanks_name {blanks name : List Char} {rest : List Piece} (h : IsTail sigil rest)
    (hblanks : ∀ c ∈ blanks, Text.isBlank c = true)
    (hink : ∀ c ∈ name, Text.isBlank c = false) (hsome : name ≠ [])
    (hspells : rest.flatMap Piece.chars = blanks ++ name) :
    (rest = [.text (blanks ++ name)] ∧ ¬ Interrupts sigil name) ∨
      ∃ front back, name = front ++ back ∧ rest = [.text (blanks ++ front), .call back] ∧
        (front = [] ↔ Interrupts sigil name) := by
  cases h with
  | nil =>
    obtain ⟨-, hnone⟩ := List.append_eq_nil_iff.mp hspells.symm
    exact absurd hnone hsome
  | @text content hspaced hinside =>
    obtain rfl : content = blanks ++ name := by simpa [Piece.chars] using hspells
    have hlength : blanks.length < (blanks ++ name).length := by
      rw [List.length_append]
      exact Nat.lt_add_of_pos_right (List.length_pos_iff.mpr hsome)
    have hname := hinside blanks.length hlength
    rw [List.drop_left, List.append_nil] at hname
    exact .inl ⟨rfl, hname⟩
  | @call content back others hspaced hback hbackInk hinside hothers =>
    rw [List.flatMap_cons, List.flatMap_cons, Piece.chars, Piece.chars] at hspells
    -- the call begins behind all blanks, for it does not begin with one
    obtain ⟨front, rfl, hname⟩ : ∃ front, content = blanks ++ front ∧
        name = front ++ (back ++ others.flatMap Piece.chars) := by
      rcases List.append_eq_append_iff.mp hspells with ⟨more, hmore, hrest⟩ | hfront
      · cases more with
        | nil => exact ⟨[], by simpa using hmore.symm, by simpa using hrest.symm⟩
        | cons c more =>
          obtain ⟨first, later, rfl, -⟩ := hback
          obtain ⟨rfl, -⟩ := List.cons.inj hrest
          have hblank := hblanks sigil (by simp [hmore])
          rw [hbackInk sigil List.mem_cons_self] at hblank
          cases hblank
      · exact hfront
    obtain rfl : others = [] := hothers.eq_nil_of_ink fun c hc => hink c (by simp [hname, hc])
    rw [List.flatMap_nil, List.append_nil] at hname
    refine .inr ⟨front, back, hname, rfl, ?_⟩
    constructor
    · rintro rfl
      rwa [hname]
    · intro hinterrupts
      by_contra hfront
      have hlength : blanks.length < (blanks ++ front).length := by
        rw [List.length_append]
        exact Nat.lt_add_of_pos_right (List.length_pos_iff.mpr hfront)
      have hnot := hinside blanks.length hlength
      rw [List.drop_left, ← hname] at hnot
      exact hnot hinterrupts

/-- Whatever begins with a blank can stand behind a name. -/
theorem exists_isTail (hsigil : Text.isBlank sigil = false) {chars : List Char}
    (hblank : BeginsBlank chars) :
    ∃ rest, IsTail sigil rest ∧ rest.flatMap Piece.chars = chars := by
  have hcut : WellCut sigil [] chars (bodyPieces sigil chars) :=
    wellCut_bodyPieces hsigil (by simp [BeginsBlank]) chars
  exact ⟨_, hcut.isTail hsigil hblank, hcut.spells⟩

/-- The calls among the arguments that a text comes to are none. -/
theorem not_mem_textItems {name : String} {place : Position} {arguments : List Item}
    (content : List Char) : .call name place arguments ∉ textItems content := by
  rw [textItems]
  split <;> simp

namespace FrontEnd

/-- Two names with blanks between them compile to a call of the first one. It is given a call of
the second one exactly if that interrupts text. -/
theorem compile_two_names (frontEnd : FrontEnd) (hlimit : 2 ≤ frontEnd.settings.nestingLimit)
    {outer name : String} (houter : IsName frontEnd.settings.sigil outer)
    (hname : IsName frontEnd.settings.sigil name) {blanks : List Char} (hsome : blanks ≠ [])
    (hblanks : ∀ c ∈ blanks, Text.isBlank c = true ∧ c ≠ '\n' ∧ c ≠ '\r') :
    ∃ root remarks,
      (frontEnd.compile (outer ++ String.ofList blanks ++ name)).1 = .ok ⟨[root], remarks⟩ ∧
      root.name = outer ∧
      ((∃ place arguments, .call name place arguments ∈ root.arguments) ↔
        Interrupts frontEnd.settings.sigil name.toList) := by
  have hsigil := frontEnd.sigil_not_blank
  have hink := hname.not_blank hsigil
  obtain ⟨hnameFeed, hnameReturn⟩ := not_mem_of_not_blank hink
  have hbegins : BeginsBlank (blanks ++ name.toList) := by
    obtain ⟨c, more, rfl⟩ := List.exists_cons_of_ne_nil hsome
    intro d hd
    obtain rfl : c = d := Option.some.inj hd
    exact (hblanks c List.mem_cons_self).1
  obtain ⟨rest, htail, hspells⟩ := exists_isTail hsigil hbegins
  have hplain : '\n' ∉ rest.flatMap Piece.chars ∧ '\r' ∉ rest.flatMap Piece.chars := by
    rw [hspells, List.mem_append, List.mem_append]
    exact ⟨not_or.mpr ⟨fun hmem => (hblanks _ hmem).2.1 rfl, hnameFeed⟩,
      not_or.mpr ⟨fun hmem => (hblanks _ hmem).2.2 rfl, hnameReturn⟩⟩
  have htext : (outer ++ String.ofList blanks ++ name).toList =
      outer.toList ++ rest.flatMap Piece.chars := by
    rw [hspells, String.toList_append, String.toList_append, String.toList_ofList,
      List.append_assoc]
  have hnone : name.toList ≠ [] := by
    obtain ⟨first, others, hchars, -⟩ := hname
    rw [hchars]
    exact List.cons_ne_nil _ _
  obtain ⟨rfl, hnot⟩ | ⟨front, back, hparts, rfl, hfront⟩ :=
    htail.blanks_name (fun c hc => (hblanks c hc).1) hink hnone hspells
  · obtain ⟨remarks, hcompile⟩ := compile_line houter htail hplain htext
      (Nat.lt_of_lt_of_le Nat.zero_lt_one (Nat.le_max_right _ 1))
    refine ⟨_, remarks, hcompile, rfl, iff_of_false ?_ hnot⟩
    rintro ⟨place, arguments, hmem⟩
    rw [inlineItems_text, SourceLine.inlineItems, List.append_nil] at hmem
    exact not_mem_textItems _ hmem
  · obtain ⟨remarks, hcompile⟩ := compile_line houter htail hplain htext
      (Nat.lt_of_lt_of_le hlimit (Nat.le_max_left _ 1))
    refine ⟨_, remarks, hcompile, rfl, ?_⟩
    rw [← hfront, inlineItems_text, SourceLine.inlineItems, SourceLine.inlineItems]
    constructor
    · rintro ⟨place, arguments, hmem⟩
      rcases List.mem_append.mp hmem with hmem | hmem
      · exact absurd hmem (not_mem_textItems _)
      · -- the call has the whole name only if nothing of it is text
        obtain ⟨hsame, -, -⟩ := Item.call.inj (List.mem_singleton.mp hmem)
        rw [hsame, String.toList_ofList] at hparts
        exact List.append_left_eq_self.mp hparts.symm
    · rintro rfl
      rw [List.nil_append] at hparts
      rw [← hparts, String.ofList_toList]
      exact ⟨_, _, List.mem_append_right _ List.mem_cons_self⟩

/-- A name without blanks can be called at the start of a line. Behind another call it can be
called exactly if it begins with an ASCII letter, a digit or an underscore. -/
theorem compile_macroName (frontEnd : FrontEnd) (hlimit : 2 ≤ frontEnd.settings.nestingLimit)
    {name : String} {first : Char} {others : List Char} (hname : name.toList = first :: others)
    (hink : ∀ c ∈ name.toList, Text.isBlank c = false) :
    let full := frontEnd.settings.macroName name
    (∃ remarks, (frontEnd.compile full).1 = .ok ⟨[⟨full, .first, []⟩], remarks⟩) ∧
    ∀ (outer : String) (blanks : List Char), IsName frontEnd.settings.sigil outer → blanks ≠ [] →
      (∀ c ∈ blanks, Text.isBlank c = true ∧ c ≠ '\n' ∧ c ≠ '\r') →
      ∃ root remarks,
        (frontEnd.compile (outer ++ String.ofList blanks ++ full)).1 = .ok ⟨[root], remarks⟩ ∧
        root.name = outer ∧
        ((∃ place arguments, .call full place arguments ∈ root.arguments) ↔
          ('A' ≤ first ∧ first ≤ 'Z') ∨ ('a' ≤ first ∧ first ≤ 'z') ∨
            ('0' ≤ first ∧ first ≤ '9') ∨ first = '_') := by
  intro full
  have hfull : full.toList =
      frontEnd.settings.sigil :: frontEnd.settings.sigil :: first :: others := by
    rw [← hname]
    exact String.toList_ofList
  have hisName : IsName frontEnd.settings.sigil full :=
    ⟨first, others, hfull, fun c hc => hink c (hname ▸ hc)⟩
  constructor
  · exact compile_line hisName .nil ⟨List.not_mem_nil, List.not_mem_nil⟩ (by simp)
      (Nat.le_max_right _ _)
  · intro outer blanks houter hsome hblanks
    have hcompile := compile_two_names frontEnd hlimit houter hisName hsome hblanks
    rwa [hfull, interrupts_name_iff, isNameStart_iff] at hcompile

/-- Behind a call a name that begins with a letter is called, and one that begins with a sigil is
not. -/
theorem compile_macroName_two :
    (FrontEnd.standard.compile "$$b").1.map Compilation.roots = .ok [⟨"$$b", ⟨1, 1⟩, []⟩] ∧
    (FrontEnd.standard.compile "$$$b").1.map Compilation.roots = .ok [⟨"$$$b", ⟨1, 1⟩, []⟩] ∧
    (∃ root remarks, (FrontEnd.standard.compile "$$a\t$$b").1 = .ok ⟨[root], remarks⟩ ∧
      ∃ place arguments, .call "$$b" place arguments ∈ root.arguments) ∧
    ∃ root remarks, (FrontEnd.standard.compile "$$a $$$b").1 = .ok ⟨[root], remarks⟩ ∧
      ¬ ∃ place arguments, .call "$$$b" place arguments ∈ root.arguments := by
  have houter : IsName '$' "$$a" :=
    ⟨'a', [], by decide, List.forall_mem_singleton.mpr (by decide)⟩
  have hlimit : 2 ≤ FrontEnd.standard.settings.nestingLimit := show 2 ≤ 128 by decide
  have hletters : "b".toList = ['b'] := by decide
  have hsigils : "$b".toList = ['$', 'b'] := by decide
  obtain ⟨⟨letterRemarks, hletter⟩, hbehindLetter⟩ := compile_macroName .standard hlimit hletters
    (List.forall_mem_singleton.mpr (by decide))
  obtain ⟨⟨sigilRemarks, hsigil⟩, hbehindSigil⟩ := compile_macroName .standard hlimit hsigils
    (List.forall_mem_cons.mpr ⟨by decide, List.forall_mem_singleton.mpr (by decide)⟩)
  obtain ⟨called, calledRemarks, hcalled, -, hcall⟩ :=
    hbehindLetter "$$a" ['\t'] houter (by decide) (List.forall_mem_singleton.mpr (by decide))
  obtain ⟨cut, cutRemarks, hcut, -, hnoCall⟩ :=
    hbehindSigil "$$a" [' '] houter (by decide) (List.forall_mem_singleton.mpr (by decide))
  refine ⟨?_, ?_, ?_, ?_⟩
  · rw [show (FrontEnd.standard.compile "$$b").1 = _ from hletter]
    rfl
  · rw [show (FrontEnd.standard.compile "$$$b").1 = _ from hsigil]
    rfl
  · exact ⟨called, calledRemarks, hcalled, hcall.mpr (by decide)⟩
  · exact ⟨cut, cutRemarks, hcut, fun hmem => absurd (hnoCall.mp hmem) (by decide)⟩

end FrontEnd

end Offside
