import Offside.Token.Piece

/-!
# What the pieces of a text are

The pieces of a text spell it: nothing lies between them and none is empty. Behind the
indent of a line there are only calls and texts.
-/

namespace Offside

/-- A way to prove something of all that may stand behind an indent: it is cut off either
at a call or at a text, until nothing is left. -/
theorem bodyPieces_induction (sigil : Char) {motive : List Char → Prop} (nil : motive [])
    (call : ∀ c rest, opensCall sigil (c :: rest) = true →
      motive (rest.dropWhile fun d => !Text.isBlank d) → motive (c :: rest))
    (text : ∀ c rest, opensCall sigil (c :: rest) = false →
      motive (takeText sigil [c] rest).2 → motive (c :: rest)) :
    ∀ chars, motive chars
  | [] => nil
  | c :: rest => by
    cases h : opensCall sigil (c :: rest) with
    | true => exact call c rest h (bodyPieces_induction sigil nil call text _)
    | false => exact text c rest h (bodyPieces_induction sigil nil call text _)
termination_by chars => chars.length
decreasing_by
  · exact Nat.lt_succ_of_le (length_takeText_le sigil [c] rest)
  · exact Nat.lt_succ_of_le (length_dropWhile_le _ rest)

/-! ### Where calls begin -/

/-- A call begins with two sigils and a character that is not blank. -/
theorem exists_of_opensCall {sigil : Char} {chars : List Char} (h : opensCall sigil chars = true) :
    ∃ c rest, chars = sigil :: sigil :: c :: rest ∧ Text.isBlank c = false := by
  match chars, h with
  | first :: second :: c :: rest, h =>
    simp only [opensCall, Bool.and_eq_true, beq_iff_eq, Bool.not_eq_true'] at h
    obtain ⟨⟨rfl, rfl⟩, hc⟩ := h
    exact ⟨c, rest, rfl, hc⟩

/-- What can stand first in a name that interrupts text. -/
theorem isNameStart_iff (c : Char) :
    isNameStart c = true ↔
      ('A' ≤ c ∧ c ≤ 'Z') ∨ ('a' ≤ c ∧ c ≤ 'z') ∨ ('0' ≤ c ∧ c ≤ '9') ∨ c = '_' := by
  delta isNameStart Char.isAlphanum Char.isAlpha Char.isUpper Char.isLower Char.isDigit
  simp only [Bool.or_eq_true, Bool.and_eq_true, decide_eq_true_eq, beq_iff_eq, ge_iff_le, or_assoc]
  rfl

/-- The start of a name is no blank. -/
theorem not_isBlank_of_isNameStart {c : Char} (h : isNameStart c = true) :
    Text.isBlank c = false := by
  rw [isNameStart_iff] at h
  simp only [Char.le_def, UInt32.le_iff_toNat_le, Char.reduceVal, UInt32.reduceToNat,
    Char.toNat_val] at h
  have hrange : 48 ≤ c.toNat ∧ c.toNat ≤ 122 := by
    rcases h with h | h | h | rfl
    · omega
    · omega
    · omega
    · decide
  exact Text.not_isBlank_of_visible (by omega) (by omega)

/-- Whatever interrupts a text begins a call. -/
theorem opensCall_of_interruptsText {sigil : Char} {chars : List Char}
    (h : interruptsText sigil chars = true) : opensCall sigil chars = true := by
  match chars, h with
  | first :: second :: c :: rest, h =>
    simp only [interruptsText, Bool.and_eq_true] at h
    simp only [opensCall, h.1, not_isBlank_of_isNameStart h.2, Bool.not_false, Bool.and_self]

/-- A call does not begin before a blank and reach over it. -/
theorem opensCall_append {sigil : Char} (hsigil : Text.isBlank sigil = false)
    {behind : List Char} (hbehind : ∀ c ∈ behind.head?, Text.isBlank c = true)
    (chars : List Char) : opensCall sigil (chars ++ behind) = opensCall sigil chars := by
  cases behind with
  | nil => rw [List.append_nil]
  | cons c rest =>
    have hc : Text.isBlank c = true := hbehind c rfl
    have hother : (c == sigil) = false := by
      rw [beq_eq_false_iff_ne]
      rintro rfl
      rw [hsigil] at hc
      cases hc
    match chars with
    | [] => rcases rest with _ | ⟨d, _ | ⟨e, rest⟩⟩ <;> simp [opensCall, hother]
    | [_] => cases rest <;> simp [opensCall, hother]
    | [_, _] => simp [opensCall, hc]
    | _ :: _ :: _ :: _ => rfl

/-- Nor does an interruption. -/
theorem interruptsText_append {sigil : Char} (hsigil : Text.isBlank sigil = false)
    {behind : List Char} (hbehind : ∀ c ∈ behind.head?, Text.isBlank c = true)
    (chars : List Char) : interruptsText sigil (chars ++ behind) = interruptsText sigil chars := by
  rw [Bool.eq_iff_iff]
  constructor
  · intro h
    have hcall := opensCall_of_interruptsText h
    rw [opensCall_append hsigil hbehind] at hcall
    obtain ⟨c, rest, rfl, -⟩ := exists_of_opensCall hcall
    exact h
  · intro h
    obtain ⟨c, rest, rfl, -⟩ := exists_of_opensCall (opensCall_of_interruptsText h)
    exact h

/-! ### What stands behind an indent -/

/-- What follows an indent begins with a call if a call is opened there. -/
theorem bodyPieces_of_opensCall {sigil : Char} {body : List Char}
    (h : opensCall sigil body = true) :
    ∃ name rest, bodyPieces sigil body = .call name :: rest := by
  cases body with
  | nil => cases h
  | cons c rest => exact ⟨_, _, bodyPieces_call h⟩

/-- What follows an indent begins with a text if no call is opened there. -/
theorem bodyPieces_of_not_opensCall {sigil : Char} {body : List Char} (hbody : body ≠ [])
    (h : opensCall sigil body = false) :
    ∃ content rest, bodyPieces sigil body = .text content :: rest := by
  obtain ⟨c, rest, rfl⟩ := List.exists_cons_of_ne_nil hbody
  exact ⟨_, _, bodyPieces_text h⟩

/-- A piece that may stand behind the indent of a line. -/
def Piece.IsBody : Piece → Prop
  | .call name => name ≠ []
  | .text content => content ≠ []
  | .indent _ => False
  | .lineBreak _ => False

/-- A text keeps the character it has begun with. -/
theorem takeText_fst_ne_nil (sigil c : Char) (rest : List Char) :
    (takeText sigil [c] rest).1 ≠ [] := by
  have hstart (taken chars : List Char) (h : taken ≠ []) : (takeText sigil taken chars).1 ≠ [] := by
    induction chars generalizing taken with
    | nil => simpa [takeText] using h
    | cons d chars ih =>
      unfold takeText
      split
      · simpa using h
      · exact ih _ (List.cons_ne_nil d taken)
  exact hstart [c] rest (List.cons_ne_nil c [])

/-- Behind an indent there are only calls and texts. -/
theorem isBody_of_mem_bodyPieces (sigil : Char) (chars : List Char) :
    ∀ piece ∈ bodyPieces sigil chars, piece.IsBody := by
  induction chars using bodyPieces_induction sigil with
  | nil => simp [bodyPieces_nil]
  | call c rest h ih =>
    rw [bodyPieces_call h]
    exact List.forall_mem_cons.mpr ⟨List.cons_ne_nil _ _, ih⟩
  | text c rest h ih =>
    rw [bodyPieces_text h]
    exact List.forall_mem_cons.mpr ⟨takeText_fst_ne_nil sigil c rest, ih⟩

/-- The calls and texts behind an indent spell what stands there. -/
theorem flatMap_chars_bodyPieces (sigil : Char) (chars : List Char) :
    (bodyPieces sigil chars).flatMap Piece.chars = chars := by
  induction chars using bodyPieces_induction sigil with
  | nil => rw [bodyPieces_nil, List.flatMap_nil]
  | call c rest h ih =>
    rw [bodyPieces_call h, List.flatMap_cons, ih, Piece.chars, List.cons_append,
      List.takeWhile_append_dropWhile]
  | text c rest h ih =>
    rw [bodyPieces_text h, List.flatMap_cons, ih, Piece.chars, takeText_append]
    rfl

namespace Line

/-- The pieces of a line spell the line. -/
theorem flatMap_chars_pieces (sigil : Char) (line : Line) :
    (line.pieces sigil).flatMap Piece.chars = line.chars := by
  have hindent : (if (line.content.takeWhile Text.isBlank).isEmpty then []
      else [Piece.indent (line.content.takeWhile Text.isBlank)]).flatMap Piece.chars =
        line.content.takeWhile Text.isBlank := by
    split
    · next hempty => rw [List.isEmpty_iff.mp hempty, List.flatMap_nil]
    · simp [Piece.chars]
  have hbreak : (line.ending.elim [] fun kind => [Piece.lineBreak kind]).flatMap Piece.chars =
      line.ending.elim [] LineBreak.chars := by
    cases line.ending <;> simp [Piece.chars]
  rw [pieces, List.flatMap_append, List.flatMap_append, hindent, hbreak,
    flatMap_chars_bodyPieces, List.takeWhile_append_dropWhile, chars]

end Line

/-- The pieces of a text spell the text. -/
theorem flatMap_chars_pieces (sigil : Char) (chars : List Char) :
    (pieces sigil chars).flatMap Piece.chars = chars := by
  rw [pieces, List.flatMap_assoc]
  simp only [Line.flatMap_chars_pieces]
  exact Line.flatMap_chars_ofChars chars

end Offside
