/-!
# Patterns

A pattern matches some characters at the front of a text, or fails there. Of two alternatives
the second is tried only where the first fails, a repetition goes on for as long as it can, and
neither is taken back later. Looking ahead takes up no characters.
-/

namespace Offside

/-- A parsing expression. The sigil is a character that the text itself has to give. -/
inductive Pattern where
  /-- A character with the given property. -/
  | one (allowed : Char → Bool)
  /-- The sigil. -/
  | sigil
  /-- The first pattern, and the second one behind it. -/
  | seq (first second : Pattern)
  /-- The first pattern or, where that fails, the second one. -/
  | alt (first second : Pattern)
  /-- Nothing, where the pattern fails. -/
  | absent (pattern : Pattern)
  /-- The pattern once, and again for as long as it matches. -/
  | repeated (pattern : Pattern)

namespace Pattern

/-- Any character. -/
def any : Pattern := .one fun _ => true

/-- The given character. -/
def char (c : Char) : Pattern := .one (· == c)

/-- The first character of a text, where it has the given property. -/
def first? (allowed : Char → Bool) : List Char → Option Nat
  | [] => none
  | c :: _ => if allowed c then some 1 else none

/-- How many characters are passed, beyond those that have been `passed` already, by matching
again and again. The repetition ends where nothing matches, or where the match is empty. -/
def passAgain (match? : List Char → Option Nat) (passed : Nat) : List Char → Nat
  | [] => passed
  | c :: rest =>
    match match? (c :: rest) with
    | some (more + 1) => passAgain match? (passed + (more + 1)) (rest.drop more)
    | _ => passed
termination_by chars => chars.length
decreasing_by
  rw [List.length_drop, List.length_cons]
  omega

/-- How many characters a pattern matches at the front of a text, unless it fails there. -/
def length? (sigil : Char) : Pattern → List Char → Option Nat
  | .one allowed, chars => first? allowed chars
  | .sigil, chars => first? (· == sigil) chars
  | .seq first second, chars =>
    match first.length? sigil chars with
    | some passed => (second.length? sigil (chars.drop passed)).map (passed + ·)
    | none => none
  | .alt first second, chars =>
    match first.length? sigil chars with
    | some passed => some passed
    | none => second.length? sigil chars
  | .absent pattern, chars =>
    match pattern.length? sigil chars with
    | some _ => none
    | none => some 0
  | .repeated pattern, chars =>
    match pattern.length? sigil chars with
    | some passed => some (passAgain (pattern.length? sigil) passed (chars.drop passed))
    | none => none

/-- Whether a pattern takes up at least one character wherever it matches. -/
def advances : Pattern → Bool
  | .one _ => true
  | .sigil => true
  | .seq first second => first.advances || second.advances
  | .alt first second => first.advances && second.advances
  | .absent _ => false
  | .repeated pattern => pattern.advances

/-! ### Matches lie within the text -/

/-- A first character is one character of the text. -/
theorem first?_eq_some {allowed : Char → Bool} {chars : List Char} {length : Nat}
    (h : first? allowed chars = some length) : length = 1 ∧ 0 < chars.length := by
  cases chars with
  | nil => cases h
  | cons c rest =>
    obtain ⟨-, rfl⟩ : _ ∧ 1 = length := by simpa [first?] using h
    exact ⟨rfl, Nat.succ_pos _⟩

/-- Matching again passes some characters of the text, if any, beyond those passed before. -/
theorem passAgain_bounds (match? : List Char → Option Nat)
    (hmatch : ∀ chars length, match? chars = some length → length ≤ chars.length)
    (passed : Nat) (chars : List Char) :
    passed ≤ passAgain match? passed chars ∧
      passAgain match? passed chars ≤ passed + chars.length := by
  fun_induction passAgain match? passed chars with
  | case1 passed => omega
  | case2 passed c rest more hmore ih =>
    have hlength := hmatch (c :: rest) (more + 1) hmore
    rw [List.length_drop] at ih
    rw [List.length_cons] at hlength ⊢
    omega
  | case3 passed c rest hstop => omega

/-- A pattern matches no more characters than there are. -/
theorem length?_le {sigil : Char} (pattern : Pattern) {chars : List Char} {length : Nat}
    (h : pattern.length? sigil chars = some length) : length ≤ chars.length := by
  induction pattern generalizing chars length with
  | one allowed =>
    obtain ⟨rfl, hchars⟩ := first?_eq_some h
    exact hchars
  | sigil =>
    obtain ⟨rfl, hchars⟩ := first?_eq_some h
    exact hchars
  | seq first second ihfirst ihsecond =>
    unfold length? at h
    split at h
    · next passed hfirst =>
      obtain ⟨more, hsecond, rfl⟩ := Option.map_eq_some_iff.mp h
      have hpassed := ihfirst hfirst
      have hmore := ihsecond hsecond
      rw [List.length_drop] at hmore
      omega
    · cases h
  | alt first second ihfirst ihsecond =>
    unfold length? at h
    split at h
    · next passed hfirst => exact Option.some.inj h ▸ ihfirst hfirst
    · exact ihsecond h
  | absent pattern ih =>
    unfold length? at h
    split at h
    · cases h
    · exact Option.some.inj h ▸ Nat.zero_le _
  | repeated pattern ih =>
    unfold length? at h
    split at h
    · next passed hpassed =>
      have hbounds := passAgain_bounds (pattern.length? sigil) (fun _ _ => ih) passed
        (chars.drop passed)
      rw [List.length_drop] at hbounds
      have := ih hpassed
      have := Option.some.inj h
      omega
    · cases h

/-- A pattern that advances matches no empty text. -/
theorem length?_pos {sigil : Char} {pattern : Pattern} (hadvances : pattern.advances = true)
    {chars : List Char} {length : Nat} (h : pattern.length? sigil chars = some length) :
    0 < length := by
  induction pattern generalizing chars length with
  | one allowed => exact (first?_eq_some h).1 ▸ Nat.one_pos
  | sigil => exact (first?_eq_some h).1 ▸ Nat.one_pos
  | seq first second ihfirst ihsecond =>
    unfold length? at h
    split at h
    · next passed hfirst =>
      obtain ⟨more, hsecond, rfl⟩ := Option.map_eq_some_iff.mp h
      rcases Bool.or_eq_true_iff.mp hadvances with hadvances | hadvances
      · have := ihfirst hadvances hfirst
        omega
      · have := ihsecond hadvances hsecond
        omega
    · cases h
  | alt first second ihfirst ihsecond =>
    obtain ⟨hfirst, hsecond⟩ := Bool.and_eq_true_iff.mp hadvances
    unfold length? at h
    split at h
    · next passed hpassed => exact Option.some.inj h ▸ ihfirst hfirst hpassed
    · exact ihsecond hsecond h
  | absent pattern ih => cases hadvances
  | repeated pattern ih =>
    unfold length? at h
    split at h
    · next passed hpassed =>
      have hbounds := passAgain_bounds (pattern.length? sigil) (fun _ _ => length?_le pattern)
        passed (chars.drop passed)
      have := ih hadvances hpassed
      have := Option.some.inj h
      omega
    · cases h

end Pattern

end Offside
