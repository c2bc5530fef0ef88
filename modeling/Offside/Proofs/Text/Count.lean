import Mathlib.Data.List.TakeWhile
import Mathlib.Data.Nat.Digits.Defs
import Offside.Text.Blank
import Offside.Text.Numeral

/-!
# Which texts denote counts

A text denotes a count when it is a decimal number with blanks around it. What is read from a
text, once it is trimmed, is the count that it denotes, and nothing is read from any other text.
-/

namespace Offside.Text

/-- The number that a run of ASCII digits stands for, with the first digit as the highest. -/
def decimalValue (digits : List Char) : ℕ :=
  Nat.ofDigits 10 (digits.reverse.map fun c => c.toNat - '0'.toNat)

/-- The text denotes the count: one ASCII digit or more, behind a plus sign or not, with nothing
but blanks around, and the number fits in sixty-four bits. -/
def Denotes (text : String) (count : ℕ) : Prop :=
  ∃ before sign digits after : List Char,
    text.toList = before ++ (sign ++ digits) ++ after ∧
    (∀ c ∈ before, isBlank c = true) ∧ (∀ c ∈ after, isBlank c = true) ∧
    (sign = [] ∨ sign = ['+']) ∧
    digits ≠ [] ∧ (∀ c ∈ digits, c.isDigit = true) ∧
    count = decimalValue digits ∧ count < 2 ^ 64

/-! ### Digits -/

/-- No digits stand for zero. -/
theorem decimalValue_nil : decimalValue [] = 0 := rfl

/-- The first digit counts as many times as a power of ten tells. -/
theorem decimalValue_cons (c : Char) (rest : List Char) :
    decimalValue (c :: rest) = (c.toNat - '0'.toNat) * 10 ^ rest.length + decimalValue rest := by
  rw [decimalValue, List.reverse_cons, List.map_append, List.map_singleton, Nat.ofDigits_append,
    Nat.ofDigits_singleton, List.length_map, List.length_reverse, decimalValue]
  ring

/-- A run of digits is read digit by digit, and nothing else is. -/
theorem continueNumber?_eq_some_iff {value number : ℕ} {chars : List Char} :
    continueNumber? value chars = some number ↔
      (∀ c ∈ chars, c.isDigit = true) ∧
        number = value * 10 ^ chars.length + decimalValue chars := by
  induction chars generalizing value with
  | nil => simp [continueNumber?, decimalValue_nil, eq_comm (a := number)]
  | cons c rest ih =>
    rw [continueNumber?, digitValue?, List.forall_mem_cons]
    by_cases hc : c.isDigit = true
    · have hsum : (10 * value + (c.toNat - '0'.toNat)) * 10 ^ rest.length + decimalValue rest =
          value * 10 ^ (c :: rest).length + decimalValue (c :: rest) := by
        rw [decimalValue_cons, List.length_cons]
        ring
      rw [if_pos hc, ih, hsum]
      exact ⟨fun h => ⟨⟨hc, h.1⟩, h.2⟩, fun h => ⟨h.1.2, h.2⟩⟩
    · rw [if_neg hc]
      exact ⟨nofun, fun h => absurd h.1.1 hc⟩

/-- A number is read from digits and nothing else, one of them or more. -/
theorem readNumber?_eq_some_iff {number : ℕ} {chars : List Char} :
    readNumber? chars = some number ↔
      chars ≠ [] ∧ (∀ c ∈ chars, c.isDigit = true) ∧ number = decimalValue chars := by
  cases chars with
  | nil => simp [readNumber?]
  | cons c rest =>
    rw [readNumber?, continueNumber?_eq_some_iff, Nat.zero_mul, Nat.zero_add]
    · simp
    · simp

/-- A digit is a visible ASCII character. -/
theorem not_isBlank_of_isDigit {c : Char} (h : c.isDigit = true) : isBlank c = false := by
  simp only [Char.isDigit, Bool.and_eq_true, decide_eq_true_eq, ge_iff_le,
    UInt32.le_iff_toNat_le] at h
  simp only [Char.reduceVal, UInt32.reduceToNat, Char.toNat_val] at h
  exact not_isBlank_of_visible (by omega) (by omega)

/-! ### Signs -/

/-- What is left of some characters without their sign. -/
theorem exists_sign (chars : List Char) :
    ∃ sign, (sign = [] ∨ sign = ['+']) ∧ chars = sign ++ unsigned chars := by
  cases chars with
  | nil => exact ⟨[], .inl rfl, rfl⟩
  | cons c rest =>
    by_cases hc : c = '+'
    · exact ⟨['+'], .inr rfl, by rw [hc]; rfl⟩
    · refine ⟨[], .inl rfl, ?_⟩
      rw [unsigned, List.nil_append]
      rintro _ heq
      exact hc (List.cons.inj heq).1

/-- A sign in front of digits is taken off. -/
theorem unsigned_append {sign digits : List Char} (hsign : sign = [] ∨ sign = ['+'])
    (hdigits : ∀ c ∈ digits, c.isDigit = true) : unsigned (sign ++ digits) = digits := by
  rcases hsign with rfl | rfl
  · cases digits with
    | nil => rfl
    | cons c rest =>
      rw [List.nil_append, unsigned]
      rintro _ heq
      obtain ⟨rfl, -⟩ := List.cons.inj heq
      exact absurd (hdigits '+' List.mem_cons_self) (by decide)
  · rfl

/-! ### Blanks around a text -/

/-- What is trimmed off a text is blank. -/
theorem exists_trimmed (text : String) :
    ∃ before after, text.toList = before ++ (trim text).toList ++ after ∧
      (∀ c ∈ before, isBlank c = true) ∧ (∀ c ∈ after, isBlank c = true) := by
  let front := text.toList.dropWhile isBlank
  have hfront : text.toList = text.toList.takeWhile isBlank ++ front :=
    List.takeWhile_append_dropWhile.symm
  have hback : front = (front.reverse.dropWhile isBlank).reverse ++
      (front.reverse.takeWhile isBlank).reverse := by
    rw [← List.reverse_append, List.takeWhile_append_dropWhile, List.reverse_reverse]
  refine ⟨text.toList.takeWhile isBlank, (front.reverse.takeWhile isBlank).reverse, ?_, ?_, ?_⟩
  · rw [trim, String.toList_ofList, List.append_assoc, ← hback]
    exact hfront
  · exact fun c hc => List.mem_takeWhile_imp hc
  · exact fun c hc => List.mem_takeWhile_imp (List.mem_reverse.mp hc)

/-- Blanks at the front are dropped down to the first character that is not blank. -/
theorem dropWhile_isBlank {before core after : List Char}
    (hbefore : ∀ c ∈ before, isBlank c = true) (hcore : ∀ c ∈ core, isBlank c = false)
    (hsome : core ≠ []) :
    (before ++ (core ++ after)).dropWhile isBlank = core ++ after := by
  obtain ⟨c, rest, rfl⟩ := List.exists_cons_of_ne_nil hsome
  have hc : isBlank c = false := hcore c List.mem_cons_self
  rw [List.dropWhile_append_of_pos hbefore, List.cons_append,
    List.dropWhile_cons_of_neg (by simp [hc])]

/-- All blanks around a text are trimmed off, and none inside. -/
theorem toList_trim {text : String} {before core after : List Char}
    (htext : text.toList = before ++ core ++ after) (hbefore : ∀ c ∈ before, isBlank c = true)
    (hafter : ∀ c ∈ after, isBlank c = true) (hcore : ∀ c ∈ core, isBlank c = false)
    (hsome : core ≠ []) : (trim text).toList = core := by
  have hfront : text.toList.dropWhile isBlank = core ++ after := by
    rw [htext, List.append_assoc, dropWhile_isBlank hbefore hcore hsome]
  have hback : (core ++ after).reverse.dropWhile isBlank = core.reverse := by
    rw [List.reverse_append, ← List.append_nil core.reverse]
    apply dropWhile_isBlank
    · exact fun c hc => hafter c (List.mem_reverse.mp hc)
    · exact fun c hc => hcore c (List.mem_reverse.mp hc)
    · simpa using hsome
  rw [trim, String.toList_ofList, hfront, hback, List.reverse_reverse]

/-- What is read from a text, once it is trimmed, is the count that it denotes. -/
theorem readCount?_trim_eq_some_iff {text : String} {count : ℕ} :
    readCount? (trim text) = some count ↔ Denotes text count := by
  have hgreatest : count ≤ greatestCount ↔ count < 2 ^ 64 := by
    rw [greatestCount]
    omega
  rw [readCount?, Option.filter_eq_some_iff, readNumber?_eq_some_iff, decide_eq_true_eq, hgreatest]
  constructor
  · rintro ⟨⟨hsome, hdigits, hvalue⟩, hsmall⟩
    obtain ⟨before, after, htext, hbefore, hafter⟩ := exists_trimmed text
    obtain ⟨sign, hsign, hcore⟩ := exists_sign (trim text).toList
    rw [hcore] at htext
    exact ⟨before, sign, _, after, htext, hbefore, hafter, hsign, hsome, hdigits, hvalue, hsmall⟩
  · rintro ⟨before, sign, digits, after, htext, hbefore, hafter, hsign, hsome, hdigits, hvalue,
      hsmall⟩
    have hcore : ∀ c ∈ sign ++ digits, isBlank c = false := by
      intro c hc
      rcases List.mem_append.mp hc with hmem | hmem
      · rcases hsign with rfl | rfl
        · cases hmem
        · rw [List.mem_singleton.mp hmem]
          decide
      · exact not_isBlank_of_isDigit (hdigits c hmem)
    have htrim : (trim text).toList = sign ++ digits :=
      toList_trim htext hbefore hafter hcore (List.append_ne_nil_of_right_ne_nil sign hsome)
    rw [htrim, unsigned_append hsign hdigits]
    exact ⟨⟨hsome, hdigits, hvalue⟩, hsmall⟩

end Offside.Text
