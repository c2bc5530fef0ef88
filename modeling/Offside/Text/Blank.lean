import Offside.Text.CodePoint

/-!
# Blank characters

A character is blank when it has the Unicode property `White_Space`. There are
twenty-five such characters, and the set has been stable for many versions.
-/

namespace Offside.Text

/-- The code points with the property `White_Space`, as inclusive ranges in order. -/
def blankRanges : List (Nat × Nat) :=
  [(0x0009, 0x000D), (0x0020, 0x0020), (0x0085, 0x0085), (0x00A0, 0x00A0),
   (0x1680, 0x1680), (0x2000, 0x200A), (0x2028, 0x2029), (0x202F, 0x202F),
   (0x205F, 0x205F), (0x3000, 0x3000)]

/-- Whether a character is blank. -/
def isBlank (c : Char) : Bool :=
  inRanges blankRanges c.toNat

/-- No visible ASCII character is blank. -/
theorem not_isBlank_of_visible {c : Char} (hlow : 0x21 ≤ c.toNat) (hhigh : c.toNat ≤ 0x7E) :
    isBlank c = false := by
  cases hblank : isBlank c with
  | false => rfl
  | true =>
    obtain ⟨range, hmem, hfirst, hlast⟩ := inRanges_iff.mp hblank
    simp only [blankRanges, List.mem_cons, List.not_mem_nil, or_false] at hmem
    rcases hmem with rfl | rfl | rfl | rfl | rfl | rfl | rfl | rfl | rfl | rfl <;> omega

/-- Whether a text holds nothing but blank characters, or nothing at all. -/
def isBlankText (text : String) : Bool :=
  text.toList.all isBlank

/-- A text without the blank characters at its two ends. -/
def trim (text : String) : String :=
  let front := text.toList.dropWhile isBlank
  String.ofList (front.reverse.dropWhile isBlank).reverse

end Offside.Text
