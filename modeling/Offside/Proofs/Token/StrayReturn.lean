import Mathlib.Data.Nat.Find
import Mathlib.Tactic.ByContra
import Offside.Token.Placing

/-!
# Stray carriage returns

A carriage return belongs in front of a line feed. A text is free of stray returns if all of its
carriage returns stand there; if not, there is a first one that does not.
-/

namespace Offside

/-- A carriage return that no line feed follows. -/
def IsStrayReturn (chars : List Char) (i : Nat) : Prop :=
  chars[i]? = some '\r' ∧ chars[i + 1]? ≠ some '\n'

/-- No carriage return is without its line feed. -/
def Unstrayed (chars : List Char) : Prop :=
  ∀ i, ¬ IsStrayReturn chars i

/-- An empty text has no returns at all. -/
theorem unstrayed_nil : Unstrayed [] := fun _ h => by simp [IsStrayReturn] at h

/-- A stray return behind the first character is one of the text that begins there. -/
theorem isStrayReturn_succ (c : Char) (rest : List Char) (i : Nat) :
    IsStrayReturn (c :: rest) (i + 1) ↔ IsStrayReturn rest i := by
  simp [IsStrayReturn]

/-- A text is free of stray returns when its rest is, and its first character is not one. -/
theorem unstrayed_cons {c : Char} {rest : List Char} :
    Unstrayed (c :: rest) ↔ (c = '\r' → rest.head? = some '\n') ∧ Unstrayed rest := by
  constructor
  · intro h
    constructor
    · intro hc
      by_contra hhead
      exact h 0 ⟨by simp [hc], by simpa [List.head?_eq_getElem?] using hhead⟩
    · intro i hi
      exact h (i + 1) ((isStrayReturn_succ c rest i).mpr hi)
  · rintro ⟨hfirst, hrest⟩ i hi
    cases i with
    | zero =>
      obtain ⟨hreturn, hfeed⟩ := hi
      have hhead := hfirst (by simpa using hreturn)
      exact hfeed (by simpa [List.head?_eq_getElem?] using hhead)
    | succ i => exact hrest i ((isStrayReturn_succ c rest i).mp hi)

/-- Characters in front that are no returns are not astray. -/
theorem unstrayed_append {front back : List Char} (hfront : '\r' ∉ front) (hback : Unstrayed back) :
    Unstrayed (front ++ back) := by
  induction front with
  | nil => exact hback
  | cons c front ih =>
    apply unstrayed_cons.mpr
    constructor
    · rintro rfl
      exact absurd List.mem_cons_self hfront
    · apply ih
      intro hmem
      exact hfront (List.mem_cons_of_mem c hmem)

/-- A line break is not astray. -/
theorem unstrayed_break (kind : LineBreak) {back : List Char} (hback : Unstrayed back) :
    Unstrayed (kind.chars ++ back) := by
  have hfeed : Unstrayed ('\n' :: back) :=
    unstrayed_cons.mpr ⟨fun h => absurd h (by decide), hback⟩
  cases kind with
  | feed => exact hfeed
  | returnFeed => exact unstrayed_cons.mpr ⟨fun _ => rfl, hfeed⟩

/-! ### The first stray return -/

/-- Only a carriage return can be astray. -/
theorem strayReturn?_cons_of_ne {c : Char} (h : c ≠ '\r') (place : Position) (rest : List Char) :
    strayReturn? place (c :: rest) = strayReturn? (place.step c) rest := by
  rw [strayReturn?]
  · intro _ heq
    exact absurd heq h
  · exact h

/-- A carriage return is astray unless a line feed comes next. -/
theorem strayReturn?_return (place : Position) (rest : List Char) :
    strayReturn? place ('\r' :: rest) =
      if rest.head? = some '\n' then strayReturn? (place.step '\r') rest else some place := by
  cases rest with
  | nil => rfl
  | cons d rest =>
    by_cases hd : d = '\n'
    · rw [hd, if_pos (List.head?_cons), strayReturn?, strayReturn?_cons_of_ne (by decide)]
    · rw [if_neg (by simpa using hd), strayReturn?]
      intro _ heq
      exact hd (List.cons.inj heq).1

/-- There is a stray return to report unless there is none. -/
theorem strayReturn?_eq_none_iff (place : Position) (chars : List Char) :
    strayReturn? place chars = none ↔ Unstrayed chars := by
  induction chars generalizing place with
  | nil => simp [strayReturn?, unstrayed_nil]
  | cons c rest ih =>
    rw [unstrayed_cons]
    by_cases hc : c = '\r'
    · subst hc
      rw [strayReturn?_return]
      by_cases hhead : rest.head? = some '\n'
      · simp [hhead, ih]
      · simp [hhead]
    · rw [strayReturn?_cons_of_ne hc, ih]
      simp [hc]

/-- The stray return that is reported is the first one. -/
theorem strayReturn?_of_first {chars : List Char} {i : Nat} (hi : IsStrayReturn chars i)
    (hfirst : ∀ j < i, ¬ IsStrayReturn chars j) (place : Position) :
    strayReturn? place chars = some (place.advance (chars.take i)) := by
  induction chars generalizing i place with
  | nil => simp [IsStrayReturn] at hi
  | cons c rest ih =>
    cases i with
    | zero =>
      obtain ⟨hreturn, hfeed⟩ := hi
      have hc : c = '\r' := by simpa using hreturn
      rw [hc, strayReturn?_return, if_neg (by simpa [List.head?_eq_getElem?] using hfeed)]
      rfl
    | succ i =>
      have hrest := ih ((isStrayReturn_succ c rest i).mp hi)
        (fun j hj hstray => hfirst (j + 1) (by omega) ((isStrayReturn_succ c rest j).mpr hstray))
        (place.step c)
      rw [List.take_succ_cons, Position.advance_cons, ← hrest]
      by_cases hc : c = '\r'
      · subst hc
        have hhead : rest.head? = some '\n' := by
          by_contra hhead
          exact hfirst 0 (by omega) ⟨by simp, by simpa [List.head?_eq_getElem?] using hhead⟩
        rw [strayReturn?_return, if_pos hhead]
      · rw [strayReturn?_cons_of_ne hc]

/-- A text with a stray return has a first one. -/
theorem exists_first_stray {chars : List Char} (h : ¬ Unstrayed chars) :
    ∃ i, IsStrayReturn chars i ∧ ∀ j < i, ¬ IsStrayReturn chars j := by
  classical
  have hexists : ∃ i, IsStrayReturn chars i := by simpa [Unstrayed] using h
  exact ⟨Nat.find hexists, Nat.find_spec hexists, fun j hj => Nat.find_min hexists hj⟩

end Offside
