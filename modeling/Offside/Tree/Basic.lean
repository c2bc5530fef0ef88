import Offside.Position

/-!
# Calls and items

A source is read as a forest of calls. A call has a name, the place where it was
written, and a list of items as its arguments. The same items are what expansion
produces, so they are the values of the language: literal text, a call, or a list
that is handed on as it stands.
-/

namespace Offside

/-- An argument of a call, and a value of expansion. -/
inductive Item where
  /-- Literal text. -/
  | text (content : String)
  /-- A call of the macro with the given name, written at the given place. -/
  | call (name : String) (position : Position) (arguments : List Item)
  /-- Items that expansion hands on without looking inside. -/
  | quoted (items : List Item)

/-- A call on its own, as the roots of a forest are. -/
structure Call where
  /-- The name of the macro, sigils included. -/
  name : String
  /-- Where the call was written. -/
  position : Position
  /-- The arguments in order. -/
  arguments : List Item

/-- The call as an argument or a value. -/
def Call.toItem (call : Call) : Item :=
  .call call.name call.position call.arguments

namespace Item

/-- The content of a text. -/
def text? : Item → Option String
  | .text content => some content
  | _ => none

/-- The call that an item is. -/
def call? : Item → Option Call
  | .call name position arguments => some ⟨name, position, arguments⟩
  | _ => none

/-- The items that an item stands for once one level of quoting is removed. -/
def unquoted : Item → List Item
  | .quoted items => items
  | item => [item]

/-! ### Written form -/

/-- What stands between a name or an argument and the argument after it. A text
carries its own leading blanks, so nothing is put before it. -/
def separator : Item → String
  | .text _ => ""
  | _ => " "

mutual

/-- The written form of an item: a text as it is, a call on one line, and quoted
items one after the other. -/
def display : Item → String
  | .text content => content
  | .call name _ arguments => name ++ displayArguments arguments
  | .quoted items => displayAll items

/-- The written form of arguments, each after its separator. -/
def displayArguments : List Item → String
  | [] => ""
  | item :: rest => item.separator ++ item.display ++ displayArguments rest

/-- The written forms of items, joined without anything between them. -/
def displayAll : List Item → String
  | [] => ""
  | item :: rest => item.display ++ displayAll rest

end

/-! ### Equality -/

mutual

/-- Whether two items are the same, positions included. -/
def same : Item → Item → Bool
  | .text a, .text b => a == b
  | .call n p as, .call m q bs => n == m && p == q && sameAll as bs
  | .quoted as, .quoted bs => sameAll as bs
  | _, _ => false

/-- Whether two lists of items are the same, item for item. -/
def sameAll : List Item → List Item → Bool
  | [], [] => true
  | a :: as, b :: bs => a.same b && sameAll as bs
  | _, _ => false

end

mutual

/-- Items are the same exactly when they are equal. -/
theorem same_iff : ∀ (a b : Item), a.same b = true ↔ a = b
  | .text a, .text b => by simp [same]
  | .call n p as, .call m q bs => by simp [same, sameAll_iff as bs, and_assoc]
  | .quoted as, .quoted bs => by simp [same, sameAll_iff as bs]
  | .text _, .call .. => by simp [same]
  | .text _, .quoted _ => by simp [same]
  | .call .., .text _ => by simp [same]
  | .call .., .quoted _ => by simp [same]
  | .quoted _, .text _ => by simp [same]
  | .quoted _, .call .. => by simp [same]

/-- Lists of items are the same exactly when they are equal. -/
theorem sameAll_iff : ∀ (as bs : List Item), sameAll as bs = true ↔ as = bs
  | [], [] => by simp [sameAll]
  | a :: as, b :: bs => by simp [sameAll, same_iff a b, sameAll_iff as bs]
  | [], _ :: _ => by simp [sameAll]
  | _ :: _, [] => by simp [sameAll]

end

/-- Equality of items is decided by comparing them. -/
instance : DecidableEq Item := fun a b => decidable_of_iff _ (same_iff a b)

end Item

deriving instance DecidableEq for Call

namespace Call

/-- The written form of a call, which fits on one line when its texts do. -/
def display (call : Call) : String :=
  call.toItem.display

end Call

end Offside
