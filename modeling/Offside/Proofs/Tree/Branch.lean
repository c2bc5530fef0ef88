import Offside.Tree.Basic

/-!
# The right end of a forest

Every item of a forest has an address: the number of an outermost call, then of one of its
arguments, and so on. The rightmost branch goes from the last outermost call to the last
argument, and on as long as that is a call. What is put at its end leaves all other items
where they are.
-/

namespace Offside

namespace Item

/-- The items directly inside an item. -/
def parts : Item → List Item
  | .text _ => []
  | .call _ _ arguments => arguments
  | .quoted items => items

/-- The item at an address inside an item, each number counting the items inside the one
before. -/
def descend? (item : Item) : List Nat → Option Item
  | [] => some item
  | number :: address => item.parts[number]?.bind fun part => part.descend? address

end Item

/-- The item at an address in a forest. -/
def Call.descend? (calls : List Call) (address : List Nat) : Option Item :=
  (Item.quoted (calls.map Call.toItem)).descend? address

/-- A call that is the last one of some items, apart from its arguments. -/
structure Bough where
  /-- The items before the call. -/
  earlier : List Item
  /-- The name of the call. -/
  name : String
  /-- Where the call was written. -/
  position : Position

namespace Bough

/-- The items that end in a branch: each call is the last argument of the call before it, and
the last call has the given arguments. -/
def bear : List Bough → List Item → List Item
  | [], tip => tip
  | bough :: branch, tip => bough.earlier ++ [.call bough.name bough.position (bear branch tip)]

/-- The address of the last call of a branch. -/
def address (branch : List Bough) : List Nat :=
  branch.map fun bough => bough.earlier.length

/-- The last call of a branch is the last argument of the call before it. -/
theorem bear_concat (branch : List Bough) (bough : Bough) (tip : List Item) :
    bear (branch ++ [bough]) tip =
      bear branch (bough.earlier ++ [.call bough.name bough.position tip]) := by
  induction branch with
  | nil => rfl
  | cons first branch ih => rw [List.cons_append, bear, bear, ih]

/-- The last call of a branch stands behind the items that come earlier in its list. -/
theorem address_concat (branch : List Bough) (bough : Bough) :
    address (branch ++ [bough]) = address branch ++ [bough.earlier.length] :=
  List.map_append

/-- Behind the address of the last call the numbers count its arguments. -/
theorem descend?_tip {branch : List Bough} {tip : List Item} {item : Item}
    (hitem : item.parts = bear branch tip) (number : Nat) (inside : List Nat) :
    item.descend? (address branch ++ number :: inside) =
      tip[number]?.bind fun part => part.descend? inside := by
  induction branch generalizing item with
  | nil =>
    change (item.parts[number]?.bind fun part => part.descend? inside) = _
    rw [hitem, bear]
  | cons bough branch ih =>
    change (item.parts[bough.earlier.length]?.bind fun part =>
      part.descend? (address branch ++ number :: inside)) = _
    rw [hitem, bear, List.getElem?_concat_length, Option.bind_some, ih rfl]

/-- A change at the end of a branch that affects one number there, under which there was no
item or one without parts, leaves all items where they are but for those on the branch. -/
theorem descend?_of_kept {branch : List Bough} {tip changed : List Item} {number : Nat}
    {found : Item} {place : List Nat} (item next : Item)
    (hitem : item.parts = bear branch tip) (hnext : next.parts = bear branch changed)
    (hkept : ∀ other, other ≠ number → ∀ part, tip[other]? = some part →
      changed[other]? = some part)
    (hleaf : ∀ part, tip[number]? = some part → part.parts = [])
    (hplace : ¬ place <+: address branch ++ [number]) (hfound : item.descend? place = some found) :
    next.descend? place = some found := by
  induction branch generalizing item next place with
  | nil =>
    cases place with
    | nil => exact absurd List.nil_prefix hplace
    | cons first inside =>
      obtain ⟨part, hpart, hinside⟩ := Option.bind_eq_some_iff.mp hfound
      rw [hitem, bear] at hpart
      rcases Decidable.em (first = number) with rfl | hother
      · -- there is nothing inside what changes, and it is not asked for itself
        cases inside with
        | nil => exact absurd List.prefix_rfl hplace
        | cons second deeper =>
          rw [Item.descend?, hleaf part hpart] at hinside
          cases hinside
      · rw [Item.descend?, hnext, bear, hkept first hother part hpart]
        exact hinside
  | cons bough branch ih =>
    cases place with
    | nil => exact absurd List.nil_prefix hplace
    | cons first inside =>
      obtain ⟨part, hpart, hinside⟩ := Option.bind_eq_some_iff.mp hfound
      rw [hitem, bear] at hpart
      rw [Item.descend?, hnext, bear]
      rcases Decidable.em (first = bough.earlier.length) with rfl | hother
      · rw [List.getElem?_concat_length] at hpart ⊢
        obtain rfl := Option.some.inj hpart
        refine ih _ _ rfl rfl ?_ hinside
        intro habove
        exact hplace (List.cons_prefix_cons.mpr ⟨rfl, habove⟩)
      · have hlt : first < bough.earlier.length := by
          have hlength := (List.getElem?_eq_some_iff.mp hpart).1
          rw [List.length_append, List.length_singleton] at hlength
          omega
        rw [List.getElem?_append_left hlt] at hpart ⊢
        rw [hpart]
        exact hinside

/-- Above the end of a branch there are only its calls. -/
theorem exists_mem_of_descend? {branch : List Bough} {tip : List Item} {item found : Item}
    {place : List Nat} (hitem : item.parts = bear branch tip) (hplace : place <+: address branch)
    (hfound : item.descend? place = some found) :
    place = [] ∨
      ∃ bough ∈ branch, ∃ arguments, found = .call bough.name bough.position arguments := by
  induction branch generalizing item place with
  | nil => exact .inl (List.prefix_nil.mp hplace)
  | cons bough branch ih =>
    cases place with
    | nil => exact .inl rfl
    | cons number inside =>
      obtain ⟨rfl, hinside⟩ := List.cons_prefix_cons.mp hplace
      rw [Item.descend?, hitem, bear, List.getElem?_concat_length, Option.bind_some] at hfound
      rcases ih rfl hinside hfound with rfl | ⟨deeper, hdeeper, arguments, rfl⟩
      · exact .inr ⟨bough, List.mem_cons_self, _, (Option.some.inj hfound).symm⟩
      · exact .inr ⟨deeper, List.mem_cons_of_mem bough hdeeper, arguments, rfl⟩

end Bough

namespace Call

variable {calls next : List Call} {branch : List Bough} {place : List Nat} {found : Item}

/-- There is nothing behind the last argument at the end of a branch. -/
theorem descend?_behind {tip : List Item} (h : calls.map toItem = Bough.bear branch tip) :
    descend? calls (Bough.address branch ++ [tip.length]) = none := by
  have hparts : (Item.quoted (calls.map toItem)).parts = Bough.bear branch tip := h
  rw [descend?, Bough.descend?_tip hparts, List.getElem?_eq_none (Nat.le_refl _),
    Option.bind_none]

/-- An argument that is added at the end of a branch leaves all items where they are but for
the calls of the branch. -/
theorem descend?_of_added {tip : List Item} {item : Item}
    (hcalls : calls.map toItem = Bough.bear branch tip)
    (hnext : next.map toItem = Bough.bear branch (tip ++ [item]))
    (hplace : ¬ place <+: Bough.address branch) (hfound : descend? calls place = some found) :
    descend? next place = some found := by
  have hbehind : ¬ place <+: Bough.address branch ++ [tip.length] := by
    intro habove
    rcases List.prefix_concat_iff.mp habove with rfl | habove
    · rw [descend?_behind hcalls] at hfound
      cases hfound
    · exact hplace habove
  refine Bough.descend?_of_kept (.quoted (calls.map toItem)) (.quoted (next.map toItem))
    hcalls hnext ?_ ?_ hbehind hfound
  · intro other _ part hpart
    rw [List.getElem?_append_left (List.getElem?_eq_some_iff.mp hpart).1, hpart]
  · intro part hpart
    rw [List.getElem?_eq_none (Nat.le_refl _)] at hpart
    cases hpart

/-- A text that goes on at the end of a branch leaves all items where they are but for itself
and the calls of the branch. -/
theorem descend?_of_continued {earlier : List Item} {start grown : String}
    (hcalls : calls.map toItem = Bough.bear branch (earlier ++ [.text start]))
    (hnext : next.map toItem = Bough.bear branch (earlier ++ [.text grown]))
    (hplace : ¬ place <+: Bough.address branch ++ [earlier.length])
    (hfound : descend? calls place = some found) : descend? next place = some found := by
  refine Bough.descend?_of_kept (.quoted (calls.map toItem)) (.quoted (next.map toItem))
    hcalls hnext ?_ ?_ hplace hfound
  · intro other hother part hpart
    have hlength := (List.getElem?_eq_some_iff.mp hpart).1
    rw [List.length_append, List.length_singleton] at hlength
    have hlt : other < earlier.length := by omega
    rw [List.getElem?_append_left hlt] at hpart ⊢
    exact hpart
  · intro part hpart
    rw [List.getElem?_concat_length] at hpart
    obtain rfl := Option.some.inj hpart
    rfl

end Call

end Offside
