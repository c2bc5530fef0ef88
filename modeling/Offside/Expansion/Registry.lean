import Std.Data.TreeMap
import Offside.Expansion.Action
import Offside.Text.Quoted

/-!
# Registries

A registry knows macros by their full names, sigils included. Names are listed in the
order of their code points. What macros keep of their arguments lies in a memory of its
own, under the same names.
-/

namespace Offside

/-- Macros by name. -/
structure Registry (ε : Type) where
  /-- The entries, ordered by name. -/
  entries : Std.TreeMap String (Macro ε)

namespace Registry

variable {ε : Type}

/-- The registry without macros. -/
def empty : Registry ε := ⟨∅⟩

/-- The macro of a name, if there is one. -/
def find? (registry : Registry ε) (name : String) : Option (Macro ε) :=
  registry.entries[name]?

/-- Whether a name has a macro. -/
def contains (registry : Registry ε) (name : String) : Bool :=
  registry.entries.contains name

/-- Gives a name a macro, in place of any that it had. -/
def insert (registry : Registry ε) (name : String) (entry : Macro ε) : Registry ε :=
  ⟨registry.entries.insert name entry⟩

/-- Takes the macro of a name away. -/
def erase (registry : Registry ε) (name : String) : Registry ε :=
  ⟨registry.entries.erase name⟩

/-- How many names have a macro. -/
def size (registry : Registry ε) : Nat :=
  registry.entries.size

/-- Whether no name has a macro. -/
def isEmpty (registry : Registry ε) : Bool :=
  registry.entries.isEmpty

/-- The names that have a macro, in the order of their code points. -/
def names (registry : Registry ε) : List String :=
  registry.entries.keys

/-- A description that lists the names. -/
def display (registry : Registry ε) : String :=
  "MacroRegistry \x7b macros: [" ++ ", ".intercalate (registry.names.map Text.quoteText) ++ "] \x7d"

/-- A registry without macros knows no name. -/
theorem find?_empty (name : String) : (empty : Registry ε).find? name = none := by
  simp [find?, empty]

/-- Only the name that is given a macro is affected. -/
theorem find?_insert (registry : Registry ε) (name other : String) (entry : Macro ε) :
    (registry.insert name entry).find? other =
      if name = other then some entry else registry.find? other := by
  simp [find?, insert, Std.TreeMap.getElem?_insert]

/-- Only the name whose macro is taken away is affected. -/
theorem find?_erase (registry : Registry ε) (name other : String) :
    (registry.erase name).find? other = if name = other then none else registry.find? other := by
  simp [find?, erase, Std.TreeMap.getElem?_erase]

/-- A name has a macro when one is found. -/
theorem contains_eq_isSome (registry : Registry ε) (name : String) :
    registry.contains name = (registry.find? name).isSome :=
  Std.TreeMap.contains_eq_isSome_getElem?

end Registry

/-- What macros keep of their arguments, by name. -/
structure Memory where
  /-- The kept arguments of the latest call. -/
  kept : Std.TreeMap String (List Item)

namespace Memory

/-- The memory that keeps nothing. -/
def empty : Memory := ⟨∅⟩

/-- The arguments kept under a name, none if nothing was kept. -/
def get (memory : Memory) (name : String) : List Item :=
  memory.kept.getD name []

/-- Keeps arguments under a name, in place of any that were kept there. -/
def keep (memory : Memory) (name : String) (arguments : List Item) : Memory :=
  ⟨memory.kept.insert name arguments⟩

/-- Forgets what is kept under a name. -/
def forget (memory : Memory) (name : String) : Memory :=
  ⟨memory.kept.erase name⟩

/-- At first no macro has kept anything. -/
theorem get_empty (name : String) : empty.get name = [] := by
  simp [get, empty]

/-- Only the name under which arguments are kept is affected. -/
theorem get_keep (memory : Memory) (name other : String) (arguments : List Item) :
    (memory.keep name arguments).get other =
      if name = other then arguments else memory.get other := by
  simp [get, keep, Std.TreeMap.getD_insert]

/-- Only the name that is forgotten is affected. -/
theorem get_forget (memory : Memory) (name other : String) :
    (memory.forget name).get other = if name = other then [] else memory.get other := by
  simp [get, forget, Std.TreeMap.getD_erase]

end Memory

end Offside
