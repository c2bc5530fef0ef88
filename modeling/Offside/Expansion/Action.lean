import Offside.Fault
import Offside.Tree.Basic

/-!
# What a macro does

The evaluator of a macro is a tree of steps. It may ask for items to be expanded and
go on in a way that depends on the answer, also when the answer is a fault; it may
change the environment, look at the arguments that were kept for it, and log values.
Every such tree ends, by yielding items or by failing, whatever the answers.
-/

namespace Offside

/-- Something to be expanded. -/
inductive Request where
  /-- A list of items. -/
  | items (items : List Item)
  /-- A list of calls. -/
  | calls (calls : List Call)

/-- What an evaluator does, over environments of the given type. -/
inductive Action (ε : Type) where
  /-- Ends with the given items. -/
  | yield (output : List Item)
  /-- Ends with a fault. -/
  | fail (fault : Fault)
  /-- Asks for an expansion and goes on with what came of it. -/
  | expand (request : Request) (next : Except Fault (List Item) → Action ε)
  /-- Looks at the arguments that were kept for the macro and goes on with them. -/
  | recall (next : List Item → Action ε)
  /-- Changes the environment and goes on with the new one. -/
  | update (change : ε → ε) (next : ε → Action ε)
  /-- Logs a value and goes on. -/
  | log (value : String) (next : Action ε)

/-- A macro over environments of the given type. -/
structure Macro (ε : Type) where
  /-- Whether the raw arguments of each call are kept for the evaluator. -/
  keeps : Bool := false
  /-- What becomes of the raw arguments before they are expanded. -/
  transform : List Item → ε → Except Fault (List Item) × ε := fun arguments env =>
    (.ok arguments, env)
  /-- What the macro does with its expanded arguments. -/
  evaluate : List Item → Action ε

end Offside
