import Offside.Expansion.Action
import Offside.Tree.Nesting
import Offside.Text.Blank

/-!
# A stock of macros

Macros put together from a transformer and an evaluator, each chosen from a list. They
cover what a macro can do: keep, drop, reorder or replace arguments, count, fail, and
call for expansions in every way. Their environment is a tally: a counter, and a trace
of which macro was called with how many arguments.
-/

namespace Offside

/-- The environment of the stock macros. -/
structure Tally where
  /-- A counter. -/
  count : Nat := 0
  /-- What happened, latest first. -/
  trace : List String := []

namespace Tally

/-- Adds an entry to the trace. -/
def record (tally : Tally) (entry : String) : Tally :=
  { tally with trace := entry :: tally.trace }

/-- Counts one more. -/
def increment (tally : Tally) : Tally :=
  { tally with count := tally.count + 1 }

end Tally

namespace Stock

/-- What becomes of the raw arguments. -/
inductive Transformer where
  /-- Not at all, and nothing is recorded. -/
  | silent
  /-- They stay the same. -/
  | identity
  /-- They are dropped. -/
  | drop
  /-- They become one quoted item. -/
  | quote
  /-- They are put in reverse order. -/
  | reverse
  /-- The first is dropped. -/
  | tail
  /-- They stay the same, and the counter grows. -/
  | count
  /-- They are replaced by the given items. -/
  | const (items : List Item)
  /-- The call fails. -/
  | fail (message : String)

/-- What is done with the expanded arguments. -/
inductive Evaluator where
  /-- They are yielded. -/
  | identity
  /-- Nothing is yielded. -/
  | drop
  /-- Their written forms are yielded as one text. -/
  | join
  /-- Their written forms are yielded as one text in brackets. -/
  | bracket
  /-- The written form of each is yielded as a text in angle brackets. -/
  | each
  /-- They are yielded as one quoted item. -/
  | quote
  /-- A call of the given name with them as its arguments is yielded. -/
  | node (name : String)
  /-- The counter grows and is yielded. -/
  | count
  /-- How deeply calls nest in them is yielded. -/
  | depth
  /-- The given items are yielded. -/
  | const (items : List Item)
  /-- They are expanded, with quoted ones opened first. -/
  | expand
  /-- The given items are expanded. -/
  | expandItems (items : List Item)
  /-- The given calls are expanded. -/
  | expandCalls (calls : List Call)
  /-- They are expanded two times. -/
  | twice
  /-- The counter grows, and the macro calls itself until it has reached a bound. -/
  | until (bound : Nat)
  /-- They are expanded, and the message of a fault is yielded as a text. -/
  | try
  /-- The call fails. -/
  | fail (message : String)
  /-- The call fails with the written forms of the arguments as its message. -/
  | failArguments

/-- The text of a trace entry: what is called, its name and the number of its arguments. -/
def traceEntry (kind name : String) (arguments : List Item) : String :=
  kind ++ " " ++ name ++ " " ++ toString arguments.length

/-- Records a call and transforms its raw arguments. -/
def Transformer.apply (transformer : Transformer) (name : String) (arguments : List Item)
    (tally : Tally) : Except Fault (List Item) × Tally :=
  let recorded := tally.record (traceEntry "T" name arguments)
  match transformer with
  | .silent => (.ok arguments, tally)
  | .identity => (.ok arguments, recorded)
  | .drop => (.ok [], recorded)
  | .quote => (.ok [.quoted arguments], recorded)
  | .reverse => (.ok arguments.reverse, recorded)
  | .tail => (.ok arguments.tail, recorded)
  | .count => (.ok arguments, recorded.increment)
  | .const items => (.ok items, recorded)
  | .fail message => (.error (.custom message), recorded)

/-- Ends with what an expansion came to. -/
def finish : Except Fault (List Item) → Action Tally
  | .ok items => .yield items
  | .error fault => .fail fault

/-- What an evaluator does once the call is recorded. -/
def Evaluator.act (evaluator : Evaluator) (name : String) (arguments : List Item) :
    Action Tally :=
  let opened := arguments.flatMap Item.unquoted
  match evaluator with
  | .identity => .yield arguments
  | .drop => .yield []
  | .join => .yield [.text (Item.displayAll arguments)]
  | .bracket => .yield [.text ("[" ++ Item.displayAll arguments ++ "]")]
  | .each => .yield (arguments.map fun item => .text ("<" ++ item.display ++ ">"))
  | .quote => .yield [.quoted arguments]
  | .node callee => .yield [.call callee .nowhere arguments]
  | .count => .update Tally.increment fun tally => .yield [.text (toString tally.count)]
  | .depth => .yield [.text (toString (Item.nesting arguments))]
  | .const items => .yield items
  | .expand => .expand (.items opened) finish
  | .expandItems items => .expand (.items items) finish
  | .expandCalls calls => .expand (.calls calls) finish
  | .twice => .expand (.items opened) fun
    | .error fault => .fail fault
    | .ok first => .expand (.items opened) fun
      | .error fault => .fail fault
      | .ok second => .yield (first ++ second)
  | .until bound => .update Tally.increment fun tally =>
    if bound ≤ tally.count then .yield [.text "done"]
    else .expand (.items [.call name .nowhere []]) finish
  | .try => .expand (.items opened) fun
    | .ok items => .yield items
    | .error fault => .yield [.text ("!" ++ fault.message)]
  | .fail message => .fail (.custom message)
  | .failArguments => .fail (.custom (Text.trim (Item.displayAll arguments)))

/-- What an evaluator does. -/
def Evaluator.apply (evaluator : Evaluator) (name : String) (arguments : List Item) :
    Action Tally :=
  .update (fun tally => tally.record (traceEntry "V" name arguments)) fun _ =>
    evaluator.act name arguments

/-- The macro of the given name that a transformer and an evaluator make up. -/
def compose (name : String) (transformer : Transformer) (evaluator : Evaluator) : Macro Tally where
  transform := transformer.apply name
  evaluate := evaluator.apply name

/-- Records the written form of each argument. -/
def recorder : Item → Action Tally → Action Tally := fun item next =>
  .update (fun tally => tally.record ("L " ++ item.display)) fun _ => next

end Stock

end Offside
