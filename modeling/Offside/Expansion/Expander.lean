import Offside.Event
import Offside.Expansion.Registry
import Offside.Tree.Nesting

/-!
# Expansion

Expansion walks over items from left to right. Texts and quoted items stay as they are,
and a call is replaced by what its macro makes of it: the raw arguments are transformed,
the result is expanded, and the expanded arguments are handed to the evaluator, which may
ask for further expansions. At any moment at most `limit` calls are active. A list whose
calls nest more deeply than the levels that are left is refused before anything runs.
-/

namespace Offside

/-- What expansion reads and changes as it goes. -/
structure Run (ε : Type) where
  /-- How many calls are active. -/
  depth : Nat
  /-- What macros keep of their arguments. -/
  memory : Memory
  /-- The environment of the macros. -/
  environment : ε
  /-- The events so far, latest first. -/
  events : List Event

namespace Run

variable {ε : Type}

/-- A run with no active call. -/
def start (memory : Memory) (environment : ε) : Run ε := ⟨0, memory, environment, []⟩

/-- Announces an event. -/
def announce (run : Run ε) (event : Event) : Run ε :=
  { run with events := event :: run.events }

/-- One more call is active. -/
def enter (run : Run ε) : Run ε :=
  { run with depth := run.depth + 1 }

/-- One call less is active. -/
def leave (run : Run ε) : Run ε :=
  { run with depth := run.depth - 1 }

end Run

/-- The items that an expansion produced, or why it failed. -/
abbrev Outcome := Except Fault (List Item)

/-- Something that is done in the course of a run: it has an outcome and leaves a run. -/
abbrev Step (ε : Type) := Run ε → Outcome × Run ε

/-- Transforms the raw arguments of a call, and keeps them first if the macro asks for that. -/
def Macro.prepare {ε : Type} (entry : Macro ε) (name : String) (arguments : List Item) :
    Step ε := fun run =>
  let memory := if entry.keeps then run.memory.keep name arguments else run.memory
  let result := entry.transform arguments run.environment
  (result.1, { run with memory, environment := result.2 })

namespace Expansion

variable {ε : Type}

/-! ### Lists, given how to expand one call -/

/-- Expands items one after the other, behind the `output` so far, latest first. -/
def serveItems (expandCall : Call → Step ε) (output : List Item) : List Item → Step ε
  | [], run => (.ok output.reverse, run)
  | .call name position arguments :: rest, run =>
    match expandCall ⟨name, position, arguments⟩ run with
    | (.error fault, run) => (.error fault, run)
    | (.ok items, run) => serveItems expandCall (items.reverse ++ output) rest run
  | .text content :: rest, run => serveItems expandCall (.text content :: output) rest run
  | .quoted items :: rest, run => serveItems expandCall (.quoted items :: output) rest run

/-- Expands calls one after the other, behind the `output` so far, latest first. -/
def serveCalls (expandCall : Call → Step ε) (output : List Item) : List Call → Step ε
  | [], run => (.ok output.reverse, run)
  | call :: rest, run =>
    match expandCall call run with
    | (.error fault, run) => (.error fault, run)
    | (.ok items, run) => serveCalls expandCall (items.reverse ++ output) rest run

/-- What was put out before stays in front of what the items expand to. -/
theorem serveItems_eq_map (expandCall : Call → Step ε) (output items : List Item) (run : Run ε) :
    serveItems expandCall output items run =
      ((serveItems expandCall [] items run).1.map (output.reverse ++ ·),
        (serveItems expandCall [] items run).2) := by
  induction items generalizing output run with
  | nil => simp [serveItems, Except.map]
  | cons item rest ih =>
    cases item with
    | text content =>
      simp only [serveItems]
      rw [ih (.text content :: output), ih [.text content]]
      cases (serveItems expandCall [] rest run).1 <;> simp [Except.map]
    | quoted items =>
      simp only [serveItems]
      rw [ih (.quoted items :: output), ih [.quoted items]]
      cases (serveItems expandCall [] rest run).1 <;> simp [Except.map]
    | call name position arguments =>
      simp only [serveItems]
      cases h : expandCall ⟨name, position, arguments⟩ run with
      | mk outcome after =>
        cases outcome with
        | error fault => rfl
        | ok items =>
          simp only []
          rw [ih (items.reverse ++ output), ih (items.reverse ++ [])]
          cases (serveItems expandCall [] rest after).1 <;> simp [Except.map]

/-- Goes on only if calls that nest so deeply find enough levels left. -/
def withinBudget (limit nesting : Nat) (next : Step ε) : Step ε := fun run =>
  if limit - run.depth < nesting then (.error (.expandedTooDeep limit), run) else next run

/-- Expands a list of items. -/
def expandItems (limit : Nat) (expandCall : Call → Step ε) (items : List Item) : Step ε :=
  withinBudget limit (Item.nesting items) (serveItems expandCall [] items)

/-- The nesting of the call among many that nests most deeply, none counting as zero. -/
def deepestCall (calls : List Call) : Nat :=
  calls.foldl (fun deepest call => max deepest call.nesting) 0

/-- Expands a list of calls. -/
def expandCalls (limit : Nat) (expandCall : Call → Step ε) (calls : List Call) : Step ε :=
  withinBudget limit (deepestCall calls) (serveCalls expandCall [] calls)

/-- Expands what an evaluator asks for. -/
def expandRequest (limit : Nat) (expandCall : Call → Step ε) : Request → Step ε
  | .items items => expandItems limit expandCall items
  | .calls calls => expandCalls limit expandCall calls

/-! ### Calls -/

/-- Does what an evaluator does, for the macro of the given name. -/
def perform (expand : Request → Step ε) (name : String) : Action ε → Step ε
  | .yield output, run => (.ok output, run)
  | .fail fault, run => (.error fault, run)
  | .expand request next, run =>
    let (outcome, run) := expand request run
    perform expand name (next outcome) run
  | .recall next, run => perform expand name (next (run.memory.get name)) run
  | .update change next, run =>
    let environment := change run.environment
    perform expand name (next environment) { run with environment }
  | .log value next, run => perform expand name next (run.announce (.logged value))

/-- Transforms the arguments of a call, expands them and evaluates the macro on them. -/
def invoke (limit : Nat) (expandCall : Call → Step ε) (entry : Macro ε) (call : Call) : Step ε :=
  fun run =>
    match entry.prepare call.name call.arguments run with
    | (.error fault, run) => (.error fault, run)
    | (.ok prepared, run) =>
      match expandItems limit expandCall prepared run with
      | (.error fault, run) => (.error fault, run)
      | (.ok arguments, run) =>
        perform (expandRequest limit expandCall) call.name (entry.evaluate arguments) run

/-- Expands a call with at most so many further levels of calls below it. Before the
levels can run out, as many calls are active as the limit allows. -/
def expandCall (registry : Registry ε) (limit : Nat) : Nat → Call → Step ε
  | 0, _, run => (.error (.expandedTooDeep limit), run)
  | levels + 1, call, run =>
    match registry.find? call.name with
    | none => (.error (.unknownMacro call.name call.position), run)
    | some entry =>
      if limit ≤ run.depth then (.error (.expandedTooDeep limit), run)
      else
        let event := .expanding call.name call.position run.depth
        let (outcome, run) :=
          invoke limit (expandCall registry limit levels) entry call (run.announce event).enter
        (outcome, run.leave)

end Expansion

/-- What expands items: a registry, and how many calls may be active at once. -/
structure Expander (ε : Type) where
  /-- The known macros. -/
  registry : Registry ε
  /-- How many calls may be active at once. -/
  limit : Nat := 128

namespace Expander

variable {ε : Type}

/-- Expands a call as deep as the limit allows, from however many calls are active. -/
def expandCall (expander : Expander ε) (call : Call) : Step ε := fun run =>
  Expansion.expandCall expander.registry expander.limit (expander.limit - run.depth + 1) call run

/-- Expands a list of items or of calls. -/
def expand (expander : Expander ε) (request : Request) : Step ε := fun run =>
  Expansion.expandRequest expander.limit
    (Expansion.expandCall expander.registry expander.limit (expander.limit - run.depth + 1))
    request run

/-- Lets a macro, registered under the given name, evaluate arguments as they are. -/
def evaluate (expander : Expander ε) (name : String) (entry : Macro ε) (arguments : List Item) :
    Step ε :=
  Expansion.perform expander.expand name (entry.evaluate arguments)

/-- Expands lists one after the other, each from the run that the one before left, whether
or not that one failed. -/
def expandEach (expander : Expander ε) : List Request → Run ε → List Outcome × Run ε
  | [], run => ([], run)
  | request :: rest, run =>
    let (outcome, run) := expander.expand request run
    let (outcomes, run) := expander.expandEach rest run
    (outcome :: outcomes, run)

end Expander

end Offside
