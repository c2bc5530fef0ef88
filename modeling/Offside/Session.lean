import Offside.Expansion.Builtin
import Offside.Expansion.Expander
import Offside.FrontEnd

/-!
# Sessions

A session holds on to what outlives a single expansion: a front end, the registered
macros with what they keep, the environment, and the events that nobody has read yet.
-/

namespace Offside

/-- Everything that lasts from one step of work to the next. -/
structure Session (ε : Type) where
  /-- The front end. -/
  frontEnd : FrontEnd
  /-- The known macros. -/
  registry : Registry ε
  /-- What the macros keep of their arguments. -/
  memory : Memory
  /-- The environment of the macros. -/
  environment : ε
  /-- The events that nobody has read yet, latest first. -/
  events : List Event

namespace Session

variable {ε : Type}

/-- A session without macros. -/
def start (frontEnd : FrontEnd) (environment : ε) : Session ε :=
  ⟨frontEnd, .empty, .empty, environment, []⟩

/-! ### Macros -/

/-- Gives a name a macro, which has kept nothing yet. -/
def register (session : Session ε) (name : String) (entry : Macro ε) : Session ε :=
  { session with
    registry := session.registry.insert name entry
    memory := session.memory.forget name }

/-- Takes the macro of a name away, with what it keeps. -/
def unregister (session : Session ε) (name : String) : Session ε :=
  { session with
    registry := session.registry.erase name
    memory := session.memory.forget name }

/-- Registers the built-in macros under the session's sigil. -/
def registerBuiltins (session : Session ε) : Session ε :=
  builtins.foldl
    (fun session entry => session.register (session.frontEnd.settings.macroName entry.1) entry.2)
    session

/-- The arguments that the macro of a name keeps. -/
def kept (session : Session ε) (name : String) : List Item :=
  session.memory.get name

/-! ### Expansion -/

/-- The run that a step of the session begins with. -/
def toRun (session : Session ε) : Run ε :=
  ⟨0, session.memory, session.environment, session.events⟩

/-- The session after a run that began with it. -/
def ofRun (session : Session ε) (run : Run ε) : Session ε :=
  { session with
    memory := run.memory
    environment := run.environment
    events := run.events }

/-- Does something in the course of a run of its own. -/
def perform (session : Session ε) (step : Step ε) : Outcome × Session ε :=
  let (outcome, run) := step session.toRun
  (outcome, session.ofRun run)

/-- The expander that honours the session's limit. -/
def expander (session : Session ε) : Expander ε :=
  { registry := session.registry, limit := session.frontEnd.settings.expansionLimit }

/-- Expands lists one after the other, with one expander of the given limit. -/
def expandEach (session : Session ε) (limit : Nat) (requests : List Request) :
    List Outcome × Session ε :=
  let expander : Expander ε := { registry := session.registry, limit }
  let (outcomes, run) := expander.expandEach requests session.toRun
  (outcomes, session.ofRun run)

/-- Expands calls with the usual limit, whatever the session's settings say. -/
def expandCalls (session : Session ε) (calls : List Call) : Outcome × Session ε :=
  let expander : Expander ε := { registry := session.registry }
  session.perform (expander.expand (.calls calls))

/-- Reads a text and expands its forest. -/
def run (session : Session ε) (text : String) : Outcome × Session ε :=
  let (result, events) := session.frontEnd.compile text
  let session := { session with events := events.reverse ++ session.events }
  match result with
  | .error fault => (.error fault, session)
  | .ok compilation => session.perform (session.expander.expand (.calls compilation.roots))

/-- Lets the macro of a name transform arguments, if there is one. -/
def transform? (session : Session ε) (name : String) (arguments : List Item) :
    Option (Outcome × Session ε) :=
  (session.registry.find? name).map fun entry => session.perform (entry.prepare name arguments)

/-- Lets the macro of a name evaluate arguments, if there is one. -/
def evaluate? (session : Session ε) (name : String) (arguments : List Item) :
    Option (Outcome × Session ε) :=
  (session.registry.find? name).map fun entry =>
    session.perform (session.expander.evaluate name entry arguments)

end Session

end Offside
