import Offside.Proofs.Expansion.Stages

/-!
# Two ways to hand in calls

Calls can be handed in to be expanded as they are, or as items that are calls. Whether they nest
too deeply is found out in two ways, from the deepest of the calls or by one walk over the items,
and two loops expand one after the other. Both ways come to the same, at the top as well as inside
a macro, so an evaluator may ask in either one.
-/

namespace Offside

variable {ε : Type}

/-! ### Lists -/

/-- The request for the items that the calls of a request are. -/
def Request.itemized (request : Request) : Request :=
  .items request.toItems

/-- The deepest of some calls nests as deeply as the list of them. -/
theorem Expansion.deepestCall_eq_nesting (calls : List Call) :
    deepestCall calls = Item.nesting (calls.map Call.toItem) := by
  rw [deepestCall_eq_heightAll, Item.nesting_eq_heightAll]

/-- A request for calls comes to what the request for them as items comes to. -/
theorem Expander.expand_itemized (expander : Expander ε) (request : Request) :
    expander.expand request.itemized = expander.expand request := by
  funext run
  rw [expand, expand, Expansion.expandRequest_eq, Expansion.expandRequest_eq]
  rfl

/-! ### Evaluators -/

/-- The action with all its requests made for items. -/
def Action.itemized : Action ε → Action ε
  | .yield output => .yield output
  | .fail fault => .fail fault
  | .expand request next => .expand request.itemized fun outcome => (next outcome).itemized
  | .recall next => .recall fun kept => (next kept).itemized
  | .update change next => .update change fun environment => (next environment).itemized
  | .log value next => .log value next.itemized

/-- The macro with all requests of its evaluator made for items. -/
def Macro.itemized (entry : Macro ε) : Macro ε :=
  { entry with evaluate := fun arguments => (entry.evaluate arguments).itemized }

/-- An action does the same if it asks for items in place of calls. -/
theorem Expansion.perform_itemized (expander : Expander ε) (name : String) (action : Action ε)
    (run : Run ε) :
    perform expander.expand name action.itemized run = perform expander.expand name action run := by
  induction action generalizing run with
  | yield output => rfl
  | fail fault => rfl
  | expand request next ih =>
    rw [Action.itemized, perform_expand, perform_expand, expander.expand_itemized]
    exact ih _ _
  | «recall» next ih => exact ih _ run
  | update change next ih => exact ih _ { run with environment := change run.environment }
  | log value next ih => exact ih (run.announce (.logged value))

/-! ### Agreement -/

/-- Calls that are handed in as such and as items need the same levels, and come to the same from
any run, however many calls are active there: to the same output or fault and to the same run,
with the environment, what is kept and the events in it. An evaluator that asks for calls does what
it would do if it asked for them as items. -/
theorem Expander.expand_calls (expander : Expander ε) (calls : List Call) (run : Run ε) :
    let items := calls.map Call.toItem
    Expansion.deepestCall calls = Item.nesting items ∧
      expander.expand (.calls calls) run = expander.expand (.items items) run ∧
      ∀ (name : String) (entry : Macro ε) (arguments : List Item),
        expander.evaluate name entry.itemized arguments run =
          expander.evaluate name entry arguments run := by
  intro items
  refine ⟨Expansion.deepestCall_eq_nesting calls, ?_, ?_⟩
  · exact (congrFun (expander.expand_itemized (.calls calls)) run).symm
  · intro name entry arguments
    exact Expansion.perform_itemized expander name (entry.evaluate arguments) run

end Offside
