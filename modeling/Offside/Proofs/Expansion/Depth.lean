import Offside.Expansion.Expander
import Offside.Proofs.Tree.Height

/-!
# Every call that is begun is ended

Expansion is put together from steps that follow one another, where the first fault ends the
sequence. Lists of calls are expanded just as lists of items are, so there is one kind of
list to look at. Whatever a step comes to, as many calls are active behind it as before it.
-/

namespace Offside

variable {ε : Type}

/-! ### Steps in sequence -/

/-- Takes a step, and goes on with what it came to unless it failed. -/
def Step.andThen (step : Step ε) (next : List Item → Step ε) : Step ε := fun run =>
  match step run with
  | (.error fault, run) => (.error fault, run)
  | (.ok items, run) => next items run

/-- Behind a step that fails no other one is taken. -/
theorem Step.andThen_of_error {step : Step ε} {run after : Run ε} {fault : Fault}
    (h : step run = (.error fault, after)) (next : List Item → Step ε) :
    Step.andThen step next run = (.error fault, after) := by
  rw [andThen, h]

/-- Behind a step that comes to something, the next one is taken with that. -/
theorem Step.andThen_of_ok {step : Step ε} {run after : Run ε} {items : List Item}
    (h : step run = (.ok items, after)) (next : List Item → Step ε) :
    Step.andThen step next run = next items after := by
  rw [andThen, h]

/-! ### Requests as lists of items -/

/-- What a request wants to be expanded, as a list of items. -/
def Request.toItems : Request → List Item
  | .items list => list
  | .calls list => list.map Call.toItem

namespace Expansion

/-- A call among items comes to what it expands to, behind the output so far. -/
theorem serveItems_call (expandCall : Call → Step ε) (output rest : List Item) (call : Call) :
    serveItems expandCall output (call.toItem :: rest) =
      Step.andThen (expandCall call) fun items =>
        serveItems expandCall (items.reverse ++ output) rest := rfl

/-- An item that is no call is put in front of what the others expand to. -/
theorem serveItems_kept (expandCall : Call → Step ε) {item : Item} (hitem : item.call? = none)
    (rest : List Item) (run : Run ε) :
    serveItems expandCall [] (item :: rest) run =
      ((serveItems expandCall [] rest run).1.map (item :: ·),
        (serveItems expandCall [] rest run).2) := by
  cases item with
  | text content => exact serveItems_eq_map expandCall [.text content] rest run
  | quoted items => exact serveItems_eq_map expandCall [.quoted items] rest run
  | call name position arguments => cases hitem

/-- A call that fails ends the list. -/
theorem serveItems_stopped {expandCall : Call → Step ε} {call : Call} {run after : Run ε}
    {fault : Fault} (hcall : expandCall call run = (.error fault, after)) (rest : List Item) :
    serveItems expandCall [] (call.toItem :: rest) run = (.error fault, after) := by
  rw [serveItems_call, Step.andThen_of_error hcall]

/-- What a call comes to is put in front of what the others expand to. -/
theorem serveItems_replaced {expandCall : Call → Step ε} {call : Call} {run between : Run ε}
    {output : List Item} (hcall : expandCall call run = (.ok output, between))
    (rest : List Item) :
    serveItems expandCall [] (call.toItem :: rest) run =
      ((serveItems expandCall [] rest between).1.map (output ++ ·),
        (serveItems expandCall [] rest between).2) := by
  rw [serveItems_call, Step.andThen_of_ok hcall, serveItems_eq_map]
  simp only [List.append_nil, List.reverse_reverse]

/-- Calls are expanded as items that are calls. -/
theorem serveCalls_eq_serveItems (expandCall : Call → Step ε) (output : List Item)
    (calls : List Call) :
    serveCalls expandCall output calls =
      serveItems expandCall output (calls.map Call.toItem) := by
  induction calls generalizing output with
  | nil => rfl
  | cons call rest ih =>
    funext run
    rw [List.map_cons, serveItems_call, serveCalls]
    cases hcall : expandCall call run with
    | mk outcome after =>
      cases outcome with
      | error fault => exact (Step.andThen_of_error hcall _).symm
      | ok items =>
        rw [Step.andThen_of_ok hcall, ← ih]

/-- The deepest of some calls is as deep as they are high as items. -/
theorem deepestCall_eq_heightAll (calls : List Call) :
    deepestCall calls = Item.heightAll (calls.map Call.toItem) := by
  have hfold : ∀ found, calls.foldl (fun deepest call => max deepest call.nesting) found =
      max found (Item.heightAll (calls.map Call.toItem)) := by
    induction calls with
    | nil => simp [Item.heightAll]
    | cons call rest ih =>
      intro found
      rw [List.foldl_cons, ih, List.map_cons, Item.heightAll, Call.nesting_eq_height,
        Nat.max_assoc]
  rw [deepestCall, hfold, Nat.zero_max]

/-- Items are expanded one by one if they are not too high for the levels that are left. -/
theorem expandItems_eq (limit : Nat) (expandCall : Call → Step ε) (items : List Item) :
    expandItems limit expandCall items =
      withinBudget limit (Item.heightAll items) (serveItems expandCall [] items) := by
  rw [expandItems, Item.nesting_eq_heightAll]

/-- Whatever is asked for, it is expanded as a list of items. -/
theorem expandRequest_eq (limit : Nat) (expandCall : Call → Step ε) (request : Request) :
    expandRequest limit expandCall request = expandItems limit expandCall request.toItems := by
  cases request with
  | items items => rfl
  | calls calls =>
    rw [expandItems_eq, expandRequest, expandCalls, deepestCall_eq_heightAll,
      serveCalls_eq_serveItems]
    rfl

/-- What nests more deeply than levels are left is refused. -/
theorem expandItems_of_lt {limit : Nat} {items : List Item} {run : Run ε}
    (hdeep : limit - run.depth < Item.heightAll items) (expandCall : Call → Step ε) :
    expandItems limit expandCall items run = (.error (.expandedTooDeep limit), run) := by
  rw [expandItems_eq, withinBudget, if_pos hdeep]

/-- What does not is expanded item by item. -/
theorem expandItems_of_le {limit : Nat} {items : List Item} {run : Run ε}
    (hfits : Item.heightAll items ≤ limit - run.depth) (expandCall : Call → Step ε) :
    expandItems limit expandCall items run = serveItems expandCall [] items run := by
  rw [expandItems_eq, withinBudget, if_neg (Nat.not_lt_of_le hfits)]

/-- An invocation transforms, expands and evaluates, as long as nothing fails. -/
theorem invoke_eq (limit : Nat) (expandCall : Call → Step ε) (entry : Macro ε) (call : Call) :
    invoke limit expandCall entry call =
      Step.andThen (entry.prepare call.name call.arguments) fun prepared =>
        Step.andThen (expandItems limit expandCall prepared) fun arguments =>
          perform (expandRequest limit expandCall) call.name (entry.evaluate arguments) := rfl

/-- An evaluator goes on with what the expansion that it asked for came to. -/
theorem perform_expand (expand : Request → Step ε) (name : String) (request : Request)
    (next : Except Fault (List Item) → Action ε) (run : Run ε) :
    perform expand name (.expand request next) run =
      perform expand name (next (expand request run).1) (expand request run).2 := rfl

/-! ### One call -/

section OneCall

variable {registry : Registry ε} {call : Call} {run : Run ε}

/-- A call of an unknown macro fails. -/
theorem expandCall_of_unknown (hfind : registry.find? call.name = none) (limit levels : Nat) :
    expandCall registry limit (levels + 1) call run =
      (.error (.unknownMacro call.name call.position), run) := by
  simp only [expandCall, hfind]

/-- A call fails when as many calls are active as are allowed. -/
theorem expandCall_of_le {entry : Macro ε} (hfind : registry.find? call.name = some entry)
    {limit : Nat} (hfull : limit ≤ run.depth) (levels : Nat) :
    expandCall registry limit (levels + 1) call run = (.error (.expandedTooDeep limit), run) := by
  simp only [expandCall, hfind, if_pos hfull]

/-- What the invocation of a macro starts from: the call is announced and active. -/
def begin (call : Call) (run : Run ε) : Run ε :=
  (run.announce (.expanding call.name call.position run.depth)).enter

/-- Otherwise the macro is invoked. -/
theorem expandCall_of_lt {entry : Macro ε} (hfind : registry.find? call.name = some entry)
    {limit : Nat} (hroom : run.depth < limit) (levels : Nat) :
    expandCall registry limit (levels + 1) call run =
      let result := invoke limit (expandCall registry limit levels) entry call (begin call run)
      (result.1, result.2.leave) := by
  simp only [expandCall, hfind, if_neg (Nat.not_le_of_lt hroom)]
  rfl

end OneCall

end Expansion

/-! ### As many calls are active as before -/

/-- A step that leaves as many calls active as it finds. -/
def KeepsDepth (step : Step ε) : Prop :=
  ∀ run, (step run).2.depth = run.depth

/-- Two steps in a row leave as many calls active if each of them does. -/
theorem KeepsDepth.andThen {step : Step ε} {next : List Item → Step ε} (hstep : KeepsDepth step)
    (hnext : ∀ items, KeepsDepth (next items)) : KeepsDepth (Step.andThen step next) := by
  intro run
  have hdepth := hstep run
  cases hresult : step run with
  | mk outcome after =>
    rw [hresult] at hdepth
    cases outcome with
    | error fault =>
      rw [Step.andThen_of_error hresult]
      exact hdepth
    | ok items =>
      rw [Step.andThen_of_ok hresult, hnext items after]
      exact hdepth

namespace Expansion

section OneLevel

variable {limit : Nat} {expandCall : Call → Step ε}

/-- Expanding items one after the other leaves as many calls active if expanding a call does. -/
theorem keepsDepth_serveItems (hcall : ∀ call, KeepsDepth (expandCall call))
    (output items : List Item) : KeepsDepth (serveItems expandCall output items) := by
  induction items generalizing output with
  | nil => exact fun _ => rfl
  | cons item rest ih =>
    cases item with
    | text content => exact ih _
    | quoted items => exact ih _
    | call name position arguments =>
      exact (hcall ⟨name, position, arguments⟩).andThen fun items => ih _

/-- So does expanding a list, which may be refused before anything is done. -/
theorem keepsDepth_expandItems (hcall : ∀ call, KeepsDepth (expandCall call))
    (items : List Item) : KeepsDepth (expandItems limit expandCall items) := by
  intro run
  unfold expandItems withinBudget
  split
  · rfl
  · exact keepsDepth_serveItems hcall [] items run

/-- Expanding what an evaluator asks for leaves as many calls active as before. -/
theorem keepsDepth_expandRequest (hcall : ∀ call, KeepsDepth (expandCall call))
    (request : Request) : KeepsDepth (expandRequest limit expandCall request) := by
  rw [expandRequest_eq]
  exact keepsDepth_expandItems hcall request.toItems

/-- An evaluator cannot touch the number of active calls. -/
theorem keepsDepth_perform {expand : Request → Step ε} (hexpand : ∀ r, KeepsDepth (expand r))
    (name : String) (action : Action ε) : KeepsDepth (perform expand name action) := by
  intro run
  induction action generalizing run with
  | yield output => rfl
  | fail fault => rfl
  | expand request next ih => exact (ih _ _).trans (hexpand request run)
  | «recall» next ih => exact ih _ _
  | update change next ih => exact ih _ _
  | log value next ih => exact ih _

/-- An invocation leaves as many calls active as it finds: nothing but calls inside it could
change that. -/
theorem keepsDepth_invoke (hcall : ∀ call, KeepsDepth (expandCall call)) (entry : Macro ε)
    (call : Call) : KeepsDepth (invoke limit expandCall entry call) := by
  rw [invoke_eq]
  exact KeepsDepth.andThen (fun _ => rfl) fun prepared =>
    (keepsDepth_expandItems hcall prepared).andThen fun arguments =>
      keepsDepth_perform (keepsDepth_expandRequest hcall) call.name _

end OneLevel

/-- A call is active exactly as long as its macro is invoked, however that ends. -/
theorem keepsDepth_expandCall (registry : Registry ε) (limit levels : Nat) (call : Call) :
    KeepsDepth (expandCall registry limit levels call) := by
  induction levels generalizing call with
  | zero => exact fun _ => rfl
  | succ levels ih =>
    intro run
    cases hfind : registry.find? call.name with
    | none => rw [expandCall_of_unknown hfind]
    | some entry =>
      rcases Nat.lt_or_ge run.depth limit with hroom | hfull
      · rw [expandCall_of_lt hfind hroom]
        exact congrArg (· - 1) (keepsDepth_invoke ih entry call (begin call run))
      · rw [expandCall_of_le hfind hfull]

end Expansion

/-- An expander is as deep after an expansion as before it. -/
theorem Expander.keepsDepth_expand (expander : Expander ε) (request : Request) :
    KeepsDepth (expander.expand request) :=
  fun run => Expansion.keepsDepth_expandRequest
    (Expansion.keepsDepth_expandCall expander.registry expander.limit _) request run

end Offside
