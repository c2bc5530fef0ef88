import Offside.Proofs.Expansion.Walk

/-!
# What plain macros make of items

A plain macro changes the environment when it transforms its arguments, and when it is
evaluated it changes the environment, logs values and yields items. So an expansion with plain
macros can be read off the items by recursion, from the functions of the macros alone: there is
no limit in it, no count of active calls and no request.
-/

namespace Offside

variable {ε : Type}

/-! ### The effect of one macro -/

/-- What an action does by itself, given what was kept for its macro: the items that it yields,
the environment that it leaves and the values that it logs in order. Nothing, if it fails or
asks for an expansion. -/
def Action.alone (kept : List Item) : Action ε → ε → Option (List Item × ε × List String)
  | .yield output, environment => some (output, environment, [])
  | .fail _, _ => none
  | .expand _ _, _ => none
  | .recall next, environment => (next kept).alone kept environment
  | .update change next, environment =>
    (next (change environment)).alone kept (change environment)
  | .log value next, environment =>
    (next.alone kept environment).map fun (output, environment, logged) =>
      (output, environment, value :: logged)

/-- What is left of a run by a macro that changes the environment and logs values. -/
def Run.changed (run : Run ε) (environment : ε) (logged : List String) : Run ε :=
  { run with environment, events := logged.reverse.map .logged ++ run.events }

/-- A plain action does something by itself, and that is all it does. -/
theorem Expansion.exists_alone_of_isPlain {action : Action ε} (h : action.IsPlain)
    (expand : Request → Step ε) (name : String) (run : Run ε) :
    ∃ output environment logged,
      action.alone (run.memory.get name) run.environment = some (output, environment, logged) ∧
        perform expand name action run = (.ok output, run.changed environment logged) := by
  induction action generalizing run with
  | yield output => exact ⟨output, run.environment, [], rfl, rfl⟩
  | fail fault => exact h.elim
  | expand request next => exact h.elim
  | «recall» next ih => exact ih _ (h _) run
  | update change next ih => exact ih _ (h _) { run with environment := change run.environment }
  | log value next ih =>
    obtain ⟨output, environment, logged, halone, hperform⟩ := ih h (run.announce (.logged value))
    refine ⟨output, environment, value :: logged, ?_, ?_⟩
    · change (next.alone (run.memory.get name) run.environment).map _ = _
      rw [show next.alone (run.memory.get name) run.environment = _ from halone]
      rfl
    · refine hperform.trans ?_
      simp [Run.changed, Run.announce]

section Deeds

variable {registry : Registry ε} {call : Call} {entry : Macro ε}

/-- To transform a call changes the environment as the macro says, and what is kept if the macro
keeps its arguments. -/
theorem Deed.apply_transform (hfind : registry.find? call.name = some entry) (run : Run ε) :
    (Deed.transform call).apply registry run =
      { run with
        memory := if entry.keeps then run.memory.keep call.name call.arguments else run.memory
        environment := (entry.transform call.arguments run.environment).2 } := by
  simp only [Deed.apply, hfind, Macro.prepare]

/-- To evaluate a call changes the environment and logs values as the macro says. -/
theorem Deed.apply_evaluate (hfind : registry.find? call.name = some entry)
    (hplain : entry.IsPlain) (arguments : List Item) (run : Run ε) :
    ∃ output environment logged,
      (entry.evaluate arguments).alone (run.memory.get call.name) run.environment =
          some (output, environment, logged) ∧
        (Deed.evaluate call arguments).apply registry run = run.changed environment logged := by
  obtain ⟨output, environment, logged, halone, hperform⟩ :=
    Expansion.exists_alone_of_isPlain (hplain.evaluate_isPlain arguments)
      (fun _ run => (.ok [], run)) call.name run
  refine ⟨output, environment, logged, halone, ?_⟩
  simp only [Deed.apply, hfind]
  exact congrArg Prod.snd hperform

end Deeds

/-! ### Expansion by recursion on the items -/

/-- What an expansion leaves besides its items. -/
structure Effects (ε : Type) where
  /-- What macros keep of their arguments. -/
  memory : Memory
  /-- The environment of the macros. -/
  environment : ε
  /-- The events, latest first. -/
  events : List Event

/-- The run with these effects in which so many calls are active. -/
def Effects.inside (effects : Effects ε) (level : Nat) : Run ε :=
  ⟨level, effects.memory, effects.environment, effects.events⟩

mutual

/-- What plain macros make of an item that stands inside so many calls. -/
def Registry.plainly (registry : Registry ε) (level : Nat) :
    Item → Effects ε → Option (List Item × Effects ε)
  | .text content, effects => some ([.text content], effects)
  | .quoted items, effects => some ([.quoted items], effects)
  | .call name position arguments, effects => do
    let entry ← registry.find? name
    let (inner, effects) ← registry.plainlyAll (level + 1) arguments {
      memory := if entry.keeps then effects.memory.keep name arguments else effects.memory
      environment := (entry.transform arguments effects.environment).2
      events := .expanding name position level :: effects.events }
    let (output, environment, logged) ←
      (entry.evaluate inner).alone (effects.memory.get name) effects.environment
    some (output,
      { effects with environment, events := logged.reverse.map .logged ++ effects.events })

/-- What plain macros make of items that stand inside so many calls. -/
def Registry.plainlyAll (registry : Registry ε) (level : Nat) :
    List Item → Effects ε → Option (List Item × Effects ε)
  | [], effects => some ([], effects)
  | item :: rest, effects => do
    let (front, effects) ← registry.plainly level item effects
    let (back, effects) ← registry.plainlyAll level rest effects
    some (front ++ back, effects)

end

/-- A step that comes to what is made by recursion, inside so many calls. -/
def Makes (level : Nat) (step : Step ε) (made : Effects ε → Option (List Item × Effects ε)) :
    Prop :=
  ∀ effects, ∃ output after,
    made effects = some (output, after) ∧
      step (effects.inside level) = (.ok output, after.inside level)

namespace Expansion

variable {registry : Registry ε} {level limit : Nat}

/-- Items are expanded by recursion if calls are, as high as they may be. -/
theorem makes_serveItems {expandCall : Call → Step ε}
    (hcall : ∀ call : Call, call.toItem.height ≤ limit - level →
      (∀ inner ∈ call.toItem.calls, registry.contains inner.name = true) →
        Makes level (expandCall call) (registry.plainly level call.toItem))
    {items : List Item} (hitems : Item.heightAll items ≤ limit - level)
    (hknown : ∀ call ∈ Item.callsAll items, registry.contains call.name = true) :
    Makes level (serveItems expandCall [] items) (registry.plainlyAll level items) := by
  induction items with
  | nil => exact fun effects => ⟨[], effects, rfl, rfl⟩
  | cons item rest ih =>
    rw [Item.heightAll] at hitems
    obtain ⟨hfirst, hlater⟩ := List.forall_mem_append.mp hknown
    have hrest := ih (by omega) hlater
    intro effects
    have hkept (hitem : item.call? = none)
        (hmakes : registry.plainly level item effects = some ([item], effects)) :
        ∃ output after, registry.plainlyAll level (item :: rest) effects = some (output, after) ∧
          serveItems expandCall [] (item :: rest) (effects.inside level) =
            (.ok output, after.inside level) := by
      obtain ⟨output, after, hmade, hstep⟩ := hrest effects
      refine ⟨item :: output, after, ?_, ?_⟩
      · simp [Registry.plainlyAll, hmakes, hmade]
      · rw [serveItems_kept expandCall hitem, hstep]
        rfl
    cases item with
    | text content => exact hkept rfl (by rw [Registry.plainly])
    | quoted items => exact hkept rfl (by rw [Registry.plainly])
    | call name position arguments =>
      have hheight : (Item.call name position arguments).height ≤ limit - level := by omega
      obtain ⟨front, between, hfront, hbegun⟩ :=
        hcall ⟨name, position, arguments⟩ hheight hfirst effects
      obtain ⟨back, after, hback, hstep⟩ := hrest between
      have hserved : serveItems expandCall [] (.call name position arguments :: rest)
          (effects.inside level) = _ := serveItems_replaced hbegun rest
      refine ⟨front ++ back, after, ?_, ?_⟩
      · rw [Call.toItem] at hfront
        simp [Registry.plainlyAll, hfront, hback]
      · rw [hserved, hstep]
        rfl

/-- A call is expanded by recursion if it is not too high and all macros in it are known. -/
theorem makes_expandCall (hplain : registry.IsPlain) {levels : Nat}
    (henough : limit - level < levels) {call : Call} (hheight : call.toItem.height ≤ limit - level)
    (hknown : ∀ inner ∈ call.toItem.calls, registry.contains inner.name = true) :
    Makes level (expandCall registry limit levels call)
      (registry.plainly level call.toItem) := by
  induction levels generalizing level call with
  | zero => omega
  | succ levels ih =>
    intro effects
    obtain ⟨hname, harguments⟩ := List.forall_mem_cons.mp hknown
    rw [Call.toItem, Item.height] at hheight
    rw [registry.contains_eq_isSome, Option.isSome_iff_exists] at hname
    obtain ⟨entry, hfind⟩ := hname
    have hentry := hplain _ entry hfind
    have hfits : Item.heightAll call.arguments ≤ limit - (level + 1) := by omega
    -- the run inside the call, once its arguments are transformed
    let prepared : Effects ε :=
      { memory := if entry.keeps then effects.memory.keep call.name call.arguments
          else effects.memory
        environment := (entry.transform call.arguments effects.environment).2
        events := .expanding call.name call.position level :: effects.events }
    have hprepare : entry.prepare call.name call.arguments (begin call (effects.inside level)) =
        (.ok call.arguments, prepared.inside (level + 1)) := hentry.prepare_eq _ _ _
    obtain ⟨inner, between, hmade, hserve⟩ := makes_serveItems
      (fun inner hinner hnames => ih (by omega) hinner hnames) hfits harguments prepared
    have hexpand := (expandItems_of_le hfits (expandCall registry limit levels)).trans hserve
    obtain ⟨output, environment, logged, halone, hperform⟩ :=
      exists_alone_of_isPlain (hentry.evaluate_isPlain inner)
        (expandRequest limit (expandCall registry limit levels)) call.name
        (between.inside (level + 1))
    refine ⟨output, { between with
      environment, events := logged.reverse.map .logged ++ between.events }, ?_, ?_⟩
    · have halone' : (entry.evaluate inner).alone (between.memory.get call.name)
          between.environment = some (output, environment, logged) := halone
      simp [Call.toItem, Registry.plainly, hfind, prepared, hmade, halone']
    · have hroom : (effects.inside level).depth < limit := by
        change level < limit
        omega
      rw [expandCall_of_lt hfind hroom, invoke_eq, Step.andThen_of_ok hprepare,
        Step.andThen_of_ok hexpand, hperform]
      rfl

end Expansion

/-- An expansion with plain macros that are all known makes of the items what recursion makes of
them, and leaves the same effects. -/
theorem Expander.expand_plainly {registry : Registry ε} (hplain : registry.IsPlain) {limit : Nat}
    {items : List Item} (hfits : Item.nesting items ≤ limit)
    (hknown : ∀ call ∈ Item.callsAll items, registry.contains call.name = true)
    (memory : Memory) (environment : ε) :
    ∃ output after,
      registry.plainlyAll 0 items ⟨memory, environment, []⟩ = some (output, after) ∧
        Expander.expand ⟨registry, limit⟩ (.items items) (.start memory environment) =
          (.ok output, after.inside 0) := by
  rw [Item.nesting_eq_heightAll] at hfits
  obtain ⟨output, after, hmade, hserve⟩ := Expansion.makes_serveItems
    (fun call hcall hnames =>
      Expansion.makes_expandCall hplain (Nat.lt_succ_self (limit - 0)) hcall hnames)
    hfits hknown ⟨memory, environment, []⟩
  exact ⟨output, after, hmade, (Expansion.expandItems_of_le hfits _).trans hserve⟩

/-- A macro that counts its calls is told before its arguments are expanded, and logs after. -/
example :
    let note : Macro Nat :=
      { transform := fun arguments count => (.ok arguments, count + 1)
        evaluate := fun arguments => .log "noted" (.yield arguments) }
    let result := (Registry.empty.insert "$$note" note).plainlyAll 0
      [.call "$$note" ⟨1, 1⟩ [.text "x"]] ⟨.empty, 0, []⟩
    result.map (fun (output, effects) => (output, effects.environment, effects.events)) =
      some ([.text "x"], 1, [.logged "noted", .expanding "$$note" ⟨1, 1⟩ 0]) := by
  decide +kernel

end Offside
