import Mathlib.Control.Monad.Basic
import Offside.Expansion.Builtin
import Offside.Expansion.Stock
import Offside.Proofs.Expansion.Agreement

/-!
# A limit only ever cuts off

Where a limit on the active calls is not what ends an expansion, raising it changes nothing:
neither what the expansion comes to nor any of its effects. Macros have to pass on the faults
of what they expand. Of the built-in macros and the stock, all do but the one that turns
faults into texts.
-/

namespace Offside

variable {ε : Type} {faults : Fault → Prop}

/-! ### Macros that pass faults on -/

/-- The first fault ends a repetition. -/
theorem Action.passesOn_repeatItems (items output : List Item) (count : Nat) :
    (repeatItems items output count : Action ε).PassesOn faults := by
  induction count generalizing output with
  | zero => trivial
  | succ count ih =>
    refine ⟨fun fault _ => rfl, fun outcome => ?_⟩
    cases outcome with
    | ok more => exact ih _
    | error fault => trivial

/-- Handing arguments to a sink expands nothing, if the sink itself does not. -/
theorem Macro.passesOn_ofSink {sink : Item → Action ε → Action ε}
    (hsink : ∀ item next, next.PassesOn faults → (sink item next).PassesOn faults) :
    (ofSink sink).PassesOn faults := by
  intro arguments
  induction arguments with
  | nil => trivial
  | cons item rest ih => exact hsink item _ ih

/-- The log macro asks for nothing, so it holds no fault back. -/
theorem Macro.passesOn_log : (log : Macro ε).PassesOn faults :=
  passesOn_ofSink fun _ _ hnext => hnext

/-- The macro that keeps its raw arguments asks for nothing either. -/
theorem Macro.passesOn_lazy : (lazy : Macro ε).PassesOn faults :=
  fun _ _ => trivial

/-- A repetition ends with the first fault that its body comes to. -/
theorem Macro.passesOn_repetition : (repetition : Macro ε).PassesOn faults := by
  intro arguments
  cases arguments with
  | nil => trivial
  | cons count body =>
    cases hcount : countOf count with
    | error fault => simp only [repetition, hcount, Action.PassesOn]
    | ok times =>
      simp only [repetition, hcount]
      exact Action.passesOn_repeatItems _ _ _

/-- The built-in macros pass all faults on. -/
theorem passesOn_of_mem_builtins {entry : String × Macro ε} (h : entry ∈ builtins) :
    entry.2.PassesOn faults := by
  simp only [builtins, List.mem_cons, List.not_mem_nil, or_false] at h
  rcases h with rfl | rfl | rfl
  · exact Macro.passesOn_log
  · exact Macro.passesOn_repetition
  · exact Macro.passesOn_lazy

namespace Stock

/-- Handing on what an expansion came to passes its faults on. -/
theorem passesOn_expand_finish (request : Request) :
    (Action.expand request finish).PassesOn faults := by
  refine ⟨fun fault _ => rfl, fun outcome => ?_⟩
  cases outcome <;> trivial

/-- Every evaluator of the stock but the one that catches faults passes them on. -/
theorem passesOn_act {evaluator : Evaluator} (h : evaluator ≠ .try) (name : String)
    (arguments : List Item) : (evaluator.act name arguments).PassesOn faults := by
  cases evaluator with
  | «try» => exact (h rfl).elim
  | expand => exact passesOn_expand_finish _
  | expandItems items => exact passesOn_expand_finish _
  | expandCalls calls => exact passesOn_expand_finish _
  | twice =>
    refine ⟨fun fault _ => rfl, fun first => ?_⟩
    cases first with
    | error fault => trivial
    | ok first =>
      refine ⟨fun fault _ => rfl, fun second => ?_⟩
      cases second <;> trivial
  | «until» bound =>
    intro tally
    by_cases hdone : bound ≤ tally.count
    · simp only [if_pos hdone, Action.PassesOn]
    · simp only [if_neg hdone]
      exact passesOn_expand_finish _
  | count => exact fun _ => trivial
  | identity | drop | join | bracket | each | quote | node | depth | const | fail
  | failArguments => trivial

/-- Just the stock macros that do not catch faults pass all faults on. -/
theorem passesOn_compose_iff (name : String) (transformer : Transformer)
    (evaluator : Evaluator) :
    (compose name transformer evaluator).PassesOn (fun _ => True) ↔ evaluator ≠ .try := by
  constructor
  · rintro h rfl
    exact (h [] {}).1 .missingRepeatCount trivial
  · exact fun h arguments tally => passesOn_act h name arguments

end Stock

namespace Registry

variable {registry : Registry ε}

/-- Without macros there is none that could hold a fault back. -/
theorem passesOn_empty : (empty : Registry ε).PassesOn faults := by
  intro name entry h
  rw [find?_empty] at h
  cases h

/-- One more macro that passes the faults on may be registered. -/
theorem PassesOn.insert (h : registry.PassesOn faults) {entry : Macro ε}
    (hentry : entry.PassesOn faults) (name : String) :
    (registry.insert name entry).PassesOn faults := by
  intro other found hfound
  rw [find?_insert] at hfound
  split at hfound
  · exact Option.some.inj hfound ▸ hentry
  · exact h other found hfound

end Registry

/-! ### Raising the limit -/

/-- A limit only ever cuts off. If all macros pass on the faults of what they expand, an
expansion that is not stopped by the limit comes to the same under every greater limit, and
has the same effects on the environment, on what macros keep and on the events. -/
theorem Expander.expand_eq_of_limit_le {registry : Registry ε}
    (hpass : registry.PassesOn fun _ => True) {limit greater : Nat} (hle : limit ≤ greater)
    {request : Request} {run : Run ε}
    (hended : (Expander.expand ⟨registry, limit⟩ request run).1 ≠
      .error (.expandedTooDeep limit)) :
    Expander.expand ⟨registry, greater⟩ request run =
      Expander.expand ⟨registry, limit⟩ request run := by
  have hcut : registry.PassesOn (· = .expandedTooDeep limit) :=
    fun name entry hfind arguments =>
      (hpass name entry hfind arguments).anti fun _ _ => trivial
  have hagrees : Agrees (· = .expandedTooDeep limit) [] run.depth
      (Expander.expand ⟨registry, limit⟩ request)
      (Expander.expand ⟨registry, greater⟩ request) :=
    agrees_expand hcut hle (.inl rfl) request
  rcases hagrees run rfl with ⟨fault, rfl, hfault⟩ | hsame
  · exact (hended hfault).elim
  · simpa using hsame

/-- Macros that repeat, keep, log and count. -/
def Registry.counting : Registry Tally :=
  (((Registry.empty.insert "$$repeat" .repetition).insert "$$lazy" .lazy).insert "$$log"
    .log).insert "$$tick" (Stock.compose "$$tick" .count (.const [.text "tick"]))

/-- Two levels are enough to count two times, and more make no difference. -/
theorem Expander.expand_eq_of_limit_le_counting :
    let request := Request.items
      [.call "$$repeat" ⟨1, 1⟩ [.text "2", .call "$$tick" ⟨1, 12⟩ []]]
    (Expander.expand ⟨.counting, 2⟩ request (.start .empty {})).1 =
        .ok [.text "tick", .text "tick"] ∧
      Expander.expand ⟨.counting, 128⟩ request (.start .empty {}) =
        Expander.expand ⟨.counting, 2⟩ request (.start .empty {}) := by
  have htick : (Stock.compose "$$tick" .count (.const [.text "tick"])).PassesOn fun _ => True :=
    (Stock.passesOn_compose_iff _ _ _).mpr (by simp)
  have hpass : Registry.counting.PassesOn fun _ => True :=
    (((Registry.passesOn_empty.insert Macro.passesOn_repetition _).insert
      Macro.passesOn_lazy _).insert Macro.passesOn_log _).insert htick _
  have houtcome : (Expander.expand ⟨.counting, 2⟩ (.items
      [.call "$$repeat" ⟨1, 1⟩ [.text "2", .call "$$tick" ⟨1, 12⟩ []]])
        (.start .empty {})).1 = .ok [.text "tick", .text "tick"] := by decide +kernel
  exact ⟨houtcome, expand_eq_of_limit_le hpass (by decide) (by simp [houtcome])⟩

end Offside
