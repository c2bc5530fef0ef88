import Offside.Proofs.Layout.NestingLimit
import Offside.Proofs.Layout.Offers

/-!
# How many calls are open

A limit of one or more bounds how many calls are ever open at once, the outermost one included,
and so how deeply the forest nests. The outermost call is opened without a look at the limit, so
under a limit of zero one call may be open all the same.
-/

namespace Offside

namespace State

variable {limit bound offers : ℕ} {state next : State} {token : Token} {tokens rest : List Token}

/-- A reading keeps within a bound that leaves room for an outermost call and for as many calls
as are allowed. -/
theorem length_frames_le_of_reads (hone : 1 ≤ bound) (hlimit : limit ≤ bound)
    (h : Reads limit state token next) (hstate : state.frames.length ≤ bound) :
    next.frames.length ≤ bound := by
  rcases length_frames_cases h with hroot | ⟨hroom, hchild⟩ | hnone
  · rwa [hroot]
  · rw [hchild]
    exact Nat.le_trans hroom hlimit
  · exact Nat.le_trans hnone hstate

/-- An offer that is to be repeated opens no call. -/
theorem frames_of_again {between : State} (h : state.offer limit token = .ok (.again between)) :
    between.frames = state.frames := by
  rcases phase_of_again h with ⟨-, rfl, -⟩ | ⟨-, rfl⟩ <;> rfl

/-- Whatever the reader passes through keeps within such a bound. -/
theorem Passes.length_frames_le (hone : 1 ≤ bound) (hlimit : limit ≤ bound)
    (h : Passes limit tokens offers state rest) : state.frames.length ≤ bound := by
  induction h with
  | @between read rest state htokens hrun =>
    have hlast : (initial.run limit read).2 = state := congrArg Prod.snd hrun
    rw [← hlast]
    exact of_run (motive := fun state => state.frames.length ≤ bound)
      (fun _ hreads hle => length_frames_le_of_reads hone hlimit hreads hle) (Nat.zero_le bound)
  | again h hagain ih => rwa [frames_of_again hagain]

/-- No reading exceeds such a bound. -/
theorem Reads.not_exceeds (hlimit : limit ≤ bound) (h : Reads limit state token next) :
    ¬ Reading.Exceeds bound ⟨state, token, next⟩ := by
  rintro ⟨hopens, hfull⟩
  obtain ⟨-, hroom, -⟩ := h.of_nests ((opensChild_iff h).mp hopens)
  exact absurd (Nat.lt_of_lt_of_le hroom hlimit) (Nat.not_lt.mpr hfull)

/-- The forest at the end of a run is no deeper than such a bound. -/
theorem height_run_le (hone : 1 ≤ bound) (hlimit : limit ≤ bound) (tokens : List Token) :
    (initial.run limit tokens).2.height ≤ bound := by
  refine of_run (motive := fun state => state.height ≤ bound) ?_ (Nat.zero_le bound)
  intro state token next _ hreads hle
  exact (height_le_iff_of_reads hone hreads).mpr ⟨hle, hreads.not_exceeds hlimit⟩

end State

/-- Whatever tokens are parsed, as many calls are open at any time as the limit allows, the
outermost one included, and the outermost calls nest as deeply at most. The one exception is a
limit of zero, under which one call may be open: then every outermost call is beyond the limit. -/
theorem parse_nests_within (parser : Parser) (tokens : List Token) :
    (∀ offers state rest, State.Passes parser.limit tokens offers state rest →
      state.frames.length ≤ max 1 parser.limit ∧
        (parser.limit < state.frames.length ↔ parser.limit = 0 ∧ state.frames ≠ [])) ∧
    ∀ roots, (parser.parse tokens).outcome = .ok roots → ∀ root ∈ roots,
      root.nesting ≤ max 1 parser.limit ∧ (parser.limit < root.nesting ↔ parser.limit = 0) := by
  have hone : 1 ≤ max 1 parser.limit := Nat.le_max_left 1 parser.limit
  have hlimit : parser.limit ≤ max 1 parser.limit := Nat.le_max_right 1 parser.limit
  constructor
  · intro offers state rest hpasses
    have hle := hpasses.length_frames_le hone hlimit
    refine ⟨hle, ?_⟩
    rw [← List.length_pos_iff]
    omega
  · intro roots hroots root hroot
    obtain ⟨last, hrun, rfl⟩ := Parser.exists_run_of_outcome hroots
    have hheight := State.height_run_le hone hlimit tokens
    rw [hrun] at hheight
    have hle : root.nesting ≤ max 1 parser.limit := by
      rw [Call.nesting_eq_height]
      exact State.height_le_iff.mp hheight root hroot
    have hpositive : 0 < root.nesting := by
      rw [Call.nesting]
      omega
    refine ⟨hle, ?_⟩
    omega

/-- Under a limit of zero an outermost call is open, and it is parsed. -/
theorem parse_nests_within_zero :
    let parser : Parser := { limit := 0 }
    let tokens : List Token := [⟨.call "$$a", ⟨1, 1⟩⟩]
    let state : State := ⟨.call, [⟨"$$a", ⟨1, 1⟩, .leftmost, .beyond, []⟩], [], [], []⟩
    let root : Call := ⟨"$$a", ⟨1, 1⟩, []⟩
    State.Passes parser.limit tokens 0 state [] ∧ parser.limit < state.frames.length ∧
      (parser.parse tokens).outcome = .ok [root] ∧ parser.limit < root.nesting := by
  intro parser tokens state root
  have hpasses : State.Passes parser.limit tokens 0 state [] :=
    .between (List.append_nil tokens) rfl
  have hroots : (parser.parse tokens).outcome = .ok [root] := rfl
  obtain ⟨hopen, hnesting⟩ := parse_nests_within parser tokens
  obtain ⟨-, hbeyond⟩ := hopen 0 state [] hpasses
  obtain ⟨-, hdeep⟩ := hnesting [root] hroots root List.mem_cons_self
  exact ⟨hpasses, hbeyond.mpr ⟨rfl, List.cons_ne_nil _ _⟩, hroots, hdeep.mpr rfl⟩

end Offside
