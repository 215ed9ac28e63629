import Mathlib.Data.List.Sections
import DocMachine.Fruits.Board

/-!
# The planner of the fruit game

Model of `succeeds` and `plan` of `Prolog/fruit-matching_sk4520/fruits.pl` (`print_configurations`
12-22, `succeeds` 250-254, `plan` 263-268).

* `plan` builds a list of boards whose tail stays open, and `print_configurations` closes it. An
  open list is modelled by the elements it has so far.
* `succeeds` has a bound on the depth of the calls, and gives all its solutions in the order in
  which they are found; `none` says that the bound was too small. What is printed is left out.
* `plan` compares a new board with the history of the call, in which the board it comes from is not
  yet. The clause of `succeeds` that takes a stored solution (246) is a comment in the source.

Results:
* `plan_eq`: `plan` is a depth-first search, so that the library's results on paths apply.
* `succeeds_eq`: the solutions are the boards of the paths that the search finds.
* `succeeds_sound_complete`: on the boards of one size over the tiles of the initial one the search
  ends, and it finds the sequences of moves to a goal that repeat no board, and no others.
-/

namespace DocMachine.Fruits

open DocMachine.Lib DocMachine.Lib.DepthFirst

variable {F : Type}

/-! ## The boards of one size -/

/-- The boards with the size of the initial one and with its tiles. -/
def SameSize (initial board : Board F) : Prop :=
  board.length = initial.length ∧ ∀ row ∈ board, RowIn initial.length (.e :: initial.flatten) row

/-- All of them. -/
def space (initial : Board F) : List (Board F) :=
  (List.replicate initial.length
    (List.replicate initial.length (.e :: initial.flatten)).sections).sections

theorem mem_sections_replicate {α : Type} {as l : List α} (h : ∀ a ∈ l, a ∈ as) :
    l ∈ (List.replicate l.length as).sections := by
  rw [List.mem_sections]
  induction l with
  | nil => exact .nil
  | cons a l ih =>
    obtain ⟨ha, hl⟩ := List.forall_mem_cons.mp h
    exact .cons ha (ih hl)

theorem mem_space {initial board : Board F} (h : SameSize initial board) :
    board ∈ space initial := by
  obtain ⟨hlen, hrows⟩ := h
  rw [space, ← hlen]
  refine mem_sections_replicate fun row hrow => ?_
  obtain ⟨hrow, htiles⟩ := hrows row hrow
  rw [hlen, ← hrow]
  exact mem_sections_replicate htiles

theorem sameSize_initial {initial : Board F} (hvalid : valid initial = true) :
    SameSize initial initial :=
  ⟨rfl, fun row hrow => ⟨valid_iff.mp hvalid row hrow, fun _ ht =>
    List.mem_cons_of_mem _ (List.mem_flatten_of_mem hrow ht)⟩⟩

variable [DecidableEq F]

theorem sameSize_move {initial board : Board F} (hinitial : initial ≠ [])
    (h : SameSize initial board) {step : Move × Board F} (hstep : step ∈ move board) :
    SameSize initial step.2 ∧ step.2 ≠ board := by
  obtain ⟨hne, hlen, hrows⟩ :=
    move_changed (List.length_pos_iff.mpr hinitial) List.mem_cons_self h.2 hstep
  exact ⟨⟨hlen.trans h.1, hrows⟩, hne⟩

/-! ## The planner -/

/-- All solutions for the actions and the sequence, which are open lists. `sequence` is what the
call has bound of the sequence: nothing, or `state` alone. -/
def plan : ℕ → Board F → List (Board F) → List (Board F) →
    Option (List (List Move × List (Board F)))
  | 0, _, _, _ => none
  | fuel + 1, state, history, sequence => do
    let answers ← tryAll (fun step : Move × Board F =>
      if step.2 ∈ history then some []
      else (plan fuel step.2 (state :: history) [step.2]).map
        (List.map fun r => (step.1 :: r.1, state :: r.2))) (move state)
    some (answers ++ if goal state then [([], sequence)] else [])

/-- The closed sequence. With no board at all it would print what is not bound: this is not
modelled. -/
def print_configurations : List (Board F) → List Move → Option (List (Board F))
  | [board], [] => some [board]
  | board :: sequence, _ :: actions =>
    (print_configurations sequence actions).map (board :: ·)
  | _, _ => none

/-- All solutions, from the board of `initial`. -/
def succeeds (fuel : ℕ) (initial : Board F) : Option (List (List (Board F))) :=
  if valid initial then
    (plan fuel initial [] []).map (List.filterMap fun r => print_configurations r.2 r.1)
  else some []

/-! ## It is a depth-first search -/

/-- The actions and the boards of a path. -/
def toPlan (state : Board F) (p : List (Move × Board F)) : List Move × List (Board F) :=
  (p.map Prod.fst, nodes state p)

theorem plan_eq (fuel : ℕ) (state : Board F) (history : List (Board F)) :
    plan fuel state history [state] =
      (search move goal fuel history state).map (List.map (toPlan state)) := by
  induction fuel generalizing state history with
  | zero => rfl
  | succ fuel ih =>
    have hstep : (fun step : Move × Board F => if step.2 ∈ history then some []
        else (plan fuel step.2 (state :: history) [step.2]).map
          (List.map fun r => (step.1 :: r.1, state :: r.2))) =
        fun step => (descend (search move goal fuel (state :: history)) history step).map
          (List.map (toPlan state)) := by
      funext step
      unfold descend
      by_cases hv : step.2 ∈ history
      · rw [if_pos hv, if_pos hv]
        rfl
      · rw [if_neg hv, if_neg hv, ih, Option.map_map, Option.map_map]
        refine congrArg (fun f => Option.map f _) (funext fun paths => ?_)
        rw [Function.comp, Function.comp, List.map_map, List.map_map]
        rfl
    have hgoal : ∀ answers : Option (List (List (Move × Board F))),
        ((answers.map (List.map (toPlan state))).bind fun answers =>
          some (answers ++ if goal state then [([], [state])] else [])) =
        (answers.bind fun answers => some (answers ++ if goal state then [[]] else [])).map
          (List.map (toPlan state)) := by
      intro answers
      cases answers with
      | none => rfl
      | some answers =>
        refine congrArg some ?_
        rw [List.map_append]
        cases goal state <;> rfl
    rw [plan, search, hstep, tryAll_map]
    exact hgoal _

/-- The first call, with nothing bound of the sequence. -/
theorem plan_initial {fuel : ℕ} {state : Board F} (hgoal : goal state = false) :
    plan fuel state [] [] = plan fuel state [] [state] := by
  cases fuel with
  | zero => rfl
  | succ fuel =>
    rw [plan, plan, hgoal]
    rfl

omit [DecidableEq F] in
theorem print_configurations_toPlan (state : Board F) (p : List (Move × Board F)) :
    print_configurations (toPlan state p).2 (toPlan state p).1 = some (nodes state p) := by
  induction p generalizing state with
  | nil => rfl
  | cons step p ih =>
    have htail : (print_configurations (toPlan step.2 p).2 (toPlan step.2 p).1).map (state :: ·) =
        some (state :: nodes step.2 p) := by rw [ih]; rfl
    exact htail

/-- The solutions are the boards of the paths that a search finds. -/
theorem succeeds_eq {fuel : ℕ} {initial : Board F} (hvalid : valid initial = true)
    (hgoal : goal initial = false) :
    succeeds fuel initial = (search move goal fuel [] initial).map (List.map (nodes initial)) := by
  rw [succeeds, if_pos hvalid, plan_initial hgoal, plan_eq, Option.map_map]
  refine congrArg (fun f => Option.map f _) (funext fun paths => ?_)
  rw [Function.comp, List.filterMap_map]
  have hprint : (fun r => print_configurations r.2 r.1) ∘ toPlan initial =
      fun p => some (nodes initial p) := funext (print_configurations_toPlan initial)
  rw [hprint, List.filterMap_eq_map']

/-! ## The solutions -/

/-- A sequence of boards from `initial` to a goal, each one a move away from the one before. -/
structure Solution (initial : Board F) (sequence : List (Board F)) : Prop where
  starts : sequence.head? = some initial
  ends : ∃ board ∈ sequence.getLast?, goal board = true
  moves : sequence.IsChain fun board board' => ∃ m, (m, board') ∈ move board
  nodup : sequence.Nodup

theorem solution_of_path {initial : Board F} {p : List (Move × Board F)}
    (hp : Path move goal initial p) (hnodup : (nodes initial p).Nodup) :
    Solution initial (nodes initial p) := by
  refine ⟨rfl, ?_, ?_, hnodup⟩
  · clear hnodup
    induction p generalizing initial with
    | nil => exact ⟨initial, rfl, hp⟩
    | cons step p ih => exact ih hp.2
  · clear hnodup
    induction p generalizing initial with
    | nil => exact .singleton initial
    | cons step p ih => exact List.isChain_cons_cons.mpr ⟨⟨step.1, hp.1⟩, ih hp.2⟩

theorem goal_eq_false {initial : Board F} (hfruit : ∃ row ∈ initial, ∃ f, .fruit f ∈ row) :
    goal initial = false := by
  obtain ⟨row, hrow, f, hf⟩ := hfruit
  rw [Bool.eq_false_iff]
  intro hgoal
  cases (((goal_iff.mp hgoal).2 row hrow).2 _ hf)

/-- **The planner is sound and complete, and its search ends.** -/
theorem succeeds_sound_complete (initial : Board F) (hvalid : valid initial = true)
    (hfruit : ∃ row ∈ initial, ∃ f, .fruit f ∈ row) :
    ∃ n sequences, (∀ fuel, n ≤ fuel → succeeds fuel initial = some sequences) ∧
      (∀ sequence ∈ sequences, Solution initial sequence) ∧
      ((∃ board, Relation.ReflTransGen (fun b b' => ∃ m, (m, b') ∈ move b) initial board ∧
        goal board = true) → sequences ≠ []) := by
  have hgoal := goal_eq_false hfruit
  have hne : initial ≠ [] := by
    obtain ⟨row, hrow, -⟩ := hfruit
    exact List.ne_nil_of_mem hrow
  have hclosed : ∀ board, SameSize initial board → ∀ step ∈ move board,
      SameSize initial step.2 ∧ step.2 ≠ board := fun _ hboard _ => sameSize_move hne hboard
  have hinitial := sameSize_initial hvalid
  obtain ⟨paths, hpaths⟩ : ∃ paths,
      search move goal (space initial).length [] initial = some paths :=
    search_total (fun _ => mem_space) hclosed hinitial (fun _ h => absurd h List.not_mem_nil)
      (List.nodup_cons.mpr ⟨List.not_mem_nil, List.nodup_nil⟩) (Nat.le_refl _)
  have hmem := mem_search hclosed hinitial hpaths
  refine ⟨(space initial).length, paths.map (nodes initial), fun fuel hfuel => ?_,
    fun sequence hsequence => ?_, ?_⟩
  · rw [succeeds_eq hvalid hgoal, search_mono hpaths hfuel]
    rfl
  · obtain ⟨p, hp, rfl⟩ := List.mem_map.mp hsequence
    obtain ⟨hpath, hnodup, -⟩ := (hmem p).mp hp
    exact solution_of_path hpath hnodup
  · rintro ⟨board, hmoves, hboard⟩
    obtain ⟨p, hpath, hnodup⟩ := exists_simple hmoves hboard
    have hp : p ∈ paths := (hmem p).mpr ⟨hpath, hnodup, fun _ _ => List.not_mem_nil⟩
    exact List.ne_nil_of_mem (List.mem_map_of_mem hp)

theorem succeeds_sound_complete_two :
    ∃ n sequences, (∀ fuel, n ≤ fuel →
        succeeds fuel [[.fruit 'b', .fruit 'g'], [.fruit 'g', .fruit 'b']] = some sequences) ∧
      (∀ sequence ∈ sequences,
        Solution [[.fruit 'b', .fruit 'g'], [.fruit 'g', .fruit 'b']] sequence) ∧
      ((∃ board, Relation.ReflTransGen (fun b b' => ∃ m, (m, b') ∈ move b)
        [[.fruit 'b', .fruit 'g'], [.fruit 'g', .fruit 'b']] board ∧ goal board = true) →
        sequences ≠ []) :=
  succeeds_sound_complete _ (by decide)
    ⟨[.fruit 'b', .fruit 'g'], List.mem_cons_self, 'b', List.mem_cons_self⟩

end DocMachine.Fruits
