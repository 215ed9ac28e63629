import DocMachine.Haskell.LSystems

/-!
# Expanding an L-system

Model of `expandLSystem` of `haskelllsystems_sk4520/LSystems.hs` (142-144) and what it calls
(`lookupChar` 57-60, `expandOne` 64-67, `expand` 71-75, `commandMap` 286-297).

* A character without a rule has no expansion (`none`), where the source takes the head of an empty
  list.
* A negative number of steps, for which `expand` never returns, is left out.
* A system that `KeepsBrackets` maps each bracket to itself and every other character to a balanced
  string; it is `Closed` if every character that can come up has a rule.
* `stateAfter` is the turtle and its stack after some commands, by the turns of `trace2`.

Results:
* `expand_balanced`: a round of expansion keeps the text balanced, and so do all rounds.
* `stateAfter_of_closes` and `trace2'_balanced`: balanced commands never pop an empty stack and
  leave none behind.
* `expandLSystem_balanced`: the expansion of such a system is balanced for every number of steps,
  and `trace2` draws it to the end with an empty stack.
-/

namespace DocMachine.Haskell.LSystems

open DocMachine.Lib.Bracket

/-! ## LSystems.hs -/

/-- `Rules`: what is put for a character. -/
abbrev Rules := List (Char × List Char)

/-- The angle, the axiom and the rules. -/
abbrev LSystem (K : Type) := K × List Char × Rules

/-- `angle`. -/
def angle {K : Type} (system : LSystem K) : K := system.1

/-- `lookupChar`: the first rule of the character. -/
def lookupChar (ch : Char) (r : Rules) : Option (List Char) :=
  ((r.filter fun rule => rule.1 = ch).map Prod.snd).head?

/-- `expandOne`: one round. -/
def expandOne : List Char → Rules → Option (List Char)
  | [], _ => some []
  | x :: xs, rs => do return (← lookupChar x rs) ++ (← expandOne xs rs)

/-- `expand`: `n` rounds. -/
def expand : List Char → ℕ → Rules → Option (List Char)
  | s, 0, _ => some s
  | s, n + 1, rs => do expand (← expandOne s rs) n rs

/-- `commandMap`: the turtle commands that the characters stand for. -/
def commandMap : Rules :=
  [('M', "F".toList), ('N', "F".toList), ('X', []), ('Y', []), ('A', []), ('[', "[".toList),
    (']', "]".toList), ('+', "L".toList), ('-', "R".toList)]

/-- `expandLSystem`. -/
def expandLSystem {K : Type} (system : LSystem K) (n : ℕ) : Option Commands := do
  expandOne (← expand system.2.1 n system.2.2) commandMap

/-! ## Rules that keep the balance -/

/-- A character that the rules and the final mapping can replace. -/
def Bound (rs : Rules) (c : Char) : Prop :=
  (lookupChar c rs).isSome ∧ (lookupChar c commandMap).isSome

instance (rs : Rules) (c : Char) : Decidable (Bound rs c) :=
  inferInstanceAs (Decidable (_ ∧ _))

/-- Brackets are mapped to themselves and the other characters to balanced strings. -/
structure KeepsBrackets (rs : Rules) : Prop where
  opening : ∀ s, lookupChar '[' rs = some s → s = ['[']
  closing : ∀ s, lookupChar ']' rs = some s → s = [']']
  other : ∀ c s, c ≠ '[' → c ≠ ']' → lookupChar c rs = some s → Balanced '[' ']' s

/-- The characters of a string, and those that replace them, are bound. -/
structure Closed (rs : Rules) (s : List Char) : Prop where
  start : ∀ c ∈ s, Bound rs c
  step : ∀ c s, lookupChar c rs = some s → ∀ c' ∈ s, Bound rs c'

variable {rs : Rules} {s : List Char} {c : Char}

/-- The replacement of a character; one that is not bound stands for itself. -/
def replacement (rs : Rules) (c : Char) : List Char := (lookupChar c rs).getD [c]

theorem KeepsBrackets.substitution (h : KeepsBrackets rs) :
    Substitution '[' ']' (replacement rs) where
  left := by
    unfold replacement
    cases hl : lookupChar '[' rs with
    | none => rfl
    | some s => exact h.opening s hl
  right := by
    unfold replacement
    cases hl : lookupChar ']' rs with
    | none => rfl
    | some s => exact h.closing s hl
  other c ho hc := by
    unfold replacement
    cases hl : lookupChar c rs with
    | none =>
      refine ⟨(closes_other ho hc).mpr closes_nil, ?_⟩
      rw [Option.getD_none, List.count_cons_of_ne ho, List.count_cons_of_ne hc, List.count_nil,
        List.count_nil]
    | some s => exact h.other c s ho hc hl

theorem mem_of_lookupChar (h : lookupChar c rs = some s) : (c, s) ∈ rs := by
  obtain ⟨⟨c', s'⟩, hrule, rfl⟩ := List.mem_map.mp (List.mem_of_mem_head? h)
  obtain ⟨hmem, heq⟩ := List.mem_filter.mp hrule
  rwa [← of_decide_eq_true heq]

theorem keepsBrackets_of_forall (h : ∀ rule ∈ rs,
    if rule.1 = '[' ∨ rule.1 = ']' then rule.2 = [rule.1] else Balanced '[' ']' rule.2) :
    KeepsBrackets rs where
  opening s hs := by simpa using h _ (mem_of_lookupChar hs)
  closing s hs := by simpa using h _ (mem_of_lookupChar hs)
  other c s ho hc hs := by simpa [ho, hc] using h _ (mem_of_lookupChar hs)

theorem expandOne_eq (h : ∀ c ∈ s, (lookupChar c rs).isSome) :
    expandOne s rs = some (s.flatMap (replacement rs)) := by
  induction s with
  | nil => rfl
  | cons c s ih =>
    obtain ⟨t, ht⟩ := Option.isSome_iff_exists.mp (h c List.mem_cons_self)
    rw [expandOne, ht, ih fun c' hc' => h c' (List.mem_cons_of_mem _ hc'), List.flatMap_cons,
      replacement, ht]
    rfl

theorem Closed.flatMap (h : Closed rs s) : Closed rs (s.flatMap (replacement rs)) where
  start c hc := by
    obtain ⟨x, hx, hc⟩ := List.mem_flatMap.mp hc
    obtain ⟨t, ht⟩ := Option.isSome_iff_exists.mp (h.start x hx).1
    rw [replacement, ht] at hc
    exact h.step x t ht c hc
  step := h.step

/-- One round for each step, and all rounds. -/
theorem expand_balanced (hrules : KeepsBrackets rs) (n : ℕ) (hclosed : Closed rs s)
    (hbalanced : Balanced '[' ']' s) :
    ∃ s', expand s n rs = some s' ∧ Closed rs s' ∧ Balanced '[' ']' s' := by
  induction n generalizing s with
  | zero => exact ⟨s, rfl, hclosed, hbalanced⟩
  | succ n ih =>
    obtain ⟨s', hs', hclosed', hbalanced'⟩ :=
      ih hclosed.flatMap (hbalanced.flatMap hrules.substitution (by decide))
    refine ⟨s', ?_, hclosed', hbalanced'⟩
    rw [expand, expandOne_eq fun c hc => (hclosed.start c hc).1]
    exact hs'

theorem commandMap_keepsBrackets : KeepsBrackets commandMap :=
  keepsBrackets_of_forall (by decide)

/-! ## The stack of the turtle -/

section

variable {K C : Type} (move : Command → K → TurtleState K → TurtleState K) (an : K)

/-- The state and the stack with which `trace2'` goes on after a command. -/
def turn (c : Command) : TurtleState K × List (TurtleState K) →
    Option (TurtleState K × List (TurtleState K))
  | (t, ts) =>
    if c = '[' then some (t, t :: ts)
    else if c = ']' then
      match ts with
      | [] => none
      | t'' :: ts' => some (t'', ts')
    else some (move c an t, ts)

/-- The turtle and the stack after the commands, if no empty stack is popped. -/
def stateAfter : Commands → TurtleState K × List (TurtleState K) →
    Option (TurtleState K × List (TurtleState K))
  | [], state => some state
  | c :: cm, state => (turn move an c state).bind (stateAfter cm)

/-- What follows commands is traced from the state and the stack after them. -/
theorem trace2'_append (cl : C) (cm : Commands) (t : TurtleState K) (ts : List (TurtleState K)) :
    ∃ lines, ∀ cs, trace2' move an cl (cm ++ cs) t ts =
      (stateAfter move an cm (t, ts)).bind fun state =>
        (trace2' move an cl cs state.1 state.2).map (lines ++ ·) := by
  induction cm generalizing t ts with
  | nil => exact ⟨[], fun cs => by simp [stateAfter]⟩
  | cons c cm ih =>
    by_cases ho : c = '['
    · subst ho
      obtain ⟨lines, hlines⟩ := ih t (t :: ts)
      exact ⟨lines, fun cs => trace2'_open.trans (hlines cs)⟩
    by_cases hc : c = ']'
    · subst hc
      cases ts with
      | nil => exact ⟨[], fun cs => by simp [trace2', stateAfter, turn]⟩
      | cons s ts =>
        obtain ⟨lines, hlines⟩ := ih s ts
        exact ⟨lines, fun cs => trace2'_close.trans (hlines cs)⟩
    · obtain ⟨lines, hlines⟩ := ih (move c an t) ts
      refine ⟨drawn move an cl c t ++ lines, fun cs => ?_⟩
      have hturn : turn move an c (t, ts) = some (move c an t, ts) := by simp [turn, ho, hc]
      rw [List.cons_append, trace2'_move hc ho, hlines, stateAfter, hturn, Option.bind_some,
        Option.map_bind]
      refine congrArg _ (funext fun state => ?_)
      simp [Function.comp_def, List.append_assoc]

/-- Text that closes no more than the stack holds: its height changes by the brackets. -/
theorem stateAfter_of_closes {cm : Commands} (t : TurtleState K) {ts : List (TurtleState K)}
    (h : Closes '[' ']' ts.length cm) : ∃ state, stateAfter move an cm (t, ts) = some state ∧
      state.2.length + cm.count ']' = ts.length + cm.count '[' := by
  induction cm generalizing t ts with
  | nil => exact ⟨(t, ts), rfl, rfl⟩
  | cons c cm ih =>
    by_cases ho : c = '['
    · subst ho
      have hinside : Closes '[' ']' (t :: ts).length cm := (closes_opening (by decide)).mp h
      obtain ⟨state, hstate, hheight⟩ := ih t hinside
      refine ⟨state, hstate, ?_⟩
      rw [List.count_cons_self, List.count_cons_of_ne (by decide), hheight, List.length_cons]
      omega
    by_cases hc : c = ']'
    · subst hc
      cases ts with
      | nil => exact absurd h (not_closes_closing (by decide))
      | cons s ts =>
        obtain ⟨state, hstate, hheight⟩ := ih s ((closes_closing (by decide)).mp h)
        refine ⟨state, hstate, ?_⟩
        rw [List.count_cons_self, List.count_cons_of_ne (by decide), List.length_cons]
        omega
    · obtain ⟨state, hstate, hheight⟩ := ih (move c an t) ((closes_other ho hc).mp h)
      refine ⟨state, ?_, ?_⟩
      · simpa [stateAfter, turn, ho, hc] using hstate
      · rw [List.count_cons_of_ne ho, List.count_cons_of_ne hc, hheight]

/-- Balanced commands never pop an empty stack and leave none behind. -/
theorem trace2'_balanced (cl : C) {cm : Commands} (h : Balanced '[' ']' cm) (t : TurtleState K) :
    (∃ lines, trace2' move an cl cm t [] = some lines) ∧
      ∃ t', stateAfter move an cm (t, []) = some (t', []) := by
  have hcloses : Closes '[' ']' ([] : List (TurtleState K)).length cm := h.closes
  obtain ⟨⟨t', ts'⟩, hstate, hheight⟩ := stateAfter_of_closes move an t hcloses
  obtain ⟨lines, hlines⟩ := trace2'_append move an cl cm t []
  have hcount := h.count
  have hempty : ts' = [] := List.eq_nil_of_length_eq_zero (by simp at hheight; omega)
  subst hempty
  refine ⟨⟨lines, ?_⟩, t', hstate⟩
  simpa [hstate, trace2'] using hlines []

end

/-! ## The expansion of a system -/

/-- What the expansion needs of a system. -/
structure Bracketed {K : Type} (system : LSystem K) : Prop where
  start : Balanced '[' ']' system.2.1
  rules : KeepsBrackets system.2.2
  closed : Closed system.2.2 system.2.1

/-- **Balance of the expansion.** -/
theorem expandLSystem_balanced {K : Type} [OfNat K 0] [OfNat K 90] {system : LSystem K}
    (h : Bracketed system) (n : ℕ) : ∃ cm, expandLSystem system n = some cm ∧
      (∀ pre, pre <+: cm → pre.count ']' ≤ pre.count '[') ∧ cm.count ']' = cm.count '[' ∧
      ∀ (C : Type) (move : Command → K → TurtleState K → TurtleState K) (cl : C),
        (∃ lines, trace2 move cm (angle system) cl = some lines) ∧
          ∃ t, stateAfter move (angle system) cm (((0, 0), 90), []) = some (t, []) := by
  obtain ⟨s, hs, hclosed, hbalanced⟩ := expand_balanced h.rules n h.closed h.start
  have hmapped : Balanced '[' ']' (s.flatMap (replacement commandMap)) :=
    hbalanced.flatMap commandMap_keepsBrackets.substitution (by decide)
  refine ⟨_, ?_, hmapped.closes, hmapped.count, fun C move cl =>
    trace2'_balanced move (angle system) cl hmapped _⟩
  rw [expandLSystem, hs]
  exact expandOne_eq fun c hc => (hclosed.start c hc).2

/-- The tree of the source, with an integer for the angle. -/
def tree : LSystem ℤ :=
  (45, "M".toList,
    [('M', "N[-M][+M][NM]".toList), ('N', "NN".toList), ('[', "[".toList), (']', "]".toList),
      ('+', "+".toList), ('-', "-".toList)])

theorem tree_bracketed : Bracketed tree where
  start := by decide
  rules := keepsBrackets_of_forall (by decide)
  closed := by
    have hrules : tree.2.2.all fun rule => rule.2.all fun c => Bound tree.2.2 c := by decide
    have hstart : tree.2.1.all fun c => Bound tree.2.2 c := by decide
    simp only [List.all_eq_true, decide_eq_true_eq] at hrules hstart
    exact ⟨hstart, fun c s hs => hrules (c, s) (mem_of_lookupChar hs)⟩

theorem expandLSystem_tree : ∃ cm, expandLSystem tree 3 = some cm ∧
    (∀ pre, pre <+: cm → pre.count ']' ≤ pre.count '[') ∧ cm.count ']' = cm.count '[' ∧
    ∀ (C : Type) (move : Command → ℤ → TurtleState ℤ → TurtleState ℤ) (cl : C),
      (∃ lines, trace2 move cm (angle tree) cl = some lines) ∧
        ∃ t, stateAfter move (angle tree) cm (((0, 0), 90), []) = some (t, []) :=
  expandLSystem_balanced tree_bracketed 3

end DocMachine.Haskell.LSystems
