import DocMachine.Lib.Bracket

/-!
# Tracing the commands of an L-system

Model of `trace1` and `trace2` of `haskelllsystems_sk4520/LSystems.hs` (91-117, 119-137).

* `move` (78-90), which turns the turtle or moves it, is a parameter: nothing depends on its
  trigonometry. Coordinates are of any type, as are colours.
* `trace1'` recurses on brackets and returns the commands after the closing one, never more than it
  was given. That is the subtype in its result, on which its termination rests.
* `trace2'` keeps a stack, and is `none` where it pops an empty one. The source, being lazy, only
  fails once it draws from what it popped.

Results:
* `commands_induction`: the induction along the two functions. After an opening bracket they
  continue with commands that are no longer than what follows it.
* `trace2'_push`: with a state to pop, the stack goes on where the recursion stops.
* `trace2_eq_trace1`: the two draw the same lines when no prefix of the commands closes more
  brackets than it opens. Brackets may stay open at the end.
-/

namespace DocMachine.Haskell.LSystems

open DocMachine.Lib.Bracket

/-! ## LSystems.hs -/

/-- `Command`. -/
abbrev Command := Char

/-- `Commands`. -/
abbrev Commands := List Command

/-- `Vertex`. -/
abbrev Vertex (K : Type) := K × K

/-- `TurtleState`: a place and an angle. -/
abbrev TurtleState (K : Type) := Vertex K × K

/-- `ColouredLine`: the two ends and the colour. -/
abbrev ColouredLine (K C : Type) := Vertex K × Vertex K × C

section

variable {K C : Type} (move : Command → K → TurtleState K → TurtleState K) (an : K) (cl : C)

/-- The lines drawn and the commands left over, at most those given. -/
def trace1' (cm : Commands) (ts : TurtleState K) :
    List (ColouredLine K C) × {rest : Commands // rest.length ≤ cm.length} :=
  match cm with
  | [] => ([], ⟨[], le_rfl⟩)
  | c :: cs =>
    if c = ']' then ([], ⟨cs, Nat.le_succ _⟩)
    else if c = '[' then
      let (t2, cs2) := trace1' cs ts
      let (t3, cs3) := trace1' cs2.1 ts
      (t2 ++ t3, ⟨cs3.1, (cs3.2.trans cs2.2).trans (Nat.le_succ _)⟩)
    else
      let ts' := move c an ts
      let (t1, cs1) := trace1' cs ts'
      (if c = 'F' then (ts.1, ts'.1, cl) :: t1 else t1, ⟨cs1.1, cs1.2.trans (Nat.le_succ _)⟩)
termination_by cm.length
decreasing_by
  · exact Nat.lt_succ_self _
  · exact Nat.lt_succ_of_le cs2.2
  · exact Nat.lt_succ_self _

/-- The local `trace2'` of `trace2`: `ts` is the stack. -/
def trace2' : Commands → TurtleState K → List (TurtleState K) → Option (List (ColouredLine K C))
  | [], _, _ => some []
  | c :: cs, t, ts =>
    if c = '[' then trace2' cs t (t :: ts)
    else if c = ']' then
      match ts with
      | [] => none
      | t'' :: ts' => trace2' cs t'' ts'
    else
      let t' := move c an t
      if c = 'F' then (trace2' cs t' ts).map ((t.1, t'.1, cl) :: ·) else trace2' cs t' ts

end

section

variable {K C : Type} [OfNat K 0] [OfNat K 90] (move : Command → K → TurtleState K → TurtleState K)

/-- `trace1`: the turtle starts at the origin and faces up. -/
def trace1 (cm : Commands) (an : K) (cl : C) : List (ColouredLine K C) :=
  (trace1' move an cl cm ((0, 0), 90)).1

/-- `trace2`. -/
def trace2 (cm : Commands) (an : K) (cl : C) : Option (List (ColouredLine K C)) :=
  trace2' move an cl cm ((0, 0), 90) []

end

/-! ## One command -/

section

variable {K C : Type} {move : Command → K → TurtleState K → TurtleState K} {an : K} {cl : C}
  {c : Command} {cs : Commands} {t s : TurtleState K} {ts : List (TurtleState K)}

theorem trace1'_nil : trace1' move an cl [] t = ([], ⟨[], le_rfl⟩) := by
  rw [trace1']

theorem trace1'_close : trace1' move an cl (']' :: cs) t = ([], ⟨cs, Nat.le_succ _⟩) := by
  rw [trace1', if_pos rfl]

theorem lines_open : (trace1' move an cl ('[' :: cs) t).1 =
    (trace1' move an cl cs t).1 ++ (trace1' move an cl (trace1' move an cl cs t).2 t).1 := by
  rw [trace1', if_neg (by decide), if_pos rfl]

theorem rest_open : ((trace1' move an cl ('[' :: cs) t).2 : Commands) =
    (trace1' move an cl (trace1' move an cl cs t).2 t).2 := by
  rw [trace1', if_neg (by decide), if_pos rfl]

/-- The line that a command draws, if any. -/
def drawn (move : Command → K → TurtleState K → TurtleState K) (an : K) (cl : C) (c : Command)
    (t : TurtleState K) : List (ColouredLine K C) :=
  if c = 'F' then [(t.1, (move c an t).1, cl)] else []

theorem lines_move (hc : c ≠ ']') (ho : c ≠ '[') : (trace1' move an cl (c :: cs) t).1 =
    drawn move an cl c t ++ (trace1' move an cl cs (move c an t)).1 := by
  rw [trace1', if_neg hc, if_neg ho, drawn]
  split_ifs <;> simp

theorem rest_move (hc : c ≠ ']') (ho : c ≠ '[') :
    ((trace1' move an cl (c :: cs) t).2 : Commands) =
      (trace1' move an cl cs (move c an t)).2 := by
  rw [trace1', if_neg hc, if_neg ho]

theorem trace2'_open :
    trace2' move an cl ('[' :: cs) t ts = trace2' move an cl cs t (t :: ts) := by
  rw [trace2'.eq_def]
  exact if_pos rfl

theorem trace2'_close :
    trace2' move an cl (']' :: cs) t (s :: ts) = trace2' move an cl cs s ts := by
  rw [trace2', if_neg (by decide), if_pos rfl]

theorem trace2'_move (hc : c ≠ ']') (ho : c ≠ '[') : trace2' move an cl (c :: cs) t ts =
    (trace2' move an cl cs (move c an t) ts).map (drawn move an cl c t ++ ·) := by
  rw [trace2'.eq_def, drawn]
  dsimp only
  rw [if_neg ho, if_neg hc]
  split_ifs <;> simp

/-! ## The stack against the recursion -/

/-- Induction along the two functions: after an opening bracket they continue with commands that
are no longer than what follows it. -/
@[elab_as_elim]
theorem commands_induction {P : Commands → Prop} (nil : P []) (closing : ∀ cs, P (']' :: cs))
    (opening : ∀ cs, (∀ l : Commands, l.length ≤ cs.length → P l) → P ('[' :: cs))
    (moving : ∀ c cs, c ≠ ']' → c ≠ '[' → P cs → P (c :: cs)) (cm : Commands) : P cm := by
  induction hn : cm.length using Nat.strong_induction_on generalizing cm with
  | h n ih =>
    cases cm with
    | nil => exact nil
    | cons c cs =>
      have hcs (l : Commands) (hl : l.length ≤ cs.length) : P l :=
        ih l.length (hn ▸ Nat.lt_succ_of_le hl) l rfl
      by_cases hc : c = ']'
      · exact hc ▸ closing cs
      by_cases ho : c = '['
      · exact ho ▸ opening cs hcs
      · exact moving c cs hc ho (hcs cs le_rfl)

/-- With a state to pop, the stack goes on where the recursion stops: it draws what the recursion
draws and resumes from that state with the commands the recursion has left over. -/
theorem trace2'_push (cm : Commands) (t s : TurtleState K) (ts : List (TurtleState K)) :
    trace2' move an cl cm t (s :: ts) =
      (trace2' move an cl (trace1' move an cl cm t).2 s ts).map
        ((trace1' move an cl cm t).1 ++ ·) := by
  induction cm using commands_induction generalizing t s ts with
  | nil => simp [trace1'_nil, trace2']
  | closing cs => simp [trace1'_close, trace2'_close]
  | opening cs ih =>
    -- what the brackets contain, then what follows them, both above `s`
    have hin := ih cs le_rfl t t (s :: ts)
    have hafter := ih _ (trace1' move an cl cs t).2.2 t s ts
    rw [trace2'_open, hin, hafter, lines_open, rest_open, Option.map_map]
    exact congrArg (Option.map · _) (funext fun x => (List.append_assoc _ _ x).symm)
  | moving c cs hc ho ih =>
    rw [trace2'_move hc ho, ih, lines_move hc ho, rest_move hc ho, Option.map_map]
    exact congrArg (Option.map · _) (funext fun x => (List.append_assoc _ _ x).symm)

/-- The recursion stops at a bracket that it has not opened: one fewer is left to close. -/
theorem closes_rest {d : ℕ} {cm : Commands} (h : Closes '[' ']' (d + 1) cm) (t : TurtleState K) :
    Closes '[' ']' d (trace1' move an cl cm t).2.1 := by
  induction cm using commands_induction generalizing d t with
  | nil =>
    rw [trace1'_nil]
    exact closes_nil
  | closing cs =>
    rw [trace1'_close]
    exact (closes_closing (by decide)).mp h
  | opening cs ih =>
    have hin := ih cs le_rfl ((closes_opening (by decide)).mp h) t
    rw [rest_open]
    exact ih _ (trace1' move an cl cs t).2.2 hin t
  | moving c cs hc ho ih =>
    rw [rest_move hc ho]
    exact ih ((closes_other ho hc).mp h) (move c an t)

theorem trace2'_empty {cm : Commands} (h : Closes '[' ']' 0 cm) (t : TurtleState K) :
    trace2' move an cl cm t [] = some (trace1' move an cl cm t).1 := by
  induction cm using commands_induction generalizing t with
  | nil => simp [trace1'_nil, trace2']
  | closing cs => exact absurd h (not_closes_closing (by decide))
  | opening cs ih =>
    have hrest : Closes '[' ']' 0 (trace1' move an cl cs t).2.1 :=
      closes_rest ((closes_opening (by decide)).mp h) t
    have hafter := ih _ (trace1' move an cl cs t).2.2 hrest t
    rw [trace2'_open, trace2'_push, hafter, lines_open, Option.map_some]
  | moving c cs hc ho ih =>
    have hcs := ih ((closes_other ho hc).mp h) (move c an t)
    rw [trace2'_move hc ho, hcs, lines_move hc ho, Option.map_some]

end

theorem trace2_eq_trace1 {K C : Type} [OfNat K 0] [OfNat K 90]
    (move : Command → K → TurtleState K → TurtleState K) (cm : Commands) (an : K) (cl : C)
    (h : ∀ pre, pre <+: cm → pre.count ']' ≤ pre.count '[') :
    trace2 move cm an cl = some (trace1 move cm an cl) :=
  trace2'_empty h ((0, 0), 90)

/-- A branch that is closed, and one that stays open. -/
theorem trace2_eq_trace1_branches : trace2 (fun c a s => if c = 'F' then ((s.1.1 + 1, s.1.2), s.2)
      else (s.1, s.2 + a)) "F[LF]R[F".toList (45 : ℤ) "red" =
    some (trace1 (fun c a s => if c = 'F' then ((s.1.1 + 1, s.1.2), s.2)
      else (s.1, s.2 + a)) "F[LF]R[F".toList 45 "red") := by
  refine trace2_eq_trace1 _ _ _ _ fun pre hpre => ?_
  revert pre
  simp only [← List.mem_inits]
  decide

end DocMachine.Haskell.LSystems
