import Mathlib.Data.Set.Insert
import DocMachine.Lib.Outcome

/-!
# The imperative language of the register allocator

The syntax of `haskellfinaltest_sk4520/Types.hs` (6-21), and what the allocator is about: how a
function runs, which variables are live at a point and which variables interfere. The source gives
no interpreter; what a function returns is stated here, so that the renaming can be proved to keep
it.

* The meaning of constants, operators and conditions is a parameter (`Interpretation`), over any
  type of values.
* A store is partial: reading a variable that was not assigned goes wrong. A call puts the values in
  the arguments and returns what `return` holds at the end.
* A run bounds the iterations of each loop and is `done`, `wrong` or out of fuel. `Returns` asks for
  some bound with which the call ends, `Diverges` that no bound is enough.
* A point of a function is the set of paths from it to the exit, each the list of reads and writes
  on it. A variable is live at a point if some path reads it before it writes it (`ReadsFirst`). Two
  variables interfere if one is assigned where the other is live.

Results:
* `Function.run_below`: a larger bound changes nothing once a call ends, so that `Returns` and
  `Diverges` exclude each other and the result is unique.
* `readsFirst_append` and `readsFirst_reads_append`: what is read first on a path put together from
  two.
-/

namespace DocMachine.Alloc

open DocMachine.Lib (Outcome)

/-! ## Syntax -/

/-- `Id`: the name of a variable or a function. -/
abbrev Id := String

/-- `Op`. -/
inductive Op where
  | add
  | mul
  | eq
  | gEq
deriving DecidableEq

/-- `Exp`. -/
inductive Exp where
  | const (n : ℤ)
  | var (v : Id)
  | apply (op : Op) (e₁ e₂ : Exp)
deriving DecidableEq

/-- `Statement`: `If` and `While` are `cond` and `loop`. -/
inductive Statement where
  | assign (v : Id) (e : Exp)
  | cond (e : Exp) (b₁ b₂ : List Statement)
  | loop (e : Exp) (b : List Statement)

/-- `Block`. -/
abbrev Block := List Statement

mutual

/-- The derived equality. -/
def Statement.beq : Statement → Statement → Bool
  | .assign v e, .assign v' e' => v = v' && e = e'
  | .cond e b₁ b₂, .cond e' b₁' b₂' => e = e' && blockBeq b₁ b₁' && blockBeq b₂ b₂'
  | .loop e b, .loop e' b' => e = e' && blockBeq b b'
  | _, _ => false

/-- The derived `==` on blocks. -/
def blockBeq : List Statement → List Statement → Bool
  | [], [] => true
  | s :: b, s' :: b' => s.beq s' && blockBeq b b'
  | _, _ => false

end

instance : BEq Statement := ⟨Statement.beq⟩

/-- `Function`: its name, its arguments and its body. -/
structure Function where
  name : Id
  args : List Id
  body : Block

/-- The variables of an expression, from left to right. -/
def Exp.vars : Exp → List Id
  | .const _ => []
  | .var v => [v]
  | .apply _ e₁ e₂ => e₁.vars ++ e₂.vars

mutual

/-- The variables of a statement, those of its blocks included. -/
def Statement.vars : Statement → List Id
  | .assign v e => v :: e.vars
  | .cond e b₁ b₂ => e.vars ++ blockVars b₁ ++ blockVars b₂
  | .loop e b => e.vars ++ blockVars b

/-- The variables of a block. -/
def blockVars : List Statement → List Id
  | [] => []
  | s :: b => s.vars ++ blockVars b

end

/-- The arguments and the variables of the body. -/
def Function.vars (f : Function) : List Id := f.args ++ blockVars f.body

/-! ## Runs -/

/-- The meaning of constants, operators and conditions. -/
structure Interpretation (V : Type) where
  const : ℤ → V
  apply : Op → V → V → V
  truth : V → Bool

/-- The values of the variables that have been assigned. -/
abbrev Store (V : Type) := Id → Option V

section Semantics

variable {V : Type} (I : Interpretation V)

/-- An assignment. -/
def Store.set (σ : Store V) (v : Id) (x : V) : Store V := fun w => if w = v then some x else σ w

@[simp] theorem Store.set_self (σ : Store V) (v : Id) (x : V) : σ.set v x v = some x := if_pos rfl

theorem Store.set_of_ne {σ : Store V} {v w : Id} (h : w ≠ v) (x : V) : σ.set v x w = σ w := if_neg h

/-- The value of an expression, if all its variables have one. -/
def eval (σ : Store V) : Exp → Option V
  | .const n => some (I.const n)
  | .var v => σ v
  | .apply op e₁ e₂ => do return I.apply op (← eval σ e₁) (← eval σ e₂)

/-- The value of a condition. -/
def holds (e : Exp) (σ : Store V) : Option Bool := (eval I σ e).map I.truth

mutual

/-- A statement turns a store into a store, each loop running at most `fuel` times. -/
def Statement.exec (fuel : ℕ) : Statement → Store V → Outcome (Store V)
  | .assign v e, σ =>
    match eval I σ e with
    | none => .wrong
    | some x => .done (σ.set v x)
  | .cond e b₁ b₂, σ =>
    match holds I e σ with
    | none => .wrong
    | some true => execBlock fuel b₁ σ
    | some false => execBlock fuel b₂ σ
  | .loop e b, σ => Outcome.whileLoop (holds I e) (execBlock fuel b) fuel σ

/-- The statements of a block, one after the other. -/
def execBlock (fuel : ℕ) : List Statement → Store V → Outcome (Store V)
  | [], σ => .done σ
  | s :: b, σ => (s.exec fuel σ).bind (execBlock fuel b)

end

/-- The store at entry. -/
def entry (args : List Id) (values : List V) : Store V :=
  fun v => List.lookup v (args.zip values)

/-- Call a function: the value of `return` at the end, `none` if it has none. A call with the wrong
number of arguments goes wrong. -/
def Function.run (f : Function) (fuel : ℕ) (values : List V) : Outcome (Option V) :=
  if values.length = f.args.length then
    (execBlock I fuel f.body (entry f.args values)).map fun σ => σ "return"
  else .wrong

/-- The call ends, with `result` in the variable `return`. -/
def Function.Returns (f : Function) (values : List V) (result : Option V) : Prop :=
  ∃ fuel, f.run I fuel values = .done result

/-- The call runs past every bound on its loops. -/
def Function.Diverges (f : Function) (values : List V) : Prop :=
  ∀ fuel, f.run I fuel values = .outOfFuel

/-- No variable is read before it is assigned. -/
def Function.AssignsBeforeReads (f : Function) (values : List V) : Prop :=
  values.length = f.args.length → ∀ fuel, f.run I fuel values ≠ .wrong

variable {I}

theorem execBlock_append (fuel : ℕ) (b b' : Block) (σ : Store V) :
    execBlock I fuel (b ++ b') σ = (execBlock I fuel b σ).bind (execBlock I fuel b') := by
  induction b generalizing σ with
  | nil => rfl
  | cons s b ih =>
    simp only [List.cons_append, execBlock]
    cases s.exec I fuel σ with
    | outOfFuel => rfl
    | wrong => rfl
    | done σ' => exact ih σ'

mutual

theorem Statement.exec_below {fuel fuel' : ℕ} (h : fuel ≤ fuel') :
    ∀ (s : Statement) (σ : Store V), Outcome.Below (s.exec I fuel σ) (s.exec I fuel' σ)
  | .assign _ _, _ => .refl _
  | .cond e b₁ b₂, σ => by
    unfold Statement.exec
    cases holds I e σ with
    | none => exact .refl _
    | some t =>
      cases t with
      | true => exact execBlock_below h b₁ σ
      | false => exact execBlock_below h b₂ σ
  | .loop e b, σ => by
    unfold Statement.exec
    exact Outcome.Below.whileLoop (execBlock_below h b) h σ

theorem execBlock_below {fuel fuel' : ℕ} (h : fuel ≤ fuel') :
    ∀ (b : List Statement) (σ : Store V),
      Outcome.Below (execBlock I fuel b σ) (execBlock I fuel' b σ)
  | [], _ => .refl _
  | s :: b, σ => (s.exec_below h σ).bind (execBlock_below h b)

end

/-- A larger bound changes nothing once a call ends. -/
theorem Function.run_below {fuel fuel' : ℕ} (h : fuel ≤ fuel') (f : Function) (values : List V) :
    Outcome.Below (f.run I fuel values) (f.run I fuel' values) := by
  unfold Function.run
  split
  · exact (execBlock_below h f.body _).bind fun _ => .refl _
  · exact .refl _

theorem Function.Returns.unique {f : Function} {values : List V} {r r' : Option V}
    (h : f.Returns I values r) (h' : f.Returns I values r') : r = r' := by
  obtain ⟨fuel, h⟩ := h
  obtain ⟨fuel', h'⟩ := h'
  have hmax := f.run_below (I := I) (le_max_left fuel fuel') values
  have hmax' := f.run_below (I := I) (le_max_right fuel fuel') values
  rw [h] at hmax
  rw [h'] at hmax'
  cases hmax with
  | inl hout => cases hout
  | inr heq =>
    cases hmax' with
    | inl hout => cases hout
    | inr heq' =>
      cases heq.trans heq'.symm
      rfl

end Semantics

/-! ## Live variables -/

/-- What a path does to the variables, one after the other. -/
inductive Action where
  | read (v : Id)
  | write (v : Id)
deriving DecidableEq

/-- The reads of an expression, from left to right. -/
def Exp.reads (e : Exp) : List Action := e.vars.map .read

mutual

/-- The paths through a statement. -/
inductive Path : Statement → List Action → Prop
  | assign (v : Id) (e : Exp) : Path (.assign v e) (e.reads ++ [.write v])
  | thenBranch {e : Exp} {b₁ b₂ : Block} {p : List Action} (h : BlockPath b₁ p) :
      Path (.cond e b₁ b₂) (e.reads ++ p)
  | elseBranch {e : Exp} {b₁ b₂ : Block} {p : List Action} (h : BlockPath b₂ p) :
      Path (.cond e b₁ b₂) (e.reads ++ p)
  | leave (e : Exp) (b : Block) : Path (.loop e b) e.reads
  | again {e : Exp} {b : Block} {p q : List Action} (h : BlockPath b p) (h' : Path (.loop e b) q) :
      Path (.loop e b) (e.reads ++ (p ++ q))

/-- A path through a block goes through its statements in order. -/
inductive BlockPath : List Statement → List Action → Prop
  | nil : BlockPath [] []
  | cons {s : Statement} {b : List Statement} {p q : List Action} (h : Path s p)
      (h' : BlockPath b q) : BlockPath (s :: b) (p ++ q)

end

/-- A point: the paths from there to the exit. -/
abbrev Point := Set (List Action)

/-- The point before a statement or block, from the one after it. -/
def Statement.before (s : Statement) (after : Point) : Point :=
  {path | ∃ p q, Path s p ∧ q ∈ after ∧ path = p ++ q}

/-- The point before a block: a path through the block, and on from the point after it. -/
def blockBefore (b : Block) (after : Point) : Point :=
  {path | ∃ p q, BlockPath b p ∧ q ∈ after ∧ path = p ++ q}

/-- At the exit `return` is read. -/
def exit : Point := {[.read "return"]}

/-- The path reads the variable, and not after writing it. -/
def ReadsFirst (v : Id) : List Action → Prop
  | [] => False
  | .read w :: path => v = w ∨ ReadsFirst v path
  | .write w :: path => v ≠ w ∧ ReadsFirst v path

/-- Some path reads the variable before it writes it. -/
def Live (v : Id) (point : Point) : Prop := ∃ path ∈ point, ReadsFirst v path

mutual

/-- The points of a statement, but for the one after it. -/
def Statement.HasPoint (point : Point) : Statement → Point → Prop
  | .assign v e, after => point = (Statement.assign v e).before after
  | .cond e b₁ b₂, after => point = (Statement.cond e b₁ b₂).before after ∨
      blockHasPoint point b₁ after ∨ blockHasPoint point b₂ after
  | .loop e b, after => point = (Statement.loop e b).before after ∨
      blockHasPoint point b ((Statement.loop e b).before after)

/-- The points of a block. -/
def blockHasPoint (point : Point) : List Statement → Point → Prop
  | [], after => point = after
  | s :: b, after => s.HasPoint point (blockBefore b after) ∨ blockHasPoint point b after

end

mutual

/-- The statement has an assignment to `v` that leads to `point`. -/
def Statement.Assigns (v : Id) (point : Point) : Statement → Point → Prop
  | .assign w _, after => v = w ∧ point = after
  | .cond _ b₁ b₂, after => blockAssigns v point b₁ after ∨ blockAssigns v point b₂ after
  | .loop e b, after => blockAssigns v point b ((Statement.loop e b).before after)

/-- The block assigns `v` where `point` is the point after the assignment. -/
def blockAssigns (v : Id) (point : Point) : List Statement → Point → Prop
  | [], _ => False
  | s :: b, after => s.Assigns v point (blockBefore b after) ∨ blockAssigns v point b after

end

namespace Function

/-- The points of a function are those of its body, with the exit behind it. -/
def HasPoint (f : Function) (point : Point) : Prop := blockHasPoint point f.body exit

/-- `v` is assigned by a statement or, at entry, as an argument. -/
def Assigns (f : Function) (v : Id) (point : Point) : Prop :=
  (v ∈ f.args ∧ point = blockBefore f.body exit) ∨ blockAssigns v point f.body exit

/-- Two variables that must not share a register. -/
def Interferes (f : Function) (v w : Id) : Prop :=
  v ≠ w ∧ ((∃ point, f.HasPoint point ∧ Live v point ∧ Live w point) ∨
    (∃ point, f.Assigns v point ∧ Live w point) ∨ (∃ point, f.Assigns w point ∧ Live v point))

end Function

/-! ## Paths -/

variable {v : Id} {e : Exp}

mutual

theorem Statement.exists_path : ∀ s : Statement, ∃ p, Path s p
  | .assign v e => ⟨_, .assign v e⟩
  | .cond _ b₁ _ => by
    obtain ⟨p, hp⟩ := exists_blockPath b₁
    exact ⟨_, .thenBranch hp⟩
  | .loop e b => ⟨_, .leave e b⟩

theorem exists_blockPath : ∀ b : List Statement, ∃ p, BlockPath b p
  | [] => ⟨_, .nil⟩
  | s :: b => by
    obtain ⟨p, hp⟩ := s.exists_path
    obtain ⟨q, hq⟩ := exists_blockPath b
    exact ⟨_, .cons hp hq⟩

end

theorem write_not_mem_reads : .write v ∉ e.reads := by
  simp [Exp.reads]

theorem readsFirst_append {p q : List Action} :
    ReadsFirst v (p ++ q) ↔ ReadsFirst v p ∨ (.write v ∉ p ∧ ReadsFirst v q) := by
  induction p with
  | nil => simp [ReadsFirst]
  | cons action p ih =>
    cases action with
    | read w => simp [ReadsFirst, ih, or_assoc]
    | write w =>
      by_cases hvw : v = w
      · simp [ReadsFirst, hvw]
      · simp [ReadsFirst, ih, hvw]

theorem readsFirst_reads : ReadsFirst v e.reads ↔ v ∈ e.vars := by
  unfold Exp.reads
  induction e.vars with
  | nil => simp [ReadsFirst]
  | cons w vars ih => simp [ReadsFirst, ih]

/-- Reads of an expression, then the rest of a path. -/
theorem readsFirst_reads_append {p : List Action} :
    ReadsFirst v (e.reads ++ p) ↔ v ∈ e.vars ∨ ReadsFirst v p := by
  rw [readsFirst_append, readsFirst_reads]
  simp [write_not_mem_reads]

end DocMachine.Alloc
