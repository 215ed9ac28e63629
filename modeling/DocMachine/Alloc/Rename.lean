import DocMachine.Alloc.Liveness
import DocMachine.Lib.CString

/-!
# Renaming variables to registers

Model of the second half of `haskellfinaltest_sk4520/Alloc.hs` (`buildIdMap` 56-62,
`buildArgAssignments` 64-66, `renameExp` 68-74, `renameBlock` 76-86, `renameFun` 89-91).

* A colouring gives each variable a colour; colour 0 leaves a variable where it is, and colour `n`
  is the register `R n`. `return` keeps its name.
* `renameExp` renames the variables that the map has and leaves the others. The left side of an
  assignment is looked up, and a failed `lookUp` is an error in the source and `none` here.
* `renameBlock` removes from the renamed statements the self-assignments of the map's targets with
  the list difference of Haskell, which takes away one occurrence for each entry of the map
  (`dropSelfAssignments`).

Results:
* `exec_dropSelfAssignments`: a self-assignment that is dropped makes no difference where the
  variables that are read have been assigned.
* `Allocates.lookUp_cases` and `Allocates.place_ne`: a variable keeps its name or goes to the
  register of its colour, and two variables in one place do not interfere.

`Simulation.lean` proves from these that the renamed function returns what the function returns.
-/

namespace DocMachine.Alloc

open DocMachine.Lib

/-! ## Alloc.hs -/

/-- `Colour`: the number of a register, or 0 for a variable that has none. -/
abbrev Colour := ℤ

/-- `Colouring Id`. -/
abbrev Colouring := List (Id × Colour)

/-- `IdMap`: each variable with its new name. -/
abbrev IdMap := List (Id × Id)

/-- `'R' : show n`. -/
def register (n : Colour) : Id := String.ofList ('R' :: CString.signedDecimal n)

/-- `buildId`: the register of the colour, written `R` and the number. -/
def buildId : Id × Colour → Id × Id
  | (v, n) => if n = 0 then (v, v) else (v, register n)

/-- `buildIdMap`. -/
def buildIdMap (cl : Colouring) : IdMap := ("return", "return") :: cl.map buildId

/-- `lookUp`, with `none` for its error. -/
def lookUp (v : Id) (m : IdMap) : Option Id := List.lookup v m

/-- `buildArgAssignments`: each argument is copied to its place. -/
def buildArgAssignments (ids : List Id) (m : IdMap) : Option Block :=
  ids.mapM fun x => (lookUp x m).map fun v => .assign v (.var x)

/-- `renameExp`: a variable that is not in the map keeps its name. -/
def renameExp : Exp → IdMap → Exp
  | .var v, m => .var ((lookUp v m).getD v)
  | .apply op e₁ e₂, m => .apply op (renameExp e₁ m) (renameExp e₂ m)
  | .const n, _ => .const n

/-- `b \\ [(Assign v (Var v)) | v <- map snd m]`: for each entry of the map one self-assignment is
dropped. -/
def dropSelfAssignments (m : IdMap) (b : Block) : Block :=
  b.diff (m.map fun entry => .assign entry.2 (.var entry.2))

mutual

/-- `renameS`, inside `renameBlock`. -/
def renameS (m : IdMap) : Statement → Option Statement
  | .assign v e => (lookUp v m).map fun v' => .assign v' (renameExp e m)
  | .cond e b₁ b₂ => do
    return .cond (renameExp e m) (dropSelfAssignments m (← mapRenameS m b₁))
      (dropSelfAssignments m (← mapRenameS m b₂))
  | .loop e b => do
    return .loop (renameExp e m) (dropSelfAssignments m (← mapRenameS m b))

/-- `map renameS`. -/
def mapRenameS (m : IdMap) : List Statement → Option (List Statement)
  | [] => some []
  | s :: b => do return (← renameS m s) :: (← mapRenameS m b)

end

/-- `renameBlock`. -/
def renameBlock (b : Block) (m : IdMap) : Option Block :=
  (mapRenameS m b).map (dropSelfAssignments m)

/-- `renameFun`: the arguments keep their names, and the body starts with their copies. -/
def renameFun (f : Function) (idMap : IdMap) : Option Function := do
  return ⟨f.name, f.args, (← buildArgAssignments f.args idMap) ++ (← renameBlock f.body idMap)⟩

/-! ## The map -/

/-- What the colouring has to satisfy. -/
structure Allocates (cl : Colouring) (f : Function) : Prop where
  covers : ∀ v ∈ f.vars, v ≠ "return" → (cl.lookup v).isSome
  proper : ∀ v w n, f.Interferes v w → n ≠ 0 → cl.lookup v = some n → cl.lookup w ≠ some n
  /-- No variable is named as a register is. -/
  names : ∀ v ∈ f.vars, ∀ n, v ≠ register n

/-- The new name of a variable. -/
def place (cl : Colouring) (v : Id) : Id := (lookUp v (buildIdMap cl)).getD v

theorem register_injective : Function.Injective register := by
  intro n n' h
  exact CString.signedDecimal_injective (List.tail_eq_of_cons_eq (String.ofList_injective h))

theorem return_ne_register (n : Colour) : "return" ≠ register n := by
  intro h
  have hcons := congrArg String.toList h
  simp [register] at hcons

theorem lookup_buildId (v : Id) (cl : Colouring) :
    List.lookup v (cl.map buildId) =
      (cl.lookup v).map fun n => if n = 0 then v else register n := by
  induction cl with
  | nil => rfl
  | cons entry cl ih =>
    obtain ⟨w, n⟩ := entry
    have hname : (buildId (w, n)).1 = w := by
      by_cases hn : n = 0 <;> simp [buildId, hn]
    by_cases hvw : v = w
    · subst hvw
      by_cases hn : n = 0 <;> simp [buildId, hn]
    · rw [List.map_cons, List.lookup_cons, hname, beq_false_of_ne hvw, List.lookup_cons,
        beq_false_of_ne hvw]
      exact ih

/-! ## Dropping self-assignments -/

section

variable {V : Type} {I : Interpretation V}

theorem exec_selfAssignment {v : Id} {τ : Store V} (fuel : ℕ)
    (h : (Statement.assign v (.var v)).exec I fuel τ ≠ .wrong) :
    (Statement.assign v (.var v)).exec I fuel τ = .done τ := by
  unfold Statement.exec at h ⊢
  cases hv : τ v with
  | none => simp [eval, hv] at h
  | some x =>
    have hset : τ.set v x = τ := by
      funext w
      by_cases hw : w = v
      · rw [hw, Store.set_self, hv]
      · rw [Store.set_of_ne hw]
    simp [eval, hv, hset]

theorem eq_selfAssignment {s : Statement} {v : Id} (h : (s == .assign v (.var v)) = true) :
    s = .assign v (.var v) := by
  cases s with
  | assign w e =>
    obtain ⟨hw, he⟩ : w = v ∧ e = .var v := by simpa [BEq.beq, Statement.beq] using h
    rw [hw, he]
  | cond e b₁ b₂ => simp [BEq.beq, Statement.beq] at h
  | loop e b => simp [BEq.beq, Statement.beq] at h

theorem exec_erase {v : Id} (fuel : ℕ) (b : Block) {τ : Store V}
    (h : execBlock I fuel b τ ≠ .wrong) :
    execBlock I fuel (b.erase (.assign v (.var v))) τ = execBlock I fuel b τ := by
  induction b generalizing τ with
  | nil => rfl
  | cons s b ih =>
    change (s.exec I fuel τ).bind (execBlock I fuel b) ≠ .wrong at h
    rw [List.erase_cons]
    by_cases hs : (s == .assign v (.var v)) = true
    · cases eq_selfAssignment hs
      rw [if_pos hs]
      have hself : (Statement.assign v (.var v)).exec I fuel τ ≠ .wrong := by
        intro heq
        rw [heq] at h
        exact h rfl
      change _ = (Statement.exec I fuel _ τ).bind (execBlock I fuel b)
      rw [exec_selfAssignment fuel hself]
      rfl
    · rw [if_neg hs]
      change (s.exec I fuel τ).bind (execBlock I fuel (b.erase _)) =
        (s.exec I fuel τ).bind (execBlock I fuel b)
      cases hexec : s.exec I fuel τ with
      | outOfFuel => rfl
      | wrong => rfl
      | done τ' =>
        rw [hexec] at h
        exact ih h

/-- Dropped self-assignments make no difference where all variables read are assigned. -/
theorem exec_dropSelfAssignments (m : IdMap) (fuel : ℕ) {b : Block} {τ : Store V}
    (h : execBlock I fuel b τ ≠ .wrong) :
    execBlock I fuel (dropSelfAssignments m b) τ = execBlock I fuel b τ := by
  unfold dropSelfAssignments
  induction m generalizing b with
  | nil => rfl
  | cons entry m ih =>
    rw [List.map_cons, List.diff]
    split
    · have herase := exec_erase (v := entry.2) fuel b h
      rw [ih (herase.symm ▸ h), herase]
    · exact ih h

end

/-! ## Places -/

section

variable {cl : Colouring} {f : Function} {v w : Id}

/-- The variables of the function, and the one that is read at the exit. -/
def Named (f : Function) (v : Id) : Prop := v ∈ f.vars ∨ v = "return"

/-- A variable keeps its name or goes to the register of its colour. -/
theorem Allocates.lookUp_cases (h : Allocates cl f) (hv : Named f v) :
    lookUp v (buildIdMap cl) = some v ∨
      ∃ n, n ≠ 0 ∧ cl.lookup v = some n ∧ lookUp v (buildIdMap cl) = some (register n) := by
  unfold lookUp buildIdMap
  by_cases hreturn : v = "return"
  · subst hreturn
    exact .inl (List.lookup_cons_self)
  · rw [List.lookup_cons, beq_false_of_ne hreturn, lookup_buildId]
    obtain hv | hv := hv
    · obtain ⟨n, hn⟩ := Option.isSome_iff_exists.mp (h.covers v hv hreturn)
      by_cases hzero : n = 0
      · exact .inl (by simp [hn, hzero])
      · exact .inr ⟨n, hzero, hn, by simp [hn, hzero]⟩
    · exact absurd hv hreturn

theorem Allocates.place_cases (h : Allocates cl f) (hv : Named f v) :
    place cl v = v ∨ ∃ n, n ≠ 0 ∧ cl.lookup v = some n ∧ place cl v = register n := by
  unfold place
  obtain hkeep | ⟨n, hn, hcolour, hregister⟩ := h.lookUp_cases hv
  · exact .inl (by rw [hkeep]; rfl)
  · exact .inr ⟨n, hn, hcolour, by rw [hregister]; rfl⟩

theorem Allocates.lookUp_place (h : Allocates cl f) (hv : Named f v) :
    lookUp v (buildIdMap cl) = some (place cl v) := by
  unfold place
  obtain hkeep | ⟨n, -, -, hregister⟩ := h.lookUp_cases hv
  · rw [hkeep]
    rfl
  · rw [hregister]
    rfl

theorem Allocates.ne_register (h : Allocates cl f) (hv : Named f v) (n : Colour) :
    v ≠ register n := by
  obtain hv | rfl := hv
  · exact h.names v hv n
  · exact return_ne_register n

/-- Two variables in one place do not interfere. -/
theorem Allocates.place_ne (h : Allocates cl f) (hv : Named f v) (hw : Named f w)
    (hinterferes : f.Interferes v w) : place cl v ≠ place cl w := by
  intro heq
  obtain hkeep | ⟨n, hn, hcolour, hregister⟩ := h.place_cases hv
  · obtain hkeep' | ⟨n', -, -, hregister'⟩ := h.place_cases hw
    · exact hinterferes.1 (hkeep ▸ hkeep' ▸ heq)
    · exact h.ne_register hv n' (hkeep ▸ heq.trans hregister')
  · obtain hkeep' | ⟨n', -, hcolour', hregister'⟩ := h.place_cases hw
    · exact h.ne_register hw n (hkeep' ▸ heq.symm.trans hregister)
    · cases register_injective (hregister.symm.trans (heq.trans hregister'))
      exact h.proper v w n hinterferes hn hcolour hcolour'

end

end DocMachine.Alloc
