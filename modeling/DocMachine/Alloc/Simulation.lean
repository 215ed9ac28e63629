import Mathlib.Tactic.IntervalCases
import DocMachine.Alloc.Rename

/-!
# The renamed function follows the function

That `renameFun` of `Rename.lean` preserves what a function does, for every colouring that gives
interfering variables different registers (`Allocates`).

* `Agree` relates the two stores at a point: they have the same value for every variable that is
  live there, the second one in the place of the variable. Nothing is said of dead variables.
* A statement keeps this. What it assigns interferes with everything that is live after it, so that
  nothing live is overwritten. The induction is on the fuel and the statement, and the point after
  the statement is arbitrary.
* At entry the arguments are copied to their places by the assignments in front of the body. A copy
  may overwrite an argument only in a register, and the names of the arguments are no registers.

Results:
* `Agree.set`: an assignment to a variable and to its place keeps the agreement.
* `agree_entry`: after the copies the stores agree at the entry of the body.
* `simulates_run`: with the same bound on the loops, the two calls end in the same way.
* `renameFun_correct`: the renaming has a result, which returns what the function returns and
  diverges when it does.
-/

namespace DocMachine.Alloc

open DocMachine.Lib

/-! ## Agreement -/

section Simulation

variable {V : Type} {I : Interpretation V} {cl : Colouring} {f : Function}

/-- The second store holds every variable that is live at the point in its place. -/
def Agree (cl : Colouring) (f : Function) (point : Point) (σ τ : Store V) : Prop :=
  ∀ v, Named f v → Live v point → τ (place cl v) = σ v

variable {σ τ : Store V} {after : Point}

theorem Agree.mono {point point' : Point} (h : Agree cl f point σ τ)
    (hlive : ∀ v, Live v point' → Live v point) : Agree cl f point' σ τ :=
  fun v hv hpoint => h v hv (hlive v hpoint)

theorem eval_renameExp {e : Exp} (h : ∀ v ∈ e.vars, τ (place cl v) = σ v) :
    eval I τ (renameExp e (buildIdMap cl)) = eval I σ e := by
  induction e with
  | const n => rfl
  | var v => exact h v (by simp [Exp.vars])
  | apply op e₁ e₂ ih₁ ih₂ =>
    unfold renameExp eval
    rw [ih₁ fun v hv => h v (by simp [Exp.vars, hv]), ih₂ fun v hv => h v (by simp [Exp.vars, hv])]

theorem holds_renameExp {e : Exp} (h : ∀ v ∈ e.vars, τ (place cl v) = σ v) :
    holds I (renameExp e (buildIdMap cl)) τ = holds I e σ := by
  unfold holds
  rw [eval_renameExp h]

/-- An assignment to a variable and to its place. -/
theorem Agree.set (h : Allocates cl f) {v : Id} {e : Exp} (hv : Named f v)
    (hafter : after.Nonempty) (hassigns : f.Assigns v after)
    (hagree : Agree cl f ((Statement.assign v e).before after) σ τ)
    (x : V) : Agree cl f after (σ.set v x) (τ.set (place cl v) x) := by
  intro w hw hlive
  by_cases hwv : w = v
  · rw [hwv, Store.set_self, Store.set_self]
  · have hplace : place cl w ≠ place cl v :=
      h.place_ne hw hv ⟨hwv, .inr (.inr ⟨after, hassigns, hlive⟩)⟩
    rw [Store.set_of_ne hwv, Store.set_of_ne hplace]
    exact hagree w hw ((live_assign_iff hafter).mpr (.inr ⟨hwv, hlive⟩))

/-! ## Statements -/

mutual

theorem simulates_statement (h : Allocates cl f) :
    ∀ (s : Statement) (after : Point), after.Nonempty → (∀ v ∈ s.vars, Named f v) →
      (∀ v point, s.Assigns v point after → f.Assigns v point) →
      ∃ s', renameS (buildIdMap cl) s = some s' ∧
        ∀ (fuel : ℕ) (σ τ : Store V), Agree cl f (s.before after) σ τ →
          Outcome.Simulates (Agree cl f after) (s.exec I fuel σ) (s'.exec I fuel τ)
  | .assign v e, after, hafter, hnamed, hassigns => by
    have hv : Named f v := hnamed v (by simp [Statement.vars])
    refine ⟨.assign (place cl v) (renameExp e (buildIdMap cl)), ?_, fun fuel σ τ hagree => ?_⟩
    · unfold renameS
      rw [h.lookUp_place hv]
      rfl
    · have hreads : ∀ w ∈ e.vars, τ (place cl w) = σ w := fun w hw =>
        hagree w (hnamed w (by simp [Statement.vars, hw])) ((live_assign_iff hafter).mpr (.inl hw))
      unfold Statement.exec
      rw [eval_renameExp hreads]
      cases eval I σ e with
      | none => exact .wrong _
      | some x => exact .done (hagree.set h hv hafter (hassigns v after ⟨rfl, rfl⟩) x)
  | .cond e b₁ b₂, after, hafter, hnamed, hassigns => by
    obtain ⟨b₁', hb₁, hsim₁⟩ := simulates_block h b₁ after hafter
      (fun v hv => hnamed v (by simp [Statement.vars, hv]))
      (fun v point hp => hassigns v point (.inl hp))
    obtain ⟨b₂', hb₂, hsim₂⟩ := simulates_block h b₂ after hafter
      (fun v hv => hnamed v (by simp [Statement.vars, hv]))
      (fun v point hp => hassigns v point (.inr hp))
    refine ⟨.cond (renameExp e (buildIdMap cl)) (dropSelfAssignments (buildIdMap cl) b₁')
      (dropSelfAssignments (buildIdMap cl) b₂'), ?_, fun fuel σ τ hagree => ?_⟩
    · unfold renameS
      rw [hb₁, hb₂]
      rfl
    · have hreads : ∀ w ∈ e.vars, τ (place cl w) = σ w := fun w hw =>
        hagree w (hnamed w (by simp [Statement.vars, hw])) ((live_cond_iff hafter).mpr (.inl hw))
      unfold Statement.exec
      rw [holds_renameExp hreads]
      cases holds I e σ with
      | none => exact .wrong _
      | some t =>
        cases t with
        | true =>
          exact (hsim₁ fuel σ τ (hagree.mono fun _ hlive =>
            (live_cond_iff hafter).mpr (.inr (.inl hlive)))).trans_eq
            (exec_dropSelfAssignments _ fuel)
        | false =>
          exact (hsim₂ fuel σ τ (hagree.mono fun _ hlive =>
            (live_cond_iff hafter).mpr (.inr (.inr hlive)))).trans_eq
            (exec_dropSelfAssignments _ fuel)
  | .loop e b, after, hafter, hnamed, hassigns => by
    obtain ⟨b', hb, hsim⟩ := simulates_block h b ((Statement.loop e b).before after)
      ((Statement.loop e b).before_nonempty hafter)
      (fun v hv => hnamed v (by simp [Statement.vars, hv])) (fun v point hp => hassigns v point hp)
    refine ⟨.loop (renameExp e (buildIdMap cl)) (dropSelfAssignments (buildIdMap cl) b'), ?_,
      fun fuel σ τ hagree => ?_⟩
    · unfold renameS
      rw [hb]
      rfl
    · unfold Statement.exec
      -- the stores agree at the head of the loop
      refine Outcome.Simulates.whileLoop (R := Agree cl f ((Statement.loop e b).before after))
        ?_ ?_ ?_ fuel hagree
      · intro σ τ hagree t ht
        rw [holds_renameExp fun w hw => hagree w (hnamed w (by simp [Statement.vars, hw]))
          ((live_loop_iff hafter).mpr (.inl hw))]
        exact ht
      · exact fun σ τ hagree => hagree.mono fun _ => live_leave
      · exact fun σ τ hagree => (hsim fuel σ τ (hagree.mono fun _ => live_again)).trans_eq
          (exec_dropSelfAssignments _ fuel)

theorem simulates_block (h : Allocates cl f) :
    ∀ (b : List Statement) (after : Point), after.Nonempty → (∀ v ∈ blockVars b, Named f v) →
      (∀ v point, blockAssigns v point b after → f.Assigns v point) →
      ∃ b', mapRenameS (buildIdMap cl) b = some b' ∧
        ∀ (fuel : ℕ) (σ τ : Store V), Agree cl f (blockBefore b after) σ τ →
          Outcome.Simulates (Agree cl f after) (execBlock I fuel b σ) (execBlock I fuel b' τ)
  | [], after, _, _, _ => by
    refine ⟨[], rfl, fun fuel σ τ hagree => ?_⟩
    rw [blockBefore_nil] at hagree
    exact .done hagree
  | s :: b, after, hafter, hnamed, hassigns => by
    obtain ⟨s', hs, hsim⟩ := simulates_statement h s (blockBefore b after)
      (blockBefore_nonempty b hafter) (fun v hv => hnamed v (by simp [blockVars, hv]))
      (fun v point hp => hassigns v point (.inl hp))
    obtain ⟨b', hb, hsim'⟩ := simulates_block h b after hafter
      (fun v hv => hnamed v (by simp [blockVars, hv]))
      (fun v point hp => hassigns v point (.inr hp))
    refine ⟨s' :: b', ?_, fun fuel σ τ hagree => ?_⟩
    · unfold mapRenameS
      rw [hs, hb]
      rfl
    · rw [blockBefore_cons] at hagree
      exact (hsim fuel σ τ hagree).bind fun σ' τ' => hsim' fuel σ' τ'

end

/-! ## The arguments -/

theorem entry_isSome {args : List Id} {values : List V} (hlength : values.length = args.length)
    {v : Id} (hv : v ∈ args) : (entry args values v).isSome := by
  unfold entry
  induction args generalizing values with
  | nil => cases hv
  | cons w args ih =>
    cases values with
    | nil => cases hlength
    | cons x values =>
      by_cases hvw : v = w
      · simp [hvw]
      · have hrest := ih (Nat.succ.inj hlength) ((List.mem_cons.mp hv).resolve_left hvw)
        rw [List.zip_cons_cons, List.lookup_cons, beq_false_of_ne hvw]
        exact hrest

theorem entry_eq_none {args : List Id} (values : List V) {v : Id} (hv : v ∉ args) :
    entry args values v = none := by
  unfold entry
  refine List.lookup_eq_none_iff.mpr fun pair hpair => ?_
  have hmem : pair.1 ∈ args := (List.of_mem_zip hpair).1
  have hne : v ≠ pair.1 := by
    rintro rfl
    exact hv hmem
  exact bne_iff_ne.mpr hne

/-- **The copies of the arguments.** What the store is after variables were copied to their places:
a name that is no register keeps its value, a place to which nothing is copied too, and a place of
one variable only gets the value of that variable. -/
structure Copied (cl : Colouring) (ids : List Id) (τ τ' : Store V) : Prop where
  names : ∀ u, (∀ n, u ≠ register n) → τ' u = τ u
  others : ∀ u, (∀ x ∈ ids, place cl x ≠ u) → τ' u = τ u
  copies : ∀ x ∈ ids, (∀ y ∈ ids, y ≠ x → place cl y ≠ place cl x) → τ' (place cl x) = τ x

theorem copied_nil (τ : Store V) : Copied cl [] τ τ := ⟨by simp, by simp, by simp⟩

/-- A copy to a place changes no name that is no register. -/
theorem set_place_name (h : Allocates cl f) {x : Id} (hx : Named f x) {value : V}
    (hvalue : τ x = some value) {u : Id} (hu : ∀ n, u ≠ register n) :
    τ.set (place cl x) value u = τ u := by
  by_cases hux : u = place cl x
  · obtain hkeep | ⟨n, -, -, hregister⟩ := h.place_cases hx
    · rw [hux, Store.set_self, hkeep, hvalue]
    · exact absurd (hux.trans hregister) (hu n)
  · exact Store.set_of_ne hux value

/-- One more variable, copied first. -/
theorem Copied.cons (h : Allocates cl f) {x : Id} {ids : List Id}
    (hids : ∀ y ∈ x :: ids, Named f y) {value : V} (hvalue : τ x = some value) {τ' : Store V}
    (hcopied : Copied cl ids (τ.set (place cl x) value) τ') : Copied cl (x :: ids) τ τ' where
  names u hu := by
    rw [hcopied.names u hu, set_place_name h (hids x List.mem_cons_self) hvalue hu]
  others u hu := by
    rw [hcopied.others u fun y hy => hu y (List.mem_cons_of_mem _ hy)]
    exact Store.set_of_ne (hu x List.mem_cons_self).symm value
  copies z hz hunique := by
    by_cases hzids : z ∈ ids
    · rw [hcopied.copies z hzids fun y hy => hunique y (List.mem_cons_of_mem _ hy),
        set_place_name h (hids x List.mem_cons_self) hvalue (h.ne_register (hids z hz))]
    · obtain rfl : z = x := (List.mem_cons.mp hz).resolve_right hzids
      have hlast : ∀ y ∈ ids, place cl y ≠ place cl z := fun y hy =>
        hunique y (List.mem_cons_of_mem _ hy) fun heq => hzids (heq ▸ hy)
      rw [hcopied.others _ hlast, hvalue]
      exact Store.set_self ..

theorem exec_argAssignments (h : Allocates cl f) {ids : List Id} (hids : ∀ x ∈ ids, Named f x) :
    ∃ b, buildArgAssignments ids (buildIdMap cl) = some b ∧
      ∀ (fuel : ℕ) (τ : Store V), (∀ x ∈ ids, (τ x).isSome) →
        ∃ τ', execBlock I fuel b τ = .done τ' ∧ Copied cl ids τ τ' := by
  induction ids with
  | nil => exact ⟨[], rfl, fun fuel τ _ => ⟨τ, rfl, copied_nil τ⟩⟩
  | cons x ids ih =>
    obtain ⟨b, hb, hexec⟩ := ih fun y hy => hids y (List.mem_cons_of_mem _ hy)
    have hx : Named f x := hids x List.mem_cons_self
    refine ⟨.assign (place cl x) (.var x) :: b, ?_, fun fuel τ hassigned => ?_⟩
    · unfold buildArgAssignments at hb ⊢
      rw [List.mapM_cons, hb, h.lookUp_place hx]
      rfl
    · obtain ⟨value, hvalue⟩ := Option.isSome_iff_exists.mp (hassigned x List.mem_cons_self)
      have hfirst : (Statement.assign (place cl x) (.var x)).exec I fuel τ =
          .done (τ.set (place cl x) value) := by
        simp [Statement.exec, eval, hvalue]
      have hassigned' : ∀ y ∈ ids, (τ.set (place cl x) value y).isSome := by
        intro y hy
        have hmem : y ∈ x :: ids := List.mem_cons_of_mem _ hy
        rw [set_place_name h hx hvalue (h.ne_register (hids y hmem))]
        exact hassigned y hmem
      obtain ⟨τ', hτ', hcopied⟩ := hexec fuel _ hassigned'
      refine ⟨τ', ?_, hcopied.cons h hids hvalue⟩
      unfold execBlock
      rw [hfirst]
      exact hτ'

/-- At entry the copies agree with the arguments. -/
theorem agree_entry (h : Allocates cl f) :
    ∃ b, buildArgAssignments f.args (buildIdMap cl) = some b ∧
      ∀ (values : List V) (fuel : ℕ), values.length = f.args.length →
        ∃ τ, execBlock I fuel b (entry f.args values) = .done τ ∧
          Agree cl f (blockBefore f.body exit) (entry f.args values) τ := by
  have hargs : ∀ x ∈ f.args, Named f x := fun x hx => .inl (List.mem_append_left _ hx)
  obtain ⟨b, hb, hexec⟩ := exec_argAssignments (I := I) h hargs
  refine ⟨b, hb, fun values fuel hlength => ?_⟩
  obtain ⟨τ, hτ, hcopied⟩ :=
    hexec fuel (entry f.args values) fun x hx => entry_isSome hlength hx
  refine ⟨τ, hτ, fun v hv hlive => ?_⟩
  -- every other argument interferes with a variable that is live at entry
  have hother : ∀ x ∈ f.args, x ≠ v → place cl x ≠ place cl v := fun x hx hxv =>
    h.place_ne (hargs x hx) hv ⟨hxv, .inr (.inl ⟨_, .inl ⟨hx, rfl⟩, hlive⟩)⟩
  by_cases hvargs : v ∈ f.args
  · exact hcopied.copies v hvargs hother
  · rw [hcopied.others _ fun x hx => hother x hx fun heq => hvargs (heq ▸ hx),
      entry_eq_none values hvargs]
    obtain hkeep | ⟨n, -, -, hregister⟩ := h.place_cases hv
    · rw [hkeep]
      exact entry_eq_none values hvargs
    · refine entry_eq_none values fun hmem => ?_
      exact h.ne_register (hargs _ hmem) n hregister

/-! ## Functions -/

theorem live_return : Live "return" exit := ⟨_, rfl, .inl rfl⟩

/-- The two calls with the same bound on the loops. -/
theorem simulates_run (h : Allocates cl f) :
    ∃ f', renameFun f (buildIdMap cl) = some f' ∧ f'.args = f.args ∧
      ∀ (values : List V) (fuel : ℕ),
        Outcome.Simulates (fun r r' => r = r') (f.run I fuel values) (f'.run I fuel values) := by
  obtain ⟨copies, hcopies, hentry⟩ := agree_entry (I := I) h
  obtain ⟨body, hbody, hsim⟩ := simulates_block (I := I) h f.body exit exit_nonempty
    (fun v hv => .inl (List.mem_append_right _ hv)) (fun v point hp => .inr hp)
  refine ⟨⟨f.name, f.args, copies ++ dropSelfAssignments (buildIdMap cl) body⟩, ?_,
    rfl, fun values fuel => ?_⟩
  · unfold renameFun renameBlock
    rw [hcopies, hbody]
    rfl
  · unfold Function.run
    by_cases hlength : values.length = f.args.length
    · obtain ⟨τ, hτ, hagree⟩ := hentry values fuel hlength
      rw [if_pos hlength, if_pos hlength, execBlock_append, hτ]
      have hblock := (hsim fuel _ τ hagree).trans_eq
        (exec_dropSelfAssignments (buildIdMap cl) fuel)
      refine hblock.bind fun _ _ hexit => .done ?_
      exact (hexit "return" (.inr rfl) live_return).symm
    · rw [if_neg hlength, if_neg hlength]
      exact .wrong _

/-- **Register allocation preserves meaning.** -/
theorem renameFun_correct {f : Function} {cl : Colouring} (h : Allocates cl f)
    (I : Interpretation V) :
    ∃ f', renameFun f (buildIdMap cl) = some f' ∧ ∀ values, f.AssignsBeforeReads I values →
      (∀ result, f'.Returns I values result ↔ f.Returns I values result) ∧
        (f'.Diverges I values ↔ f.Diverges I values) := by
  obtain ⟨f', hf', hargs, hsim⟩ := simulates_run (I := I) h
  refine ⟨f', hf', fun values hassigned => ?_⟩
  have hsame : ∀ fuel, f'.run I fuel values = f.run I fuel values := by
    intro fuel
    by_cases hlength : values.length = f.args.length
    · have hwrong := hassigned hlength fuel
      have hrun := hsim values fuel
      generalize f.run I fuel values = o at hwrong hrun
      generalize f'.run I fuel values = o' at hrun
      cases hrun with
      | outOfFuel => rfl
      | wrong => exact absurd rfl hwrong
      | done heq => rw [heq]
    · unfold Function.run
      rw [hargs, if_neg hlength, if_neg hlength]
  constructor
  · intro result
    unfold Function.Returns
    simp only [hsame]
  · unfold Function.Diverges
    simp only [hsame]

end Simulation

/-! ## A factorial -/

/-- The colouring of `fact` for two registers. -/
def factColouring : Colouring := [("i", 2), ("n", 2), ("prod", 1)]

/-- Integers, with 1 for true. -/
def integers : Interpretation ℤ where
  const n := n
  apply op x y :=
    match op with
    | .add => x + y
    | .mul => x * y
    | .eq => if x = y then 1 else 0
    | .gEq => if x ≥ y then 1 else 0
  truth x := x ≠ 0

theorem factColouring_allocates : Allocates factColouring fact where
  covers := by decide +kernel
  proper v w n hinterferes hn hv hw := by
    have hproper : ∀ p ∈ factColouring, ∀ q ∈ factColouring, p.2 = q.2 →
        ¬ fact.Interferes p.1 q.1 := by
      decide +kernel
    have hmem : ∀ u, factColouring.lookup u = some n → (u, n) ∈ factColouring := by
      intro u hu
      obtain ⟨_, _, hsplit, -⟩ := List.lookup_eq_some_iff.mp hu
      simp [hsplit]
    exact hproper (v, n) (hmem v hv) (w, n) (hmem w hw) rfl hinterferes
  names v hv n := by
    have hfirst : ∀ v ∈ fact.vars, v.toList.head? ≠ some 'R' := by decide +kernel
    rintro rfl
    exact hfirst _ hv (by simp [register])

theorem renameFun_fact : ∃ f', renameFun fact (buildIdMap factColouring) = some f' ∧
    f'.Returns integers [3] (some 6) ∧ ¬ f'.Diverges integers [3] := by
  have hreturns : fact.run integers 4 [3] = .done (some 6) := rfl
  have hassigned : fact.AssignsBeforeReads integers [3] := by
    intro _ fuel
    by_cases hfuel : 4 ≤ fuel
    · obtain hout | heq := fact.run_below (I := integers) hfuel [3]
      · cases hreturns.symm.trans hout
      · rw [← heq, hreturns]
        nofun
    · have hout : fact.run integers fuel [3] = .outOfFuel := by
        interval_cases fuel <;> rfl
      rw [hout]
      nofun
  obtain ⟨f', hf', hcorrect⟩ := renameFun_correct factColouring_allocates integers
  obtain ⟨hsame, hdiverges⟩ := hcorrect [3] hassigned
  refine ⟨f', hf', (hsame _).mpr ⟨4, hreturns⟩, fun h => ?_⟩
  cases hreturns.symm.trans (hdiverges.mp h 4)

end DocMachine.Alloc
