import DocMachine.Alloc.Language

/-!
# Live variables, computed

Liveness for the language of `Language.lean`, as a computation. `liveVars` and the control flow
graph of `haskellfinaltest_sk4520/Alloc.hs` (97-111) are `undefined`, so that this is not a model of
source code. It decides the premise of the renaming on a concrete function.

* What is live before a statement is computed from what is live after it (`Statement.liveIn`). A
  loop needs no iteration: what the body reads before it writes it is live at the head, whatever
  comes after.
* `points` lists what is live at each point, `assignments` each assigned variable with what is live
  behind it, for the arguments of the function too.

Results:
* `lists_blockLiveIn`: the computed list holds the variables that some path reads first.
* `live_again`: what is live before the body of a loop is live at its head, so that one pass is a
  fixed point.
* `interferes_iff`: two variables interfere, in the sense of the paths, iff one is assigned where
  the computation has the other live.
-/

namespace DocMachine.Alloc

variable {v : Id} {e : Exp} {after : Point}

/-! ## Before and after -/

theorem Statement.before_nonempty (s : Statement) (hafter : after.Nonempty) :
    (s.before after).Nonempty := by
  obtain ⟨p, hp⟩ := s.exists_path
  obtain ⟨q, hq⟩ := hafter
  exact ⟨p ++ q, p, q, hp, hq, rfl⟩

theorem blockBefore_nonempty (b : Block) (hafter : after.Nonempty) :
    (blockBefore b after).Nonempty := by
  obtain ⟨p, hp⟩ := exists_blockPath b
  obtain ⟨q, hq⟩ := hafter
  exact ⟨p ++ q, p, q, hp, hq, rfl⟩

theorem blockBefore_nil : blockBefore [] after = after := by
  ext path
  constructor
  · rintro ⟨p, q, hp, hq, rfl⟩
    cases hp
    exact hq
  · intro hpath
    exact ⟨[], path, .nil, hpath, rfl⟩

theorem blockBefore_cons {s : Statement} {b : Block} :
    blockBefore (s :: b) after = s.before (blockBefore b after) := by
  ext path
  constructor
  · rintro ⟨p, q, hp, hq, rfl⟩
    cases hp with
    | cons hs hb => exact ⟨_, _, hs, ⟨_, q, hb, hq, rfl⟩, List.append_assoc ..⟩
  · rintro ⟨p, _, hs, ⟨p', q, hb, hq, rfl⟩, rfl⟩
    exact ⟨p ++ p', q, .cons hs hb, hq, (List.append_assoc ..).symm⟩

theorem live_assign_iff {w : Id} (hafter : after.Nonempty) :
    Live v ((Statement.assign w e).before after) ↔ v ∈ e.vars ∨ (v ≠ w ∧ Live v after) := by
  constructor
  · rintro ⟨_, ⟨p, q, hp, hq, rfl⟩, hreads⟩
    cases hp
    rw [List.append_assoc, readsFirst_reads_append] at hreads
    exact hreads.imp_right fun ⟨hvw, hreads⟩ => ⟨hvw, q, hq, hreads⟩
  · intro h
    have hmem : ∀ q ∈ after, e.reads ++ .write w :: q ∈ (Statement.assign w e).before after :=
      fun q hq => ⟨_, q, .assign w e, hq, by simp⟩
    obtain hv | ⟨hvw, q, hq, hreads⟩ := h
    · obtain ⟨q, hq⟩ := hafter
      exact ⟨_, hmem q hq, readsFirst_reads_append.mpr (.inl hv)⟩
    · exact ⟨_, hmem q hq, readsFirst_reads_append.mpr (.inr ⟨hvw, hreads⟩)⟩

theorem live_cond_iff {b₁ b₂ : Block} (hafter : after.Nonempty) :
    Live v ((Statement.cond e b₁ b₂).before after) ↔
      v ∈ e.vars ∨ Live v (blockBefore b₁ after) ∨ Live v (blockBefore b₂ after) := by
  constructor
  · rintro ⟨_, ⟨_, q, hp, hq, rfl⟩, hreads⟩
    cases hp with
    | thenBranch hp =>
      rw [List.append_assoc, readsFirst_reads_append] at hreads
      exact hreads.imp_right fun hreads => .inl ⟨_, ⟨_, q, hp, hq, rfl⟩, hreads⟩
    | elseBranch hp =>
      rw [List.append_assoc, readsFirst_reads_append] at hreads
      exact hreads.imp_right fun hreads => .inr ⟨_, ⟨_, q, hp, hq, rfl⟩, hreads⟩
  · rintro (hv | ⟨_, ⟨p, q, hp, hq, rfl⟩, hreads⟩ | ⟨_, ⟨p, q, hp, hq, rfl⟩, hreads⟩)
    · obtain ⟨p, hp⟩ := exists_blockPath b₁
      obtain ⟨q, hq⟩ := hafter
      refine ⟨_, ⟨_, q, .thenBranch hp, hq, rfl⟩, ?_⟩
      rw [List.append_assoc, readsFirst_reads_append]
      exact .inl hv
    · refine ⟨_, ⟨_, q, .thenBranch hp, hq, rfl⟩, ?_⟩
      rw [List.append_assoc, readsFirst_reads_append]
      exact .inr hreads
    · refine ⟨_, ⟨_, q, .elseBranch hp, hq, rfl⟩, ?_⟩
      rw [List.append_assoc, readsFirst_reads_append]
      exact .inr hreads

/-- What a loop reads first: the condition, or something the body reads first. -/
theorem readsFirst_of_path {s : Statement} {p : List Action} (h : Path s p) :
    ∀ {e : Exp} {b : Block}, s = .loop e b → ReadsFirst v p →
      v ∈ e.vars ∨ ∃ r, BlockPath b r ∧ ReadsFirst v r := by
  -- on the derivation of the path: only loops matter
  refine @Path.rec (fun s p _ => ∀ {e : Exp} {b : Block}, s = .loop e b → ReadsFirst v p →
      v ∈ e.vars ∨ ∃ r, BlockPath b r ∧ ReadsFirst v r) (fun _ _ _ => True)
    ?assign ?thenBranch ?elseBranch ?leave ?again trivial (fun _ _ _ _ => trivial) s p h
  case assign => exact fun _ _ _ _ heq => by cases heq
  case thenBranch => exact fun _ _ _ _ heq => by cases heq
  case elseBranch => exact fun _ _ _ _ heq => by cases heq
  case leave =>
    intro e b _ _ heq hreads
    cases heq
    exact .inl (readsFirst_reads.mp hreads)
  case again =>
    intro e b p q h _ _ ih _ _ heq hreads
    cases heq
    rw [readsFirst_reads_append, readsFirst_append] at hreads
    obtain hv | hreads | ⟨-, hreads⟩ := hreads
    · exact .inl hv
    · exact .inr ⟨_, h, hreads⟩
    · exact ih rfl hreads

theorem live_leave {b : Block} (h : Live v after) :
    Live v ((Statement.loop e b).before after) := by
  obtain ⟨q, hq, hreads⟩ := h
  exact ⟨_, ⟨_, q, .leave e b, hq, rfl⟩, readsFirst_reads_append.mpr (.inr hreads)⟩

/-- What is live before the body is live at the head of the loop. -/
theorem live_again {b : Block} (h : Live v (blockBefore b ((Statement.loop e b).before after))) :
    Live v ((Statement.loop e b).before after) := by
  obtain ⟨_, ⟨p, _, hp, ⟨q, r, hq, hr, rfl⟩, rfl⟩, hreads⟩ := h
  refine ⟨_, ⟨_, r, .again hp hq, hr, rfl⟩, ?_⟩
  rw [List.append_assoc, readsFirst_reads_append, List.append_assoc]
  exact .inr hreads

theorem live_loop_iff {b : Block} (hafter : after.Nonempty) :
    Live v ((Statement.loop e b).before after) ↔
      v ∈ e.vars ∨ Live v after ∨ Live v (blockBefore b {[]}) := by
  constructor
  · rintro ⟨_, ⟨p, q, hp, hq, rfl⟩, hreads⟩
    obtain hreads | ⟨-, hreads⟩ := readsFirst_append.mp hreads
    · refine (readsFirst_of_path hp rfl hreads).imp_right ?_
      rintro ⟨r, hr, hreads⟩
      exact .inr ⟨_, ⟨r, [], hr, rfl, rfl⟩, by rwa [List.append_nil]⟩
    · exact .inr (.inl ⟨q, hq, hreads⟩)
  · rintro (hv | hlive | ⟨_, ⟨r, _, hr, rfl, rfl⟩, hreads⟩)
    · obtain ⟨q, hq⟩ := hafter
      exact ⟨_, ⟨_, q, .leave e b, hq, rfl⟩, readsFirst_reads_append.mpr (.inl hv)⟩
    · exact live_leave hlive
    · obtain ⟨q, hq⟩ := (Statement.loop e b).before_nonempty hafter
      rw [List.append_nil] at hreads
      exact live_again ⟨_, ⟨r, q, hr, hq, rfl⟩, readsFirst_append.mpr (.inl hreads)⟩

/-! ## The computation -/

mutual

/-- The variables that are live before a statement, from those live after it. -/
def Statement.liveIn : Statement → List Id → List Id
  | .assign v e, live => e.vars ++ live.filter (· ≠ v)
  | .cond e b₁ b₂, live => e.vars ++ blockLiveIn b₁ live ++ blockLiveIn b₂ live
  | .loop e b, live => e.vars ++ live ++ blockLiveIn b []

/-- What is live before a block, from what is live after it. -/
def blockLiveIn : List Statement → List Id → List Id
  | [], live => live
  | s :: b, live => s.liveIn (blockLiveIn b live)

end

/-- `live` lists the variables that are live at the point. -/
def Lists (live : List Id) (point : Point) : Prop := ∀ v, v ∈ live ↔ Live v point

mutual

theorem Statement.lists_liveIn : ∀ (s : Statement) {live : List Id} {after : Point},
    after.Nonempty → Lists live after → Lists (s.liveIn live) (s.before after)
  | .assign w e, live, after, hafter, h => by
    intro v
    unfold Statement.liveIn
    rw [live_assign_iff hafter, ← h v]
    simp [and_comm]
  | .cond e b₁ b₂, live, after, hafter, h => by
    intro v
    unfold Statement.liveIn
    rw [live_cond_iff hafter, ← lists_blockLiveIn b₁ hafter h v, ← lists_blockLiveIn b₂ hafter h v]
    simp
  | .loop e b, live, after, hafter, h => by
    intro v
    have hnil : Lists [] {[]} := by
      simp [Lists, Live, ReadsFirst]
    unfold Statement.liveIn
    rw [live_loop_iff hafter, ← h v, ← lists_blockLiveIn b (Set.singleton_nonempty _) hnil v]
    simp

theorem lists_blockLiveIn : ∀ (b : List Statement) {live : List Id} {after : Point},
    after.Nonempty → Lists live after → Lists (blockLiveIn b live) (blockBefore b after)
  | [], live, after, hafter, h => by
    rw [blockBefore_nil]
    exact h
  | s :: b, live, after, hafter, h => by
    rw [blockBefore_cons]
    exact s.lists_liveIn (blockBefore_nonempty b hafter) (lists_blockLiveIn b hafter h)

end

mutual

/-- What is live at each point of a statement, but for the one after it. -/
def Statement.points : Statement → List Id → List (List Id)
  | .assign v e, live => [(Statement.assign v e).liveIn live]
  | .cond e b₁ b₂, live =>
    (Statement.cond e b₁ b₂).liveIn live :: (blockPoints b₁ live ++ blockPoints b₂ live)
  | .loop e b, live =>
    (Statement.loop e b).liveIn live :: blockPoints b ((Statement.loop e b).liveIn live)

/-- What is live at each point of a block, the last one included. -/
def blockPoints : List Statement → List Id → List (List Id)
  | [], live => [live]
  | s :: b, live => s.points (blockLiveIn b live) ++ blockPoints b live

end

mutual

/-- The variables that are assigned, each with what is live after the assignment. -/
def Statement.assignments : Statement → List Id → List (Id × List Id)
  | .assign v _, live => [(v, live)]
  | .cond _ b₁ b₂, live => blockAssignments b₁ live ++ blockAssignments b₂ live
  | .loop e b, live => blockAssignments b ((Statement.loop e b).liveIn live)

/-- The variables that a block assigns, each with what is live after the assignment. -/
def blockAssignments : List Statement → List Id → List (Id × List Id)
  | [], _ => []
  | s :: b, live => s.assignments (blockLiveIn b live) ++ blockAssignments b live

end

variable {w : Id}

mutual

theorem Statement.exists_point_iff : ∀ (s : Statement) {live : List Id} {after : Point},
    after.Nonempty → Lists live after →
      ((∃ point, s.HasPoint point after ∧ Live v point ∧ Live w point) ↔
        ∃ l ∈ s.points live, v ∈ l ∧ w ∈ l)
  | .assign u e, live, after, hafter, h => by
    have hlists := (Statement.assign u e).lists_liveIn hafter h
    simp [Statement.HasPoint, Statement.points, hlists v, hlists w]
  | .cond e b₁ b₂, live, after, hafter, h => by
    have hlists := (Statement.cond e b₁ b₂).lists_liveIn hafter h
    have h₁ := exists_blockPoint_iff b₁ hafter h
    have h₂ := exists_blockPoint_iff b₂ hafter h
    simp [Statement.HasPoint, Statement.points, hlists v, hlists w, or_and_right, exists_or, h₁, h₂]
  | .loop e b, live, after, hafter, h => by
    have hlists := (Statement.loop e b).lists_liveIn hafter h
    have hb := exists_blockPoint_iff b ((Statement.loop e b).before_nonempty hafter) hlists
    simp [Statement.HasPoint, Statement.points, hlists v, hlists w, or_and_right, exists_or, hb]

theorem exists_blockPoint_iff : ∀ (b : List Statement) {live : List Id} {after : Point},
    after.Nonempty → Lists live after →
      ((∃ point, blockHasPoint point b after ∧ Live v point ∧ Live w point) ↔
        ∃ l ∈ blockPoints b live, v ∈ l ∧ w ∈ l)
  | [], live, after, hafter, h => by
    simp [blockHasPoint, blockPoints, h v, h w]
  | s :: b, live, after, hafter, h => by
    have hs := s.exists_point_iff (blockBefore_nonempty b hafter) (lists_blockLiveIn b hafter h)
    have hb := exists_blockPoint_iff b hafter h
    simp [blockHasPoint, blockPoints, or_and_right, exists_or, hs, hb]

end

mutual

theorem Statement.exists_assigns_iff : ∀ (s : Statement) {live : List Id} {after : Point},
    after.Nonempty → Lists live after →
      ((∃ point, s.Assigns v point after ∧ Live w point) ↔
        ∃ l, (v, l) ∈ s.assignments live ∧ w ∈ l)
  | .assign u e, live, after, hafter, h => by
    simp [Statement.Assigns, Statement.assignments, h w, and_assoc]
  | .cond e b₁ b₂, live, after, hafter, h => by
    have h₁ := exists_blockAssigns_iff b₁ hafter h
    have h₂ := exists_blockAssigns_iff b₂ hafter h
    simp [Statement.Assigns, Statement.assignments, or_and_right, exists_or, h₁, h₂]
  | .loop e b, live, after, hafter, h =>
    exists_blockAssigns_iff b ((Statement.loop e b).before_nonempty hafter)
      ((Statement.loop e b).lists_liveIn hafter h)

theorem exists_blockAssigns_iff : ∀ (b : List Statement) {live : List Id} {after : Point},
    after.Nonempty → Lists live after →
      ((∃ point, blockAssigns v point b after ∧ Live w point) ↔
        ∃ l, (v, l) ∈ blockAssignments b live ∧ w ∈ l)
  | [], live, after, hafter, h => by
    simp [blockAssigns, blockAssignments]
  | s :: b, live, after, hafter, h => by
    have hs := s.exists_assigns_iff (blockBefore_nonempty b hafter) (lists_blockLiveIn b hafter h)
    have hb := exists_blockAssigns_iff b hafter h
    simp [blockAssigns, blockAssignments, or_and_right, exists_or, hs, hb]

end

theorem exit_nonempty : exit.Nonempty := ⟨_, rfl⟩

theorem lists_exit : Lists ["return"] exit := by
  simp [Lists, Live, exit, ReadsFirst]

namespace Function

/-- What is live at each point of a function: at the exit, only `return`. -/
def points (f : Function) : List (List Id) := blockPoints f.body ["return"]

/-- The assignments of a function. At entry the arguments are assigned. -/
def assignments (f : Function) : List (Id × List Id) :=
  f.args.map (fun v => (v, blockLiveIn f.body ["return"])) ++ blockAssignments f.body ["return"]

theorem exists_assigns_iff (f : Function) :
    (∃ point, f.Assigns v point ∧ Live w point) ↔ ∃ l, (v, l) ∈ f.assignments ∧ w ∈ l := by
  have hbody := exists_blockAssigns_iff (v := v) (w := w) f.body exit_nonempty lists_exit
  have hentry := lists_blockLiveIn f.body exit_nonempty lists_exit w
  simp [Assigns, assignments, or_and_right, exists_or, hbody, hentry, and_assoc]

/-- The edges of the interference graph. -/
def interferes (f : Function) (v w : Id) : Bool :=
  v ≠ w && (f.points.any (fun live => v ∈ live && w ∈ live) ||
    f.assignments.any (fun entry => entry.1 = v && w ∈ entry.2) ||
    f.assignments.any (fun entry => entry.1 = w && v ∈ entry.2))

/-- **Interference is computed.** -/
theorem interferes_iff (f : Function) (v w : Id) : f.Interferes v w ↔ f.interferes v w := by
  unfold Interferes HasPoint
  rw [exists_blockPoint_iff f.body exit_nonempty lists_exit, exists_assigns_iff, exists_assigns_iff]
  simp [interferes, points, or_assoc]

instance (f : Function) (v w : Id) : Decidable (f.Interferes v w) :=
  decidable_of_iff _ (f.interferes_iff v w).symm

end Function

/-- `fact` of the examples. -/
def fact : Function where
  name := "fact"
  args := ["n"]
  body := [
    .cond (.apply .eq (.var "n") (.const 0))
      [.assign "return" (.const 1)]
      [.assign "prod" (.const 1),
        .assign "i" (.var "n"),
        .loop (.apply .gEq (.var "i") (.const 1))
          [.assign "prod" (.apply .mul (.var "prod") (.var "i")),
            .assign "i" (.apply .add (.var "i") (.const (-1)))],
        .assign "return" (.var "prod")]]

/-- The edges of `factIG`. -/
example : ["i", "n", "prod"].map (fun v => ["i", "n", "prod"].filter (fact.interferes v)) =
    [["prod"], ["prod"], ["i", "n"]] := by decide +kernel

end DocMachine.Alloc
