import Mathlib.Data.List.Perm.Subperm
import Mathlib.Logic.Relation

/-!
# Depth-first search for all paths to a goal

`search` goes from a node to its neighbours, never to a node that is on the way to where it is, and
returns all the ways to a goal it finds. The steps have labels. It has a bound on its depth, and
`none` says that the bound was too small.

On finitely many nodes (`search_total`) some bound is large enough, and then the answers are the
paths to a goal that never come back to a node (`mem_search`). One of them exists if there is any
path to a goal (`exists_simple`).
-/

namespace DocMachine.Lib.DepthFirst

variable {α β γ : Type*}

/-! ## Alternatives -/

/-- The answers of all alternatives, in order. -/
def tryAll (f : α → Option (List β)) : List α → Option (List β)
  | [] => some []
  | a :: as => do
    let answers ← f a
    let rest ← tryAll f as
    some (answers ++ rest)

theorem tryAll_cons_eq_some {f : α → Option (List β)} {a : α} {as : List α} {bs : List β} :
    tryAll f (a :: as) = some bs ↔
      ∃ answers rest, f a = some answers ∧ tryAll f as = some rest ∧ bs = answers ++ rest := by
  rw [tryAll]
  constructor
  · intro h
    obtain ⟨answers, ha, h⟩ := Option.bind_eq_some_iff.mp h
    obtain ⟨rest, has, h⟩ := Option.bind_eq_some_iff.mp h
    exact ⟨answers, rest, ha, has, (Option.some.inj h).symm⟩
  · rintro ⟨answers, rest, ha, has, rfl⟩
    rw [ha, has]
    rfl

theorem mem_tryAll {f : α → Option (List β)} {as : List α} {bs : List β}
    (h : tryAll f as = some bs) (b : β) : b ∈ bs ↔ ∃ a ∈ as, ∃ answers ∈ f a, b ∈ answers := by
  induction as generalizing bs with
  | nil =>
    cases h
    exact ⟨nofun, nofun⟩
  | cons a as ih =>
    obtain ⟨answers, rest, ha, has, rfl⟩ := tryAll_cons_eq_some.mp h
    rw [List.mem_append, ih has]
    constructor
    · rintro (hb | ⟨a', ha', hb⟩)
      · exact ⟨a, List.mem_cons_self, answers, ha, hb⟩
      · exact ⟨a', List.mem_cons_of_mem a ha', hb⟩
    · rintro ⟨a', ha', answers', hanswers, hb⟩
      rcases List.mem_cons.mp ha' with rfl | ha'
      · rw [Option.mem_def, ha] at hanswers
        exact .inl (Option.some.inj hanswers ▸ hb)
      · exact .inr ⟨a', ha', answers', hanswers, hb⟩

theorem exists_of_tryAll {f : α → Option (List β)} {as : List α} {bs : List β}
    (h : tryAll f as = some bs) : ∀ a ∈ as, ∃ answers, f a = some answers := by
  induction as generalizing bs with
  | nil => exact nofun
  | cons a as ih =>
    obtain ⟨answers, rest, ha, has, -⟩ := tryAll_cons_eq_some.mp h
    exact List.forall_mem_cons.mpr ⟨⟨answers, ha⟩, ih has⟩

theorem exists_tryAll {f : α → Option (List β)} {as : List α}
    (h : ∀ a ∈ as, ∃ answers, f a = some answers) : ∃ bs, tryAll f as = some bs := by
  induction as with
  | nil => exact ⟨[], rfl⟩
  | cons a as ih =>
    rw [List.forall_mem_cons] at h
    obtain ⟨answers, ha⟩ := h.1
    obtain ⟨rest, has⟩ := ih h.2
    exact ⟨answers ++ rest, tryAll_cons_eq_some.mpr ⟨answers, rest, ha, has, rfl⟩⟩

/-- More answers of the alternatives, the same answers in all. -/
theorem tryAll_mono {f g : α → Option (List β)} {as : List α} {bs : List β}
    (hfg : ∀ a ∈ as, ∀ answers, f a = some answers → g a = some answers)
    (h : tryAll f as = some bs) : tryAll g as = some bs := by
  induction as generalizing bs with
  | nil => exact h
  | cons a as ih =>
    obtain ⟨answers, rest, ha, has, hbs⟩ := tryAll_cons_eq_some.mp h
    rw [List.forall_mem_cons] at hfg
    exact tryAll_cons_eq_some.mpr ⟨answers, rest, hfg.1 _ ha, ih hfg.2 has, hbs⟩

theorem tryAll_map {δ : Type*} {f : α → Option (List β)} {g : β → δ} (as : List α) :
    tryAll (fun a => (f a).map (List.map g)) as = (tryAll f as).map (List.map g) := by
  induction as with
  | nil => rfl
  | cons a as ih =>
    rw [tryAll, tryAll, ih]
    cases f a with
    | none => rfl
    | some answers =>
      cases tryAll f as with
      | none => rfl
      | some rest => exact congrArg some (List.map_append).symm

/-! ## Paths -/

/-- The labels and the nodes of a path from `a` to a goal. -/
def Path (next : α → List (γ × α)) (goal : α → Bool) : α → List (γ × α) → Prop
  | a, [] => goal a = true
  | a, step :: p => step ∈ next a ∧ Path next goal step.2 p

/-- The nodes of a path. -/
def nodes (a : α) (p : List (γ × α)) : List α := a :: p.map Prod.snd

variable {next : α → List (γ × α)} {goal : α → Bool}

/-- The part of a path from one of its nodes on. -/
theorem Path.suffix {a b : α} {p : List (γ × α)} (hp : Path next goal a p)
    (hnodup : (nodes a p).Nodup) (hb : b ∈ nodes a p) :
    ∃ p', Path next goal b p' ∧ (nodes b p').Nodup := by
  induction p generalizing a with
  | nil =>
    obtain rfl := List.mem_singleton.mp hb
    exact ⟨[], hp, hnodup⟩
  | cons step p ih =>
    rcases List.mem_cons.mp hb with rfl | hb
    · exact ⟨step :: p, hp, hnodup⟩
    · exact ih hp.2 (List.nodup_cons.mp hnodup).2 hb

/-- Where there is a way to a goal, there is one that never comes back. -/
theorem exists_simple {a b : α}
    (h : Relation.ReflTransGen (fun a b => ∃ c, (c, b) ∈ next a) a b) (hb : goal b = true) :
    ∃ p, Path next goal a p ∧ (nodes a p).Nodup := by
  induction h using Relation.ReflTransGen.head_induction_on with
  | refl => exact ⟨[], hb, List.nodup_cons.mpr ⟨List.not_mem_nil, List.nodup_nil⟩⟩
  | @head a a' hstep _ ih =>
    obtain ⟨c, hc⟩ := hstep
    obtain ⟨p, hp, hnodup⟩ := ih
    by_cases ha : a ∈ nodes a' p
    · exact hp.suffix hnodup ha
    · exact ⟨(c, a') :: p, ⟨hc, hp⟩, List.nodup_cons.mpr ⟨ha, hnodup⟩⟩

/-! ## The search -/

variable [DecidableEq α]

/-- One step, to a node not in `visited`, and then what `search` finds from there. -/
def descend (search : α → Option (List (List (γ × α)))) (visited : List α) (step : γ × α) :
    Option (List (List (γ × α))) :=
  if step.2 ∈ visited then some [] else (search step.2).map (List.map (step :: ·))

/-- All paths from `a` to a goal that do not come back to `a` or to a node of `visited`. -/
def search (next : α → List (γ × α)) (goal : α → Bool) :
    ℕ → List α → α → Option (List (List (γ × α)))
  | 0, _, _ => none
  | fuel + 1, visited, a => do
    let answers ← tryAll (descend (search next goal fuel (a :: visited)) visited) (next a)
    some (answers ++ if goal a then [[]] else [])

theorem descend_eq_some {search : α → Option (List (List (γ × α)))} {visited : List α}
    {step : γ × α} {paths : List (List (γ × α))} : descend search visited step = some paths ↔
      (step.2 ∈ visited ∧ paths = []) ∨
        (step.2 ∉ visited ∧ ∃ paths', search step.2 = some paths' ∧
          paths = paths'.map (step :: ·)) := by
  unfold descend
  by_cases hv : step.2 ∈ visited
  · rw [if_pos hv]
    exact ⟨fun h => .inl ⟨hv, (Option.some.inj h).symm⟩,
      fun h => h.elim (fun h => congrArg some h.2.symm) fun h => absurd hv h.1⟩
  · rw [if_neg hv, Option.map_eq_some_iff]
    constructor
    · rintro ⟨paths', hsearch, rfl⟩
      exact .inr ⟨hv, paths', hsearch, rfl⟩
    · rintro (h | ⟨-, paths', hsearch, rfl⟩)
      · exact absurd h.1 hv
      · exact ⟨paths', hsearch, rfl⟩

theorem search_succ_eq_some {fuel : ℕ} {visited : List α} {a : α} {paths : List (List (γ × α))} :
    search next goal (fuel + 1) visited a = some paths ↔ ∃ answers,
      tryAll (descend (search next goal fuel (a :: visited)) visited) (next a) = some answers ∧
        paths = answers ++ if goal a then [[]] else [] := by
  rw [search]
  constructor
  · intro h
    obtain ⟨answers, ha, h⟩ := Option.bind_eq_some_iff.mp h
    exact ⟨answers, ha, (Option.some.inj h).symm⟩
  · rintro ⟨answers, ha, rfl⟩
    rw [ha]
    rfl

/-- A larger bound does not change the answers. -/
theorem search_mono {fuel fuel' : ℕ} {visited : List α} {a : α} {paths : List (List (γ × α))}
    (h : search next goal fuel visited a = some paths) (hle : fuel ≤ fuel') :
    search next goal fuel' visited a = some paths := by
  induction fuel generalizing fuel' visited a paths with
  | zero => cases h
  | succ fuel ih =>
    obtain ⟨fuel', rfl⟩ : ∃ k, fuel' = k + 1 := ⟨fuel' - 1, by omega⟩
    obtain ⟨answers, htry, hpaths⟩ := search_succ_eq_some.mp h
    refine search_succ_eq_some.mpr ⟨answers, tryAll_mono (fun step _ answers hstep => ?_) htry,
      hpaths⟩
    rw [descend_eq_some] at hstep ⊢
    refine hstep.imp_right fun ⟨hv, paths', hsearch, hanswers⟩ => ?_
    exact ⟨hv, paths', ih hsearch (by omega), hanswers⟩

theorem nil_mem_search {fuel : ℕ} {visited : List α} {a : α} {paths : List (List (γ × α))}
    (h : search next goal (fuel + 1) visited a = some paths) : [] ∈ paths ↔ goal a = true := by
  obtain ⟨answers, htry, rfl⟩ := search_succ_eq_some.mp h
  have hanswers : [] ∉ answers := by
    rw [mem_tryAll htry]
    rintro ⟨step, -, paths, hpaths, hmem⟩
    rcases descend_eq_some.mp hpaths with ⟨-, rfl⟩ | ⟨-, paths', -, rfl⟩
    · exact List.not_mem_nil hmem
    · obtain ⟨p, -, hp⟩ := List.mem_map.mp hmem
      cases hp
  rw [List.mem_append, or_iff_right hanswers]
  cases goal a with
  | false => exact ⟨nofun, nofun⟩
  | true => exact ⟨fun _ => rfl, fun _ => List.mem_singleton.mpr rfl⟩

theorem cons_mem_search {fuel : ℕ} {visited : List α} {a : α} {paths : List (List (γ × α))}
    (h : search next goal (fuel + 1) visited a = some paths) (step : γ × α)
    (p : List (γ × α)) : step :: p ∈ paths ↔ step ∈ next a ∧ step.2 ∉ visited ∧
      ∃ paths', search next goal fuel (a :: visited) step.2 = some paths' ∧ p ∈ paths' := by
  obtain ⟨answers, htry, rfl⟩ := search_succ_eq_some.mp h
  have hgoal : step :: p ∉ if goal a then [[]] else ([] : List (List (γ × α))) := by
    split
    · exact fun h => List.cons_ne_nil _ _ (List.mem_singleton.mp h)
    · exact List.not_mem_nil
  rw [List.mem_append, or_iff_left hgoal, mem_tryAll htry]
  constructor
  · rintro ⟨step', hstep', paths, hpaths, hmem⟩
    rcases descend_eq_some.mp hpaths with ⟨-, rfl⟩ | ⟨hv, paths', hsearch, rfl⟩
    · exact absurd hmem List.not_mem_nil
    · obtain ⟨p', hp', heq⟩ := List.mem_map.mp hmem
      obtain ⟨rfl, rfl⟩ := List.cons_eq_cons.mp heq
      exact ⟨hstep', hv, paths', hsearch, hp'⟩
  · rintro ⟨hstep, hv, paths', hsearch, hp⟩
    exact ⟨step, hstep, paths'.map (step :: ·),
      descend_eq_some.mpr (.inr ⟨hv, paths', hsearch, rfl⟩), List.mem_map_of_mem hp⟩

/-! ### On finitely many nodes -/

variable {S : α → Prop}

/-- **The answers of a search**, in a part `S` that no step leaves and where no step stays at a
node: the paths that never come back. -/
theorem mem_search (hS : ∀ a, S a → ∀ step ∈ next a, S step.2 ∧ step.2 ≠ a) {fuel : ℕ}
    {visited : List α} {a : α} {paths : List (List (γ × α))} (ha : S a)
    (h : search next goal fuel visited a = some paths) (p : List (γ × α)) : p ∈ paths ↔
      Path next goal a p ∧ (nodes a p).Nodup ∧ ∀ b ∈ p.map Prod.snd, b ∉ visited := by
  induction p generalizing fuel visited a paths with
  | nil =>
    cases fuel with
    | zero => cases h
    | succ fuel =>
      rw [nil_mem_search h]
      exact ⟨fun hg => ⟨hg, List.nodup_cons.mpr ⟨List.not_mem_nil, List.nodup_nil⟩, nofun⟩,
        fun hp => hp.1⟩
  | cons step p ih =>
    cases fuel with
    | zero => cases h
    | succ fuel =>
      rw [cons_mem_search h]
      constructor
      · rintro ⟨hstep, hv, paths', hsearch, hp⟩
        obtain ⟨hSb, hne⟩ := hS a ha step hstep
        obtain ⟨hpath, hnodup, hvisited⟩ := (ih hSb hsearch).mp hp
        refine ⟨⟨hstep, hpath⟩, List.nodup_cons.mpr ⟨fun hmem => ?_, hnodup⟩, fun b hb => ?_⟩
        · rcases List.mem_cons.mp hmem with heq | hmem
          · exact hne heq.symm
          · exact hvisited a hmem List.mem_cons_self
        · rcases List.mem_cons.mp hb with rfl | hb
          · exact hv
          · exact fun hbv => hvisited b hb (List.mem_cons_of_mem a hbv)
      · rintro ⟨⟨hstep, hpath⟩, hnodup, hvisited⟩
        have hv : step.2 ∉ visited := hvisited _ List.mem_cons_self
        obtain ⟨hSb, -⟩ := hS a ha step hstep
        obtain ⟨hnotMem, hnodup⟩ := List.nodup_cons.mp hnodup
        obtain ⟨answers, htry, -⟩ := search_succ_eq_some.mp h
        obtain ⟨answers', hanswers⟩ := exists_of_tryAll htry step hstep
        obtain ⟨-, paths', hsearch, -⟩ :=
          (descend_eq_some.mp hanswers).resolve_left fun h => hv h.1
        refine ⟨hstep, hv, paths', hsearch, (ih hSb hsearch).mpr ⟨hpath, hnodup, ?_⟩⟩
        intro b hb hbv
        rcases List.mem_cons.mp hbv with rfl | hbv
        · exact hnotMem (List.mem_cons_of_mem _ hb)
        · exact hvisited b (List.mem_cons_of_mem _ hb) hbv

/-- The number of nodes is a large enough bound. -/
theorem search_total {space : List α} (hspace : ∀ a, S a → a ∈ space)
    (hS : ∀ a, S a → ∀ step ∈ next a, S step.2 ∧ step.2 ≠ a) {fuel : ℕ} {visited : List α} {a : α}
    (ha : S a) (hvisited : ∀ b ∈ visited, S b) (hnodup : (a :: visited).Nodup)
    (hfuel : space.length ≤ fuel + visited.length) :
    ∃ paths, search next goal fuel visited a = some paths := by
  induction fuel generalizing visited a with
  | zero =>
    have hsub : (a :: visited) ⊆ space :=
      List.forall_mem_cons.mpr ⟨hspace a ha, fun b hb => hspace b (hvisited b hb)⟩
    have hle := (List.subperm_of_subset hnodup hsub).length_le
    rw [List.length_cons] at hle
    omega
  | succ fuel ih =>
    obtain ⟨answers, htry⟩ : ∃ answers,
        tryAll (descend (search next goal fuel (a :: visited)) visited) (next a) =
          some answers := by
      refine exists_tryAll fun step hstep => ?_
      by_cases hv : step.2 ∈ visited
      · exact ⟨[], descend_eq_some.mpr (.inl ⟨hv, rfl⟩)⟩
      · obtain ⟨hSb, hne⟩ := hS a ha step hstep
        have hnotMem : step.2 ∉ a :: visited := by
          rw [List.mem_cons, not_or]
          exact ⟨hne, hv⟩
        obtain ⟨paths, hpaths⟩ := ih hSb (List.forall_mem_cons.mpr ⟨ha, hvisited⟩)
          (List.nodup_cons.mpr ⟨hnotMem, hnodup⟩) (by rw [List.length_cons]; omega)
        exact ⟨_, descend_eq_some.mpr (.inr ⟨hv, paths, hpaths, rfl⟩)⟩
    exact ⟨_, search_succ_eq_some.mpr ⟨answers, htry, rfl⟩⟩

end DocMachine.Lib.DepthFirst
