import Mathlib.Data.Int.Range
import Mathlib.Data.List.Nodup
import Mathlib.Data.Prod.Lex
import DocMachine.Alloc.Rename

/-!
# Colouring the interference graph

Model of the first half of `haskellfinaltest_sk4520/Alloc.hs` (`count` 14-16, `degrees` 18-23,
`neighbours` 26-28, `removeNode` 30-32, `colourGraph` 38-49) over the types of `Types.hs` (24-32)
and its `lookUp` (42-46).

* Nodes are of any linearly ordered type, for the source's `Ord a`. A `Colour` is an integer; the
  number of colours is one that is not negative.
* `minimum (map swap (degrees g))` is `leastNode`: a node of least degree, and of these the least
  one. `minimum` of an empty list and a failed `lookUp` are errors in the source and `none` here.
* `possibleCs` and its minimum are `leastColour`. The source calls `colourGraph i g'` again for
  every neighbour; the calls are the same one, which the model makes once.

Results:
* `Simple.exists_leastNode` and `Simple.removeNode`: a simple graph with nodes has a node of least
  degree, and is simple without it, so that no call goes wrong.
* `Coloured.cons`: the step of the recursion. A node that gets the least colour free of its
  neighbours extends a colouring of the rest.
* `colourGraph_correct`: on a simple graph there is a result, and it is a proper colouring in which
  a node has the colour 0 only if its neighbours have all the others.
* `Coloured.allocates`: such a colouring of the interferences of a function is one that the renaming
  of `Rename.lean` may use.
-/

namespace DocMachine.Alloc.ColourGraph

/-! ## Graphs -/

/-- `Edge` of `Types.hs`: a pair of nodes, in either order. -/
abbrev Edge (α : Type) := α × α

/-- `Graph` of `Types.hs`: the nodes and the edges. -/
abbrev Graph (α : Type) := List α × List (Edge α)

/-- `Alloc.Colouring` is the one on names. -/
abbrev Colouring (α : Type) := List (α × Colour)

section

variable {α : Type}

/-- Neither loops nor repeated nodes, and the ends of an edge are nodes. -/
structure Simple (g : Graph α) : Prop where
  nodup : g.1.Nodup
  ends : ∀ e ∈ g.2, e.1 ∈ g.1 ∧ e.2 ∈ g.1
  loopless : ∀ e ∈ g.2, e.1 ≠ e.2

/-- Two nodes are joined by an edge, whichever way round it is written. -/
def Adjacent (g : Graph α) (n m : α) : Prop := (n, m) ∈ g.2 ∨ (m, n) ∈ g.2

theorem Adjacent.symm {g : Graph α} {n m : α} (h : Adjacent g n m) : Adjacent g m n := Or.symm h

theorem Simple.mem_of_adjacent {g : Graph α} {n m : α} (hg : Simple g) (h : Adjacent g n m) :
    m ∈ g.1 ∧ m ≠ n := by
  obtain h | h := h
  · exact ⟨(hg.ends _ h).2, (hg.loopless _ h).symm⟩
  · exact ⟨(hg.ends _ h).1, hg.loopless _ h⟩

/-- What a colouring of `g` with the colours up to `i` is, the nodes coloured first being last. -/
structure Coloured (i : ℤ) (g : Graph α) (colouring : Colouring α) : Prop where
  nodes : (colouring.map Prod.fst).Perm g.1
  range : ∀ p ∈ colouring, 0 ≤ p.2 ∧ p.2 ≤ i
  proper : ∀ p ∈ colouring, ∀ q ∈ colouring, Adjacent g p.1 q.1 → p.2 ≠ 0 → q.2 ≠ 0 → p.2 ≠ q.2
  spilled : ∀ front n rest, colouring = front ++ (n, 0) :: rest →
    ∀ k, 1 ≤ k → k ≤ i → ∃ m, Adjacent g n m ∧ (m, k) ∈ rest

theorem Coloured.nil (i : ℤ) : Coloured i (([], []) : Graph α) [] where
  nodes := by simp
  range := by simp
  proper := by simp
  spilled := by simp

theorem mem_of_lookup [BEq α] [LawfulBEq α] {n : α} {c : Colour} {colouring : Colouring α}
    (h : List.lookup n colouring = some c) : (n, c) ∈ colouring := by
  obtain ⟨_, _, hsplit, -⟩ := List.lookup_eq_some_iff.mp h
  simp [hsplit]

/-! ## Alloc.hs -/

variable [LinearOrder α]

/-- `lookUp`, with `none` for its error. -/
def lookUp (x : α) (t : Colouring α) : Option Colour := List.lookup x t

/-- `count`. -/
def count (a : α) (as : List α) : ℕ := (as.filter fun a' => a' = a).length

/-- `degrees`: each node with the number of ends of edges at it. -/
def degrees (g : Graph α) : List (α × ℕ) :=
  g.1.map fun n => (n, count n (g.2.map Prod.fst) + count n (g.2.map Prod.snd))

/-- `neighbours`: the other ends of the edges at a node. -/
def neighbours (n : α) (g : Graph α) : List α :=
  (g.2.filter fun e => e.1 = n).map Prod.snd ++ (g.2.filter fun e => e.2 = n).map Prod.fst

/-- `removeNode`: the node goes, and every edge at it. -/
def removeNode (n : α) (g : Graph α) : Graph α :=
  (g.1.filter fun n' => n' ≠ n, g.2.filter fun e => e.1 ≠ n ∧ e.2 ≠ n)

/-- `snd (minimum (map swap (degrees g)))`: pairs are compared by the degree first. -/
def leastNode (g : Graph α) : Option α :=
  ((degrees g).map fun d => toLex d.swap).min?.map fun d => (ofLex d).2

/-- `c`, given `n'colours`. -/
def leastColour (i : ℤ) (colours : List Colour) : Colour :=
  ((Int.range 1 (i + 1)).diff colours).min?.getD 0

theorem mem_of_leastNode {n : α} {g : Graph α} (h : leastNode g = some n) : n ∈ g.1 := by
  obtain ⟨d, hd, rfl⟩ := Option.map_eq_some_iff.mp h
  have hmem := List.min?_mem hd
  simp only [degrees, List.map_map, List.mem_map, Function.comp_apply] at hmem
  obtain ⟨n, hn, rfl⟩ := hmem
  exact hn

theorem length_removeNode_lt {n : α} {g : Graph α} (h : n ∈ g.1) :
    (removeNode n g).1.length < g.1.length :=
  List.length_filter_lt_length_iff_exists.mpr ⟨n, h, by simp⟩

/-- `colourGraph`: a node of least degree in front of a colouring of the graph without it. -/
def colourGraph (i : ℤ) (g : Graph α) : Option (Colouring α) :=
  if g = ([], []) then some []
  else
    match _h : leastNode g with
    | none => none
    | some n => do
      let rest ← colourGraph i (removeNode n g)
      let colours ← (neighbours n g).mapM fun n' => lookUp n' rest
      some ((n, leastColour i colours) :: rest)
termination_by g.1.length
decreasing_by exact length_removeNode_lt (mem_of_leastNode _h)

/-! ## Removing a node -/

variable {g : Graph α} {n m : α}

theorem mem_neighbours : m ∈ neighbours n g ↔ Adjacent g n m := by
  simp [neighbours, Adjacent]

theorem Simple.removeNode (hg : Simple g) (n : α) : Simple (removeNode n g) where
  nodup := hg.nodup.filter _
  ends e he := by
    simp only [ColourGraph.removeNode, List.mem_filter, decide_eq_true_eq] at he ⊢
    obtain ⟨he, hfst, hsnd⟩ := he
    exact ⟨⟨(hg.ends e he).1, hfst⟩, (hg.ends e he).2, hsnd⟩
  loopless e he := hg.loopless e (List.mem_of_mem_filter he)

theorem adjacent_removeNode {a b : α} :
    Adjacent (removeNode n g) a b ↔ Adjacent g a b ∧ a ≠ n ∧ b ≠ n := by
  simp only [Adjacent, removeNode, List.mem_filter, decide_eq_true_eq]
  grind

theorem mem_removeNode : m ∈ (removeNode n g).1 ↔ m ∈ g.1 ∧ m ≠ n := by
  simp [removeNode]

/-- There is a node of least degree. -/
theorem Simple.exists_leastNode (hg : Simple g) (hne : g ≠ ([], [])) :
    ∃ n, leastNode g = some n := by
  apply Option.isSome_iff_exists.mp
  rw [leastNode, Option.isSome_map]
  apply List.isSome_min?_of_ne_nil
  intro hempty
  have hnodes : g.1 = [] := by simpa [degrees] using hempty
  have hedges : g.2 = [] := by
    apply List.eq_nil_iff_forall_not_mem.mpr
    intro e he
    simpa [hnodes] using (hg.ends e he).1
  exact hne (Prod.ext hnodes hedges)

/-! ## The least colour -/

variable {i : ℤ} {colours : List Colour}

theorem mem_diff_range {c : Colour} :
    c ∈ (Int.range 1 (i + 1)).diff colours ↔ (1 ≤ c ∧ c ≤ i) ∧ c ∉ colours := by
  have hnodup : (Int.range 1 (i + 1)).Nodup := by
    unfold Int.range
    exact List.nodup_range.map fun a b h => by simpa using h
  rw [hnodup.mem_sdiff_iff, Int.mem_range_iff, Int.lt_add_one_iff]

/-- The least colour is a colour that nobody has, or 0 and all are taken. -/
theorem leastColour_cases (i : ℤ) (colours : List Colour) :
    ((1 ≤ leastColour i colours ∧ leastColour i colours ≤ i) ∧ leastColour i colours ∉ colours) ∨
      (leastColour i colours = 0 ∧ ∀ k, 1 ≤ k → k ≤ i → k ∈ colours) := by
  unfold leastColour
  cases hmin : ((Int.range 1 (i + 1)).diff colours).min? with
  | none =>
    right
    refine ⟨rfl, fun k hone hle => ?_⟩
    have hempty := List.min?_eq_none_iff.mp hmin
    by_contra hfree
    have hmem := mem_diff_range.mpr ⟨⟨hone, hle⟩, hfree⟩
    simp [hempty] at hmem
  | some c =>
    left
    exact mem_diff_range.mp (List.min?_mem hmin)

/-! ## The colouring -/

theorem mem_of_mapM_lookUp {ns : List α} {colouring : Colouring α} {colours : List Colour}
    (h : ns.mapM (fun n' => lookUp n' colouring) = some colours) {c : Colour} :
    c ∈ colours ↔ ∃ n ∈ ns, lookUp n colouring = some c := by
  induction ns generalizing colours with
  | nil => simp_all
  | cons n ns ih =>
    rw [List.mapM_cons] at h
    obtain ⟨c', hc', h⟩ := Option.bind_eq_some_iff.mp h
    obtain ⟨cs, hcs, h⟩ := Option.bind_eq_some_iff.mp h
    obtain rfl : c' :: cs = colours := Option.some.inj h
    simp [ih hcs, hc', eq_comm]

section

variable {rest colouring : Colouring α}

/-- In a colouring of the rest every neighbour has an entry. -/
theorem Coloured.exists_lookUps (hg : Simple g) (h : Coloured i (removeNode n g) rest) :
    ∃ colours, (neighbours n g).mapM (fun n' => lookUp n' rest) = some colours := by
  have hentry : ∀ m ∈ neighbours n g, ∃ c, lookUp m rest = some c := by
    intro m hm
    have hnode := mem_removeNode.mpr (hg.mem_of_adjacent (mem_neighbours.mp hm))
    obtain ⟨p, hp, rfl⟩ := List.mem_map.mp (h.nodes.mem_iff.mpr hnode)
    cases hlookup : lookUp p.1 rest with
    | none => exact absurd hp (by simpa using List.lookup_eq_none_iff.mp hlookup p)
    | some c => exact ⟨c, rfl⟩
  generalize neighbours n g = ns at hentry
  induction ns with
  | nil => exact ⟨[], rfl⟩
  | cons m ns ih =>
    obtain ⟨c, hc⟩ := hentry m List.mem_cons_self
    obtain ⟨cs, hcs⟩ := ih fun m hm => hentry m (List.mem_cons_of_mem _ hm)
    exact ⟨c :: cs, by rw [List.mapM_cons, hc, hcs]; rfl⟩

/-- An entry is what `lookUp` finds. -/
theorem Coloured.lookUp_eq (hg : Simple g) (h : Coloured i g colouring) {p : α × Colour}
    (hp : p ∈ colouring) : lookUp p.1 colouring = some p.2 := by
  have hkeys : (colouring.map Prod.fst).Nodup := h.nodes.nodup_iff.mpr hg.nodup
  cases hlookup : lookUp p.1 colouring with
  | none => exact absurd hp (by simpa using List.lookup_eq_none_iff.mp hlookup p)
  | some c =>
    have heq := List.inj_on_of_nodup_map hkeys (mem_of_lookup hlookup) hp rfl
    rw [← heq]

/-- The step: a node is put in front of a colouring of the rest. -/
theorem Coloured.cons (hg : Simple g) (hn : n ∈ g.1) (hi : 0 ≤ i)
    (h : Coloured i (removeNode n g) rest)
    (hcolours : (neighbours n g).mapM (fun n' => lookUp n' rest) = some colours) :
    Coloured i g ((n, leastColour i colours) :: rest) := by
  have hcases := leastColour_cases i colours
  -- the colours of the neighbours of `n` are the looked-up ones
  have hneighbour : ∀ q ∈ rest, Adjacent g n q.1 → q.2 ∈ colours := by
    intro q hq hadj
    exact (mem_of_mapM_lookUp hcolours).mpr
      ⟨q.1, mem_neighbours.mpr hadj, h.lookUp_eq (hg.removeNode n) hq⟩
  have hnode : ∀ q ∈ rest, q.1 ∈ g.1 ∧ q.1 ≠ n := by
    intro q hq
    exact mem_removeNode.mp (h.nodes.mem_iff.mp (List.mem_map_of_mem hq))
  have hdiffers : ∀ q ∈ rest, Adjacent g n q.1 → leastColour i colours ≠ 0 →
      leastColour i colours ≠ q.2 := by
    intro q hq hadj hzero heq
    obtain ⟨-, hfree⟩ | ⟨hc, -⟩ := hcases
    · exact hfree (heq ▸ hneighbour q hq hadj)
    · exact hzero hc
  refine ⟨?_, ?_, ?_, ?_⟩
  · have hfilter : g.1.filter (fun n' => n' ≠ n) = g.1.erase n := by
      rw [hg.nodup.erase_eq_filter]
      exact List.filter_congr fun m _ => by rw [Bool.eq_iff_iff]; simp
    have hnodes : (rest.map Prod.fst).Perm (g.1.erase n) := hfilter ▸ h.nodes
    exact (hnodes.cons n).trans (List.perm_cons_erase hn).symm
  · intro p hp
    obtain rfl | hp := List.mem_cons.mp hp
    · obtain ⟨hrange, -⟩ | ⟨hc, -⟩ := hcases
      · exact ⟨Int.le_trans (by decide) hrange.1, hrange.2⟩
      · rw [hc]
        exact ⟨le_refl 0, hi⟩
    · exact h.range p hp
  · intro p hp q hq hadj hp0 hq0
    obtain rfl | hp := List.mem_cons.mp hp <;> obtain rfl | hq := List.mem_cons.mp hq
    · exact absurd rfl (hg.mem_of_adjacent hadj).2
    · exact hdiffers q hq hadj hp0
    · exact (hdiffers p hp hadj.symm hq0).symm
    · exact h.proper p hp q hq
        (adjacent_removeNode.mpr ⟨hadj, (hnode p hp).2, (hnode q hq).2⟩) hp0 hq0
  · intro front n' back hsplit k hone hle
    obtain ⟨rfl, hsplit⟩ | ⟨front', rfl, hrest⟩ := List.cons_eq_append_iff.mp hsplit
    · -- the node in front: all colours are those of neighbours
      obtain ⟨hentry, rfl⟩ := List.cons.inj hsplit
      obtain ⟨rfl, hzero⟩ := Prod.mk.inj hentry
      have htaken : k ∈ colours := by
        obtain ⟨hrange, -⟩ | ⟨-, hall⟩ := hcases
        · exact absurd (hzero ▸ hrange.1) (by decide)
        · exact hall k hone hle
      obtain ⟨m, hm, hlookup⟩ := (mem_of_mapM_lookUp hcolours).mp htaken
      exact ⟨m, mem_neighbours.mp hm, mem_of_lookup hlookup⟩
    · obtain ⟨m, hadj, hm⟩ := h.spilled front' n' back hrest k hone hle
      exact ⟨m, (adjacent_removeNode.mp hadj).1, hm⟩

end

/-- **Graph colouring.** -/
theorem colourGraph_correct (hg : Simple g) (hi : 0 ≤ i) :
    ∃ colouring, colourGraph i g = some colouring ∧ Coloured i g colouring := by
  induction hlength : g.1.length using Nat.strong_induction_on generalizing g with
  | _ length ih =>
    by_cases hempty : g = ([], [])
    · subst hempty
      exact ⟨[], by rw [colourGraph, if_pos rfl], Coloured.nil i⟩
    · obtain ⟨n, hleast⟩ := hg.exists_leastNode hempty
      have hn := mem_of_leastNode hleast
      obtain ⟨rest, hrest, hcoloured⟩ :=
        ih _ (hlength ▸ length_removeNode_lt hn) (hg.removeNode n) rfl
      obtain ⟨colours, hcolours⟩ := hcoloured.exists_lookUps hg
      refine ⟨(n, leastColour i colours) :: rest, ?_, hcoloured.cons hg hn hi hcolours⟩
      rw [colourGraph, if_neg hempty]
      split
      · simp_all
      · simp_all

end

/-- `fig1Middle` of `Examples.hs`. -/
def fig1Middle : Graph ℕ := ([1, 2, 3, 4], [(1, 2), (1, 3), (1, 4), (2, 4), (3, 4)])

theorem fig1Middle_simple : Simple fig1Middle where
  nodup := by decide
  ends := by decide
  loopless := by decide

theorem colourGraph_fig1Middle :
    ∃ colouring, colourGraph 2 fig1Middle = some colouring ∧ Coloured 2 fig1Middle colouring :=
  colourGraph_correct fig1Middle_simple (by decide)

/-- A colouring of a graph with the interferences of a function is one that `renameFun` may use. -/
theorem Coloured.allocates {f : Function} {g : Graph Id} {i : ℤ} {cl : Alloc.Colouring}
    (h : Coloured i g cl) (hnodes : ∀ v ∈ f.vars, v ≠ "return" → v ∈ g.1)
    (hedges : ∀ v w, f.Interferes v w → Adjacent g v w)
    (hnames : ∀ v ∈ f.vars, ∀ n, v ≠ register n) : Allocates cl f where
  covers v hv hreturn := by
    obtain ⟨p, hp, rfl⟩ := List.mem_map.mp (h.nodes.mem_iff.mpr (hnodes v hv hreturn))
    by_contra hnone
    have hlookup := List.lookup_eq_none_iff.mp (Option.not_isSome_iff_eq_none.mp hnone)
    exact absurd (hlookup p hp) (by simp)
  proper v w n hinterferes hn hv hw :=
    h.proper (v, n) (mem_of_lookup hv) (w, n) (mem_of_lookup hw) (hedges v w hinterferes) hn hn rfl
  names := hnames

end DocMachine.Alloc.ColourGraph
