import Mathlib.Algebra.BigOperators.Group.Finset.Sigma
import Mathlib.Data.Fintype.Basic
import Mathlib.Logic.Relation

/-!
# Parent pointers

A partial function `parent : V → Option V` read as a graph with an edge from every vertex to its
parent. `Rooted` says that the edges lead from a vertex to the root. A rooted vertex is on no
cycle (`Rooted.not_transGen`), since the edge out of a vertex is unique and there is none out of
the root.

`sum_of_children`: when every vertex carries its own weight plus what its children carry, the
one vertex without a parent carries the sum of all weights.
-/

namespace DocMachine.Lib.Forest

variable {V : Type*} (parent : V → Option V) (root : V)

/-- `v` has the parent `w`. -/
def Edge (v w : V) : Prop := parent v = some w

/-- The parents of `v` lead to the root. -/
inductive Rooted : V → Prop
  | root : Rooted root
  | child {v w : V} : Edge parent v w → Rooted w → Rooted v

variable {parent root}

theorem Rooted.mono {parent' : V → Option V} (h : ∀ v w, Edge parent v w → Edge parent' v w)
    {v : V} (hv : Rooted parent root v) : Rooted parent' root v := by
  induction hv with
  | root => exact .root
  | child he _ ih => exact .child (h _ _ he) ih

theorem Rooted.reflTransGen {v : V} (hv : Rooted parent root v) :
    Relation.ReflTransGen (Edge parent) v root := by
  induction hv with
  | root => exact .refl
  | child he _ ih => exact ih.head he

/-- Going up from a rooted vertex comes to an end. -/
theorem Rooted.acc (hroot : parent root = none) {v : V} (hv : Rooted parent root v) :
    Acc (fun w v => Edge parent v w) v := by
  induction hv with
  | root =>
    refine ⟨_, fun w hw => ?_⟩
    rw [Edge, hroot] at hw
    cases hw
  | child he _ ih =>
    refine ⟨_, fun w hw => ?_⟩
    rw [Edge, he] at hw
    cases hw
    exact ih

/-- **A rooted vertex is on no cycle.** -/
theorem Rooted.not_transGen (hroot : parent root = none) {v : V} (hv : Rooted parent root v) :
    ¬ Relation.TransGen (Edge parent) v v := by
  have hacc := (hv.acc hroot).transGen
  clear hv
  intro hcycle
  have hswap : Relation.TransGen (fun w v => Edge parent v w) v v :=
    Relation.transGen_swap.mpr hcycle
  clear hcycle
  induction hacc with
  | intro v _ ih => exact ih v hswap hswap

/-- **Sums over the children.** Summed over all vertices, what the children carry is everything
but what the vertex without a parent carries. -/
theorem sum_of_children [Fintype V] [DecidableEq V] {M : Type*} [AddCancelCommMonoid M]
    {weight carried : V → M}
    (h : ∀ v, carried v = weight v + ∑ w with parent w = some v, carried w)
    (hroot : parent root = none) (huniq : ∀ v, parent v = none → v = root) :
    carried root = ∑ v, weight v := by
  have hchildren : ∑ v, ∑ w with parent w = some v, carried w =
      ∑ w ∈ Finset.univ.erase root, carried w := by
    have hmem : ∀ v w, v ∈ Finset.univ ∧ w ∈ Finset.univ.filter (parent · = some v) ↔
        v ∈ Finset.univ.filter (parent w = some ·) ∧ w ∈ Finset.univ.erase root := by
      intro v w
      simp only [Finset.mem_univ, true_and, Finset.mem_filter, Finset.mem_erase, and_true]
      constructor
      · intro hw
        refine ⟨hw, fun hr => ?_⟩
        rw [hr, hroot] at hw
        cases hw
      · exact fun hw => hw.1
    rw [Finset.sum_comm' hmem]
    refine Finset.sum_congr rfl fun w hw => ?_
    cases hp : parent w with
    | none => exact absurd (huniq w hp) (Finset.ne_of_mem_erase hw)
    | some v =>
      have hone : (Finset.univ.filter fun u => some v = some u) = {v} := by
        ext u
        simp [eq_comm]
      rw [hone, Finset.sum_singleton]
  have htotal : ∑ v, carried v = ∑ v, weight v + ∑ w ∈ Finset.univ.erase root, carried w := by
    rw [← hchildren, ← Finset.sum_add_distrib]
    exact Finset.sum_congr rfl fun v _ => h v
  rw [← Finset.add_sum_erase _ carried (Finset.mem_univ root)] at htotal
  exact add_right_cancel htotal

end DocMachine.Lib.Forest
