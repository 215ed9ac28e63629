import DocMachine.DecisionTree.Evaluation

/-!
# Pruning a decision tree

Model of `prune_tree` (`intro-to-ml-coursework/pruning_tree.py` 7-82) over the objects of
`decision_tree.py` (6-86).

* Trees are objects: a `Heap` is the list of them, and a reference is a place in it. `set_left_node`
  and `set_right_node` write the child and the parent of the child.
* A node is replaced by a leaf by writing into its parent; the tree is evaluated from the root; and
  the node is put back if the error has grown.
* The root has no parent, so that `current_node.parent` of the root (48) is an `AttributeError`,
  which is `wrong`. A comment (24-26) has the root become a leaf in the end.
* The error is computed exactly. Python's bound on the depth of the recursion is left out.
* `RefTree` is a tree together with where its nodes are, and `InHeap` says that it is stored with no
  object used twice. `prune` is the same pruning on trees without references.

Results:
* `replace_and_undo`: a new leaf in the place of a tree, and the tree back in its place.
* `prune_node_spec`: a node below the root whose children are leaves is collapsed, unless that is
  worse.
* `refines`: below the root, `prune_tree` refines `prune`.
* `prune_cases`: pruning makes one leaf of a tree all of whose splits collapse, and of no other
  tree.
* `safe_iff`: a run ends in the `AttributeError` iff every split below the root collapses, and
  otherwise leaves a tree that is not worse than before.
-/

namespace DocMachine.DecisionTree

open DocMachine.Lib

/-! ## Objects -/

/-- A reference to an object. -/
abbrev Ref := ℕ

/-- The two subclasses of `Node`. The children of a node are set before the tree is used, and the
`parent` of the root never is. -/
inductive Object (K : Type) (d : ℕ) where
  | leaf (node_label : String) (class_index : ℕ) (frequency : ℤ) (parent : Option Ref)
  | node (feature : Fin d) (split_value : K) (left_node right_node : Ref) (parent : Option Ref)

/-- The objects, by their references. -/
abbrev Heap (K : Type) (d : ℕ) := List (Object K d)

section

variable {K : Type} {d : ℕ}

namespace Object

/-- `self.parent`, which a root does not have. -/
def parent : Object K d → Option Ref
  | .leaf _ _ _ parent => parent
  | .node _ _ _ _ parent => parent

/-- `self.parent = parent`. -/
def setParent (parent : Ref) : Object K d → Object K d
  | .leaf node_label class_index frequency _ =>
    .leaf node_label class_index frequency (some parent)
  | .node feature split_value left_node right_node _ =>
    .node feature split_value left_node right_node (some parent)

theorem setParent_of_parent {object : Object K d} {parent : Ref}
    (h : object.parent = some parent) : object.setParent parent = object := by
  cases object <;> rw [setParent, ← h] <;> rfl

end Object

namespace Heap

variable (heap : Heap K d)

/-- `self.left_node`; a leaf has none. -/
def left_node (self : Ref) : Outcome Ref :=
  match heap[self]? with
  | some (.node _ _ left_node _ _) => .done left_node
  | _ => .wrong

/-- `self.right_node`. -/
def right_node (self : Ref) : Outcome Ref :=
  match heap[self]? with
  | some (.node _ _ _ right_node _) => .done right_node
  | _ => .wrong

/-- `self.parent`, or the `AttributeError`. -/
def parent (self : Ref) : Outcome Ref :=
  match heap[self]?.bind Object.parent with
  | some parent => .done parent
  | none => .wrong

/-- A child of `self` is replaced, and its parent set. -/
def setChild (is_left : Bool) (self child : Ref) : Outcome (Heap K d) :=
  match heap[self]? with
  | some (.node feature split_value left_node right_node parent) =>
    let heap := heap.set self (.node feature split_value (if is_left then child else left_node)
      (if is_left then right_node else child) parent)
    match heap[child]? with
    | some object => .done (heap.set child (object.setParent self))
    | none => .wrong
  | _ => .wrong

/-- `set_left_node`: the child is told its parent. -/
def set_left_node (self left_node : Ref) : Outcome (Heap K d) := heap.setChild true self left_node

/-- `set_right_node`. -/
def set_right_node (self right_node : Ref) : Outcome (Heap K d) :=
  heap.setChild false self right_node

end Heap

/-! ## The functions -/

variable [LT K] [DecidableLT K]

/-- `evaluate_sample`, along the references. -/
def Heap.evaluate_sample (heap : Heap K d) (sample : Sample K d) : ℕ → Ref → Outcome (ℕ × ℕ)
  | 0, _ => .outOfFuel
  | fuel + 1, current_node =>
    match heap[current_node]? with
    | some (.node feature split_value left_node right_node _) =>
      heap.evaluate_sample sample fuel
        (if sample.features feature < split_value then left_node else right_node)
    | some (.leaf _ class_index _ _) => .done (sample.class_index, class_index)
    | none => .wrong

/-- `evaluate`: the share of samples that are given their class. -/
def Heap.evaluate (heap : Heap K d) (fuel : ℕ) (test_dataset : List (Sample K d)) (tree : Ref) :
    Outcome ℚ :=
  let counters : Outcome (ℕ × ℕ) := test_dataset.foldl (fun counters entry =>
    counters.bind fun counters => (heap.evaluate_sample entry fuel tree).bind fun labels =>
      .done (if labels.1 = labels.2 then counters.1 + 1 else counters.1, counters.2 + 1))
    (.done (0, 0))
  counters.bind fun counters =>
    match ratio counters.1 counters.2 with
    | some accuracy => .done accuracy
    | none => .wrong

/-- What `prune_tree` does with a node after its children. -/
def prune_node (root : Ref) (validation : List (Sample K d)) (fuel : ℕ) (current_node : Ref)
    (heap : Heap K d) : Outcome (Heap K d) :=
  (heap.left_node current_node).bind fun left_node =>
  (heap.right_node current_node).bind fun right_node =>
  match heap[left_node]?, heap[right_node]? with
  | some (.leaf left_label left_class left_frequency _),
      some (.leaf right_label right_class right_frequency _) =>
    (heap.evaluate fuel validation root).bind fun old_accuracy =>
    (heap.parent current_node).bind fun parent =>
    (heap.left_node parent).bind fun parent_left =>
    let is_left : Bool := parent_left = current_node
    let new_leaf := heap.length
    let heap : Heap K d := heap ++
      [if left_frequency > right_frequency then
        .leaf left_label left_class (left_frequency + right_frequency) none
      else .leaf right_label right_class (left_frequency + right_frequency) none]
    (if is_left then heap.set_left_node parent new_leaf
      else heap.set_right_node parent new_leaf).bind fun heap =>
    (heap.evaluate fuel validation root).bind fun new_accuracy =>
    if 1 - new_accuracy > 1 - old_accuracy then
      if is_left then heap.set_left_node parent current_node
      else heap.set_right_node parent current_node
    else .done heap
  | _, _ => .done heap

/-- `prune_tree`: both children first, then the node itself. -/
def prune_tree (root : Ref) (validation : List (Sample K d)) :
    ℕ → Ref → Heap K d → Outcome (Heap K d)
  | 0, _, _ => .outOfFuel
  | fuel + 1, current_node, heap =>
    match heap[current_node]? with
    | some (.leaf _ _ _ _) => .done heap
    | some (.node _ _ _ _ _) =>
      (heap.left_node current_node).bind fun left_node =>
      (prune_tree root validation fuel left_node heap).bind fun heap =>
      (heap.right_node current_node).bind fun right_node =>
      (prune_tree root validation fuel right_node heap).bind fun heap =>
      prune_node root validation fuel current_node heap
    | none => .wrong

end

/-! ## The tree in the objects -/

/-- A tree and where its nodes are. -/
inductive RefTree (K : Type) (d : ℕ) where
  | leaf (ref : Ref) (node_label : String) (class_index : ℕ) (frequency : ℤ)
  | node (ref : Ref) (feature : Fin d) (split_value : K) (left_node right_node : RefTree K d)

variable {K : Type} {d : ℕ}

namespace RefTree

/-- Where the root of the tree is. -/
def ref : RefTree K d → Ref
  | .leaf ref _ _ _ => ref
  | .node ref _ _ _ _ => ref

/-- The references of the tree. -/
def refs : RefTree K d → List Ref
  | .leaf ref _ _ _ => [ref]
  | .node ref _ _ left_node right_node => ref :: (left_node.refs ++ right_node.refs)

/-- The tree without its references. -/
def tree : RefTree K d → Tree K d
  | .leaf _ node_label class_index frequency => .leaf node_label class_index frequency
  | .node _ feature split_value left_node right_node =>
    .node feature split_value left_node.tree right_node.tree

/-- The number of nodes on the longest way down. -/
def depth : RefTree K d → ℕ
  | .leaf _ _ _ _ => 1
  | .node _ _ _ left_node right_node => 1 + max left_node.depth right_node.depth

/-- The objects of the tree, each with its parent. -/
def Stored (heap : Heap K d) (parent : Option Ref) : RefTree K d → Prop
  | .leaf ref node_label class_index frequency =>
    heap[ref]? = some (.leaf node_label class_index frequency parent)
  | .node ref feature split_value left_node right_node =>
    heap[ref]? = some (.node feature split_value left_node.ref right_node.ref parent) ∧
      left_node.Stored heap (some ref) ∧ right_node.Stored heap (some ref)

variable {heap heap' : Heap K d} {parent : Option Ref} {t : RefTree K d}

theorem ref_mem_refs (t : RefTree K d) : t.ref ∈ t.refs := by
  cases t <;> exact List.mem_cons_self

theorem Stored.congr (h : t.Stored heap parent) (heq : ∀ r ∈ t.refs, heap'[r]? = heap[r]?) :
    t.Stored heap' parent := by
  induction t generalizing parent with
  | leaf ref _ _ _ => exact (heq ref (ref_mem_refs _)).trans h
  | node ref _ _ left_node right_node ihl ihr =>
    obtain ⟨hnode, hl, hr⟩ := h
    refine ⟨(heq ref (ref_mem_refs _)).trans hnode, ihl hl fun r hr => ?_, ihr hr fun r hr => ?_⟩
    · exact heq r (List.mem_cons_of_mem _ (List.mem_append_left _ hr))
    · exact heq r (List.mem_cons_of_mem _ (List.mem_append_right _ hr))

/-- Every reference is to an object. -/
theorem Stored.lt_length (h : t.Stored heap parent) {r : Ref} (hr : r ∈ t.refs) :
    r < heap.length := by
  induction t generalizing parent with
  | leaf ref _ _ _ =>
    obtain rfl := List.mem_singleton.mp hr
    exact (List.getElem?_eq_some_iff.mp h).1
  | node ref _ _ left_node right_node ihl ihr =>
    obtain ⟨hnode, hl, hright⟩ := h
    obtain rfl | hr := List.mem_cons.mp hr
    · exact (List.getElem?_eq_some_iff.mp hnode).1
    · exact (List.mem_append.mp hr).elim (ihl hl) (ihr hright)

/-- The object of a tree is of the class of the tree. -/
theorem Stored.get (h : t.Stored heap parent) :
    heap[t.ref]? = some (match t with
      | .leaf _ node_label class_index frequency => .leaf node_label class_index frequency parent
      | .node _ feature split_value left_node right_node =>
        .node feature split_value left_node.ref right_node.ref parent) := by
  cases t with
  | leaf => exact h
  | node => exact h.1

theorem Stored.exists_get (h : t.Stored heap parent) :
    ∃ object, heap[t.ref]? = some object ∧ object.parent = parent := by
  cases t with
  | leaf => exact ⟨_, h, rfl⟩
  | node => exact ⟨_, h.1, rfl⟩

/-- **A tree of objects**: no object is used twice, and each child knows its parent. -/
structure InHeap (heap : Heap K d) (t : RefTree K d) : Prop where
  stored : t.Stored heap none
  nodup : t.refs.Nodup

end RefTree

/-! ## Places in a tree -/

/-- A node with one child missing. -/
structure Frame (K : Type) (d : ℕ) where
  ref : Ref
  feature : Fin d
  split_value : K
  is_left : Bool
  sibling : RefTree K d

namespace Frame

/-- The node with `t` in the place of the missing child. -/
def fill (frame : Frame K d) (t : RefTree K d) : RefTree K d :=
  .node frame.ref frame.feature frame.split_value (if frame.is_left then t else frame.sibling)
    (if frame.is_left then frame.sibling else t)

/-- The whole tree: the frames around `t`, the nearest one first. -/
def plug (frames : List (Frame K d)) (t : RefTree K d) : RefTree K d :=
  frames.foldl (fun t frame => frame.fill t) t

/-- The node that the missing tree is a child of. -/
def parent (frames : List (Frame K d)) : Option Ref := frames.head?.map Frame.ref

/-- The objects around a place, where the object `child` is. -/
def Around (heap : Heap K d) : List (Frame K d) → Ref → Prop
  | [], _ => True
  | frame :: frames, child =>
    heap[frame.ref]? = some (.node frame.feature frame.split_value
      (if frame.is_left then child else frame.sibling.ref)
      (if frame.is_left then frame.sibling.ref else child) (parent frames)) ∧
    frame.sibling.Stored heap (some frame.ref) ∧ Around heap frames frame.ref

/-- The references around a place. -/
def refs (frames : List (Frame K d)) : List Ref :=
  frames.flatMap fun frame => frame.ref :: frame.sibling.refs

variable {heap heap' : Heap K d} {frames : List (Frame K d)} {t : RefTree K d}

theorem stored_plug : (plug frames t).Stored heap none ↔
    Around heap frames t.ref ∧ t.Stored heap (parent frames) := by
  induction frames generalizing t with
  | nil => simp [plug, Around, parent]
  | cons frame frames ih =>
    have hplug : plug (frame :: frames) t = plug frames (frame.fill t) := rfl
    rw [hplug, ih]
    unfold fill
    cases hside : frame.is_left
    · simp only [Around, RefTree.Stored, RefTree.ref, hside, parent, Bool.false_eq_true, if_false,
        List.head?_cons, Option.map_some]
      tauto
    · simp only [Around, RefTree.Stored, RefTree.ref, hside, parent, if_true,
        List.head?_cons, Option.map_some]
      tauto

theorem perm_refs_fill (frame : Frame K d) :
    (frame.fill t).refs.Perm (frame.ref :: frame.sibling.refs ++ t.refs) := by
  unfold fill
  cases frame.is_left
  · exact List.Perm.refl _
  · exact List.Perm.cons _ List.perm_append_comm

theorem perm_refs_plug : (plug frames t).refs.Perm (refs frames ++ t.refs) := by
  induction frames generalizing t with
  | nil => exact List.Perm.refl _
  | cons frame frames ih =>
    have hplug : plug (frame :: frames) t = plug frames (frame.fill t) := rfl
    have hfill : (plug (frame :: frames) t).refs.Perm
        (refs frames ++ (frame.ref :: frame.sibling.refs ++ t.refs)) :=
      ih.trans ((perm_refs_fill frame).append_left _)
    rw [← List.append_assoc] at hfill
    exact hfill.trans (List.perm_append_comm.append_right _)

theorem Around.congr {child : Ref} (h : Around heap frames child)
    (heq : ∀ r ∈ refs frames, heap'[r]? = heap[r]?) : Around heap' frames child := by
  induction frames generalizing child with
  | nil => exact trivial
  | cons frame frames ih =>
    obtain ⟨hnode, hsibling, hframes⟩ := h
    have hmem : ∀ r ∈ frame.ref :: frame.sibling.refs ++ refs frames, heap'[r]? = heap[r]? := heq
    refine ⟨(hmem _ (by simp)).trans hnode, hsibling.congr fun r hr => hmem r (by simp [hr]),
      ih hframes fun r hr => hmem r (by simp [hr])⟩

theorem depth_plug_le {t t' : RefTree K d} (h : t'.depth ≤ t.depth) (frames : List (Frame K d)) :
    (plug frames t').depth ≤ (plug frames t).depth := by
  induction frames generalizing t t' with
  | nil => exact h
  | cons frame frames ih =>
    refine @ih (frame.fill t) (frame.fill t') ?_
    unfold fill
    cases frame.is_left <;> simp only [RefTree.depth, if_true, Bool.false_eq_true, if_false] <;>
      omega

end Frame

/-! ## Trees without objects -/

/-- What the new leaf says. -/
structure Leaf where
  node_label : String
  class_index : ℕ
  frequency : ℤ

namespace Leaf

/-- The leaf as a tree. -/
def tree (leaf : Leaf) : Tree K d := .leaf leaf.node_label leaf.class_index leaf.frequency

/-- The leaf for two leaves. -/
def join (left right : Leaf) : Leaf :=
  if left.frequency > right.frequency then
    { left with frequency := left.frequency + right.frequency }
  else { right with frequency := left.frequency + right.frequency }

end Leaf

/-- The leaf that stands for a tree. -/
def majority : Tree K d → Leaf
  | .leaf node_label class_index frequency => ⟨node_label, class_index, frequency⟩
  | .node _ _ left_node right_node => (majority left_node).join (majority right_node)

section

variable [LT K] [DecidableLT K] (samples : List (Sample K d))

/-- The number of samples that are given their own class. -/
def correct (tree : Tree K d) : ℕ :=
  samples.countP fun s => (evaluate_sample s tree).1 = (evaluate_sample s tree).2

/-- The samples that a node sends to one side. -/
def side (is_left : Bool) (feature : Fin d) (split_value : K) : List (Sample K d) :=
  samples.filter fun s => decide (s.features feature < split_value) = is_left

/-- **From the bottom up, no split is better than the leaf for its two sides**, on the samples that
come to it. -/
def Collapses (samples : List (Sample K d)) : Tree K d → Prop
  | .leaf _ _ _ => True
  | .node feature split_value left_node right_node =>
    Collapses (side samples true feature split_value) left_node ∧
      Collapses (side samples false feature split_value) right_node ∧
      correct (side samples true feature split_value) (majority left_node).tree +
        correct (side samples false feature split_value) (majority right_node).tree ≤
          correct samples ((majority left_node).join (majority right_node)).tree

instance decidableCollapses : ∀ (samples : List (Sample K d)) (tree : Tree K d),
    Decidable (Collapses samples tree)
  | _, .leaf _ _ _ => isTrue trivial
  | samples, .node feature split_value left_node right_node =>
    have := decidableCollapses (side samples true feature split_value) left_node
    have := decidableCollapses (side samples false feature split_value) right_node
    inferInstanceAs (Decidable (_ ∧ _ ∧ _))

/-- A split into two leaves becomes one leaf, if that is not worse. -/
def collapse (feature : Fin d) (split_value : K) (left_node right_node : Tree K d) : Tree K d :=
  match left_node, right_node with
  | .leaf left_label left_class left_frequency, .leaf right_label right_class right_frequency =>
    let leaf := (Leaf.mk left_label left_class left_frequency).join
      ⟨right_label, right_class, right_frequency⟩
    if correct samples (.node feature split_value left_node right_node) ≤
        correct samples leaf.tree then leaf.tree
    else .node feature split_value left_node right_node
  | _, _ => .node feature split_value left_node right_node

/-- What pruning a tree should give. -/
def prune (samples : List (Sample K d)) : Tree K d → Tree K d
  | .leaf node_label class_index frequency => .leaf node_label class_index frequency
  | .node feature split_value left_node right_node =>
    collapse samples feature split_value (prune (side samples true feature split_value) left_node)
      (prune (side samples false feature split_value) right_node)

variable {samples}

theorem correct_node (feature : Fin d) (split_value : K) (left_node right_node : Tree K d) :
    correct samples (.node feature split_value left_node right_node) =
      correct (side samples true feature split_value) left_node +
        correct (side samples false feature split_value) right_node := by
  unfold correct side
  rw [List.countP_eq_countP_filter_add _ _ fun s => decide (s.features feature < split_value)]
  congr 1
  · simp only [Bool.decide_eq_true]
    refine List.countP_congr fun s hs => ?_
    have hlt : s.features feature < split_value := of_decide_eq_true (List.mem_filter.mp hs).2
    rw [evaluate_sample, if_pos hlt]
  · have hside :
        (fun s : Sample K d => decide (decide (s.features feature < split_value) = false)) =
          fun s => !decide (s.features feature < split_value) := by
      funext s
      cases decide (s.features feature < split_value) <;> rfl
    rw [hside]
    refine List.countP_congr fun s hs => ?_
    have hlt : ¬ s.features feature < split_value := by
      simpa using (List.mem_filter.mp hs).2
    rw [evaluate_sample, if_neg hlt]

theorem correct_le_collapse (feature : Fin d) (split_value : K) (left_node right_node : Tree K d) :
    correct samples (.node feature split_value left_node right_node) ≤
      correct samples (collapse samples feature split_value left_node right_node) := by
  unfold collapse
  split
  · dsimp only
    split
    · assumption
    · exact le_rfl
  · exact le_rfl

/-- Pruning does not make a tree worse. -/
theorem correct_le_prune (tree : Tree K d) :
    correct samples tree ≤ correct samples (prune samples tree) := by
  induction tree generalizing samples with
  | leaf => exact le_rfl
  | node feature split_value left_node right_node ihl ihr =>
    refine le_trans ?_ (correct_le_collapse feature split_value _ _)
    rw [correct_node, correct_node]
    exact Nat.add_le_add ihl ihr

/-- The tree is no leaf. -/
def IsNode : Tree K d → Prop
  | .leaf _ _ _ => False
  | .node _ _ _ _ => True

theorem collapse_leaves (feature : Fin d) (split_value : K) (left right : Leaf) :
    collapse samples feature split_value left.tree right.tree =
      if correct (side samples true feature split_value) left.tree +
        correct (side samples false feature split_value) right.tree ≤
          correct samples (left.join right).tree then (left.join right).tree
      else .node feature split_value left.tree right.tree := by
  rw [← correct_node]
  rfl

theorem collapse_of_isNode (feature : Fin d) (split_value : K) {left_node right_node : Tree K d}
    (h : IsNode left_node ∨ IsNode right_node) :
    collapse samples feature split_value left_node right_node =
      .node feature split_value left_node right_node := by
  cases left_node with
  | node => rfl
  | leaf =>
    cases right_node with
    | node => rfl
    | leaf => exact h.elim False.elim False.elim

/-- Pruning makes one leaf of a tree that collapses, and of no other tree. -/
theorem prune_cases (samples : List (Sample K d)) (tree : Tree K d) :
    (Collapses samples tree ∧ prune samples tree = (majority tree).tree) ∨
      (¬ Collapses samples tree ∧ IsNode (prune samples tree)) := by
  induction tree generalizing samples with
  | leaf => exact .inl ⟨trivial, rfl⟩
  | node feature split_value left_node right_node ihl ihr =>
    rw [prune]
    obtain ⟨hl, heql⟩ | ⟨hl, hnode⟩ := @ihl (side samples true feature split_value)
    · obtain ⟨hr, heqr⟩ | ⟨hr, hnode⟩ := @ihr (side samples false feature split_value)
      · rw [heql, heqr, collapse_leaves]
        split
        · next hle => exact .inl ⟨⟨hl, hr, hle⟩, rfl⟩
        · next hlt => exact .inr ⟨fun h => hlt h.2.2, trivial⟩
      · rw [collapse_of_isNode _ _ (.inr hnode)]
        exact .inr ⟨fun h => hr h.2.1, trivial⟩
    · rw [collapse_of_isNode _ _ (.inl hnode)]
      exact .inr ⟨fun h => hl h.1, trivial⟩

end

/-! ## The error of the stored tree -/

section

variable [LT K] [DecidableLT K] {samples : List (Sample K d)} {heap : Heap K d}
  {parent : Option Ref} {t : RefTree K d} {fuel : ℕ}

theorem evaluate_sample_stored (h : t.Stored heap parent) (hfuel : t.depth ≤ fuel)
    (s : Sample K d) :
    heap.evaluate_sample s fuel t.ref = .done (DecisionTree.evaluate_sample s t.tree) := by
  induction t generalizing parent fuel with
  | leaf =>
    obtain ⟨fuel, rfl⟩ := Nat.exists_eq_add_of_le' (show 1 ≤ fuel from hfuel)
    rw [Heap.evaluate_sample, h.get]
    rfl
  | node ref feature split_value left_node right_node ihl ihr =>
    rw [RefTree.depth] at hfuel
    obtain ⟨fuel, rfl⟩ := Nat.exists_eq_add_of_le' (show 1 ≤ fuel by omega)
    rw [Heap.evaluate_sample, h.get]
    dsimp only [RefTree.tree]
    rw [DecisionTree.evaluate_sample]
    split
    · exact ihl h.2.1 (by omega)
    · exact ihr h.2.2 (by omega)

theorem evaluate_stored (h : t.Stored heap parent) (hfuel : t.depth ≤ fuel)
    (hsamples : samples ≠ []) :
    heap.evaluate fuel samples t.ref = .done (correct samples t.tree / samples.length) := by
  have hloop : ∀ (test_dataset : List (Sample K d)) (counters : ℕ × ℕ),
      test_dataset.foldl (fun (counters : Outcome (ℕ × ℕ)) entry =>
        counters.bind fun counters => (heap.evaluate_sample entry fuel t.ref).bind fun labels =>
          .done (if labels.1 = labels.2 then counters.1 + 1 else counters.1, counters.2 + 1))
        (.done counters) =
      .done (test_dataset.foldl (fun (counters : ℕ × ℕ) entry =>
        (if (evaluate_sample entry t.tree).1 = (evaluate_sample entry t.tree).2
          then counters.1 + 1 else counters.1, counters.2 + 1)) counters) := by
    intro test_dataset
    induction test_dataset with
    | nil => exact fun _ => rfl
    | cons s rest ih =>
      intro counters
      rw [List.foldl_cons, List.foldl_cons, ← ih, evaluate_sample_stored h hfuel]
      rfl
  have heq : DecisionTree.evaluate samples t.tree = _ := evaluate_eq
  unfold evaluate at heq
  unfold Heap.evaluate
  rw [hloop]
  dsimp only [Outcome.bind] at heq ⊢
  rw [heq, ratio, if_neg (by simpa using hsamples)]
  rfl

/-- The error has grown if fewer samples are given their own class. -/
theorem error_lt_iff (hsamples : samples ≠ []) (tree tree' : Tree K d) :
    (1 - (correct samples tree' / samples.length : ℚ) > 1 - correct samples tree / samples.length) ↔
      correct samples tree' < correct samples tree := by
  have hpos : (0 : ℚ) < samples.length := by
    exact_mod_cast List.length_pos_iff.mpr hsamples
  rw [gt_iff_lt, sub_lt_sub_iff_left, div_lt_div_iff_of_pos_right hpos, Nat.cast_lt]

/-! ## What comes to a place -/

/-- The samples that come to the place inside the frames. -/
def reach (samples : List (Sample K d)) : List (Frame K d) → List (Sample K d)
  | [] => samples
  | frame :: frames => side (reach samples frames) frame.is_left frame.feature frame.split_value

theorem correct_fill (samples : List (Sample K d)) (frame : Frame K d) (t : RefTree K d) :
    correct samples (frame.fill t).tree =
      correct (side samples (!frame.is_left) frame.feature frame.split_value) frame.sibling.tree +
        correct (side samples frame.is_left frame.feature frame.split_value) t.tree := by
  cases hside : frame.is_left
  · rw [Frame.fill, hside]
    exact correct_node ..
  · rw [Frame.fill, hside, Nat.add_comm]
    exact correct_node ..

/-- The samples that do not come to a place are not affected by what is put there. -/
theorem correct_plug (samples : List (Sample K d)) (frames : List (Frame K d)) :
    ∃ others, ∀ t : RefTree K d, correct samples (Frame.plug frames t).tree =
      others + correct (reach samples frames) t.tree := by
  induction frames with
  | nil => exact ⟨0, fun t => (Nat.zero_add _).symm⟩
  | cons frame frames ih =>
    obtain ⟨others, hothers⟩ := ih
    refine ⟨others + correct (side (reach samples frames) (!frame.is_left) frame.feature
      frame.split_value) frame.sibling.tree, fun t => ?_⟩
    have hfill : correct samples (Frame.plug (frame :: frames) t).tree = _ :=
      hothers (frame.fill t)
    rw [hfill, correct_fill, reach, Nat.add_assoc]

end

/-! ## Replacing a node -/

section

variable {heap : Heap K d} {frame : Frame K d} {frames : List (Frame K d)}

theorem ref_plug (t t' : RefTree K d) :
    (Frame.plug (frame :: frames) t).ref = (Frame.plug (frame :: frames) t').ref := by
  induction frames generalizing frame t t' with
  | nil => rfl
  | cons next frames ih => exact @ih next (frame.fill t) (frame.fill t')

theorem around_setChild {child new : Ref} {object : Object K d}
    (h : Frame.Around heap (frame :: frames) child)
    (hnodup : (new :: Frame.refs (frame :: frames)).Nodup) (hobject : heap[new]? = some object) :
    ∃ heap', heap.setChild frame.is_left frame.ref new = .done heap' ∧
      Frame.Around heap' (frame :: frames) new ∧
      heap'[new]? = some (object.setParent frame.ref) ∧
      ∀ r, r ≠ frame.ref → r ≠ new → heap'[r]? = heap[r]? := by
  obtain ⟨hnode, hsibling, hframes⟩ := h
  obtain ⟨hnew, hrefs⟩ := List.nodup_cons.mp hnodup
  have hrefs : (frame.ref :: (frame.sibling.refs ++ Frame.refs frames)).Nodup := hrefs
  have hnew : new ∉ frame.ref :: (frame.sibling.refs ++ Frame.refs frames) := hnew
  simp only [List.mem_cons, List.mem_append, not_or] at hnew
  obtain ⟨hne, hnot⟩ := hnew
  obtain ⟨hself, -⟩ := List.nodup_cons.mp hrefs
  obtain ⟨hlt, -⟩ := List.getElem?_eq_some_iff.mp hnode
  obtain ⟨hltNew, -⟩ := List.getElem?_eq_some_iff.mp hobject
  have hchild : (heap.set frame.ref (.node frame.feature frame.split_value
      (if frame.is_left then new else
        if frame.is_left then child else frame.sibling.ref)
      (if frame.is_left then
        if frame.is_left then frame.sibling.ref else child else new)
      (Frame.parent frames)))[new]? = some object := by
    rw [List.getElem?_set_ne (Ne.symm hne), hobject]
  have hother : ∀ (o o' : Object K d) r, r ≠ frame.ref → r ≠ new →
      ((heap.set frame.ref o).set new o')[r]? = heap[r]? := by
    intro o o' r hr hr'
    rw [List.getElem?_set_ne (Ne.symm hr'), List.getElem?_set_ne (Ne.symm hr)]
  have hsame : ∀ r ∈ frame.sibling.refs ++ Frame.refs frames, r ≠ frame.ref ∧ r ≠ new := by
    intro r hr
    refine ⟨?_, ?_⟩
    · rintro rfl
      exact hself hr
    · rintro rfl
      exact (List.mem_append.mp hr).elim hnot.1 hnot.2
  unfold Heap.setChild
  rw [hnode]
  simp only [hchild]
  refine ⟨_, rfl, ⟨?_, ?_, ?_⟩, ?_, hother _ _⟩
  · rw [List.getElem?_set_ne hne, List.getElem?_set_self hlt]
    cases frame.is_left <;> rfl
  · refine hsibling.congr fun r hr => ?_
    obtain ⟨h1, h2⟩ := hsame r (List.mem_append_left _ hr)
    exact hother _ _ r h1 h2
  · refine hframes.congr fun r hr => ?_
    obtain ⟨h1, h2⟩ := hsame r (List.mem_append_right _ hr)
    exact hother _ _ r h1 h2
  · rw [List.getElem?_set_self (by simpa using hltNew)]

/-- A new leaf in the place of a tree, and the tree back in its place. -/
theorem replace_and_undo {t : RefTree K d} (h : (Frame.plug (frame :: frames) t).InHeap heap)
    (node_label : String) (class_index : ℕ) (frequency : ℤ) :
    ∃ heap₁ heap₂,
      Heap.setChild (heap ++ [.leaf node_label class_index frequency none]) frame.is_left frame.ref
        heap.length = .done heap₁ ∧
      (Frame.plug (frame :: frames)
        (.leaf heap.length node_label class_index frequency)).InHeap heap₁ ∧
      heap₁.setChild frame.is_left frame.ref t.ref = .done heap₂ ∧
      (Frame.plug (frame :: frames) t).InHeap heap₂ := by
  obtain ⟨hstored, hnodup⟩ := h
  obtain ⟨haround, ht⟩ := Frame.stored_plug.mp hstored
  have hperm : (Frame.plug (frame :: frames) t).refs.Perm
      (Frame.refs (frame :: frames) ++ t.refs) := Frame.perm_refs_plug
  have hlt : ∀ r ∈ Frame.refs (frame :: frames) ++ t.refs, r < heap.length := fun r hr =>
    hstored.lt_length (hperm.mem_iff.mpr hr)
  obtain ⟨hframes, -, hdisjoint⟩ := List.nodup_append.mp (hperm.nodup_iff.mp hnodup)
  have hself : frame.ref ∈ Frame.refs (frame :: frames) := List.mem_cons_self
  have hfresh : heap.length ∉ Frame.refs (frame :: frames) := fun hmem =>
    (hlt _ (List.mem_append_left _ hmem)).ne rfl
  have hold : ∀ r ∈ Frame.refs (frame :: frames) ++ t.refs,
      (heap ++ [.leaf node_label class_index frequency none])[r]? = heap[r]? := fun r hr =>
    List.getElem?_append_left (hlt r hr)
  obtain ⟨heap₁, hset, haround₁, hleaf, hother⟩ := around_setChild
    (haround.congr fun r hr => hold r (List.mem_append_left _ hr))
    (List.nodup_cons.mpr ⟨hfresh, hframes⟩) List.getElem?_concat_length
  have hstored₁ : (Frame.plug (frame :: frames)
      (.leaf heap.length node_label class_index frequency)).Stored heap₁ none :=
    Frame.stored_plug.mpr ⟨haround₁, hleaf⟩
  have hnodup₁ : (Frame.plug (frame :: frames)
      (.leaf heap.length node_label class_index frequency)).refs.Nodup := by
    refine Frame.perm_refs_plug.nodup_iff.mpr
      (List.nodup_append.mpr ⟨hframes, List.nodup_singleton _, ?_⟩)
    rintro r hr s hs rfl
    rw [List.mem_singleton.mp hs] at hr
    exact hfresh hr
  -- the objects of the tree are still there
  have htree : ∀ r ∈ t.refs, heap₁[r]? = heap[r]? := by
    intro r hr
    have hmem := List.mem_append_right (Frame.refs (frame :: frames)) hr
    rw [hother r (hdisjoint _ hself _ hr).symm (hlt r hmem).ne, hold r hmem]
  obtain ⟨object, hobject, hparent⟩ := ht.exists_get
  have hobject₁ : heap₁[t.ref]? = some object := (htree _ t.ref_mem_refs).trans hobject
  have hnot : t.ref ∉ Frame.refs (frame :: frames) := fun hmem =>
    hdisjoint _ hmem _ t.ref_mem_refs rfl
  obtain ⟨heap₂, hundo, haround₂, hback, hother₂⟩ := around_setChild haround₁
    (List.nodup_cons.mpr ⟨hnot, hframes⟩) hobject₁
  refine ⟨heap₁, heap₂, hset, ⟨hstored₁, hnodup₁⟩, hundo, ?_, hnodup⟩
  refine Frame.stored_plug.mpr ⟨haround₂, ht.congr fun r hr => ?_⟩
  by_cases heq : r = t.ref
  · rw [heq, hback, hobject, Object.setParent_of_parent hparent]
  · rw [hother₂ r (hdisjoint _ hself _ hr).symm heq, htree r hr]

end

section

variable [LT K] [DecidableLT K] {samples : List (Sample K d)} {heap : Heap K d} {fuel : ℕ}

/-- A node with a child that is a node is left alone. -/
theorem prune_node_of_isNode {root x : Ref} {feature : Fin d} {split_value : K}
    {left_node right_node : RefTree K d} {parent : Option Ref}
    (h : (RefTree.node x feature split_value left_node right_node).Stored heap parent)
    (hnode : IsNode left_node.tree ∨ IsNode right_node.tree) :
    prune_node root samples fuel x heap = .done heap := by
  obtain ⟨hx, hl, hr⟩ := h
  unfold prune_node Heap.left_node Heap.right_node
  rw [hx]
  dsimp only [Outcome.bind]
  rw [hl.get, hr.get]
  cases left_node with
  | node => rfl
  | leaf =>
    cases right_node with
    | node => rfl
    | leaf => exact hnode.elim False.elim False.elim

/-- What is done with two leaves, below the root. -/
theorem prune_node_leaves {root : Ref} {frame : Frame K d} {frames : List (Frame K d)} {x : Ref}
    {feature : Fin d} {split_value : K} {left_ref right_ref : Ref} (left right : Leaf)
    (h : (Frame.plug (frame :: frames) (.node x feature split_value
      (.leaf left_ref left.node_label left.class_index left.frequency)
      (.leaf right_ref right.node_label right.class_index right.frequency))).InHeap heap)
    {old_accuracy new_accuracy : ℚ} (hold : heap.evaluate fuel samples root = .done old_accuracy)
    {heap₁ : Heap K d} (hset : Heap.setChild (heap ++ [.leaf (left.join right).node_label
      (left.join right).class_index (left.join right).frequency none]) frame.is_left frame.ref
        heap.length = .done heap₁)
    (hnew : heap₁.evaluate fuel samples root = .done new_accuracy) :
    prune_node root samples fuel x heap =
      if 1 - new_accuracy > 1 - old_accuracy then heap₁.setChild frame.is_left frame.ref x
      else .done heap₁ := by
  obtain ⟨hstored, hnodup⟩ := h
  obtain ⟨⟨hframe, -, -⟩, hx, hl, hr⟩ := Frame.stored_plug.mp hstored
  have hset_node : ∀ (is_left : Bool) (heap : Heap K d) (self child : Ref),
      (if is_left = true then heap.set_left_node self child else heap.set_right_node self child) =
        heap.setChild is_left self child := by
    intro is_left heap self child
    cases is_left <;> rfl
  have hleft : ((if frame.is_left then x else frame.sibling.ref) = x : Bool) = frame.is_left := by
    have hne : frame.sibling.ref ≠ x := by
      obtain ⟨-, -, hdisjoint⟩ := List.nodup_append.mp (Frame.perm_refs_plug.nodup_iff.mp hnodup)
      refine hdisjoint _ ?_ _ List.mem_cons_self
      exact List.mem_append_left _ (List.mem_cons_of_mem _ frame.sibling.ref_mem_refs)
    cases frame.is_left <;> simp [hne]
  have hjoin : (if left.frequency > right.frequency then
        .leaf left.node_label left.class_index (left.frequency + right.frequency) none
      else .leaf right.node_label right.class_index (left.frequency + right.frequency) none :
        Object K d) = .leaf (left.join right).node_label (left.join right).class_index
          (left.join right).frequency none := by
    unfold Leaf.join
    split <;> rfl
  have hx : heap[x]? = some (.node feature split_value left_ref right_ref (some frame.ref)) := hx
  have hparent : heap.parent x = .done frame.ref := by
    rw [Heap.parent, hx]
    rfl
  have hparent_left : heap.left_node frame.ref =
      .done (if frame.is_left then x else frame.sibling.ref) := by
    rw [Heap.left_node, hframe]
    rfl
  have hl : heap[left_ref]? = _ := hl
  have hr : heap[right_ref]? = _ := hr
  rw [prune_node, Heap.left_node, Heap.right_node, hx]
  dsimp only [Outcome.bind]
  rw [hl, hr]
  dsimp only
  rw [hold, hparent]
  dsimp only [Outcome.bind]
  rw [hparent_left]
  simp only [hleft, hset_node]
  rw [hjoin, hset]
  dsimp only
  rw [hnew]

/-- **A node below the root is collapsed.** -/
theorem prune_node_spec {frame : Frame K d} {frames : List (Frame K d)} {x : Ref}
    {feature : Fin d} {split_value : K} {left_node right_node : RefTree K d}
    (h : (Frame.plug (frame :: frames)
      (.node x feature split_value left_node right_node)).InHeap heap)
    (hfuel : (Frame.plug (frame :: frames)
      (.node x feature split_value left_node right_node)).depth ≤ fuel) (hsamples : samples ≠ []) :
    ∃ heap' t, prune_node (Frame.plug (frame :: frames)
        (.node x feature split_value left_node right_node)).ref samples fuel x heap =
          .done heap' ∧
      (Frame.plug (frame :: frames) t).InHeap heap' ∧
      t.tree = collapse (reach samples (frame :: frames)) feature split_value left_node.tree
        right_node.tree ∧
      t.depth ≤ (RefTree.node x feature split_value left_node right_node).depth := by
  obtain ⟨hstored, hnodup⟩ := h
  obtain ⟨haround, ht⟩ := Frame.stored_plug.mp hstored
  by_cases hnode : IsNode left_node.tree ∨ IsNode right_node.tree
  · refine ⟨heap, .node x feature split_value left_node right_node,
      prune_node_of_isNode ht hnode, ⟨hstored, hnodup⟩, ?_, le_rfl⟩
    rw [collapse_of_isNode _ _ hnode]
    rfl
  cases left_node with
  | node => exact absurd (.inl trivial) hnode
  | leaf left_ref left_label left_class left_frequency =>
  cases right_node with
  | node => exact absurd (.inr trivial) hnode
  | leaf right_ref right_label right_class right_frequency =>
  let left : Leaf := ⟨left_label, left_class, left_frequency⟩
  let right : Leaf := ⟨right_label, right_class, right_frequency⟩
  let leaf := left.join right
  obtain ⟨heap₁, heap₂, hset, hleaf, hundo, hback⟩ := replace_and_undo ⟨hstored, hnodup⟩
    leaf.node_label leaf.class_index leaf.frequency
  have hdepth : (RefTree.leaf heap.length leaf.node_label leaf.class_index leaf.frequency :
        RefTree K d).depth ≤
      (RefTree.node x feature split_value (.leaf left_ref left_label left_class left_frequency)
        (.leaf right_ref right_label right_class right_frequency)).depth := by
    simp [RefTree.depth]
  have hold := evaluate_stored hstored hfuel hsamples
  have hnew := evaluate_stored hleaf.stored
    ((Frame.depth_plug_le hdepth (frame :: frames)).trans hfuel) hsamples
  rw [ref_plug _ (.node x feature split_value (.leaf left_ref left_label left_class left_frequency)
        (.leaf right_ref right_label right_class right_frequency))] at hnew
  have hprune := prune_node_leaves left right ⟨hstored, hnodup⟩ hold hset hnew
  obtain ⟨others, hcorrect⟩ := correct_plug samples (frame :: frames)
  have hworse_iff := error_lt_iff hsamples (Frame.plug (frame :: frames)
    (.node x feature split_value (.leaf left_ref left_label left_class left_frequency)
      (.leaf right_ref right_label right_class right_frequency))).tree
    (Frame.plug (frame :: frames)
      (.leaf heap.length leaf.node_label leaf.class_index leaf.frequency)).tree
  rw [hcorrect, hcorrect, Nat.add_lt_add_iff_left, ← hcorrect, ← hcorrect] at hworse_iff
  by_cases hworse : correct (reach samples (frame :: frames)) leaf.tree <
      correct (reach samples (frame :: frames)) (.node feature split_value left.tree right.tree)
  · refine ⟨heap₂, _, ?_, hback, ?_, le_rfl⟩
    · rw [hprune, if_pos (hworse_iff.mpr hworse)]
      exact hundo
    · exact (if_neg (Nat.not_le.mpr hworse)).symm
  · refine ⟨heap₁, _, ?_, hleaf, ?_, hdepth⟩
    · rw [hprune, if_neg (hworse_iff.not.mpr hworse)]
    · exact (if_pos (Nat.not_lt.mp hworse)).symm

/-- Below the root, `prune_tree` does what `prune` does. -/
def Refines (samples : List (Sample K d)) (t : RefTree K d) : Prop :=
  ∀ (frame : Frame K d) (frames : List (Frame K d)) (heap : Heap K d) (fuel : ℕ),
    (Frame.plug (frame :: frames) t).InHeap heap →
    t.depth + (Frame.plug (frame :: frames) t).depth ≤ fuel →
    ∃ heap' t', prune_tree (Frame.plug (frame :: frames) t).ref samples fuel t.ref heap =
        .done heap' ∧
      (Frame.plug (frame :: frames) t').InHeap heap' ∧
      t'.tree = prune (reach samples (frame :: frames)) t.tree ∧ t'.depth ≤ t.depth

/-- The two recursive calls. -/
theorem prune_children (frames : List (Frame K d)) {x : Ref} {feature : Fin d} {split_value : K}
    {left_node right_node : RefTree K d} (hl : Refines samples left_node)
    (hr : Refines samples right_node)
    (h : (Frame.plug frames (.node x feature split_value left_node right_node)).InHeap heap)
    (hfuel : max left_node.depth right_node.depth +
      (Frame.plug frames (.node x feature split_value left_node right_node)).depth ≤ fuel) :
    ∃ heap' left_node' right_node',
      prune_tree (Frame.plug frames (.node x feature split_value left_node right_node)).ref samples
          (fuel + 1) x heap =
        prune_node (Frame.plug frames (.node x feature split_value left_node' right_node')).ref
          samples fuel x heap' ∧
      (Frame.plug frames (.node x feature split_value left_node' right_node')).InHeap heap' ∧
      left_node'.tree =
        prune (side (reach samples frames) true feature split_value) left_node.tree ∧
      right_node'.tree =
        prune (side (reach samples frames) false feature split_value) right_node.tree ∧
      left_node'.depth ≤ left_node.depth ∧ right_node'.depth ≤ right_node.depth := by
  obtain ⟨-, hnode, -, -⟩ := Frame.stored_plug.mp h.stored
  obtain ⟨heap₁, left_node', heq₁, h₁, htree₁, hle₁⟩ :=
    hl ⟨x, feature, split_value, true, right_node⟩ frames heap fuel h
      (le_trans (Nat.add_le_add_right (le_max_left _ _) _) hfuel)
  have href : (Frame.plug frames (.node x feature split_value left_node right_node)).ref =
      (Frame.plug frames (.node x feature split_value left_node' right_node)).ref :=
    @ref_plug _ _ ⟨x, feature, split_value, true, right_node⟩ frames left_node left_node'
  have h₁ : (Frame.plug frames (.node x feature split_value left_node' right_node)).InHeap heap₁ :=
    h₁
  obtain ⟨-, hnode₁, -, -⟩ := Frame.stored_plug.mp h₁.stored
  have hdepth : (Frame.plug frames (.node x feature split_value left_node' right_node)).depth ≤
      (Frame.plug frames (.node x feature split_value left_node right_node)).depth :=
    Frame.depth_plug_le hle₁ (⟨x, feature, split_value, true, right_node⟩ :: frames)
  obtain ⟨heap₂, right_node', heq₂, h₂, htree₂, hle₂⟩ :=
    hr ⟨x, feature, split_value, false, left_node'⟩ frames heap₁ fuel h₁
      (le_trans (Nat.add_le_add (le_max_right _ _) hdepth) hfuel)
  have href' : (Frame.plug frames (.node x feature split_value left_node' right_node)).ref =
      (Frame.plug frames (.node x feature split_value left_node' right_node')).ref :=
    @ref_plug _ _ ⟨x, feature, split_value, false, left_node'⟩ frames right_node right_node'
  refine ⟨heap₂, left_node', right_node', ?_, h₂, htree₁, htree₂, hle₁, hle₂⟩
  have hleft : heap.left_node x = .done left_node.ref := by
    rw [Heap.left_node, hnode]
  have hright : heap₁.right_node x = .done right_node.ref := by
    rw [Heap.right_node, hnode₁]
  have hfirst : prune_tree (Frame.plug frames
      (.node x feature split_value left_node right_node)).ref samples fuel left_node.ref heap =
        .done heap₁ := heq₁
  have hsecond : prune_tree (Frame.plug frames
      (.node x feature split_value left_node' right_node)).ref samples fuel right_node.ref heap₁ =
        .done heap₂ := heq₂
  rw [prune_tree, hnode]
  dsimp only
  rw [hleft]
  dsimp only [Outcome.bind]
  rw [hfirst]
  dsimp only
  rw [hright]
  dsimp only
  rw [href, hsecond, href']

/-- **`prune_tree` refines `prune`**, below the root. -/
theorem refines (hsamples : samples ≠ []) (t : RefTree K d) : Refines samples t := by
  induction t with
  | leaf ref node_label class_index frequency =>
    intro frame frames heap fuel h hfuel
    obtain ⟨-, hleaf⟩ := Frame.stored_plug.mp h.stored
    have hleaf : heap[ref]? = _ := hleaf
    obtain ⟨fuel, rfl⟩ := Nat.exists_eq_add_of_le' (le_trans (Nat.le_add_right 1 _) hfuel)
    refine ⟨heap, .leaf ref node_label class_index frequency, ?_, h, rfl, le_rfl⟩
    rw [prune_tree, RefTree.ref, hleaf]
  | node x feature split_value left_node right_node ihl ihr =>
    intro frame frames heap fuel h hfuel
    rw [RefTree.depth] at hfuel
    obtain ⟨fuel, rfl⟩ := Nat.exists_eq_add_of_le' (show 1 ≤ fuel by omega)
    obtain ⟨heap₁, left_node', right_node', heq, h₁, hl, hr, hle, hle'⟩ :=
      prune_children (frame :: frames) ihl ihr h (show _ ≤ fuel by omega)
    have hdepth : (RefTree.node x feature split_value left_node' right_node').depth ≤
        (RefTree.node x feature split_value left_node right_node).depth := by
      simp only [RefTree.depth]
      omega
    have hplug := Frame.depth_plug_le hdepth (frame :: frames)
    obtain ⟨heap₂, t, hnode, h₂, htree, hle⟩ := prune_node_spec h₁ (show _ ≤ fuel by omega) hsamples
    refine ⟨heap₂, t, ?_, h₂, ?_, hle.trans hdepth⟩
    · exact heq.trans hnode
    · rw [htree, hl, hr]
      rfl

/-! ## From the root -/

/-- `prune_tree` returns, and the error has not grown. -/
def Safe (samples : List (Sample K d)) (root : Ref) (heap : Heap K d) : Prop :=
  ∃ n, ∀ fuel, n ≤ fuel → ∃ heap' old_accuracy new_accuracy,
    prune_tree root samples fuel root heap = .done heap' ∧
      heap.evaluate fuel samples root = .done old_accuracy ∧
      heap'.evaluate fuel samples root = .done new_accuracy ∧
      1 - new_accuracy ≤ 1 - old_accuracy

section

variable {x : Ref} {feature : Fin d} {split_value : K} {left_node right_node : RefTree K d}

/-- The root has no parent. -/
theorem prune_node_root (h : (RefTree.node x feature split_value left_node right_node).Stored heap
    none) (hfuel : (RefTree.node x feature split_value left_node right_node).depth ≤ fuel)
    (hsamples : samples ≠ []) (hl : ¬ IsNode left_node.tree) (hr : ¬ IsNode right_node.tree) :
    prune_node x samples fuel x heap = .wrong := by
  have hevaluate := evaluate_stored h hfuel hsamples
  cases left_node with
  | node => exact absurd trivial hl
  | leaf =>
  cases right_node with
  | node => exact absurd trivial hr
  | leaf =>
  obtain ⟨hx, hleft, hright⟩ := h
  have hparent : heap.parent x = .wrong := by
    rw [Heap.parent, hx]
    rfl
  rw [prune_node, Heap.left_node, Heap.right_node, hx]
  dsimp only [Outcome.bind]
  rw [hleft.get, hright.get]
  dsimp only
  rw [RefTree.ref] at hevaluate
  rw [hevaluate, hparent]

variable (hsamples : samples ≠ [])
  (h : (RefTree.node x feature split_value left_node right_node).InHeap heap)
  (hfuel : max left_node.depth right_node.depth +
    (RefTree.node x feature split_value left_node right_node).depth ≤ fuel)

include hsamples h hfuel

theorem prune_tree_wrong (hl : Collapses (side samples true feature split_value) left_node.tree)
    (hr : Collapses (side samples false feature split_value) right_node.tree) :
    prune_tree x samples (fuel + 1) x heap = .wrong := by
  obtain ⟨heap', left_node', right_node', heq, h', htree, htree', hle, hle'⟩ :=
    prune_children [] (refines hsamples left_node) (refines hsamples right_node) h hfuel
  have hdepth : (RefTree.node x feature split_value left_node' right_node').depth ≤ fuel := by
    simp only [RefTree.depth] at hfuel ⊢
    omega
  have hleaf : ∀ {samples : List (Sample K d)} {tree : Tree K d}, Collapses samples tree →
      ¬ IsNode (prune samples tree) := by
    intro samples tree hcollapses
    obtain ⟨-, heq⟩ | ⟨hnot, -⟩ := prune_cases samples tree
    · rw [heq]
      exact id
    · exact absurd hcollapses hnot
  refine heq.trans (prune_node_root h'.stored hdepth hsamples ?_ ?_)
  · rw [htree]
    exact hleaf hl
  · rw [htree']
    exact hleaf hr

theorem prune_tree_done
    (hnot : ¬ (Collapses (side samples true feature split_value) left_node.tree ∧
      Collapses (side samples false feature split_value) right_node.tree)) :
    ∃ (heap' : Heap K d) (t : RefTree K d),
      prune_tree x samples (fuel + 1) x heap = .done heap' ∧ t.InHeap heap' ∧ t.ref = x ∧
      t.tree = prune samples (RefTree.node x feature split_value left_node right_node).tree ∧
      t.depth ≤ (RefTree.node x feature split_value left_node right_node).depth := by
  obtain ⟨heap', left_node', right_node', heq, h', htree, htree', hle, hle'⟩ :=
    prune_children [] (refines hsamples left_node) (refines hsamples right_node) h hfuel
  have hnode : IsNode left_node'.tree ∨ IsNode right_node'.tree := by
    rw [htree, htree']
    obtain ⟨hl, -⟩ | ⟨-, hl⟩ := prune_cases (side samples true feature split_value)
      left_node.tree
    · obtain ⟨hr, -⟩ | ⟨-, hr⟩ := prune_cases (side samples false feature split_value)
        right_node.tree
      · exact absurd ⟨hl, hr⟩ hnot
      · exact .inr hr
    · exact .inl hl
  refine ⟨heap', .node x feature split_value left_node' right_node', ?_, h', rfl, ?_, ?_⟩
  · exact heq.trans (prune_node_of_isNode h'.stored hnode)
  · rw [htree, htree'] at hnode
    rw [RefTree.tree, htree, htree', RefTree.tree, prune]
    exact (collapse_of_isNode _ _ hnode).symm
  · simp only [RefTree.depth]
    omega

omit hfuel

theorem not_safe (hl : Collapses (side samples true feature split_value) left_node.tree)
    (hr : Collapses (side samples false feature split_value) right_node.tree) :
    ¬ Safe samples x heap := by
  rintro ⟨n, hn⟩
  obtain ⟨heap', -, -, hdone, -⟩ := hn (max n _ + 1) (by omega)
  rw [prune_tree_wrong hsamples h (le_max_right n _) hl hr] at hdone
  cases hdone

/-- **Pruning is safe exactly if not all splits below the root collapse.** -/
theorem safe_iff : Safe samples x heap ↔
    ¬ (Collapses (side samples true feature split_value) left_node.tree ∧
      Collapses (side samples false feature split_value) right_node.tree) := by
  constructor
  · rintro hsafe ⟨hl, hr⟩
    exact not_safe hsamples h hl hr hsafe
  · intro hnot
    refine ⟨max left_node.depth right_node.depth +
      (RefTree.node x feature split_value left_node right_node).depth + 1, fun fuel hfuel => ?_⟩
    obtain ⟨fuel, rfl⟩ := Nat.exists_eq_add_of_le' (le_trans (Nat.le_add_left 1 _) hfuel)
    obtain ⟨heap', t, hdone, hheap, href, htree, hdepth⟩ :=
      prune_tree_done hsamples h (Nat.le_of_succ_le_succ hfuel) hnot
    have hold := evaluate_stored h.stored (show _ ≤ fuel + 1 by omega) hsamples
    have hnew := evaluate_stored hheap.stored (show _ ≤ fuel + 1 by omega) hsamples
    rw [href] at hnew
    refine ⟨heap', _, _, hdone, hold, hnew, ?_⟩
    rw [htree, ← not_lt, ← gt_iff_lt, error_lt_iff hsamples, not_lt]
    exact correct_le_prune _

end

end

/-- The split on the left is better than a leaf. -/
theorem safe_of_depth_three : Safe (K := ℕ) (d := 1) [⟨![0], 0⟩, ⟨![1], 1⟩] 0
    [.node 0 2 1 2 none, .node 0 1 3 4 (some 0), .leaf "b" 1 1 (some 0), .leaf "a" 0 2 (some 1),
      .leaf "b" 1 1 (some 1)] := by
  have h : (RefTree.node 0 (0 : Fin 1) (2 : ℕ) (.node 1 0 1 (.leaf 3 "a" 0 2) (.leaf 4 "b" 1 1))
      (.leaf 2 "b" 1 1)).InHeap [.node 0 2 1 2 none, .node 0 1 3 4 (some 0),
        .leaf "b" 1 1 (some 0), .leaf "a" 0 2 (some 1), .leaf "b" 1 1 (some 1)] :=
    ⟨by simp [RefTree.Stored, RefTree.ref], by decide⟩
  exact (safe_iff (by simp) h).mpr (by decide)

/-- A root with two leaves. -/
theorem not_safe_of_depth_two : ¬ Safe (K := ℕ) (d := 1) [⟨![0], 0⟩] 0
    [.node 0 1 1 2 none, .leaf "a" 0 1 (some 0), .leaf "b" 1 1 (some 0)] := by
  have h : (RefTree.node 0 (0 : Fin 1) (1 : ℕ) (.leaf 1 "a" 0 1) (.leaf 2 "b" 1 1)).InHeap
      [.node 0 1 1 2 none, .leaf "a" 0 1 (some 0), .leaf "b" 1 1 (some 0)] :=
    ⟨by simp [RefTree.Stored, RefTree.ref], by decide⟩
  exact not_safe (by simp) h trivial trivial

end DocMachine.DecisionTree
