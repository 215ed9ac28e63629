import DocMachine.Lib.Outcome
import DocMachine.DecisionTree.FindSplit

/-!
# Learning a decision tree

Model of `_decision_tree_learning` (`decision_tree_learning.py` 95-137) over `find_split`, and of
`evaluate_sample` (`evaluation_utils.py` 22-45).

* A `Tree` is the dictionary of the source: a leaf has the label and the index of its class and the
  number of samples it was made for, a node its feature, its value and two trees.
* The recursion has a bound, `fuel`; running out of it is an outcome of its own, and so is an index
  out of range (`wrong`). Every result says how much fuel is enough: the number of samples.
* `numpy.argsort` is a parameter, of which `IsArgsort` says that it sorts; ties may come in any
  order. Arithmetic is exact, over any linearly ordered field.

Results:
* `learning_spec`: the learner returns a tree for every dataset whose samples of different classes
  some feature tells apart, and the tree sends a sample where its values lead (`Reaches`) along the
  cuts of the highest gain (`bestCut`).
* `fits_iff_reaches`: the tree fits exactly if every sample that a cut separates from an equal value
  on its right (`CutOff`) comes to a part of its class after all. The learner splits at positions of
  the sorted dataset, but `evaluate_sample` compares values.
* `decision_tree_learning_fits`: it fits if no best cut lies between two equal values
  (`CutsBetweenValues`); in particular if no two samples have the same value of any feature
  (`cutsBetweenValues_of_distinct`).
* `decision_tree_learning_misfits`: two samples that a cut between two equal values gets wrong.
* `decision_tree_learning_terminates`: proper splits and a result, for consistent datasets or not.
-/

namespace DocMachine.DecisionTree

open DocMachine.Lib

variable {K : Type} {d : ℕ}

/-! ## The functions -/

/-- `DecisionTreeLeaf` and `DecisionTreeNode`. -/
inductive Tree (K : Type) (d : ℕ) where
  | leaf (node_label : String) (class_index : ℕ) (frequency : ℤ)
  | node (feature : Fin d) (split_value : K) (left_node right_node : Tree K d)

/-- The class of the sample, and the one that the tree gives it. -/
def evaluate_sample [LT K] [DecidableLT K] (sample : Sample K d) : Tree K d → ℕ × ℕ
  | .leaf _ class_index _ => (sample.class_index, class_index)
  | .node feature split_value left_node right_node =>
    if sample.features feature < split_value then evaluate_sample sample left_node
    else evaluate_sample sample right_node

/-- The tree and its depth. An index out of range goes wrong. -/
noncomputable def decision_tree_learning [Field K]
    (argsort : Fin d → List (Sample K d) → List (Sample K d)) (unique_classes : List String) :
    ℕ → List (Sample K d) → List ℤ → ℕ → Outcome (Tree K d × ℕ)
  | 0, _, _, _ => .outOfFuel
  | fuel + 1, dataset, class_counts, depth =>
    match class_counts.filter (· ≠ 0) with
    | [count] =>
      let class_index := class_counts.idxOf count
      match unique_classes[class_index]? with
      | none => .wrong
      | some label => .done (.leaf label class_index class_counts.sum, depth + 1)
    | _ =>
      match find_split argsort dataset class_counts with
      | none => .wrong
      | some split =>
        (decision_tree_learning argsort unique_classes fuel split.left_dataset
          split.left_class_counts (depth + 1)).bind fun left =>
        (decision_tree_learning argsort unique_classes fuel split.right_dataset
          split.right_class_counts (depth + 1)).bind fun right =>
        .done (.node split.feature split.split_value left.1 right.1, max left.2 right.2)

/-! ## Parts of a dataset -/

section

variable [Field K] [LinearOrder K] (argsort : Fin d → List (Sample K d) → List (Sample K d))
  (m : ℕ)

/-- The first cut of the highest gain. -/
noncomputable def bestCut (dataset : List (Sample K d)) : Option (Fin d × ℕ) :=
  (cuts d dataset.length).argmax (gain argsort m dataset)

/-- By its values, `s` comes to a part where all samples are of class `c`. -/
inductive Reaches : List (Sample K d) → Sample K d → ℕ → Prop
  | leaf {part : List (Sample K d)} {s : Sample K d} {c : ℕ} (hne : part ≠ [])
      (hpart : ∀ t ∈ part, t.class_index = c) : Reaches part s c
  | left {part : List (Sample K d)} {s : Sample K d} {c : ℕ} {cut : Fin d × ℕ}
      (hmixed : Mixed part) (hcut : cut ∈ bestCut argsort m part)
      (hlt : s.features cut.1 < cutValue argsort part cut)
      (hleft : Reaches (leftPart argsort part cut) s c) : Reaches part s c
  | right {part : List (Sample K d)} {s : Sample K d} {c : ℕ} {cut : Fin d × ℕ}
      (hmixed : Mixed part) (hcut : cut ∈ bestCut argsort m part)
      (hnlt : ¬ s.features cut.1 < cutValue argsort part cut)
      (hright : Reaches (rightPart argsort part cut) s c) : Reaches part s c

/-- Where `s` is put, some cut leaves it in the left part and a sample with the same value of the
feature in the right one. -/
inductive CutOff : List (Sample K d) → Sample K d → Prop
  | here {part : List (Sample K d)} {s t : Sample K d} {cut : Fin d × ℕ}
      (hmixed : Mixed part) (hcut : cut ∈ bestCut argsort m part)
      (hs : s ∈ leftPart argsort part cut) (ht : t ∈ rightPart argsort part cut)
      (heq : s.features cut.1 = t.features cut.1) : CutOff part s
  | left {part : List (Sample K d)} {s : Sample K d} {cut : Fin d × ℕ}
      (hmixed : Mixed part) (hcut : cut ∈ bestCut argsort m part)
      (hs : s ∈ leftPart argsort part cut) (hleft : CutOff (leftPart argsort part cut) s) :
      CutOff part s
  | right {part : List (Sample K d)} {s : Sample K d} {cut : Fin d × ℕ}
      (hmixed : Mixed part) (hcut : cut ∈ bestCut argsort m part)
      (hs : s ∈ rightPart argsort part cut) (hright : CutOff (rightPart argsort part cut) s) :
      CutOff part s

/-- No best cut, of the dataset or of the parts that it is cut into, lies between two equal values
of its feature. -/
inductive CutsBetweenValues : List (Sample K d) → Prop
  | one {part : List (Sample K d)} (hone : ¬ Mixed part) : CutsBetweenValues part
  | cut {part : List (Sample K d)} {cut : Fin d × ℕ} (hcut : cut ∈ bestCut argsort m part)
      (hne : ∀ s ∈ leftPart argsort part cut, ∀ t ∈ rightPart argsort part cut,
        s.features cut.1 ≠ t.features cut.1)
      (hleft : CutsBetweenValues (leftPart argsort part cut))
      (hright : CutsBetweenValues (rightPart argsort part cut)) : CutsBetweenValues part

end

/-- Samples with the same features are of the same class. -/
def Consistent (dataset : List (Sample K d)) : Prop :=
  ∀ s ∈ dataset, ∀ t ∈ dataset, s.features = t.features → s.class_index = t.class_index

variable {m c : ℕ} {dataset : List (Sample K d)} {s : Sample K d}

theorem Mixed.one_lt_length (h : Mixed dataset) : 1 < dataset.length := by
  obtain ⟨s, hs, t, ht, hne⟩ := h
  match dataset with
  | [] => exact absurd hs List.not_mem_nil
  | [a] =>
    rw [List.mem_singleton.mp hs, List.mem_singleton.mp ht] at hne
    exact absurd rfl hne
  | a :: b :: rest => exact Nat.succ_lt_succ (Nat.succ_pos _)

/-- Without features all samples have the same ones. -/
theorem Mixed.exists_feature (h : Mixed dataset) (hconsistent : Consistent dataset) :
    Nonempty (Fin d) := by
  by_contra hempty
  rw [not_nonempty_iff] at hempty
  obtain ⟨s, hs, t, ht, hne⟩ := h
  exact hne (hconsistent s hs t ht (funext fun i => hempty.elim i))

theorem Consistent.subset {part : List (Sample K d)} (h : Consistent dataset)
    (hsub : ∀ s ∈ part, s ∈ dataset) : Consistent part :=
  fun s hs t ht => h s (hsub s hs) t (hsub t ht)

/-! ## The counts say when to stop -/

theorem not_mixed_iff (hne : dataset ≠ []) :
    ¬ Mixed dataset ↔ ∃ c, ∀ s ∈ dataset, s.class_index = c := by
  constructor
  · intro hmixed
    obtain ⟨t, ht⟩ := List.exists_mem_of_ne_nil dataset hne
    refine ⟨t.class_index, fun s hs => ?_⟩
    by_contra hst
    exact hmixed ⟨s, hs, t, ht, hst⟩
  · rintro ⟨c, hc⟩ ⟨s, hs, t, ht, hst⟩
    exact hst ((hc s hs).trans (hc t ht).symm)

/-- The classes that occur. -/
theorem filter_classCounts : (classCounts m dataset).filter (· ≠ 0) =
    ((List.range m).filter fun c => ∃ s ∈ dataset, s.class_index = c).map
      fun c => (dataset.countP fun s => s.class_index = c : ℤ) := by
  have hcount : ∀ c, (dataset.countP fun s => s.class_index = c : ℤ) ≠ 0 ↔
      ∃ s ∈ dataset, s.class_index = c := by
    intro c
    rw [Nat.cast_ne_zero, ← Nat.pos_iff_ne_zero, List.countP_pos_iff]
    simp only [decide_eq_true_eq]
  rw [classCounts, List.filter_map]
  exact congrArg (List.map _) (List.filter_congr fun c _ => decide_eq_decide.mpr (hcount c))

theorem filter_classCounts_mixed (hm : ∀ s ∈ dataset, s.class_index < m) (hmixed : Mixed dataset)
    (count : ℤ) : (classCounts m dataset).filter (· ≠ 0) ≠ [count] := by
  rw [filter_classCounts]
  intro heq
  obtain ⟨c, hclasses, -⟩ := List.map_eq_singleton_iff.mp heq
  have hmem : ∀ s ∈ dataset, s.class_index = c := by
    intro s hs
    have hrange : s.class_index ∈
        (List.range m).filter fun c => ∃ s ∈ dataset, s.class_index = c :=
      List.mem_filter.mpr ⟨List.mem_range.mpr (hm s hs), decide_eq_true ⟨s, hs, rfl⟩⟩
    rw [hclasses] at hrange
    exact List.mem_singleton.mp hrange
  obtain ⟨s, hs, t, ht, hne⟩ := hmixed
  exact hne ((hmem s hs).trans (hmem t ht).symm)

theorem filter_classCounts_one (hne : dataset ≠ []) (hc : ∀ s ∈ dataset, s.class_index = c)
    (hcm : c < m) : (classCounts m dataset).filter (· ≠ 0) = [(dataset.length : ℤ)] := by
  have hclasses : ((List.range m).filter fun c => ∃ s ∈ dataset, s.class_index = c) = [c] := by
    have hfilter : ((List.range m).filter fun c => ∃ s ∈ dataset, s.class_index = c) =
        (List.range m).filter (· = c) := by
      refine List.filter_congr fun c' _ => decide_eq_decide.mpr ?_
      constructor
      · rintro ⟨s, hs, rfl⟩
        exact hc s hs
      · rintro rfl
        obtain ⟨s, hs⟩ := List.exists_mem_of_ne_nil dataset hne
        exact ⟨s, hs, hc s hs⟩
    rw [hfilter, List.filter_eq, List.count_eq_one_of_mem List.nodup_range (List.mem_range.mpr hcm)]
    rfl
  rw [filter_classCounts, hclasses, List.map_singleton]
  refine congrArg (fun n : ℕ => [(n : ℤ)]) (List.countP_eq_length.mpr fun s hs => ?_)
  exact decide_eq_true (hc s hs)

theorem idxOf_classCounts_one (hne : dataset ≠ []) (hc : ∀ s ∈ dataset, s.class_index = c)
    (hcm : c < m) : (classCounts m dataset).idxOf (dataset.length : ℤ) = c := by
  have hlen : c < (classCounts m dataset).length := by
    rw [length_classCounts]
    exact hcm
  have hget : ∀ c' (h : c' < (classCounts m dataset).length), (classCounts m dataset)[c'] =
      (dataset.countP fun s => s.class_index = c' : ℤ) := by
    intro c' h
    simp only [classCounts, List.getElem_map, List.getElem_range]
  rw [List.idxOf, List.findIdx_eq hlen]
  constructor
  · rw [hget, beq_iff_eq, Nat.cast_inj, List.countP_eq_length]
    exact fun s hs => decide_eq_true (hc s hs)
  · intro c' hlt
    rw [hget, beq_eq_false_iff_ne, Ne, Nat.cast_inj]
    have hzero : (dataset.countP fun s => s.class_index = c') = 0 :=
      List.countP_eq_zero.mpr fun s hs h => hlt.ne ((of_decide_eq_true h).symm.trans (hc s hs))
    rw [hzero]
    exact fun h => hne (List.length_eq_zero_iff.mp h.symm)

/-! ## The learner -/

section

variable {argsort : Fin d → List (Sample K d) → List (Sample K d)} {unique_classes : List String}

/-- The best cut of a dataset that is not of one class. -/
theorem exists_bestCut (hsort : ∀ i, (argsort i dataset).Perm dataset)
    (hm : ∀ s ∈ dataset, s.class_index < m) (hfeature : Nonempty (Fin d))
    (hmixed : Mixed dataset) : ∃ cut ∈ bestCut argsort m dataset,
      0 < gain argsort m dataset cut := by
  obtain ⟨i⟩ := hfeature
  have hfirst : (i, 1) ∈ cuts d dataset.length :=
    mem_cuts.mpr ⟨Nat.le_refl 1, hmixed.one_lt_length⟩
  obtain ⟨cut, hcut⟩ : ∃ cut, bestCut argsort m dataset = some cut := by
    refine Option.ne_none_iff_exists'.mp fun hnone => ?_
    exact List.ne_nil_of_mem hfirst (List.argmax_eq_none.mp hnone)
  exact ⟨cut, hcut, (gain_first_pos hsort hm hmixed i).trans_le (List.le_of_mem_argmax hfirst hcut)⟩

theorem length_parts (hsort : ∀ i, (argsort i dataset).Perm dataset) {cut : Fin d × ℕ}
    (hcut : cut ∈ bestCut argsort m dataset) :
    0 < (leftPart argsort dataset cut).length ∧ 0 < (rightPart argsort dataset cut).length ∧
      (leftPart argsort dataset cut).length + (rightPart argsort dataset cut).length =
        dataset.length := by
  obtain ⟨hpos, hlt⟩ := mem_cuts.mp (List.argmax_mem hcut)
  rw [leftPart, rightPart, List.length_take, List.length_drop, (hsort cut.1).length_eq]
  omega

theorem mem_parts (hsort : ∀ i, (argsort i dataset).Perm dataset) (cut : Fin d × ℕ) :
    s ∈ dataset ↔ s ∈ leftPart argsort dataset cut ∨ s ∈ rightPart argsort dataset cut := by
  rw [← (hsort cut.1).mem_iff, leftPart, rightPart, ← List.mem_append, List.take_append_drop]

variable [Field K] [LinearOrder K]

/-- Where a sample comes in a part of one class. -/
theorem reaches_one (hne : dataset ≠ []) (hc : ∀ s ∈ dataset, s.class_index = c) {c' : ℕ} :
    c = c' ↔ Reaches argsort m dataset s c' := by
  constructor
  · rintro rfl
    exact .leaf hne hc
  · intro h
    cases h with
    | leaf _ hc' =>
      obtain ⟨t, ht⟩ := List.exists_mem_of_ne_nil dataset hne
      exact (hc t ht).symm.trans (hc' t ht)
    | left hmixed => exact absurd hmixed ((not_mixed_iff hne).mpr ⟨c, hc⟩)
    | right hmixed => exact absurd hmixed ((not_mixed_iff hne).mpr ⟨c, hc⟩)

/-- Where a sample comes in a part that is cut. -/
theorem reaches_mixed (hmixed : Mixed dataset) {cut : Fin d × ℕ}
    (hcut : cut ∈ bestCut argsort m dataset) : Reaches argsort m dataset s c ↔
      if s.features cut.1 < cutValue argsort dataset cut
        then Reaches argsort m (leftPart argsort dataset cut) s c
        else Reaches argsort m (rightPart argsort dataset cut) s c := by
  constructor
  · intro h
    cases h with
    | leaf hne hc => exact absurd hmixed ((not_mixed_iff hne).mpr ⟨c, hc⟩)
    | left _ hcut' hlt h =>
      obtain rfl := Option.mem_unique hcut hcut'
      rw [if_pos hlt]
      exact h
    | right _ hcut' hnlt h =>
      obtain rfl := Option.mem_unique hcut hcut'
      rw [if_neg hnlt]
      exact h
  · intro h
    split at h
    · next hlt => exact .left hmixed hcut hlt h
    · next hnlt => exact .right hmixed hcut hnlt h

/-- **What the learner does with a part**: it returns a tree, and the tree sends a sample to where
it comes by its values. -/
theorem learning_spec (hsort : ∀ i dataset, (argsort i dataset).Perm dataset) (n : ℕ)
    (hn : dataset.length ≤ n) (hne : dataset ≠ []) (hm : ∀ s ∈ dataset, s.class_index < m)
    (hlabels : ∀ s ∈ dataset, s.class_index < unique_classes.length)
    (hfeature : Mixed dataset → Nonempty (Fin d)) :
    ∃ tree height, (∀ fuel, dataset.length ≤ fuel → ∀ depth,
        decision_tree_learning argsort unique_classes fuel dataset (classCounts m dataset) depth =
          .done (tree, depth + height)) ∧
      ∀ s c, (evaluate_sample s tree).2 = c ↔ Reaches argsort m dataset s c := by
  induction n generalizing dataset with
  | zero => exact absurd (List.length_eq_zero_iff.mp (Nat.le_zero.mp hn)) hne
  | succ n ih =>
    by_cases hmixed : Mixed dataset
    · have hd := hfeature hmixed
      obtain ⟨cut, hcut, hpos⟩ := exists_bestCut (hsort · dataset) hm hd hmixed
      have hsplit := find_split_eq (hsort · dataset) hm hcut hpos
      obtain ⟨hleft, hright, hlen⟩ := length_parts (hsort · dataset) hcut
      have hmem := fun s => mem_parts (s := s) (hsort · dataset) cut
      obtain ⟨left, hl, hrunl, hevall⟩ := ih (by omega) (List.ne_nil_of_length_pos hleft)
        (fun s hs => hm s ((hmem s).mpr (.inl hs)))
        (fun s hs => hlabels s ((hmem s).mpr (.inl hs))) fun _ => hd
      obtain ⟨right, hr, hrunr, hevalr⟩ := ih (by omega) (List.ne_nil_of_length_pos hright)
        (fun s hs => hm s ((hmem s).mpr (.inr hs)))
        (fun s hs => hlabels s ((hmem s).mpr (.inr hs))) fun _ => hd
      refine ⟨.node cut.1 (cutValue argsort dataset cut) left right, 1 + max hl hr,
        fun fuel hfuel depth => ?_, fun s c => ?_⟩
      · obtain ⟨fuel, rfl⟩ : ∃ k, fuel = k + 1 := ⟨fuel - 1, by omega⟩
        rw [decision_tree_learning]
        split
        · next count heq => exact absurd heq (filter_classCounts_mixed hm hmixed count)
        · rw [hsplit]
          dsimp only
          rw [hrunl fuel (by omega), hrunr fuel (by omega)]
          refine congrArg (fun h => Outcome.done (_, h)) ?_
          dsimp only
          omega
      · rw [reaches_mixed hmixed hcut, evaluate_sample]
        split
        · exact hevall s c
        · exact hevalr s c
    · obtain ⟨c, hc⟩ := (not_mixed_iff hne).mp hmixed
      obtain ⟨t, ht⟩ := List.exists_mem_of_ne_nil dataset hne
      have hcm : c < m := hc t ht ▸ hm t ht
      have hlabel : c < unique_classes.length := hc t ht ▸ hlabels t ht
      refine ⟨.leaf unique_classes[c] c (classCounts m dataset).sum, 1, fun fuel hfuel depth => ?_,
        fun s c' => reaches_one hne hc⟩
      obtain ⟨fuel, rfl⟩ : ∃ k, fuel = k + 1 :=
        ⟨fuel - 1, by have := List.length_pos_iff.mpr hne; omega⟩
      rw [decision_tree_learning, filter_classCounts_one hne hc hcm]
      dsimp only
      rw [idxOf_classCounts_one hne hc hcm, List.getElem?_eq_getElem hlabel]

/-! ## Samples that are not cut off -/

variable [IsStrictOrderedRing K]

/-- The value between the parts is between the values in them, and not a value in the left part
unless it is also one in the right part. -/
theorem cutValue_spec (hargsort : IsArgsort argsort) {cut : Fin d × ℕ}
    (hleft : 0 < (leftPart argsort dataset cut).length)
    (hright : 0 < (rightPart argsort dataset cut).length) :
    (∀ s ∈ leftPart argsort dataset cut, s.features cut.1 < cutValue argsort dataset cut ∨
      ∃ t ∈ rightPart argsort dataset cut, s.features cut.1 = t.features cut.1) ∧
      ∀ t ∈ rightPart argsort dataset cut, ¬ t.features cut.1 < cutValue argsort dataset cut := by
  have hsorted := hargsort.sorted cut.1 dataset
  rw [← List.take_append_drop cut.2 (argsort cut.1 dataset), ← leftPart, ← rightPart] at hsorted
  obtain ⟨ini, previous, hini⟩ : ∃ ini previous, leftPart argsort dataset cut = ini ++ [previous] :=
    ⟨_, _, (List.dropLast_concat_getLast (List.ne_nil_of_length_pos hleft)).symm⟩
  obtain ⟨entry, rest, hrest⟩ := List.exists_cons_of_ne_nil (List.ne_nil_of_length_pos hright)
  have hvalue : cutValue argsort dataset cut =
      (entry.features cut.1 + previous.features cut.1) / 2 := by
    rw [cutValue, hini, hrest, List.getLast?_concat]
    rfl
  rw [hini, hrest, List.pairwise_append, List.pairwise_append] at hsorted
  obtain ⟨⟨-, -, hlast⟩, hright, hcross⟩ := hsorted
  have hprevious : previous.features cut.1 ≤ entry.features cut.1 :=
    hcross previous (List.mem_append_right ini (List.mem_singleton.mpr rfl)) entry
      List.mem_cons_self
  rw [hvalue, hini, hrest]
  refine ⟨fun s hs => ?_, fun t ht => ?_⟩
  · have hle : s.features cut.1 ≤ previous.features cut.1 := by
      rcases List.mem_append.mp hs with hs | hs
      · exact hlast s hs previous (List.mem_singleton.mpr rfl)
      · rw [List.mem_singleton.mp hs]
    rcases eq_or_lt_of_le (hcross s hs entry List.mem_cons_self) with heq | hlt
    · exact .inr ⟨entry, List.mem_cons_self, heq⟩
    · refine .inl ((lt_div_iff₀ two_pos).mpr ?_)
      linarith
  · have hle : entry.features cut.1 ≤ t.features cut.1 := by
      rcases List.mem_cons.mp ht with rfl | ht
      · exact le_rfl
      · exact (List.pairwise_cons.mp hright).1 t ht
    refine not_lt.mpr ((div_le_iff₀ two_pos).mpr ?_)
    linarith

/-- A sample that is not cut off comes to a part of its class. -/
theorem reaches_of_not_cutOff (hargsort : IsArgsort argsort) (n : ℕ) (hn : dataset.length ≤ n)
    (hm : ∀ s ∈ dataset, s.class_index < m) (hconsistent : Consistent dataset) (hs : s ∈ dataset)
    (hcutOff : ¬ CutOff argsort m dataset s) : Reaches argsort m dataset s s.class_index := by
  have hsort := hargsort.perm
  induction n generalizing dataset with
  | zero => exact absurd (List.length_eq_zero_iff.mp (Nat.le_zero.mp hn)) (List.ne_nil_of_mem hs)
  | succ n ih =>
    by_cases hmixed : Mixed dataset
    · obtain ⟨cut, hcut, -⟩ := exists_bestCut (hsort · dataset) hm
        (hmixed.exists_feature hconsistent) hmixed
      obtain ⟨hleft, hright, hlen⟩ := length_parts (hsort · dataset) hcut
      obtain ⟨hlow, hhigh⟩ := cutValue_spec hargsort hleft hright
      have hmem := fun s => mem_parts (s := s) (hsort · dataset) cut
      rcases (hmem s).mp hs with hs | hs
      · have hlt := (hlow s hs).resolve_right fun ⟨t, ht, heq⟩ =>
          hcutOff (.here hmixed hcut hs ht heq)
        exact .left hmixed hcut hlt (ih (by omega) (fun s hs => hm s ((hmem s).mpr (.inl hs)))
          (hconsistent.subset fun s hs => (hmem s).mpr (.inl hs)) hs
          fun h => hcutOff (.left hmixed hcut hs h))
      · exact .right hmixed hcut (hhigh s hs) (ih (by omega)
          (fun s hs => hm s ((hmem s).mpr (.inr hs)))
          (hconsistent.subset fun s hs => (hmem s).mpr (.inr hs)) hs
          fun h => hcutOff (.right hmixed hcut hs h))
    · obtain ⟨c, hc⟩ := (not_mixed_iff (List.ne_nil_of_mem hs)).mp hmixed
      exact .leaf (List.ne_nil_of_mem hs) fun t ht => (hc t ht).trans (hc s hs).symm

omit [Field K] [LinearOrder K] [IsStrictOrderedRing K] in
/-- If no cut lies between equal values, no sample is cut off. -/
theorem CutsBetweenValues.not_cutOff (h : CutsBetweenValues argsort m dataset) (s : Sample K d) :
    ¬ CutOff argsort m dataset s := by
  induction h with
  | one hone =>
    intro hcutOff
    cases hcutOff with
    | here hmixed | left hmixed | right hmixed => exact hone hmixed
  | cut hcut hne _ _ ihl ihr =>
    intro hcutOff
    cases hcutOff with
    | here _ hcut' hs ht heq =>
      obtain rfl := Option.mem_unique hcut hcut'
      exact hne s hs _ ht heq
    | left _ hcut' _ hleft =>
      obtain rfl := Option.mem_unique hcut hcut'
      exact ihl hleft
    | right _ hcut' _ hright =>
      obtain rfl := Option.mem_unique hcut hcut'
      exact ihr hright

omit [Field K] [LinearOrder K] [IsStrictOrderedRing K] in
/-- A dataset where no two samples have the same value of any feature has no equal values to cut
between. -/
theorem cutsBetweenValues_of_distinct (hsort : ∀ i dataset, (argsort i dataset).Perm dataset)
    (n : ℕ) (hn : dataset.length ≤ n) (hm : ∀ s ∈ dataset, s.class_index < m)
    (hfeature : Mixed dataset → Nonempty (Fin d))
    (hdistinct : ∀ i, (dataset.map fun s => s.features i).Nodup) :
    CutsBetweenValues argsort m dataset := by
  induction n generalizing dataset with
  | zero =>
    refine .one fun hmixed => ?_
    have hlength := hmixed.one_lt_length
    omega
  | succ n ih =>
    by_cases hmixed : Mixed dataset
    · have hd := hfeature hmixed
      obtain ⟨cut, hcut, -⟩ := exists_bestCut (hsort · dataset) hm hd hmixed
      obtain ⟨hleft, hright, hlen⟩ := length_parts (hsort · dataset) hcut
      have hmem := fun s => mem_parts (s := s) (hsort · dataset) cut
      have hsplit : ∀ i, ((leftPart argsort dataset cut ++ rightPart argsort dataset cut).map
          fun s => s.features i).Nodup := by
        intro i
        rw [leftPart, rightPart, List.take_append_drop]
        exact ((hsort cut.1 dataset).map _).nodup_iff.mpr (hdistinct i)
      simp only [List.map_append, List.nodup_append] at hsplit
      refine .cut hcut (fun s hs t ht => ?_)
        (ih (by omega) (fun s hs => hm s ((hmem s).mpr (.inl hs))) (fun _ => hd)
          fun i => (hsplit i).1)
        (ih (by omega) (fun s hs => hm s ((hmem s).mpr (.inr hs))) (fun _ => hd)
          fun i => (hsplit i).2.1)
      exact (hsplit cut.1).2.2 _ (List.mem_map_of_mem hs) _ (List.mem_map_of_mem ht)
    · exact .one hmixed

omit [Field K] [IsStrictOrderedRing K] in
theorem evaluate_sample_fst (s : Sample K d) (tree : Tree K d) :
    (evaluate_sample s tree).1 = s.class_index := by
  induction tree with
  | leaf => rfl
  | node feature value left right ihl ihr =>
    rw [evaluate_sample]
    split
    · exact ihl
    · exact ihr

end

/-! ## Two samples -/

/-- A stable sort. -/
def stableArgsort (i : Fin d) (dataset : List (Sample ℚ d)) : List (Sample ℚ d) :=
  dataset.insertionSort fun s t => s.features i ≤ t.features i

theorem isArgsort_stableArgsort : IsArgsort (stableArgsort (d := d)) where
  perm i dataset := List.perm_insertionSort _ dataset
  sorted i dataset := by
    have htotal : Std.Total fun s t : Sample ℚ d => s.features i ≤ t.features i :=
      ⟨fun s t => le_total (s.features i) (t.features i)⟩
    have htrans : IsTrans (Sample ℚ d) fun s t => s.features i ≤ t.features i :=
      ⟨fun _ _ _ => le_trans⟩
    exact List.pairwise_insertionSort _ dataset

/-- Two samples of two classes. Only the second feature tells them apart. -/
def twoSamples : List (Sample ℚ 2) := [⟨![0, 0], 0⟩, ⟨![0, 1], 1⟩]

theorem stableArgsort_twoSamples (i : Fin 2) : stableArgsort i twoSamples = twoSamples := by
  refine List.Pairwise.insertionSort_eq (List.pairwise_pair.mpr ?_)
  fin_cases i
  · exact le_refl (0 : ℚ)
  · exact zero_le_one' ℚ

/-- No cut is better than another one. -/
theorem bestCut_twoSamples : bestCut stableArgsort 2 twoSamples = some (0, 1) := by
  have hgain : gain stableArgsort 2 twoSamples (1, 1) = gain stableArgsort 2 twoSamples (0, 1) := by
    simp only [gain, leftPart, rightPart, stableArgsort_twoSamples]
  have hcuts : cuts 2 twoSamples.length = [(0, 1)] ++ [(1, 1)] := rfl
  rw [bestCut, hcuts, List.argmax_concat, List.argmax_singleton]
  exact if_neg (not_lt.mpr hgain.le)

theorem consistent_twoSamples : Consistent twoSamples := by
  intro s hs t ht heq
  have hlast : s.features 1 = t.features 1 := congrFun heq 1
  rw [twoSamples, List.mem_cons, List.mem_singleton] at hs ht
  rcases hs with rfl | rfl <;> rcases ht with rfl | rfl
  · rfl
  · exact absurd hlast zero_ne_one
  · exact absurd hlast one_ne_zero
  · rfl

/-- The cut by the first feature sends both of them right. -/
theorem reaches_twoSamples : Reaches stableArgsort 2 twoSamples ⟨![0, 0], 0⟩ 1 := by
  have hmixed : Mixed twoSamples :=
    ⟨_, List.mem_cons_self, _, List.mem_cons_of_mem _ List.mem_cons_self, zero_ne_one⟩
  have hright : rightPart stableArgsort twoSamples (0, 1) = [⟨![0, 1], 1⟩] := by
    rw [rightPart, stableArgsort_twoSamples]
    rfl
  have hvalue : cutValue stableArgsort twoSamples (0, 1) = 0 := by
    rw [cutValue, leftPart, hright, stableArgsort_twoSamples]
    have hzero : ((0 : ℚ) + 0) / 2 = 0 := by norm_num
    exact hzero
  refine .right hmixed bestCut_twoSamples ?_ ?_
  · rw [hvalue]
    exact lt_irrefl 0
  · rw [hright]
    exact .leaf (List.cons_ne_nil _ _) (List.forall_mem_singleton.mpr rfl)

/-! ## The tree fits -/

/-- The learner returns a tree, and the tree fits the dataset exactly if every sample that is cut
off comes to a part of its class. -/
theorem fits_iff_reaches [Field K] [LinearOrder K] [IsStrictOrderedRing K]
    {argsort : Fin d → List (Sample K d) → List (Sample K d)} {unique_classes : List String}
    (hargsort : IsArgsort argsort) (hlabels : m ≤ unique_classes.length) (hne : dataset ≠ [])
    (hm : ∀ s ∈ dataset, s.class_index < m) (hconsistent : Consistent dataset) :
    ∃ tree height, (∀ fuel, dataset.length ≤ fuel →
        decision_tree_learning argsort unique_classes fuel dataset (classCounts m dataset) 0 =
          .done (tree, height)) ∧
      ((∀ s ∈ dataset, evaluate_sample s tree = (s.class_index, s.class_index)) ↔
        ∀ s ∈ dataset, CutOff argsort m dataset s →
          Reaches argsort m dataset s s.class_index) := by
  obtain ⟨tree, height, hrun, heval⟩ :=
    learning_spec hargsort.perm _ (Nat.le_refl _) hne hm
      (fun s hs => (hm s hs).trans_le hlabels) fun hmixed => hmixed.exists_feature hconsistent
  refine ⟨tree, height, fun fuel hfuel => ?_, fun h s hs _ => ?_, fun h s hs => ?_⟩
  · rw [hrun fuel hfuel 0, Nat.zero_add]
  · exact (heval s s.class_index).mp (congrArg Prod.snd (h s hs))
  · refine Prod.ext (evaluate_sample_fst s tree) ((heval s s.class_index).mpr ?_)
    by_cases hcutOff : CutOff argsort m dataset s
    · exact h s hs hcutOff
    · exact reaches_of_not_cutOff hargsort _ (Nat.le_refl _) hm hconsistent hs hcutOff

/-- **The learner returns a tree that fits**, if no best cut lies between equal values. -/
theorem decision_tree_learning_fits [Field K] [LinearOrder K] [IsStrictOrderedRing K]
    {argsort : Fin d → List (Sample K d) → List (Sample K d)} {unique_classes : List String}
    (hargsort : IsArgsort argsort) (hlabels : m ≤ unique_classes.length) (hne : dataset ≠ [])
    (hm : ∀ s ∈ dataset, s.class_index < m) (hconsistent : Consistent dataset)
    (hcuts : CutsBetweenValues argsort m dataset) :
    ∃ tree height, (∀ fuel, dataset.length ≤ fuel →
        decision_tree_learning argsort unique_classes fuel dataset (classCounts m dataset) 0 =
          .done (tree, height)) ∧
      ∀ s ∈ dataset, evaluate_sample s tree = (s.class_index, s.class_index) := by
  obtain ⟨tree, height, hrun, hfits⟩ := fits_iff_reaches hargsort hlabels hne hm hconsistent
  exact ⟨tree, height, hrun, hfits.mpr fun s _ hcutOff => absurd hcutOff (hcuts.not_cutOff s)⟩

/-- One feature, with the classes in turn. -/
def threeSamples : List (Sample ℚ 1) := [⟨![0], 0⟩, ⟨![1], 1⟩, ⟨![2], 0⟩]

theorem decision_tree_learning_fits_three :
    ∃ tree height, (∀ fuel, 3 ≤ fuel → decision_tree_learning stableArgsort ["0", "1"] fuel
        threeSamples (classCounts 2 threeSamples) 0 = .done (tree, height)) ∧
      ∀ s ∈ threeSamples, evaluate_sample s tree = (s.class_index, s.class_index) := by
  have hm : ∀ s ∈ threeSamples, s.class_index < 2 := by decide
  have hdistinct : ∀ i, (threeSamples.map fun s => s.features i).Nodup := by decide +kernel
  have hconsistent : Consistent threeSamples := by
    intro s hs t ht heq
    rw [List.inj_on_of_nodup_map (hdistinct 0) hs ht (congrFun heq 0)]
  exact decision_tree_learning_fits isArgsort_stableArgsort (Nat.le_refl 2)
    (List.cons_ne_nil _ _) hm hconsistent
    (cutsBetweenValues_of_distinct isArgsort_stableArgsort.perm _ (Nat.le_refl _) hm
      (fun _ => ⟨0⟩) hdistinct)

/-- A tree that gives the first sample the class of the second one. -/
theorem decision_tree_learning_misfits :
    IsArgsort (stableArgsort (d := 2)) ∧ Consistent twoSamples ∧ ∃ tree height,
      (∀ fuel, 2 ≤ fuel → decision_tree_learning stableArgsort ["0", "1"] fuel twoSamples
        (classCounts 2 twoSamples) 0 = .done (tree, height)) ∧
      evaluate_sample ⟨![0, 0], 0⟩ tree = (0, 1) := by
  have hm : ∀ s ∈ twoSamples, s.class_index < 2 := by decide
  have hfeature : Nonempty (Fin 2) := ⟨0⟩
  have hlabels : ∀ s ∈ twoSamples, s.class_index < ["0", "1"].length := hm
  obtain ⟨tree, height, hrun, heval⟩ := learning_spec isArgsort_stableArgsort.perm _
    (Nat.le_refl _) (List.cons_ne_nil _ _) hm hlabels fun _ => hfeature
  refine ⟨isArgsort_stableArgsort, consistent_twoSamples, tree, 0 + height,
    fun fuel hfuel => hrun fuel hfuel 0, ?_⟩
  exact Prod.ext (evaluate_sample_fst _ tree) ((heval _ 1).mpr reaches_twoSamples)

/-! ## The learner returns -/

/-- A split of the dataset into two smaller ones, with the class counts of each. -/
structure ProperSplit (m : ℕ) (dataset : List (Sample K d)) (split : Split K d) : Prop where
  perm : (split.left_dataset ++ split.right_dataset).Perm dataset
  left_ne : split.left_dataset ≠ []
  right_ne : split.right_dataset ≠ []
  left_lt : split.left_dataset.length < dataset.length
  right_lt : split.right_dataset.length < dataset.length
  left_counts : split.left_class_counts = classCounts m split.left_dataset
  right_counts : split.right_class_counts = classCounts m split.right_dataset

theorem find_split_proper [Field K] {argsort : Fin d → List (Sample K d) → List (Sample K d)}
    (hsort : ∀ i, (argsort i dataset).Perm dataset) (hm : ∀ s ∈ dataset, s.class_index < m)
    (hfeature : Nonempty (Fin d)) (hmixed : Mixed dataset) :
    ∃ split, find_split argsort dataset (classCounts m dataset) = some split ∧
      ProperSplit m dataset split := by
  obtain ⟨cut, hcut, hpos⟩ := exists_bestCut hsort hm hfeature hmixed
  obtain ⟨hleft, hright, hlen⟩ := length_parts hsort hcut
  refine ⟨_, find_split_eq hsort hm hcut hpos, ?_, List.ne_nil_of_length_pos hleft,
    List.ne_nil_of_length_pos hright, ?_, ?_, rfl, rfl⟩
  · rw [leftPart, rightPart, List.take_append_drop]
    exact hsort cut.1
  · dsimp only
    omega
  · dsimp only
    omega

/-- **The learner splits and returns**, with or without samples that no feature tells apart. -/
theorem decision_tree_learning_terminates [Field K] [LinearOrder K]
    {argsort : Fin d → List (Sample K d) → List (Sample K d)} {unique_classes : List String}
    (hargsort : IsArgsort argsort) (hd : 0 < d) (hmixed : Mixed dataset)
    (hm : ∀ s ∈ dataset, s.class_index < m)
    (hlabels : ∀ s ∈ dataset, s.class_index < unique_classes.length) :
    (∃ split, find_split argsort dataset (classCounts m dataset) = some split ∧
        ProperSplit m dataset split) ∧
      ∃ tree height, ∀ fuel, dataset.length ≤ fuel → ∀ depth,
        decision_tree_learning argsort unique_classes fuel dataset (classCounts m dataset) depth =
          .done (tree, depth + height) := by
  have hfeature : Nonempty (Fin d) := ⟨⟨0, hd⟩⟩
  have hne : dataset ≠ [] := List.ne_nil_of_mem hmixed.choose_spec.1
  refine ⟨find_split_proper (hargsort.perm · dataset) hm hfeature hmixed, ?_⟩
  obtain ⟨tree, height, hrun, -⟩ :=
    learning_spec hargsort.perm _ (Nat.le_refl _) hne hm hlabels fun _ => hfeature
  exact ⟨tree, height, hrun⟩

theorem decision_tree_learning_terminates_two :
    (∃ split, find_split stableArgsort twoSamples (classCounts 2 twoSamples) = some split ∧
        ProperSplit 2 twoSamples split) ∧
      ∃ tree height, ∀ fuel, twoSamples.length ≤ fuel → ∀ depth,
        decision_tree_learning stableArgsort ["0", "1"] fuel twoSamples (classCounts 2 twoSamples)
          depth = .done (tree, depth + height) :=
  decision_tree_learning_terminates isArgsort_stableArgsort (by decide)
    ⟨_, List.mem_cons_self, _, List.mem_cons_of_mem _ List.mem_cons_self, zero_ne_one⟩
    (by decide) (by decide)

end DocMachine.DecisionTree
