import Mathlib.Data.List.Dedup
import DocMachine.Lib.Except
import DocMachine.DecisionTree.Learning

/-!
# Class counts of the training folds

Model of `read_dataset` and `get_kminus1_and_1_split` (`intro-to-ml-coursework/file_utils.py` 5-26,
45-69) and of the class counts that `no_pruning` and `pruning` (`decision_tree_learning.py` 140-185,
188-258) pass to the learner with each fold.

* The classes are numbered once, by their first occurrence in the file. A class is read as a number,
  and `str` is how it is printed; both are parameters.
* `shuffle_dataset` is any permutation. The folds are those of `np.split`, which raises unless the
  division is an equal one; the exceptions of a run are a `FoldException`.
* `np.unique` counts only the classes that occur in the fold, and its counts stand at the places of
  the classes in their own order.

Results:
* `class_index_lt` and `mem_of_mem_train`: the class index of every sample, and that a training fold
  is a part of the dataset.
* `unique_eq_range`: if no class is missing, the classes are numbered in the fold as in the file.
* `call_spec`: what the calls of both runs have in common.
* `rightCounts_iff`: the counts of a fold are at the right places iff every class occurs in it.
* `learning_call`: with right counts the learner of `Learning.lean` returns.
-/

namespace DocMachine.DecisionTree

open DocMachine.Lib

variable {K : Type} {d : ℕ}

/-! ## file_utils.py -/

/-- A line of the file. -/
structure Line (K : Type) (d : ℕ) where
  features : Fin d → K
  class_value : K

/-- The classes of the file in the order of their first occurrence. -/
def unique_classes (str : K → String) (classes : List K) : List String :=
  classes.foldl (fun unique_classes c =>
    if str c ∈ unique_classes then unique_classes else unique_classes ++ [str c]) []

/-- `read_dataset`: the samples and the names of the classes. -/
def read_dataset (str : K → String) (lines : List (Line K d)) :
    List (Sample K d) × List String :=
  let unique_classes := unique_classes str (lines.map Line.class_value)
  (lines.map fun line => ⟨line.features, unique_classes.idxOf (str line.class_value)⟩,
    unique_classes)

/-- What a run may raise before the learner is called. -/
inductive FoldException where
  | zeroDivision
  | notAnEqualDivision
  | nothingToConcatenate
  | indexError
deriving DecidableEq

/-- `np.split`. -/
def split {α : Type} (dataset : List α) (k : ℕ) : Except FoldException (List (List α)) :=
  let size := dataset.length / k
  if k = 0 then .error .zeroDivision
  else if dataset.length % k ≠ 0 then .error .notAnEqualDivision
  else .ok ((List.range k).map fun i => (dataset.drop (i * size)).take size)

/-- `np.concatenate`. -/
def concatenate {α : Type} (parts : List (List α)) : Except FoldException (List α) :=
  if parts = [] then .error .nothingToConcatenate else .ok parts.flatten

/-- What the generator yields at `i`. -/
def get_kminus1_and_1_split {α : Type} (dataset : List α) (k i : ℕ) :
    Except FoldException (List α × List α) := do
  let splits ← split dataset k
  let k_minus_1_split :=
    if i = 0 then splits.drop (i + 1)
    else if i = k - 1 then splits.take i
    else splits.take i ++ splits.drop (i + 1)
  let k_minus_1_split ← concatenate k_minus_1_split
  match splits[i]? with
  | none => .error .indexError
  | some one_split => return (k_minus_1_split, one_split)

/-! ## decision_tree_learning.py -/

/-- The sorted classes that occur, as `np.unique` returns them. -/
def unique (labels : List ℕ) : List ℕ := labels.dedup.insertionSort (· ≤ ·)

/-- `np.unique(labels, return_counts=True)[1]`. -/
def unique_counts (labels : List ℕ) : List ℤ :=
  (unique labels).map fun c => (labels.count c : ℤ)

/-- What is passed to the learner. -/
structure Call (K : Type) (d : ℕ) where
  dataset : List (Sample K d)
  class_counts : List ℤ

/-- The call for a training fold. -/
def call (train : List (Sample K d)) : Call K d :=
  ⟨train, unique_counts (train.map Sample.class_index)⟩

/-- The calls of `no_pruning`, if the learner returns from each of them. -/
def no_pruning_calls (k_folds : ℕ) (dataset : List (Sample K d)) :
    Except FoldException (List (Call K d)) :=
  (List.range k_folds).mapM fun i => do
    let (train, _) ← get_kminus1_and_1_split dataset k_folds i
    return call train

/-- The calls of `pruning`: what is not kept for the test is divided again. -/
def pruning_calls (k_folds : ℕ) (dataset : List (Sample K d)) :
    Except FoldException (List (Call K d)) := do
  let calls ← (List.range k_folds).mapM fun i => do
    let (temp_train, _) ← get_kminus1_and_1_split dataset k_folds i
    (List.range (k_folds - 1)).mapM fun j => do
      let (train, _) ← get_kminus1_and_1_split temp_train (k_folds - 1) j
      return call train
  return calls.flatten

/-- Entry `c` is the number of samples of class `c`, for each class of the file. -/
def RightCounts (num_classes : ℕ) (call : Call K d) : Prop :=
  ∀ c < num_classes,
    call.class_counts[c]? = some (call.dataset.countP fun s => s.class_index = c : ℤ)

/-! ## Classes and samples -/

variable {str : K → String} {lines : List (Line K d)} {dataset : List (Sample K d)}

theorem mem_unique_classes {classes : List K} {c : K} (hc : c ∈ classes) :
    str c ∈ unique_classes str classes := by
  have hloop : ∀ (classes : List K) (seen : List String),
      (∀ label ∈ seen, label ∈ classes.foldl (fun unique_classes c =>
        if str c ∈ unique_classes then unique_classes else unique_classes ++ [str c]) seen) ∧
      ∀ c ∈ classes, str c ∈ classes.foldl (fun unique_classes c =>
        if str c ∈ unique_classes then unique_classes else unique_classes ++ [str c]) seen := by
    intro classes
    induction classes with
    | nil => exact fun seen => ⟨fun _ h => h, nofun⟩
    | cons c classes ih =>
      intro seen
      obtain ⟨hseen, hclasses⟩ := ih (if str c ∈ seen then seen else seen ++ [str c])
      have hkept : ∀ label, label ∈ seen ∨ label = str c →
          label ∈ if str c ∈ seen then seen else seen ++ [str c] := by
        intro label hlabel
        split
        · next h => exact hlabel.elim id fun heq => heq ▸ h
        · exact List.mem_append.mpr (hlabel.imp_right List.mem_singleton.mpr)
      exact ⟨fun label h => hseen label (hkept label (.inl h)),
        List.forall_mem_cons.mpr ⟨hseen _ (hkept _ (.inr rfl)), hclasses⟩⟩
  exact (hloop classes []).2 c hc

/-- The class index of every sample that was read. -/
theorem class_index_lt {s : Sample K d} (hs : s ∈ (read_dataset str lines).1) :
    s.class_index < (read_dataset str lines).2.length := by
  obtain ⟨line, hline, rfl⟩ := List.mem_map.mp hs
  exact List.idxOf_lt_length_of_mem (mem_unique_classes (List.mem_map_of_mem hline))

theorem concatenate_eq_ok {α : Type} {parts : List (List α)} {l : List α}
    (h : concatenate parts = .ok l) : l = parts.flatten := by
  unfold concatenate at h
  split at h
  · cases h
  · cases h
    rfl

/-- A training fold is a part of the dataset. -/
theorem mem_of_mem_train {α : Type} {dataset train test : List α} {k i : ℕ}
    (h : get_kminus1_and_1_split dataset k i = .ok (train, test)) {s : α} (hs : s ∈ train) :
    s ∈ dataset := by
  obtain ⟨splits, hsplits, h⟩ := Except.bind_eq_ok.mp h
  obtain ⟨parts, hparts, h⟩ := Except.bind_eq_ok.mp h
  have hpart : ∀ part ∈ splits, ∀ s ∈ part, s ∈ dataset := by
    unfold split at hsplits
    split_ifs at hsplits
    cases hsplits
    intro part hpart s hs
    obtain ⟨i, -, rfl⟩ := List.mem_map.mp hpart
    exact List.mem_of_mem_drop (List.mem_of_mem_take hs)
  have htrain : train = parts := by
    split at h
    · cases h
    · cases h
      rfl
  rw [htrain, concatenate_eq_ok hparts, List.mem_flatten] at hs
  obtain ⟨part, hmem, hs⟩ := hs
  refine hpart part ?_ s hs
  split_ifs at hmem
  · exact List.mem_of_mem_drop hmem
  · exact List.mem_of_mem_take hmem
  · exact (List.mem_append.mp hmem).elim List.mem_of_mem_take List.mem_of_mem_drop

/-- A call is made with a part of the dataset and what `np.unique` counts in it. -/
theorem call_of_mem {k_folds : ℕ} {calls : List (Call K d)} {c : Call K d}
    (h : no_pruning_calls k_folds dataset = .ok calls ∨
      pruning_calls k_folds dataset = .ok calls) (hc : c ∈ calls) :
    c = call c.dataset ∧ ∀ s ∈ c.dataset, s ∈ dataset := by
  obtain h | h := h
  · obtain ⟨i, -, hi⟩ := (Except.mem_of_mapM_eq_ok h c).mp hc
    obtain ⟨⟨train, test⟩, hfold, hi⟩ := Except.bind_eq_ok.mp hi
    cases hi
    exact ⟨rfl, fun s hs => mem_of_mem_train hfold hs⟩
  · obtain ⟨groups, hgroups, h⟩ := Except.bind_eq_ok.mp h
    cases h
    obtain ⟨group, hgroup, hc⟩ := List.mem_flatten.mp hc
    obtain ⟨i, -, hi⟩ := (Except.mem_of_mapM_eq_ok hgroups group).mp hgroup
    obtain ⟨⟨temp_train, test⟩, htemp, hi⟩ := Except.bind_eq_ok.mp hi
    obtain ⟨j, -, hj⟩ := (Except.mem_of_mapM_eq_ok hi c).mp hc
    obtain ⟨⟨train, validation⟩, hfold, hj⟩ := Except.bind_eq_ok.mp hj
    cases hj
    exact ⟨rfl, fun s hs => mem_of_mem_train htemp (mem_of_mem_train hfold hs)⟩

/-! ## Counts -/

theorem nodup_unique (labels : List ℕ) : (unique labels).Nodup :=
  (List.perm_insertionSort _ _).nodup_iff.mpr (List.nodup_dedup labels)

theorem mem_unique {labels : List ℕ} {c : ℕ} : c ∈ unique labels ↔ c ∈ labels := by
  rw [unique, (List.perm_insertionSort _ _).mem_iff, List.mem_dedup]

/-- If no class is missing, the classes are numbered as in the file. -/
theorem unique_eq_range {m : ℕ} {labels : List ℕ} (hlt : ∀ c ∈ labels, c < m)
    (hall : ∀ c < m, c ∈ labels) : unique labels = List.range m := by
  have hperm : (unique labels).Perm (List.range m) := by
    rw [List.perm_ext_iff_of_nodup (nodup_unique labels) List.nodup_range]
    intro c
    rw [mem_unique, List.mem_range]
    exact ⟨hlt c, hall c⟩
  exact hperm.eq_of_pairwise' (List.pairwise_insertionSort _ _) List.pairwise_le_range

/-- If one is missing there are not enough counts. -/
theorem mem_of_le_length {m : ℕ} {labels : List ℕ} (hlt : ∀ c ∈ labels, c < m)
    (hlength : m ≤ (unique labels).length) {c : ℕ} (hc : c < m) : c ∈ labels := by
  have hsubset : unique labels ⊆ List.range m := fun c hc =>
    List.mem_range.mpr (hlt c (mem_unique.mp hc))
  have hperm : (unique labels).Perm (List.range m) :=
    ((nodup_unique labels).subperm hsubset).perm_of_length_le (by rwa [List.length_range])
  exact mem_unique.mp (hperm.mem_iff.mpr (List.mem_range.mpr hc))

theorem call_eq_classCounts {m : ℕ} {train : List (Sample K d)}
    (hlt : ∀ s ∈ train, s.class_index < m) (hall : ∀ c < m, ∃ s ∈ train, s.class_index = c) :
    (call train).class_counts = classCounts m train := by
  have hunique : unique (train.map Sample.class_index) = List.range m :=
    unique_eq_range (by simpa using hlt) (by simpa using hall)
  rw [call, unique_counts, hunique, classCounts]
  refine List.map_congr_left fun c _ => ?_
  rw [List.count, List.countP_map]
  rfl

/-- What the calls of both runs have in common. -/
theorem call_spec {k_folds : ℕ} {calls : List (Call K d)} {c : Call K d}
    (hshuffle : dataset.Perm (read_dataset str lines).1)
    (hcalls : no_pruning_calls k_folds dataset = .ok calls ∨
      pruning_calls k_folds dataset = .ok calls) (hc : c ∈ calls) :
    c = call c.dataset ∧
      ∀ s ∈ c.dataset, s.class_index < (read_dataset str lines).2.length := by
  obtain ⟨heq, hmem⟩ := call_of_mem hcalls hc
  exact ⟨heq, fun s hs => class_index_lt (hshuffle.mem_iff.mp (hmem s hs))⟩

/-- **The counts of a fold are at the right places exactly if every class occurs in it.** -/
theorem rightCounts_iff {k_folds : ℕ} {calls : List (Call K d)} {c : Call K d}
    (hshuffle : dataset.Perm (read_dataset str lines).1)
    (hcalls : no_pruning_calls k_folds dataset = .ok calls ∨
      pruning_calls k_folds dataset = .ok calls) (hc : c ∈ calls) :
    RightCounts (read_dataset str lines).2.length c ↔
      ∀ k < (read_dataset str lines).2.length, ∃ s ∈ c.dataset, s.class_index = k := by
  obtain ⟨heq, hlt⟩ := call_spec hshuffle hcalls hc
  constructor
  · intro h k hk
    have hlast := h ((read_dataset str lines).2.length - 1) (by omega)
    obtain ⟨hlength, -⟩ := List.getElem?_eq_some_iff.mp hlast
    rw [heq, call, unique_counts, List.length_map] at hlength
    have hclass : ∀ k ∈ c.dataset.map Sample.class_index,
        k < (read_dataset str lines).2.length := by simpa using hlt
    simpa using mem_of_le_length hclass (by omega) hk
  · intro h k hk
    rw [heq, call_eq_classCounts hlt h, classCounts, List.getElem?_map, List.getElem?_range hk]
    rfl

/-- With right counts the learner returns. -/
theorem learning_call [Field K] [LinearOrder K]
    {argsort : Fin d → List (Sample K d) → List (Sample K d)}
    (hsort : ∀ i dataset, (argsort i dataset).Perm dataset) (hd : 0 < d) {k_folds : ℕ}
    {calls : List (Call K d)} {c : Call K d}
    (hshuffle : dataset.Perm (read_dataset str lines).1)
    (hcalls : no_pruning_calls k_folds dataset = .ok calls ∨
      pruning_calls k_folds dataset = .ok calls) (hc : c ∈ calls) (hne : c.dataset ≠ [])
    (hall : ∀ k < (read_dataset str lines).2.length, ∃ s ∈ c.dataset, s.class_index = k) :
    ∃ tree height, ∀ fuel, c.dataset.length ≤ fuel → ∀ depth,
      decision_tree_learning argsort (read_dataset str lines).2 fuel c.dataset c.class_counts
        depth = .done (tree, depth + height) := by
  obtain ⟨heq, hlt⟩ := call_spec hshuffle hcalls hc
  obtain ⟨tree, height, hrun, -⟩ :=
    learning_spec hsort _ (Nat.le_refl _) hne hlt hlt fun _ => ⟨⟨0, hd⟩⟩
  refine ⟨tree, height, ?_⟩
  rw [heq, call_eq_classCounts hlt hall]
  exact hrun

/-- With two folds and one sample of each class, no fold has both classes: the sample of class 1 is
counted for class 0. -/
def twoLines : List (Line ℕ 1) := [⟨![5], 1⟩, ⟨![6], 2⟩]

/-- Two class labels. -/
def label (c : ℕ) : String := if c = 1 then "1.0" else "2.0"

theorem not_rightCounts_two : ∃ calls,
    no_pruning_calls 2 (read_dataset label twoLines).1 = .ok calls ∧
      ∃ c ∈ calls, ¬ RightCounts (read_dataset label twoLines).2.length c := by
  refine ⟨_, rfl, _, List.mem_cons_self, fun h => ?_⟩
  have hzero := h 0 (by decide)
  exact absurd hzero (by decide)

/-- Two samples of each class, in turn. -/
def fourLines : List (Line ℕ 1) := [⟨![5], 1⟩, ⟨![6], 2⟩, ⟨![7], 1⟩, ⟨![8], 2⟩]

theorem rightCounts_four : ∃ calls,
    no_pruning_calls 2 (read_dataset label fourLines).1 = .ok calls ∧
      ∃ c ∈ calls, RightCounts (read_dataset label fourLines).2.length c := by
  have hcalls : no_pruning_calls 2 (read_dataset label fourLines).1 = .ok _ := rfl
  refine ⟨_, hcalls, _, List.mem_cons_self, ?_⟩
  exact (rightCounts_iff (List.Perm.refl _) (.inl hcalls) List.mem_cons_self).mpr (by decide)

end DocMachine.DecisionTree
