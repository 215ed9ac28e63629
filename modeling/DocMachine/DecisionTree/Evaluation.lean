import Mathlib.Algebra.BigOperators.Fin
import Mathlib.Algebra.BigOperators.Group.List.Lemmas
import Mathlib.Algebra.Order.BigOperators.Group.Finset
import DocMachine.DecisionTree.Learning

/-!
# Evaluating a decision tree

Model of `intro-to-ml-coursework/evaluation_utils.py` (`evaluate` 48-68, `get_confusion_matrix`
71-92, `get_overall_accuracy` 95-104, `_get_tp_tn_fp_fn` 107-123, `get_accuracy` 160-172,
`get_precision` 175-187, `get_recall` 190-202).

* The entry of a confusion matrix at `i` and `j` counts the samples of class `i` that are taken for
  class `j`. A class index outside the matrix has no result (`none`).
* A quotient is a rational number, and `none` where the divisor is zero.
* `_get_tp_tn_fp_fn` goes through all entries; its body raises one of the four counters, or none.

Results:
* `get_confusion_matrix_apply`: an entry counts the samples with its two labels.
* `get_overall_accuracy_eq`: the accuracy is the same with and without the matrix.
* `counter_eq`: a counter that the body of the two loops raises by `h i j` ends up at their sum.
* `get_precision_eq` and `get_recall_eq`: a column and a row of the matrix, which the missing
  entries do not affect.
* `partitioned_iff`: the four counts of a class add up to the whole matrix iff no sample of another
  class is taken for a third one.
-/

namespace DocMachine.DecisionTree

open Finset

/-! ## The functions -/

/-- The number of samples of one class that are taken for another. -/
abbrev ConfusionMatrix (num_classes : ℕ) := Fin num_classes → Fin num_classes → ℕ

/-- A quotient, unless the divisor is zero. -/
def ratio (a b : ℕ) : Option ℚ := if b = 0 then none else some (a / b)

section

variable {K : Type} {d : ℕ} [LT K] [DecidableLT K]

/-- The loop of `evaluate`: its counters of successes and of samples. -/
def evaluate (test_dataset : List (Sample K d)) (tree : Tree K d) : Option ℚ :=
  let counters := test_dataset.foldl (fun (counters : ℕ × ℕ) entry =>
    let labels := evaluate_sample entry tree
    (if labels.1 = labels.2 then counters.1 + 1 else counters.1, counters.2 + 1)) (0, 0)
  ratio counters.1 counters.2

/-- `confusion_matrix[i, j] + 1`; `none` is an index out of range. -/
def increment {num_classes : ℕ} (confusion_matrix : ConfusionMatrix num_classes) (i j : ℕ) :
    Option (ConfusionMatrix num_classes) :=
  if h : i < num_classes ∧ j < num_classes then
    some (Function.update confusion_matrix ⟨i, h.1⟩
      (Function.update (confusion_matrix ⟨i, h.1⟩) ⟨j, h.2⟩
        (confusion_matrix ⟨i, h.1⟩ ⟨j, h.2⟩ + 1)))
  else none

/-- `get_confusion_matrix`. -/
def get_confusion_matrix (test_dataset : List (Sample K d)) (tree : Tree K d) (num_classes : ℕ) :
    Option (ConfusionMatrix num_classes) :=
  test_dataset.foldlM (fun confusion_matrix entry =>
    let labels := evaluate_sample entry tree
    increment confusion_matrix labels.1 labels.2) fun _ _ => 0

end

variable {n : ℕ}

/-- `get_overall_accuracy`. -/
def get_overall_accuracy (confusion_matrix : ConfusionMatrix n) : Option ℚ :=
  ratio (∑ i, confusion_matrix i i) (∑ i, ∑ j, confusion_matrix i j)

/-- `tp`, `tn`, `fp` and `fn`. -/
structure Counts where
  tp : ℕ
  tn : ℕ
  fp : ℕ
  fn : ℕ
deriving DecidableEq

/-- The body of the two loops. -/
def count_entry (confusion_matrix : ConfusionMatrix n) (index_for_class i : Fin n)
    (counts : Counts) (j : Fin n) : Counts :=
  if i = index_for_class ∧ j = index_for_class then
    { counts with tp := counts.tp + confusion_matrix i j }
  else if i = index_for_class then { counts with fn := counts.fn + confusion_matrix i j }
  else if j = index_for_class then { counts with fp := counts.fp + confusion_matrix i j }
  else if i = j then { counts with tn := counts.tn + confusion_matrix i j }
  else counts

/-- `_get_tp_tn_fp_fn`. -/
def get_tp_tn_fp_fn (confusion_matrix : ConfusionMatrix n) (index_for_class : Fin n) : Counts :=
  (List.finRange n).foldl (fun counts i =>
    (List.finRange n).foldl (count_entry confusion_matrix index_for_class i) counts) ⟨0, 0, 0, 0⟩

/-- `get_accuracy` of a class. -/
def get_accuracy (confusion_matrix : ConfusionMatrix n) (class_index : Fin n) : Option ℚ :=
  let counts := get_tp_tn_fp_fn confusion_matrix class_index
  ratio (counts.tp + counts.tn) (counts.tp + counts.tn + counts.fp + counts.fn)

/-- `get_precision`. -/
def get_precision (confusion_matrix : ConfusionMatrix n) (class_index : Fin n) : Option ℚ :=
  let counts := get_tp_tn_fp_fn confusion_matrix class_index
  ratio counts.tp (counts.tp + counts.fp)

/-- `get_recall`. -/
def get_recall (confusion_matrix : ConfusionMatrix n) (class_index : Fin n) : Option ℚ :=
  let counts := get_tp_tn_fp_fn confusion_matrix class_index
  ratio counts.tp (counts.tp + counts.fn)

/-! ## The confusion matrix of a tree -/

section

variable {K : Type} {d : ℕ} [LT K] [DecidableLT K] {tree : Tree K d}

theorem increment_eq_some {confusion_matrix confusion_matrix' : ConfusionMatrix n} {i j : ℕ}
    (h : increment confusion_matrix i j = some confusion_matrix') :
    (i < n ∧ j < n) ∧ ∀ i' j' : Fin n, confusion_matrix' i' j' =
      confusion_matrix i' j' + if (i, j) = ((i' : ℕ), (j' : ℕ)) then 1 else 0 := by
  unfold increment at h
  split at h
  · next hlt =>
    obtain rfl := Option.some.inj h
    refine ⟨hlt, fun i' j' => ?_⟩
    rw [Function.update_apply]
    by_cases hi : i' = ⟨i, hlt.1⟩
    · subst hi
      by_cases hj : j' = ⟨j, hlt.2⟩
      · simp [hj]
      · have hne : j ≠ j' := fun heq => hj (Fin.ext heq.symm)
        simp [Function.update_of_ne hj, hne]
    · have hne : i ≠ i' := fun heq => hi (Fin.ext heq.symm)
      simp [hi, hne]
  · cases h

/-- The loop of `get_confusion_matrix`, from any matrix on. -/
theorem loop_spec {test_dataset : List (Sample K d)} {start confusion_matrix : ConfusionMatrix n}
    (h : test_dataset.foldlM (fun confusion_matrix entry => increment confusion_matrix
      (evaluate_sample entry tree).1 (evaluate_sample entry tree).2) start =
        some confusion_matrix) :
    (∀ s ∈ test_dataset, (evaluate_sample s tree).1 < n ∧ (evaluate_sample s tree).2 < n) ∧
      ∀ i j : Fin n, confusion_matrix i j = start i j +
        test_dataset.countP fun s => evaluate_sample s tree = ((i : ℕ), (j : ℕ)) := by
  induction test_dataset generalizing start with
  | nil =>
    obtain rfl := Option.some.inj h
    exact ⟨nofun, fun _ _ => rfl⟩
  | cons s rest ih =>
    obtain ⟨next, hnext, h⟩ := Option.bind_eq_some_iff.mp h
    obtain ⟨hlt, hentry⟩ := increment_eq_some hnext
    obtain ⟨hrest, hcount⟩ := ih h
    refine ⟨List.forall_mem_cons.mpr ⟨hlt, hrest⟩, fun i j => ?_⟩
    rw [hcount, hentry, List.countP_cons]
    simp only [Prod.mk.eta, decide_eq_true_eq]
    omega

variable {test_dataset : List (Sample K d)} {confusion_matrix : ConfusionMatrix n}

/-- An entry counts the samples with these two labels. -/
theorem get_confusion_matrix_apply
    (h : get_confusion_matrix test_dataset tree n = some confusion_matrix) (i j : Fin n) :
    confusion_matrix i j =
      test_dataset.countP fun s => evaluate_sample s tree = ((i : ℕ), (j : ℕ)) := by
  rw [(loop_spec h).2 i j, Nat.zero_add]

theorem sum_countP {ι α : Type} [Fintype ι] {l : List α} {p : ι → α → Bool} {q : α → Bool}
    (h : ∀ a ∈ l, (∑ i, if p i a then 1 else 0) = if q a then 1 else 0) :
    ∑ i, l.countP (p i) = l.countP q := by
  induction l with
  | nil => exact Finset.sum_const_zero
  | cons a l ih =>
    obtain ⟨ha, hl⟩ := List.forall_mem_cons.mp h
    simp only [List.countP_cons, Finset.sum_add_distrib, ih hl, ha]

theorem evaluate_eq : evaluate test_dataset tree =
    ratio (test_dataset.countP fun s => (evaluate_sample s tree).1 = (evaluate_sample s tree).2)
      test_dataset.length := by
  have hloop : ∀ (test_dataset : List (Sample K d)) (counters : ℕ × ℕ),
      test_dataset.foldl (fun (counters : ℕ × ℕ) entry =>
        (if (evaluate_sample entry tree).1 = (evaluate_sample entry tree).2 then counters.1 + 1
          else counters.1, counters.2 + 1)) counters =
        (counters.1 + test_dataset.countP fun s =>
          (evaluate_sample s tree).1 = (evaluate_sample s tree).2,
            counters.2 + test_dataset.length) := by
    intro test_dataset
    induction test_dataset with
    | nil => exact fun _ => rfl
    | cons s rest ih =>
      intro counters
      rw [List.foldl_cons, ih, List.countP_cons, List.length_cons]
      refine Prod.ext ?_ ?_
      · simp only [decide_eq_true_eq]
        split <;> omega
      · exact Nat.add_right_comm _ _ _
  unfold evaluate
  rw [hloop, Nat.zero_add, Nat.zero_add]

/-- The accuracy is the same, with and without the matrix. -/
theorem get_overall_accuracy_eq
    (h : get_confusion_matrix test_dataset tree n = some confusion_matrix) :
    get_overall_accuracy confusion_matrix = evaluate test_dataset tree := by
  have hlt := (loop_spec h).1
  have hdiagonal : ∑ i, confusion_matrix i i = test_dataset.countP fun s =>
      (evaluate_sample s tree).1 = (evaluate_sample s tree).2 := by
    simp only [get_confusion_matrix_apply h]
    refine sum_countP fun s hs => ?_
    by_cases heq : (evaluate_sample s tree).1 = (evaluate_sample s tree).2
    · rw [Finset.sum_eq_single ⟨_, (hlt s hs).1⟩]
      · simp [Prod.ext_iff, heq]
      · intro i _ hne
        have hi : (evaluate_sample s tree).1 ≠ i := fun hi => hne (Fin.ext hi.symm)
        simp [Prod.ext_iff, hi]
      · exact fun hnot => absurd (Finset.mem_univ _) hnot
    · refine (Finset.sum_eq_zero fun i _ => ?_).trans (by simp [heq])
      refine if_neg fun hi => heq ?_
      rw [of_decide_eq_true hi]
  have htotal : ∑ i, ∑ j, confusion_matrix i j = test_dataset.length := by
    simp only [get_confusion_matrix_apply h]
    rw [← Fintype.sum_prod_type', ← List.countP_true]
    refine sum_countP fun s hs => ?_
    rw [Finset.sum_eq_single (⟨_, (hlt s hs).1⟩, ⟨_, (hlt s hs).2⟩)]
    · simp
    · intro x _ hne
      refine if_neg fun hx => hne ?_
      exact Prod.ext (Fin.ext (congrArg Prod.fst (of_decide_eq_true hx)).symm)
        (Fin.ext (congrArg Prod.snd (of_decide_eq_true hx)).symm)
    · exact fun hnot => absurd (Finset.mem_univ _) hnot
  rw [get_overall_accuracy, hdiagonal, htotal, evaluate_eq]

end

/-! ## What is counted -/

theorem foldl_add {α β : Type} (f : β → ℕ) {g : β → α → β} {h : α → ℕ}
    (hg : ∀ b a, f (g b a) = f b + h a) (l : List α) (b : β) :
    f (l.foldl g b) = f b + (l.map h).sum := by
  induction l generalizing b with
  | nil => rfl
  | cons a l ih => rw [List.foldl_cons, ih, hg, List.map_cons, List.sum_cons, Nat.add_assoc]

/-- A counter that the body of the two loops raises by `h i j` ends up at their sum. -/
theorem counter_eq {confusion_matrix : ConfusionMatrix n} {c : Fin n} (f : Counts → ℕ)
    {h : Fin n → Fin n → ℕ} (hzero : f ⟨0, 0, 0, 0⟩ = 0)
    (hentry : ∀ i counts j, f (count_entry confusion_matrix c i counts j) = f counts + h i j) :
    f (get_tp_tn_fp_fn confusion_matrix c) = ∑ i, ∑ j, h i j := by
  have hrow : ∀ counts i, f ((List.finRange n).foldl (count_entry confusion_matrix c i) counts) =
      f counts + ∑ j, h i j := by
    intro counts i
    rw [foldl_add f (hentry i), Fin.sum_univ_def]
  rw [get_tp_tn_fp_fn, foldl_add f hrow, hzero, Nat.zero_add, Fin.sum_univ_def]

section

variable (confusion_matrix : ConfusionMatrix n) (c : Fin n)

/-- The entries of a region of the matrix. -/
def region (p : Fin n → Fin n → Prop) [∀ i j, Decidable (p i j)] : ℕ :=
  ∑ i, ∑ j, if p i j then confusion_matrix i j else 0

/-- **What the four counts and the accuracy of class `c` should be.** -/
structure Partitioned : Prop where
  total : (get_tp_tn_fp_fn confusion_matrix c).tp + (get_tp_tn_fp_fn confusion_matrix c).tn +
    (get_tp_tn_fp_fn confusion_matrix c).fp + (get_tp_tn_fp_fn confusion_matrix c).fn =
      ∑ i, ∑ j, confusion_matrix i j
  /-- The fraction of samples that are taken for `c` if and only if they are of class `c`. -/
  accuracy : get_accuracy confusion_matrix c =
    ratio (region confusion_matrix fun i j => i = c ↔ j = c) (∑ i, ∑ j, confusion_matrix i j)

variable {confusion_matrix c}

theorem tp_eq : (get_tp_tn_fp_fn confusion_matrix c).tp =
    region confusion_matrix fun i j => i = c ∧ j = c := by
  refine counter_eq Counts.tp rfl fun i counts j => ?_
  unfold count_entry
  split_ifs <;> rfl

theorem fn_eq : (get_tp_tn_fp_fn confusion_matrix c).fn =
    region confusion_matrix fun i j => i = c ∧ j ≠ c := by
  refine counter_eq Counts.fn rfl fun i counts j => ?_
  unfold count_entry
  split_ifs <;> first | rfl | tauto

theorem fp_eq : (get_tp_tn_fp_fn confusion_matrix c).fp =
    region confusion_matrix fun i j => i ≠ c ∧ j = c := by
  refine counter_eq Counts.fp rfl fun i counts j => ?_
  unfold count_entry
  split_ifs <;> first | rfl | tauto

theorem tn_eq : (get_tp_tn_fp_fn confusion_matrix c).tn =
    region confusion_matrix fun i j => i ≠ c ∧ j ≠ c ∧ i = j := by
  refine counter_eq Counts.tn rfl fun i counts j => ?_
  unfold count_entry
  split_ifs <;> first | rfl | tauto

/-- Samples of another class that are taken for a third one. -/
def confused (confusion_matrix : ConfusionMatrix n) (c : Fin n) : ℕ :=
  region confusion_matrix fun i j => i ≠ c ∧ j ≠ c ∧ i ≠ j

theorem confused_eq_zero_iff :
    confused confusion_matrix c = 0 ↔
      ∀ i j, i ≠ c → j ≠ c → i ≠ j → confusion_matrix i j = 0 := by
  unfold confused region
  simp only [Finset.sum_eq_zero_iff, Finset.mem_univ, true_imp_iff, ite_eq_right_iff, and_imp]

theorem counts_add_confused : (get_tp_tn_fp_fn confusion_matrix c).tp +
    (get_tp_tn_fp_fn confusion_matrix c).tn + (get_tp_tn_fp_fn confusion_matrix c).fp +
    (get_tp_tn_fp_fn confusion_matrix c).fn + confused confusion_matrix c =
      ∑ i, ∑ j, confusion_matrix i j := by
  rw [tp_eq, tn_eq, fp_eq, fn_eq]
  simp only [confused, region, ← Finset.sum_add_distrib]
  refine Finset.sum_congr rfl fun i _ => Finset.sum_congr rfl fun j _ => ?_
  by_cases hi : i = c <;> by_cases hj : j = c <;> by_cases hij : i = j <;> simp [hi, hj, hij]

theorem tp_add_tn_add_confused : (get_tp_tn_fp_fn confusion_matrix c).tp +
    (get_tp_tn_fp_fn confusion_matrix c).tn + confused confusion_matrix c =
      region confusion_matrix fun i j => i = c ↔ j = c := by
  rw [tp_eq, tn_eq]
  simp only [confused, region, ← Finset.sum_add_distrib]
  refine Finset.sum_congr rfl fun i _ => Finset.sum_congr rfl fun j _ => ?_
  by_cases hi : i = c <;> by_cases hj : j = c <;> by_cases hij : i = j <;> simp [hi, hj, hij]

/-- A column of the matrix: precision is not affected. -/
theorem get_precision_eq : get_precision confusion_matrix c =
    ratio (confusion_matrix c c) (∑ i, confusion_matrix i c) := by
  have htp : (get_tp_tn_fp_fn confusion_matrix c).tp = confusion_matrix c c := by
    simp [tp_eq, region, ite_and]
  have hcolumn : (get_tp_tn_fp_fn confusion_matrix c).tp +
      (get_tp_tn_fp_fn confusion_matrix c).fp = ∑ i, confusion_matrix i c := by
    rw [tp_eq, fp_eq]
    simp only [region, ← Finset.sum_add_distrib]
    refine Finset.sum_congr rfl fun i _ => ?_
    by_cases hi : i = c <;> simp [hi]
  rw [get_precision, hcolumn, htp]

/-- A row of the matrix: neither is recall. -/
theorem get_recall_eq : get_recall confusion_matrix c =
    ratio (confusion_matrix c c) (∑ j, confusion_matrix c j) := by
  have htp : (get_tp_tn_fp_fn confusion_matrix c).tp = confusion_matrix c c := by
    simp [tp_eq, region, ite_and]
  have hrow : (get_tp_tn_fp_fn confusion_matrix c).tp +
      (get_tp_tn_fp_fn confusion_matrix c).fn = ∑ j, confusion_matrix c j := by
    rw [tp_eq, fn_eq]
    simp only [region, ← Finset.sum_add_distrib]
    rw [Finset.sum_comm]
    refine Finset.sum_congr rfl fun j _ => ?_
    by_cases hj : j = c <;> simp [hj]
  rw [get_recall, hrow, htp]

end

/-- **The counts partition the matrix exactly if no sample of another class is taken for a third
one.** -/
theorem partitioned_iff (confusion_matrix : ConfusionMatrix n) (c : Fin n) :
    Partitioned confusion_matrix c ↔
      ∀ i j, i ≠ c → j ≠ c → i ≠ j → confusion_matrix i j = 0 := by
  rw [← confused_eq_zero_iff]
  have hall : _ = ∑ i, ∑ j, confusion_matrix i j := counts_add_confused (c := c)
  have hright : _ = region confusion_matrix fun i j => i = c ↔ j = c := tp_add_tn_add_confused
  constructor
  · intro h
    have htotal := h.total
    omega
  · intro h
    rw [h, Nat.add_zero] at hall hright
    refine ⟨hall, ?_⟩
    rw [get_accuracy, hall, hright]

/-- A sample of the second class is taken for the third one. -/
theorem not_partitioned_three :
    ¬ Partitioned (n := 3) (fun i j => if i = 1 ∧ j = 2 then 1 else 0) 0 := by
  intro h
  exact absurd h.total (by decide)

end DocMachine.DecisionTree
