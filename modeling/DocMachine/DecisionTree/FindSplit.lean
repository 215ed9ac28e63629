import Mathlib.Data.List.MinMax
import Mathlib.Algebra.BigOperators.Group.Finset.Basic
import Mathlib.Analysis.SpecialFunctions.Log.Base
import Mathlib.Analysis.SpecialFunctions.Log.NegMulLog

/-!
# The split of a dataset

Model of `_find_split` (`intro-to-ml-coursework/decision_tree_learning.py` 16-92) and of the
information gain (`math_utils.py`: `_get_entropy` 5-16, `_get_remainder` 19-28,
`get_information_gain` 31-42).

* `find_split` sorts the dataset by each feature and walks along, with the class counts of the
  samples before and after. A cut is a feature and a number of samples to be taken off the dataset
  sorted by that feature; `cuts` has them in the order in which they are looked at.
* Arithmetic is exact: values are of a linearly ordered field, the gain is a real number.
  `numpy.argsort` is a parameter that sorts by a feature; samples with the same value may be in any
  order (`IsArgsort`).
* The counts are integers, as in the source. Those of the samples after are obtained by subtraction,
  one sample at a time.

Results:
* `get_entropy_eq`: with `mulLog x = x * log x`, the entropy of `n` samples times `n * log 2` is
  `mulLog n` less the sum of the `mulLog` of the counts.
* `information_gain_pos`: a split that takes one sample off others that are not all of its class has
  a positive gain, since `mulLog` grows faster at `n` than at the count of one class.
* `gain_first_pos`: so the first cut by any feature gains something, where there are two classes.
* `find_split_eq`: the result is the first cut of the highest gain, if any gains something.
-/

namespace DocMachine.DecisionTree

/-! ## Information gain -/

/-- `_get_entropy`. -/
noncomputable def get_entropy (class_counts : List ℤ) : ℝ :=
  let total_samples : ℝ := class_counts.sum
  let total := class_counts.foldl (fun (total : ℝ) (frequency : ℤ) =>
    if frequency = 0 then total
    else total + frequency / total_samples * Real.logb 2 (frequency / total_samples)) 0;
  -total

/-- `_get_remainder`: the entropies of the two parts, by their sizes. -/
noncomputable def get_remainder (left_class_counts right_class_counts : List ℤ) : ℝ :=
  let total_left : ℝ := left_class_counts.sum
  let total_right : ℝ := right_class_counts.sum
  let total_all_samples := total_right + total_left
  total_left / total_all_samples * get_entropy left_class_counts +
    total_right / total_all_samples * get_entropy right_class_counts

/-- `get_information_gain`. -/
noncomputable def get_information_gain
    (class_counts left_class_counts right_class_counts : List ℤ) : ℝ :=
  get_entropy class_counts - get_remainder left_class_counts right_class_counts

/-! ## The entropy as a sum -/

/-- `x * log x`. -/
noncomputable def mulLog (x : ℝ) : ℝ := x * Real.log x

theorem mulLog_zero : mulLog 0 = 0 := zero_mul _

theorem mulLog_one : mulLog 1 = 0 := by rw [mulLog, Real.log_one, mul_zero]

/-- One more makes a larger difference for a larger number. -/
theorem mulLog_increment {a b : ℝ} (ha : 1 ≤ a) (hab : a + 1 ≤ b) :
    mulLog a - mulLog (a - 1) < mulLog b - mulLog (b - 1) := by
  have hslope : ∀ {x y z : ℝ}, 0 ≤ x → x < y → y < z →
      (mulLog y - mulLog x) / (y - x) < (mulLog z - mulLog y) / (z - y) := fun hx hxy hyz =>
    Real.strictConvexOn_mul_log.slope_strict_mono_adjacent hx
      (hx.trans (hxy.trans hyz).le : (0 : ℝ) ≤ _) hxy hyz
  have hone : ∀ x : ℝ, x - (x - 1) = 1 := fun x => by ring
  have hlow : 0 ≤ a - 1 := by linarith
  rcases eq_or_lt_of_le hab with rfl | hab
  · have h := hslope hlow (sub_one_lt a) (lt_add_one a)
    rw [hone, add_sub_cancel_left, div_one, div_one] at h
    rw [add_sub_cancel_right]
    exact h
  · have hmid : a < b - 1 := by linarith
    have h := (hslope hlow (sub_one_lt a) hmid).trans
      (hslope (by linarith) hmid (sub_one_lt b))
    rw [hone, hone, div_one, div_one] at h
    exact h

theorem foldl_add_ite {g : ℤ → ℝ} (l : List ℤ) (a : ℝ) :
    l.foldl (fun total x => if x = 0 then total else total + g x) a =
      a + (l.map fun x => if x = 0 then 0 else g x).sum := by
  induction l generalizing a with
  | nil => exact (add_zero a).symm
  | cons x l ih =>
    rw [List.foldl_cons, ih, List.map_cons, List.sum_cons]
    split
    · rw [zero_add]
    · rw [add_assoc]

theorem sum_map_sub_mul (f : ℤ → ℝ) (k q : ℝ) (l : List ℤ) :
    (l.map fun c : ℤ => (f c - c * k) / q).sum =
      ((l.map fun c : ℤ => f c).sum - (l.sum : ℝ) * k) / q := by
  induction l with
  | nil => simp
  | cons c l ih =>
    rw [List.map_cons, List.sum_cons, ih, List.map_cons, List.sum_cons, List.sum_cons,
      Int.cast_add]
    ring

/-- The entropy of `n` samples. -/
theorem get_entropy_eq {counts : List ℤ} {n : ℤ} (hn : counts.sum = n) (hpos : 0 < n) :
    n * get_entropy counts * Real.log 2 =
      mulLog n - (counts.map fun c : ℤ => mulLog c).sum := by
  have hn0 : (n : ℝ) ≠ 0 := Int.cast_ne_zero.mpr hpos.ne'
  have hlog2 : Real.log 2 ≠ 0 := (Real.log_pos one_lt_two).ne'
  have hterm : ∀ c : ℤ, (if c = 0 then 0 else (c : ℝ) / n * Real.logb 2 (c / n)) =
      (mulLog c - c * Real.log n) / (n * Real.log 2) := by
    intro c
    by_cases hc : c = 0
    · rw [if_pos hc, hc, Int.cast_zero, mulLog_zero, zero_mul, sub_zero, zero_div]
    · rw [if_neg hc, Real.logb, Real.log_div (Int.cast_ne_zero.mpr hc) hn0, mulLog]
      field_simp
  unfold get_entropy
  dsimp only
  rw [foldl_add_ite, zero_add, hn, funext hterm, sum_map_sub_mul, hn]
  field_simp
  rw [mulLog]
  ring

/-- One of `n` samples is split off, and `a` of the `n` are of its class. -/
theorem information_gain_pos {counts left right : List ℤ} {n a : ℤ} (hn : counts.sum = n)
    (hleft : left.sum = 1) (hright : right.sum = n - 1) (ha : 1 ≤ a) (han : a + 1 ≤ n)
    (hone : (left.map fun c : ℤ => mulLog c).sum = 0)
    (hall : (counts.map fun c : ℤ => mulLog c).sum =
      (right.map fun c : ℤ => mulLog c).sum + (mulLog a - mulLog (a - 1))) :
    0 < get_information_gain counts left right := by
  have hlog2 : 0 < Real.log 2 := Real.log_pos one_lt_two
  have hn0 : (0 : ℝ) < n := Int.cast_pos.mpr (by omega)
  have hincrement : mulLog a - mulLog (a - 1) < mulLog n - mulLog (n - 1) :=
    mulLog_increment (by exact_mod_cast ha) (by exact_mod_cast han)
  have hcounts := get_entropy_eq hn (by omega)
  have hleft' := get_entropy_eq hleft one_pos
  have hright' := get_entropy_eq hright (by omega)
  rw [Int.cast_one, hone, mulLog_one, sub_zero, one_mul] at hleft'
  rw [Int.cast_sub, Int.cast_one] at hright'
  have hleft0 : get_entropy left = 0 := (mul_eq_zero.mp hleft').resolve_right hlog2.ne'
  have hgain : n * get_information_gain counts left right * Real.log 2 =
      n * get_entropy counts * Real.log 2 - (n - 1) * get_entropy right * Real.log 2 := by
    unfold get_information_gain get_remainder
    dsimp only
    rw [hleft, hright, hleft0, Int.cast_sub, Int.cast_one]
    have hsum : (n : ℝ) - 1 + 1 = n := by ring
    rw [hsum]
    field_simp
    ring
  have hpos : 0 < n * get_information_gain counts left right * Real.log 2 := by
    rw [hgain, hcounts, hright', hall]
    linarith
  rwa [mul_pos_iff_of_pos_right hlog2, mul_pos_iff_of_pos_left hn0] at hpos

/-! ## The dataset -/

/-- A row of the dataset: the features, and the index of the class in the last column. -/
structure Sample (K : Type) (d : ℕ) where
  features : Fin d → K
  class_index : ℕ

variable {K : Type} {d : ℕ}

/-- `dataset[dataset[:, i].argsort()]`. -/
structure IsArgsort [LE K] (argsort : Fin d → List (Sample K d) → List (Sample K d)) : Prop where
  perm : ∀ i dataset, (argsort i dataset).Perm dataset
  sorted : ∀ i dataset, (argsort i dataset).Pairwise fun s t => s.features i ≤ t.features i

/-! ## The split -/

/-- `counts[k] += a`. -/
def addAt (counts : List ℤ) (k : ℕ) (a : ℤ) : Option (List ℤ) :=
  if k < counts.length then some (counts.modify k (· + a)) else none

/-- The best split so far. -/
structure Best (K : Type) where
  information_gain : ℝ
  split_value : K
  split_index : ℕ
  split_feature : ℕ
  left_class_counts : List ℤ
  right_class_counts : List ℤ

/-- What `_find_split` returns. -/
structure Split (K : Type) (d : ℕ) where
  feature : Fin d
  split_value : K
  left_dataset : List (Sample K d)
  left_class_counts : List ℤ
  right_dataset : List (Sample K d)
  right_class_counts : List ℤ

section

variable [Field K]

/-- The loop over `sorted[1:]`, at index `j` with the sample before. -/
noncomputable def scan (class_counts : List ℤ) (i : Fin d) : ℕ → Sample K d → List (Sample K d) →
    List ℤ → List ℤ → Best K → Option (Best K)
  | _, _, [], _, _, best => some best
  | j, previous, entry :: rest, left_class_counts, right_class_counts, best => do
    let split_value := (entry.features i + previous.features i) / 2
    let information_gain :=
      get_information_gain class_counts left_class_counts right_class_counts
    let best := if information_gain > best.information_gain then
        { information_gain, split_value, split_index := j + 1, split_feature := i,
          left_class_counts, right_class_counts }
      else best
    let left_class_counts ← addAt left_class_counts entry.class_index 1
    let right_class_counts ← addAt right_class_counts entry.class_index (-1)
    scan class_counts i (j + 1) entry rest left_class_counts right_class_counts best

/-- One turn of the loop over the features. -/
noncomputable def scan_feature (argsort : Fin d → List (Sample K d) → List (Sample K d))
    (dataset : List (Sample K d)) (class_counts : List ℤ) (best : Best K) (i : Fin d) :
    Option (Best K) :=
  match argsort i dataset with
  | [] => none
  | first :: rest => do
    let left_class_counts ←
      addAt (List.replicate class_counts.length 0) first.class_index 1
    let right_class_counts ← addAt class_counts first.class_index (-1)
    scan class_counts i 0 first rest left_class_counts right_class_counts best

/-- `none` is an index out of range. -/
noncomputable def find_split (argsort : Fin d → List (Sample K d) → List (Sample K d))
    (dataset : List (Sample K d)) (class_counts : List ℤ) : Option (Split K d) := do
  let best ← (List.finRange d).foldlM (scan_feature argsort dataset class_counts)
    ⟨0, 0, 0, 0, [], []⟩
  if h : best.split_feature < d then
    let sorted := argsort ⟨best.split_feature, h⟩ dataset
    some ⟨⟨best.split_feature, h⟩, best.split_value, sorted.take best.split_index,
      best.left_class_counts, sorted.drop best.split_index, best.right_class_counts⟩
  else none

end

/-! ## Class counts -/

/-- The number of samples of each class below `m`. -/
def classCounts (m : ℕ) (dataset : List (Sample K d)) : List ℤ :=
  (List.range m).map fun c => (dataset.countP fun s => s.class_index = c : ℕ)

variable {m : ℕ} {dataset rest : List (Sample K d)} {s : Sample K d}

theorem length_classCounts : (classCounts m dataset).length = m := by
  rw [classCounts, List.length_map, List.length_range]

theorem classCounts_nil : classCounts m ([] : List (Sample K d)) = List.replicate m 0 := by
  have hzero : (List.range m).map (fun _ => (0 : ℤ)) = List.replicate m 0 := by
    rw [List.map_const', List.length_range]
  exact hzero

theorem classCounts_perm {dataset' : List (Sample K d)} (h : dataset.Perm dataset') :
    classCounts m dataset = classCounts m dataset' :=
  List.map_congr_left fun _ _ => congrArg Nat.cast (h.countP_eq _)

theorem modify_map_range (f : ℕ → ℤ) (k : ℕ) (a : ℤ) :
    ((List.range m).map f).modify k (· + a) =
      (List.range m).map fun c => f c + if k = c then a else 0 := by
  refine List.ext_getElem ?_ fun c _ _ => ?_
  · rw [List.length_modify, List.length_map, List.length_map]
  · rw [List.getElem_modify, List.getElem_map, List.getElem_map, List.getElem_range]
    split
    · rfl
    · exact (add_zero _).symm

theorem count_cons (c : ℕ) : ((s :: rest).countP fun s => s.class_index = c : ℤ) =
    (rest.countP fun s => s.class_index = c) + if s.class_index = c then 1 else 0 := by
  rw [List.countP_cons, Nat.cast_add]
  by_cases hc : s.class_index = c
  · simp [hc]
  · simp [hc]

theorem addAt_left (hs : s.class_index < m) : addAt (classCounts m dataset) s.class_index 1 =
    some (classCounts m (dataset ++ [s])) := by
  rw [addAt, if_pos (length_classCounts.symm ▸ hs), classCounts, modify_map_range,
    classCounts_perm (List.perm_append_singleton s dataset)]
  exact congrArg some (List.map_congr_left fun c _ => (count_cons c).symm)

theorem addAt_right (hs : s.class_index < m) :
    addAt (classCounts m (s :: rest)) s.class_index (-1) = some (classCounts m rest) := by
  rw [addAt, if_pos (length_classCounts.symm ▸ hs), classCounts, modify_map_range]
  refine congrArg some (List.map_congr_left fun c _ => ?_)
  rw [count_cons]
  split
  · exact add_neg_cancel_right _ 1
  · rw [add_zero, add_zero]

/-- One sample more, in a sum over the counts. -/
theorem sum_classCounts_cons {A : Type*} [AddCommGroup A] (f : ℤ → A) (hs : s.class_index < m) :
    ((classCounts m (s :: rest)).map f).sum = ((classCounts m rest).map f).sum +
      (f ((s :: rest).countP fun t => t.class_index = s.class_index) -
        f (rest.countP fun t => t.class_index = s.class_index)) := by
  have hrange : ∀ dataset : List (Sample K d), ((classCounts m dataset).map f).sum =
      ∑ c ∈ Finset.range m, f (dataset.countP fun t => t.class_index = c) := by
    intro dataset
    rw [classCounts, List.map_map]
    rfl
  rw [hrange, hrange, ← sub_eq_iff_eq_add', ← Finset.sum_sub_distrib]
  refine Finset.sum_eq_single_of_mem _ (Finset.mem_range.mpr hs) fun c _ hc => ?_
  rw [count_cons, if_neg hc.symm, add_zero, sub_self]

theorem sum_classCounts (hdataset : ∀ s ∈ dataset, s.class_index < m) :
    (classCounts m dataset).sum = dataset.length := by
  induction dataset with
  | nil => rw [classCounts_nil, List.sum_replicate, smul_zero]; rfl
  | cons s rest ih =>
    obtain ⟨hs, hrest⟩ := List.forall_mem_cons.mp hdataset
    have hcons : ((classCounts m (s :: rest)).map id).sum = _ := sum_classCounts_cons id hs
    rw [List.map_id, List.map_id, ih hrest, id, id, count_cons, if_pos rfl] at hcons
    rw [hcons, List.length_cons]
    push_cast
    ring

/-! ## Cuts -/

section

variable (argsort : Fin d → List (Sample K d) → List (Sample K d)) (m : ℕ)
  (dataset : List (Sample K d))

/-- The cuts of a dataset of `n` samples, in order. -/
def cuts (d n : ℕ) : List (Fin d × ℕ) :=
  (List.finRange d).flatMap fun i => (List.range' 1 (n - 1)).map (i, ·)

/-- The samples that the cut takes off. -/
def leftPart (cut : Fin d × ℕ) : List (Sample K d) := (argsort cut.1 dataset).take cut.2

/-- The samples that are left. -/
def rightPart (cut : Fin d × ℕ) : List (Sample K d) := (argsort cut.1 dataset).drop cut.2

/-- The information gain of the cut. -/
noncomputable def gain (cut : Fin d × ℕ) : ℝ :=
  get_information_gain (classCounts m dataset) (classCounts m (leftPart argsort dataset cut))
    (classCounts m (rightPart argsort dataset cut))

variable {argsort m dataset}

theorem mem_cuts {n : ℕ} {cut : Fin d × ℕ} : cut ∈ cuts d n ↔ 1 ≤ cut.2 ∧ cut.2 < n := by
  rw [cuts, List.mem_flatMap]
  constructor
  · rintro ⟨i, -, hi⟩
    obtain ⟨p, hp, rfl⟩ := List.mem_map.mp hi
    rw [List.mem_range'_1] at hp
    dsimp only
    omega
  · rintro ⟨hpos, hlt⟩
    refine ⟨cut.1, List.mem_finRange cut.1, List.mem_map.mpr ⟨cut.2, ?_, rfl⟩⟩
    rw [List.mem_range'_1]
    omega

/-- Not all of one class. -/
def Mixed (dataset : List (Sample K d)) : Prop :=
  ∃ s ∈ dataset, ∃ t ∈ dataset, s.class_index ≠ t.class_index

/-- The first cut by any feature has a gain. -/
theorem gain_first_pos (hsort : ∀ i, (argsort i dataset).Perm dataset)
    (hm : ∀ s ∈ dataset, s.class_index < m) (hmixed : Mixed dataset) (i : Fin d) :
    0 < gain argsort m dataset (i, 1) := by
  have hperm := hsort i
  obtain ⟨first, rest, hsorted⟩ : ∃ first rest, argsort i dataset = first :: rest := by
    refine List.exists_cons_of_ne_nil fun hnil => ?_
    obtain ⟨s, hs, -⟩ := hmixed
    rw [hnil] at hperm
    exact List.ne_nil_of_mem hs hperm.nil_eq.symm
  rw [hsorted] at hperm
  have hall : ∀ s ∈ first :: rest, s.class_index < m := fun s hs => hm s (hperm.mem_iff.mp hs)
  obtain ⟨hfirst, hrest⟩ := List.forall_mem_cons.mp hall
  -- `a` of the samples are of the class of the first one
  obtain ⟨a, ha⟩ : ∃ a : ℕ,
      (first :: rest).countP (fun t => t.class_index = first.class_index) = a := ⟨_, rfl⟩
  have hrestCount : (rest.countP fun t => t.class_index = first.class_index : ℤ) = a - 1 := by
    rw [← ha, count_cons, if_pos rfl, add_sub_cancel_right]
  have hpos : 0 < a := by
    rw [← ha, List.countP_pos_iff]
    exact ⟨first, List.mem_cons_self, decide_eq_true rfl⟩
  have hlt : a < (first :: rest).length := by
    rw [← ha, List.countP_lt_length_iff]
    obtain ⟨s, hs, t, ht, hne⟩ := hmixed
    by_cases hsf : s.class_index = first.class_index
    · exact ⟨t, hperm.mem_iff.mpr ht, decide_eq_false fun htf => hne (hsf.trans htf.symm)⟩
    · exact ⟨s, hperm.mem_iff.mpr hs, decide_eq_false hsf⟩
  have hsum : ((classCounts m (first :: rest)).map fun c : ℤ => mulLog c).sum = _ :=
    sum_classCounts_cons _ hfirst
  rw [ha, hrestCount, Int.cast_sub, Int.cast_one] at hsum
  have hone : ((classCounts m [first]).map fun c : ℤ => mulLog c).sum = 0 := by
    rw [sum_classCounts_cons _ hfirst, count_cons, if_pos rfl, List.countP_nil, Nat.cast_zero,
      zero_add, Int.cast_one, mulLog_one, Int.cast_zero, mulLog_zero, classCounts_nil,
      List.map_replicate, List.sum_replicate, Int.cast_zero, mulLog_zero, smul_zero, sub_zero,
      add_zero]
  rw [gain, leftPart, rightPart, hsorted, ← classCounts_perm hperm]
  refine information_gain_pos (sum_classCounts hall) ?_ ?_ ?_ ?_ hone hsum
  · exact sum_classCounts (List.forall_mem_singleton.mpr hfirst)
  · rw [List.length_cons, Nat.cast_add, Nat.cast_one, add_sub_cancel_right]
    exact sum_classCounts hrest
  · exact_mod_cast hpos
  · exact_mod_cast hlt

/-! ## The result -/

variable [Field K] (argsort m dataset)

/-- The value between the two parts. -/
def cutValue (cut : Fin d × ℕ) : K :=
  match (leftPart argsort dataset cut).getLast?, (rightPart argsort dataset cut).head? with
  | some previous, some entry => (entry.features cut.1 + previous.features cut.1) / 2
  | _, _ => 0

/-- The best split, when it is at `cut`. -/
noncomputable def Best.ofCut (cut : Fin d × ℕ) : Best K where
  information_gain := gain argsort m dataset cut
  split_value := cutValue argsort dataset cut
  split_index := cut.2
  split_feature := cut.1
  left_class_counts := classCounts m (leftPart argsort dataset cut)
  right_class_counts := classCounts m (rightPart argsort dataset cut)

/-- What the loop does at one cut. -/
noncomputable def consider (best : Best K) (cut : Fin d × ℕ) : Best K :=
  if gain argsort m dataset cut > best.information_gain then Best.ofCut argsort m dataset cut
  else best

variable {argsort m dataset}

theorem scan_eq {i : Fin d} {pre rest : List (Sample K d)} {previous : Sample K d} (best : Best K)
    (hm : ∀ s ∈ dataset, s.class_index < m) (hmem : ∀ s ∈ rest, s ∈ dataset)
    (hsorted : argsort i dataset = pre ++ previous :: rest) :
    scan (classCounts m dataset) i pre.length previous rest (classCounts m (pre ++ [previous]))
        (classCounts m rest) best =
      some (((List.range' (pre.length + 1) rest.length).map (i, ·)).foldl
        (consider argsort m dataset) best) := by
  induction rest generalizing pre previous best with
  | nil => rfl
  | cons entry rest ih =>
    obtain ⟨hentry, hrest⟩ := List.forall_mem_cons.mp hmem
    have hlen : pre.length + 1 = (pre ++ [previous]).length := by
      rw [List.length_append, List.length_singleton]
    have hsorted' : argsort i dataset = (pre ++ [previous]) ++ entry :: rest := by
      rw [hsorted, List.append_assoc]
      rfl
    have hleft : leftPart argsort dataset (i, pre.length + 1) = pre ++ [previous] := by
      rw [leftPart, hsorted', hlen, List.take_left]
    have hright : rightPart argsort dataset (i, pre.length + 1) = entry :: rest := by
      rw [rightPart, hsorted', hlen, List.drop_left]
    have hgain : get_information_gain (classCounts m dataset) (classCounts m (pre ++ [previous]))
        (classCounts m (entry :: rest)) = gain argsort m dataset (i, pre.length + 1) := by
      rw [gain, hleft, hright]
    have hvalue : (entry.features i + previous.features i) / 2 =
        cutValue argsort dataset (i, pre.length + 1) := by
      rw [cutValue, hleft, hright, List.getLast?_concat]
      rfl
    -- the counts at `entry` are those of the cut before it
    have hconsider : (if gain argsort m dataset (i, pre.length + 1) > best.information_gain then
        ⟨gain argsort m dataset (i, pre.length + 1), cutValue argsort dataset (i, pre.length + 1),
          pre.length + 1, i, classCounts m (pre ++ [previous]), classCounts m (entry :: rest)⟩
        else best) = consider argsort m dataset best (i, pre.length + 1) := by
      rw [consider, Best.ofCut, hleft, hright]
    have hscan : ∀ best : Best K, scan (classCounts m dataset) i (pre.length + 1) entry rest
        (classCounts m (pre ++ [previous] ++ [entry])) (classCounts m rest) best =
        some (((List.range' (pre.length + 1 + 1) rest.length).map (i, ·)).foldl
          (consider argsort m dataset) best) := by
      rw [hlen]
      exact fun best => ih best hrest hsorted'
    rw [scan, addAt_left (hm entry hentry), addAt_right (hm entry hentry), hgain, hvalue,
      List.length_cons, List.range'_succ, List.map_cons, List.foldl_cons, ← hscan, ← hconsider]
    rfl

theorem scan_feature_eq (hsort : ∀ i, (argsort i dataset).Perm dataset)
    (hm : ∀ s ∈ dataset, s.class_index < m) (hne : dataset ≠ []) (best : Best K) (i : Fin d) :
    scan_feature argsort dataset (classCounts m dataset) best i =
      some (((List.range' 1 (dataset.length - 1)).map (i, ·)).foldl
        (consider argsort m dataset) best) := by
  have hperm := hsort i
  rw [scan_feature]
  cases hsorted : argsort i dataset with
  | nil =>
    rw [hsorted] at hperm
    exact absurd hperm.nil_eq.symm hne
  | cons first rest =>
    rw [hsorted] at hperm
    have hmem : ∀ s ∈ first :: rest, s ∈ dataset := fun s hs => hperm.mem_iff.mp hs
    obtain ⟨hfirst, hrest⟩ := List.forall_mem_cons.mp hmem
    have hright : addAt (classCounts m dataset) first.class_index (-1) =
        some (classCounts m rest) := by
      rw [← classCounts_perm hperm]
      exact addAt_right (hm first hfirst)
    have hnil : argsort i dataset = [] ++ first :: rest := hsorted
    have hscan := scan_eq best hm hrest hnil
    dsimp only
    rw [length_classCounts, ← classCounts_nil (K := K) (d := d), addAt_left (hm first hfirst),
      hright, ← hperm.length_eq]
    exact hscan

theorem foldlM_eq_some {α β : Type*} {f : β → α → Option β} {g : β → α → β}
    (h : ∀ b a, f b a = some (g b a)) (l : List α) (b : β) : l.foldlM f b = some (l.foldl g b) := by
  induction l generalizing b with
  | nil => rfl
  | cons a l ih =>
    rw [List.foldlM_cons, h, List.foldl_cons, ← ih]
    rfl

/-- The first cut of the highest gain is kept, unless it gains nothing. -/
theorem foldl_consider {init : Best K} (hinit : init.information_gain = 0)
    (cs : List (Fin d × ℕ)) : cs.foldl (consider argsort m dataset) init =
      match cs.argmax (gain argsort m dataset) with
      | none => init
      | some cut =>
        if 0 < gain argsort m dataset cut then Best.ofCut argsort m dataset cut else init := by
  induction cs using List.reverseRecOn with
  | nil => rfl
  | append_singleton cs cut ih =>
    rw [List.foldl_append, List.foldl_cons, List.foldl_nil, ih, List.argmax_concat]
    cases cs.argmax (gain argsort m dataset) with
    | none =>
      dsimp only
      rw [consider, hinit]
    | some cut' =>
      dsimp only
      by_cases hpos : 0 < gain argsort m dataset cut'
      · rw [if_pos hpos, consider, Best.ofCut]
        dsimp only
        by_cases hlt : gain argsort m dataset cut' < gain argsort m dataset cut
        · rw [if_pos hlt, if_pos hlt]
          dsimp only
          rw [if_pos (hpos.trans hlt)]
        · rw [if_neg hlt, if_neg hlt]
          dsimp only
          rw [if_pos hpos, Best.ofCut]
      · rw [if_neg hpos, consider, hinit]
        by_cases hlt : gain argsort m dataset cut' < gain argsort m dataset cut
        · rw [if_pos hlt]
        · have hcut : ¬ 0 < gain argsort m dataset cut := fun h => hlt ((not_lt.mp hpos).trans_lt h)
          rw [if_neg hlt, if_neg hcut]
          dsimp only
          rw [if_neg hpos]

theorem find_split_eq (hsort : ∀ i, (argsort i dataset).Perm dataset)
    (hm : ∀ s ∈ dataset, s.class_index < m) {cut : Fin d × ℕ}
    (hcut : cut ∈ (cuts d dataset.length).argmax (gain argsort m dataset))
    (hpos : 0 < gain argsort m dataset cut) :
    find_split argsort dataset (classCounts m dataset) =
      some ⟨cut.1, cutValue argsort dataset cut, leftPart argsort dataset cut,
        classCounts m (leftPart argsort dataset cut), rightPart argsort dataset cut,
        classCounts m (rightPart argsort dataset cut)⟩ := by
  obtain ⟨hfeature, hindex⟩ := mem_cuts.mp (List.argmax_mem hcut)
  have hne : dataset ≠ [] := by
    rintro rfl
    exact absurd hindex (Nat.not_lt_zero _)
  have hbest : (List.finRange d).foldlM (scan_feature argsort dataset (classCounts m dataset))
      (⟨0, 0, 0, 0, [], []⟩ : Best K) = some (Best.ofCut argsort m dataset cut) := by
    rw [foldlM_eq_some fun best i => scan_feature_eq hsort hm hne best i, ← List.foldl_flatMap,
      ← cuts, foldl_consider rfl, Option.mem_def.mp hcut]
    dsimp only
    rw [if_pos hpos]
  rw [find_split, hbest]
  exact dif_pos cut.1.isLt

end

end DocMachine.DecisionTree
