import Mathlib

/-!
# Natural merge sort

Sorting by merging the runs that a sequence already has, over any type and any test `le`.

* A run is a longest stretch in which no element is out of order with the one before it (`splitBy`).
  A `pass` merges the runs in pairs, the first with the second, the third with the fourth.
* `Stable le xs ys` says that `ys` keeps the elements of `xs`, and the order among those that `le`
  does not tell apart.

Results:
* `stable_pass`: a pass is stable.
* `length_splitBy_pass`: it leaves half of the runs, rounded up.
* `Stable.eq_of_pairwise`: there is only one stable and sorted sequence, so that
  `Stable.eq_mergeSort`: it is the result of `mergeSort`.
* `mergeSort_pass` and `pass_eq_mergeSort`: sorting may begin with a pass, and the pass that merges
  the last two runs sorts.
-/

namespace DocMachine.Lib.NaturalMerge

variable {α : Type} {le : α → α → Bool} {xs ys zs X Y : List α} {L : List (List α)}

/-- `le` does not tell the elements apart. -/
def equal (le : α → α → Bool) (a b : α) : Bool := le a b && le b a

theorem equal_iff {a b : α} : equal le a b = true ↔ le a b = true ∧ le b a = true := by
  rw [equal, Bool.and_eq_true]

/-- What is equal to `a` is the same, in the same order. -/
def Stable (le : α → α → Bool) (xs ys : List α) : Prop :=
  ∀ a, ys.filter (equal le a) = xs.filter (equal le a)

theorem Stable.refl (le : α → α → Bool) (xs : List α) : Stable le xs xs := fun _ => rfl

theorem Stable.trans (h : Stable le xs ys) (h' : Stable le ys zs) : Stable le xs zs :=
  fun a => (h' a).trans (h a)

theorem Stable.append {xs' ys' : List α} (h : Stable le xs ys) (h' : Stable le xs' ys') :
    Stable le (xs ++ xs') (ys ++ ys') := fun a => by
  rw [List.filter_append, List.filter_append, h a, h' a]

/-- Merge the sequences in pairs. -/
def mergePairs (le : α → α → Bool) : List (List α) → List (List α)
  | X :: Y :: L => X.merge Y le :: mergePairs le L
  | L => L

/-- Merge the runs in pairs. -/
def pass (le : α → α → Bool) (xs : List α) : List α := (mergePairs le (xs.splitBy le)).flatten

theorem length_mergePairs (le : α → α → Bool) (L : List (List α)) :
    (mergePairs le L).length = (L.length + 1) / 2 := by
  induction L using mergePairs.induct with
  | case1 X Y L ih =>
    rw [mergePairs, List.length_cons, ih, List.length_cons, List.length_cons]
    omega
  | case2 L hL =>
    match L, hL with
    | [], _ => simp [mergePairs]
    | [X], _ => simp [mergePairs]
    | X :: Y :: L, hL => exact absurd rfl (hL X Y L)

section

/-! ## The number of runs -/

/-- A sequence that is in order before the others adds at most one run. -/
theorem length_splitBy_append (hX : X.IsChain fun x y => le x y) (ys : List α) :
    ((X ++ ys).splitBy le).length ≤ (ys.splitBy le).length + 1 := by
  obtain rfl | hX₀ := eq_or_ne X []
  · exact Nat.le_succ _
  obtain rfl | hys := eq_or_ne ys []
  · rw [List.append_nil, List.splitBy_of_isChain hX₀ hX]
    exact Nat.le_add_left _ _
  cases hle : le (X.getLast hX₀) (ys.head hys) with
  | false =>
    rw [List.splitBy_append, List.splitBy_of_isChain hX₀ hX]
    · simp
    · intro x hx y hy
      rwa [← List.getLast_of_mem_getLast? hx, ← List.head_of_mem_head? hy]
  | true =>
    -- the first run of `ys` goes on from `X`
    obtain ⟨M, Ms, hMs⟩ := List.exists_cons_of_ne_nil (List.splitBy_ne_nil (r := le).mpr hys)
    obtain ⟨hflat, hnil, hchain, hcut⟩ := List.splitBy_eq_iff.mp hMs
    rw [List.mem_cons, not_or] at hnil
    have hM₀ : M ≠ [] := Ne.symm hnil.1
    have hhead : M.head hM₀ = ys.head hys := by
      simp only [hflat, List.flatten_cons, List.head_append_of_ne_nil hM₀]
    have hXM : (X ++ ys).splitBy le = (X ++ M) :: Ms := by
      refine List.splitBy_eq_iff.mpr ⟨by simp [hflat], ?_, ?_, ?_⟩
      · simp [hX₀, hnil.2]
      · intro m hm
        rcases List.mem_cons.mp hm with rfl | hm
        · refine List.isChain_append.mpr ⟨hX, hchain M List.mem_cons_self, fun x hx y hy => ?_⟩
          rw [← List.getLast_of_mem_getLast? hx, ← List.head_of_mem_head? hy, hhead]
          exact hle
        · exact hchain m (List.mem_cons_of_mem M hm)
      · rw [List.isChain_cons] at hcut ⊢
        refine ⟨fun N hN => ?_, hcut.2⟩
        obtain ⟨ha, hb, hfalse⟩ := hcut.1 N hN
        exact ⟨by simp [hX₀], hb, by rwa [List.getLast_append_of_ne_nil _ ha]⟩
    rw [hXM, hMs]
    exact Nat.le_succ _

theorem length_splitBy_flatten (hL : ∀ X ∈ L, X.IsChain fun x y => le x y) :
    (L.flatten.splitBy le).length ≤ L.length := by
  induction L with
  | nil => exact Nat.le_refl 0
  | cons X L ih =>
    have hX := length_splitBy_append (hL X List.mem_cons_self) L.flatten
    have hrest := ih fun Y hY => hL Y (List.mem_cons_of_mem X hY)
    rw [List.flatten_cons, List.length_cons]
    omega

end

/-! ## Sorting -/

section

variable (trans : ∀ a b c, le a b → le b c → le a c) (total : ∀ a b, le a b || le b a)

include trans in
theorem pairwise_of_isChain (h : xs.IsChain fun x y => le x y) : xs.Pairwise fun x y => le x y := by
  have : IsTrans α (fun x y => (le x y : Prop)) := ⟨trans⟩
  exact List.isChain_iff_pairwise.mp h

include trans in
theorem stable_merge (hX : X.Pairwise fun x y => le x y) (Y : List α) :
    Stable le (X ++ Y) (X.merge Y le) := by
  induction X generalizing Y with
  | nil => exact fun a => by rw [List.nil_merge, List.nil_append]
  | cons x X ihX =>
    induction Y with
    | nil => exact fun a => by rw [List.merge_right, List.append_nil]
    | cons y Y ihY =>
      by_cases hxy : le x y
      · rw [List.cons_merge_cons_pos le _ _ hxy]
        exact (Stable.refl le [x]).append (ihX hX.tail (y :: Y))
      · rw [List.cons_merge_cons_neg le _ _ hxy]
        intro a
        have hrest := ihY a
        by_cases hay : equal le a y
        · -- all of the first sequence is greater than `y`, and so than `a`
          rw [equal_iff] at hay
          have hfilter : (x :: X).filter (equal le a) = [] := by
            refine List.filter_eq_nil_iff.mpr fun b hb hab => hxy ?_
            rw [equal_iff] at hab
            rcases List.mem_cons.mp hb with rfl | hb
            · exact trans _ _ _ hab.2 hay.1
            · exact trans _ _ _ (List.rel_of_pairwise_cons hX hb) (trans _ _ _ hab.2 hay.1)
          rw [List.filter_append, hfilter, List.nil_append] at hrest ⊢
          rw [List.filter_cons, List.filter_cons, hrest]
        · rw [List.filter_append] at hrest ⊢
          rw [List.filter_cons_of_neg hay, List.filter_cons_of_neg hay, hrest]

include trans in
theorem stable_mergePairs (hL : ∀ X ∈ L, X.Pairwise fun x y => le x y) :
    Stable le L.flatten (mergePairs le L).flatten := by
  induction L using mergePairs.induct with
  | case1 X Y L ih =>
    have hXY := stable_merge trans (hL X List.mem_cons_self) Y
    have hrest := ih fun Z hZ => hL Z (List.mem_cons_of_mem X (List.mem_cons_of_mem Y hZ))
    simpa [mergePairs] using hXY.append hrest
  | case2 L hcase =>
    match L, hcase with
    | [], _ => exact .refl le []
    | [X], _ => exact .refl le _
    | X :: Y :: L, hcase => exact absurd rfl (hcase X Y L)

include trans total in
theorem pairwise_mergePairs (hL : ∀ X ∈ L, X.Pairwise fun x y => le x y) :
    ∀ X ∈ mergePairs le L, X.Pairwise fun x y => le x y := by
  induction L using mergePairs.induct with
  | case1 X Y L ih =>
    have hrest := ih fun Z hZ => hL Z (List.mem_cons_of_mem X (List.mem_cons_of_mem Y hZ))
    have hXY := List.pairwise_merge trans total X Y (hL X List.mem_cons_self)
      (hL Y (List.mem_cons_of_mem X List.mem_cons_self))
    intro Z hZ
    rcases List.mem_cons.mp hZ with rfl | hZ
    · exact hXY
    · exact hrest Z hZ
  | case2 L hcase =>
    match L, hcase, hL with
    | [], _, hL => exact hL
    | [X], _, hL => exact hL
    | X :: Y :: L, hcase, _ => exact absurd rfl (hcase X Y L)

include trans in
theorem pairwise_of_mem_splitBy (h : X ∈ xs.splitBy le) : X.Pairwise fun x y => le x y :=
  pairwise_of_isChain trans (List.isChain_of_mem_splitBy h)

include trans in
/-- A pass is stable. -/
theorem stable_pass (xs : List α) : Stable le xs (pass le xs) := by
  have hruns := stable_mergePairs trans (L := xs.splitBy le)
    fun _ hX => pairwise_of_mem_splitBy trans hX
  rwa [List.flatten_splitBy] at hruns

include trans total in
/-- A pass leaves half of the runs, rounded up. -/
theorem length_splitBy_pass (xs : List α) :
    ((pass le xs).splitBy le).length ≤ ((xs.splitBy le).length + 1) / 2 := by
  rw [← length_mergePairs le]
  refine length_splitBy_flatten fun X hX => List.Pairwise.isChain ?_
  exact pairwise_mergePairs trans total (fun _ hY => pairwise_of_mem_splitBy trans hY) X hX

include total in
/-- Two stable sequences that are sorted are the same. -/
theorem Stable.eq_of_pairwise (h : Stable le ys zs) (hys : ys.Pairwise fun x y => le x y)
    (hzs : zs.Pairwise fun x y => le x y) : zs = ys := by
  have hself : ∀ a, equal le a a := fun a => by simpa [equal] using total a a
  induction ys generalizing zs with
  | nil =>
    cases zs with
    | nil => rfl
    | cons z zs =>
      have hz := h z
      rw [List.filter_cons_of_pos (hself z)] at hz
      cases hz
  | cons y ys ih =>
    have hy := h y
    rw [List.filter_cons_of_pos (hself y)] at hy
    cases zs with
    | nil => cases hy
    | cons z zs =>
      -- the first elements are the least, so equal for `le`, and then the same
      have hzmem : z ∈ y :: ys := by
        have hz := h z
        rw [List.filter_cons_of_pos (hself z)] at hz
        exact List.mem_of_mem_filter (hz ▸ List.mem_cons_self)
      have hymem : y ∈ z :: zs := List.mem_of_mem_filter (hy ▸ List.mem_cons_self)
      have hyz : le y z := by
        rcases List.mem_cons.mp hzmem with rfl | hmem
        · exact (equal_iff.mp (hself z)).1
        · exact List.rel_of_pairwise_cons hys hmem
      have hzy : le z y := by
        rcases List.mem_cons.mp hymem with rfl | hmem
        · exact (equal_iff.mp (hself y)).1
        · exact List.rel_of_pairwise_cons hzs hmem
      rw [List.filter_cons_of_pos (equal_iff.mpr ⟨hyz, hzy⟩)] at hy
      obtain rfl : z = y := (List.cons.inj hy).1
      refine congrArg (z :: ·) (ih (fun a => ?_) hys.tail hzs.tail)
      have ha := h a
      rw [List.filter_cons, List.filter_cons] at ha
      split at ha
      · exact (List.cons.inj ha).2
      · exact ha

include trans total in
theorem stable_mergeSort (xs : List α) : Stable le xs (xs.mergeSort le) := by
  intro a
  have hsorted : (xs.filter (equal le a)).Pairwise fun x y => le x y := by
    refine List.pairwise_of_forall_mem_list fun x hx y hy => ?_
    have hx' := (List.mem_filter.mp hx).2
    have hy' := (List.mem_filter.mp hy).2
    rw [equal_iff] at hx' hy'
    exact trans _ _ _ hx'.2 hy'.1
  have hsub := (List.sublist_mergeSort trans total hsorted List.filter_sublist).filter
    (equal le a)
  rw [List.filter_filter] at hsub
  simp only [Bool.and_self] at hsub
  exact (hsub.eq_of_length ((List.mergeSort_perm xs le).filter _).length_eq.symm).symm

include trans total in
/-- What is stable and sorted is the result of `mergeSort`. -/
theorem Stable.eq_mergeSort (h : Stable le xs ys) (hys : ys.Pairwise fun x y => le x y) :
    ys = xs.mergeSort le := by
  have hsort : Stable le (xs.mergeSort le) ys :=
    fun a => (h a).trans (stable_mergeSort trans total xs a).symm
  exact hsort.eq_of_pairwise total (List.pairwise_mergeSort trans total xs) hys

include trans total in
/-- Sorting may begin with a pass. -/
theorem mergeSort_pass (xs : List α) : (pass le xs).mergeSort le = xs.mergeSort le := by
  have hstable := (stable_pass trans xs).trans (stable_mergeSort trans total (pass le xs))
  exact hstable.eq_mergeSort trans total (List.pairwise_mergeSort trans total _)

include trans total in
/-- The pass that merges the last two runs. -/
theorem pass_eq_mergeSort (h : (xs.splitBy le).length ≤ 2) : pass le xs = xs.mergeSort le := by
  refine (stable_pass trans xs).eq_mergeSort trans total ?_
  have hsorted := pairwise_mergePairs trans total (L := xs.splitBy le)
    fun _ hX => pairwise_of_mem_splitBy trans hX
  have hlength := length_mergePairs le (xs.splitBy le)
  rw [pass]
  match hruns : mergePairs le (xs.splitBy le) with
  | [] => exact List.Pairwise.nil
  | [X] =>
    rw [List.flatten_singleton]
    exact hsorted X (hruns ▸ List.mem_cons_self)
  | X :: Y :: L =>
    rw [hruns, List.length_cons, List.length_cons] at hlength
    omega

end

end DocMachine.Lib.NaturalMerge
