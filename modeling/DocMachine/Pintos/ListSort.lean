import DocMachine.Lib.NaturalMerge
import DocMachine.Pintos.ListOperations

/-!
# Sorting a list

`list_sort` of `pintos_task0_sk4520/src/lib/kernel/list.c` (405-440, with `is_sorted` 342-350,
`find_end_of_run` 358-372 and `inplace_merge` 380-399) is natural merge sort in place: the end of a
run is found by comparing neighbours, and two runs are merged by moving elements of the second one
before an element of the first one.

* The model takes a bound on the turns of each loop. What is proved is that the length of the list
  is enough for the loops over it, and that there are as many passes as halvings of the number of
  runs.
* The assertions that the runs are sorted hold for a comparison that is an order.
* The passes are those of the library on natural merge sort, so that their result is `mergeSort`.

Results:
* `findEndOfRun_eq`: `find_end_of_run` finds the next run.
* `inplaceMerge_holds`: merging two sorted runs.
* `listSortPass_pass` and `listSortLoop_holds`: a pass over the whole list, and that each halves the
  number of runs.
* `listSort_stable`: `list_sort` sorts and is stable, with `k` passes for a list of at most `2 ^ k`
  runs.
-/

namespace DocMachine.Pintos

open DocMachine.Lib.NaturalMerge

variable {h h' : Elems} {list : KernelList} {a b e : Addr} {xs as bs R X Y ds : List Addr}
  {fuel turns : ℕ}

/-- Different places of the list. -/
theorem Holds.from_ne (hold : Holds h list (as ++ (X ++ bs))) (hX : X ≠ []) :
    list.from (X ++ bs) ≠ list.from bs := by
  have hx₀ := List.head?_eq_some_head hX
  generalize X.head hX = x₀ at hx₀
  have hmem := List.mem_of_head? hx₀
  have hqmem := from_mem list bs
  have hnodup := hold.nodup
  rw [chain_append, List.append_assoc] at hnodup
  have hdisjoint := (List.nodup_append.mp (List.nodup_append.mp hnodup).2.1).2.2
  rw [from_append list hx₀]
  exact hdisjoint x₀ hmem _ hqmem

theorem Holds.listPrev_cons (hold : Holds h list (as ++ a :: b :: bs)) :
    Pintos.listPrev h b = some a := by
  have hold' : Holds h list ((as ++ [a]) ++ b :: bs) := by simpa using hold
  have hlast : list.upTo (as ++ [a]) = a := by simp [KernelList.upTo]
  have hprev := hold'.listPrev
  rwa [hlast] at hprev

variable {less : Addr → Addr → Bool}

/-! ## Runs -/

theorem isSortedFrom_eq (hold : Holds h list (as ++ a :: (R ++ ds)))
    (hR : (a :: R).IsChain fun x y => notLess less x y) (hfuel : R.length < fuel) :
    isSortedFrom less h (list.from ds) fuel a = some true := by
  induction R generalizing as a fuel with
  | nil =>
    obtain ⟨fuel, rfl⟩ : ∃ n, fuel = n + 1 := ⟨fuel - 1, by omega⟩
    rw [isSortedFrom, hold.listNext]
    simp
  | cons b R ih =>
    obtain ⟨fuel, rfl⟩ : ∃ n, fuel = n + 1 := ⟨fuel - 1, by omega⟩
    obtain ⟨hab, hR⟩ := List.isChain_cons_cons.mp hR
    have hold' : Holds h list ((as ++ [a]) ++ b :: (R ++ ds)) := by simpa using hold
    have hne : b ≠ list.from ds := hold'.from_ne (X := b :: R) nofun
    have hless : less b a = false := by simpa [notLess] using hab
    have hnext := ih hold' hR (Nat.lt_of_succ_lt_succ hfuel)
    rw [isSortedFrom, hold.listNext]
    simp [from_cons, hne, hold.listPrev_cons, hless, hnext]

theorem isSorted_eq (hold : Holds h list (as ++ (R ++ ds)))
    (hR : R.IsChain fun x y => notLess less x y) (hfuel : R.length ≤ fuel) :
    isSorted less h fuel (list.from (R ++ ds)) (list.from ds) = some true := by
  cases R with
  | nil => simp [isSorted]
  | cons a R =>
    rw [isSorted, if_pos (hold.from_ne nofun)]
    exact isSortedFrom_eq hold hR hfuel

/-- The run that begins with `a` is followed by a smaller element, or by nothing. -/
theorem findEndOfRunFrom_eq (hold : Holds h list (as ++ a :: (R ++ ds)))
    (hR : (a :: R).IsChain fun x y => notLess less x y)
    (hds : ∀ d ∈ ds.head?, less d ((a :: R).getLast nofun) = true) (hfuel : R.length < fuel) :
    findEndOfRunFrom less h (listEnd list) fuel a = some (list.from ds) := by
  induction R generalizing as a fuel with
  | nil =>
    obtain ⟨fuel, rfl⟩ : ∃ n, fuel = n + 1 := ⟨fuel - 1, by omega⟩
    rw [findEndOfRunFrom, hold.listNext]
    cases ds with
    | nil => simp [from_nil]
    | cons d ds =>
      have hprev : Pintos.listPrev h d = some a := hold.listPrev_cons
      have hless : less d a = true := by simpa using hds
      have hne : d ≠ listEnd list := hold.ne_end (by simp)
      simp [from_cons, hne, hprev, hless]
  | cons b R ih =>
    obtain ⟨fuel, rfl⟩ : ∃ n, fuel = n + 1 := ⟨fuel - 1, by omega⟩
    obtain ⟨hab, hR⟩ := List.isChain_cons_cons.mp hR
    have hold' : Holds h list ((as ++ [a]) ++ b :: (R ++ ds)) := by simpa using hold
    have hne : b ≠ listEnd list := hold.ne_end (by simp)
    have hless : less b a = false := by simpa [notLess] using hab
    have hnext := ih hold' hR (by simpa using hds) (Nat.lt_of_succ_lt_succ hfuel)
    rw [findEndOfRunFrom, hold.listNext]
    simp [from_cons, hne, hold.listPrev_cons, hless, hnext]

/-- The sequences are runs of the list that they are. -/
def Runs (less : Addr → Addr → Bool) (L : List (List Addr)) : Prop :=
  L.flatten.splitBy (notLess less) = L

theorem Runs.tail {L : List (List Addr)} (hL : Runs less (X :: L)) : Runs less L := by
  obtain ⟨-, hnil, hchain, hcut⟩ := List.splitBy_eq_iff.mp hL
  exact List.splitBy_flatten (fun hmem => hnil (List.mem_cons_of_mem X hmem))
    (fun Y hY => hchain Y (List.mem_cons_of_mem X hY)) hcut.tail

theorem Runs.head {L : List (List Addr)} (hL : Runs less (X :: L)) :
    X ≠ [] ∧ X.IsChain fun x y => notLess less x y := by
  obtain ⟨-, hnil, hchain, -⟩ := List.splitBy_eq_iff.mp hL
  exact ⟨fun heq => hnil (heq ▸ List.mem_cons_self), hchain X List.mem_cons_self⟩

theorem Runs.cut {L : List (List Addr)} (hL : Runs less (X :: L)) (hX : X ≠ []) :
    ∀ d ∈ L.flatten.head?, less d (X.getLast hX) = true := by
  cases L with
  | nil => exact nofun
  | cons Y L =>
    obtain ⟨-, -, -, hcut⟩ := List.splitBy_eq_iff.mp hL
    obtain ⟨hX', hY, hless⟩ := (List.isChain_cons.mp hcut).1 Y rfl
    intro d hd
    rw [List.flatten_cons, List.head?_append_of_ne_nil _ hY, List.head?_eq_some_head hY] at hd
    obtain rfl := Option.some.inj hd
    simpa [notLess] using hless

/-- `find_end_of_run` finds the next run. -/
theorem findEndOfRun_eq {L : List (List Addr)} (hold : Holds h list (as ++ (X :: L).flatten))
    (hL : Runs less (X :: L)) (hfuel : X.length ≤ fuel) :
    findEndOfRun less h fuel (list.from (X :: L).flatten) (listEnd list) =
      some (list.from L.flatten) := by
  obtain ⟨hX, hchain⟩ := hL.head
  have hcut := hL.cut hX
  cases X with
  | nil => exact absurd rfl hX
  | cons a R =>
    have hold' : Holds h list (as ++ a :: (R ++ L.flatten)) := hold
    have hne : a ≠ listEnd list := hold'.ne_end (by simp)
    rw [findEndOfRun, List.flatten_cons, List.cons_append, from_cons, if_neg hne]
    exact findEndOfRunFrom_eq hold' hchain hcut hfuel

/-! ## Merging -/

theorem inplaceMergeFrom_holds (hold : Holds h list (as ++ (X ++ (Y ++ ds))))
    (hfuel : X.length + Y.length < fuel) :
    ∃ h', inplaceMergeFrom less (list.from ds) fuel h (list.from (X ++ (Y ++ ds)))
        (list.from (Y ++ ds)) = some h' ∧
      Holds h' list (as ++ (X.merge Y (notLess less) ++ ds)) ∧
      Within (list.chain (as ++ (X ++ (Y ++ ds)))) h h' := by
  induction fuel generalizing h as X Y with
  | zero => omega
  | succ fuel ih =>
    rw [inplaceMergeFrom]
    cases X with
    | nil =>
      refine ⟨h, if_neg (by simp), ?_, .refl _ h⟩
      rwa [List.nil_merge]
    | cons x X =>
      cases Y with
      | nil =>
        refine ⟨h, if_neg (by simp), ?_, .refl _ h⟩
        rwa [List.merge_right]
      | cons y Y =>
        have hold₁ : Holds h list ((as ++ x :: X) ++ ((y :: Y) ++ ds)) := by simpa using hold
        have hxy := hold.from_ne (X := x :: X) nofun
        have hyd := hold₁.from_ne (X := y :: Y) nofun
        rw [if_pos ⟨hxy, hyd⟩]
        simp only [List.length_cons] at hfuel
        have hnext : Pintos.listNext h y = some (list.from (Y ++ ds)) := by
          have hold' : Holds h list ((as ++ x :: X) ++ y :: (Y ++ ds)) := by simpa using hold
          exact hold'.listNext
        by_cases hless : less y x
        · -- `y` goes before `x`
          have hold₂ : Holds h list (as ++ ((x :: X) ++ ([y] ++ (Y ++ ds)))) := by simpa using hold
          have hold₃ : Holds h list ((as ++ (x :: X ++ [y])) ++ (Y ++ ds)) := by simpa using hold
          have hprev : Pintos.listPrev h (list.from (Y ++ ds)) = some y := by
            have hlast : list.upTo (as ++ (x :: X ++ [y])) = y :=
              upTo_append list as List.getLast?_concat
            rw [hold₃.listPrev, hlast]
          obtain ⟨h₁, hsplice, hold₄, hw⟩ := listSplice_back hold₂ nofun nofun
          have hold₅ : Holds h₁ list ((as ++ [y]) ++ ((x :: X) ++ (Y ++ ds))) := by
            simpa using hold₄
          obtain ⟨h', hloop, hold', hw'⟩ := ih hold₅ (by rw [List.length_cons]; omega)
          refine ⟨h', ?_, ?_, ?_⟩
          · rw [from_append list rfl, from_append list rfl, hless]
            simp only [List.cons_append, List.nil_append, from_cons] at hsplice hloop
            simp [hnext, hprev, hsplice, hloop]
          · rw [List.cons_merge_cons_neg _ _ _ (by simp [notLess, hless])]
            simpa using hold'
          · refine (hw.mono fun c hc => ?_).trans (hw'.mono fun c hc => ?_)
            · simpa using hc
            · simp only [mem_chain, List.mem_append, List.mem_cons, List.not_mem_nil] at hc ⊢
              tauto
        · have hnextx : Pintos.listNext h x = some (list.from (X ++ ((y :: Y) ++ ds))) :=
            Holds.listNext hold
          have hold₂ : Holds h list ((as ++ [x]) ++ (X ++ ((y :: Y) ++ ds))) := by
            simpa using hold
          obtain ⟨h', hloop, hold', hw'⟩ := ih hold₂ (by rw [List.length_cons]; omega)
          refine ⟨h', ?_, ?_, by simpa using hw'⟩
          · rw [List.cons_append, from_cons, List.cons_append, from_cons]
            simp only [List.cons_append, from_cons] at hnextx hloop
            simp [hless, hnextx, hloop]
          · rw [List.cons_merge_cons_pos _ _ _ (by simp [notLess, hless])]
            simpa using hold'

/-- **Merging** two sorted runs. -/
theorem inplaceMerge_holds (hold : Holds h list (as ++ (X ++ (Y ++ ds))))
    (hX : X.IsChain fun x y => notLess less x y) (hY : Y.IsChain fun x y => notLess less x y)
    (hfuel : X.length + Y.length < fuel) :
    ∃ h', inplaceMerge less h fuel (list.from (X ++ (Y ++ ds))) (list.from (Y ++ ds))
        (list.from ds) = some h' ∧
      Holds h' list (as ++ (X.merge Y (notLess less) ++ ds)) ∧
      Within (list.chain (as ++ (X ++ (Y ++ ds)))) h h' := by
  have hold' : Holds h list ((as ++ X) ++ (Y ++ ds)) := by rwa [List.append_assoc]
  obtain ⟨h', hloop, hmerged⟩ := inplaceMergeFrom_holds hold hfuel
  refine ⟨h', ?_, hmerged⟩
  rw [inplaceMerge, isSorted_eq hold hX (by omega), isSorted_eq hold' hY (by omega)]
  simpa using hloop

/-! ## Passes -/

theorem listSortPass_holds {L : List (List Addr)} (hold : Holds h list (as ++ L.flatten))
    (hL : Runs less L) (cnt : ℕ) (hfuel : L.flatten.length < fuel) (hturns : L.length < turns) :
    ∃ h', listSortPass less list fuel turns h (list.from L.flatten) cnt =
        some (h', cnt + (mergePairs (notLess less) L).length) ∧
      Holds h' list (as ++ (mergePairs (notLess less) L).flatten) ∧
      Within (list.chain (as ++ L.flatten)) h h' := by
  induction turns generalizing h as L cnt with
  | zero => omega
  | succ turns ih =>
    match L with
    | [] => exact ⟨h, by simp [listSortPass, from_nil, mergePairs], hold, .refl _ h⟩
    | [X] =>
      have hX := hL.head.1
      have hne : list.from [X].flatten ≠ listEnd list := fun heq => hX (by
        simpa using hold.from_eq_end.mp heq)
      have hX' : X.length ≤ fuel := by
        rw [List.flatten_singleton] at hfuel
        exact Nat.le_of_lt hfuel
      have hrun := findEndOfRun_eq hold hL hX'
      refine ⟨h, ?_, hold, .refl _ h⟩
      rw [listSortPass, if_neg hne, hrun]
      simp [from_nil, mergePairs]
    | X :: Y :: L =>
      simp only [List.flatten_cons, List.length_append, List.length_cons] at hfuel hturns
      have hX := hL.head
      have hY := hL.tail.head
      have hold₁ : Holds h list ((as ++ X) ++ (Y :: L).flatten) := by simpa using hold
      have hne : list.from (X :: Y :: L).flatten ≠ listEnd list := fun heq => hX.1 (by
        simpa using List.append_eq_nil_iff.mp (hold.from_eq_end.mp heq) |>.1)
      have hne₁ : list.from (Y :: L).flatten ≠ listEnd list := fun heq => hY.1 (by
        simpa using List.append_eq_nil_iff.mp (hold₁.from_eq_end.mp heq) |>.1)
      have hXY : X.length + Y.length < fuel := by omega
      have hrun := findEndOfRun_eq hold hL (Nat.le_of_lt (Nat.lt_of_add_right_lt hXY))
      have hrun₁ := findEndOfRun_eq hold₁ hL.tail (Nat.le_of_lt (Nat.lt_of_add_left_lt hXY))
      obtain ⟨h₁, hmerge, hold₂, hw⟩ := inplaceMerge_holds
        (show Holds h list (as ++ (X ++ (Y ++ L.flatten))) from hold) hX.2 hY.2 hXY
      have hold₃ : Holds h₁ list ((as ++ X.merge Y (notLess less)) ++ L.flatten) := by
        simpa using hold₂
      obtain ⟨h', hpass, hold', hw'⟩ := ih hold₃ hL.tail.tail (cnt + 1) (by omega) (by omega)
      refine ⟨h', ?_, by simpa [mergePairs] using hold', ?_⟩
      · rw [listSortPass, if_neg hne]
        simp only [Option.bind_eq_bind, Option.bind_some, hrun, if_neg hne₁, hrun₁]
        rw [List.flatten_cons, List.flatten_cons, hmerge, Option.bind_some, hpass, mergePairs,
          List.length_cons]
        simp [Nat.add_assoc, Nat.add_comm]
      · refine hw.trans (hw'.mono fun c hc => ?_)
        simp only [mem_chain, List.mem_append, List.mem_merge] at hc ⊢
        tauto

theorem length_splitBy_le (less : Addr → Addr → Bool) (xs : List Addr) :
    (xs.splitBy (notLess less)).length ≤ xs.length := by
  have hnil := List.nil_notMem_splitBy (notLess less) xs
  have hsum : (xs.splitBy (notLess less)).flatten.length = xs.length := by
    rw [List.flatten_splitBy]
  rw [← hsum, List.length_flatten]
  generalize xs.splitBy (notLess less) = L at hnil
  clear hsum
  induction L with
  | nil => exact Nat.le_refl 0
  | cons X L ih =>
    rw [List.mem_cons, not_or] at hnil
    have hrest := ih hnil.2
    have hX := List.length_pos_iff.mpr (Ne.symm hnil.1)
    rw [List.length_cons, List.map_cons, List.sum_cons]
    omega

/-- One pass over the whole list. -/
theorem listSortPass_pass (less : Addr → Addr → Bool) (hold : Holds h list xs)
    (hfuel : xs.length < fuel) :
    ∃ h', listSortPass less list fuel fuel h (list.from xs) 0 =
        some (h', ((xs.splitBy (notLess less)).length + 1) / 2) ∧
      Holds h' list (pass (notLess less) xs) ∧ Within (list.chain xs) h h' := by
  have hflat := List.flatten_splitBy (notLess less) xs
  have hcount := length_splitBy_le less xs
  have hold₀ : Holds h list ([] ++ (xs.splitBy (notLess less)).flatten) := by rwa [hflat]
  have hruns : Runs less (xs.splitBy (notLess less)) := by rw [Runs, hflat]
  obtain ⟨h', hpass, hold', hw⟩ := listSortPass_holds hold₀ hruns 0 (by rwa [hflat])
    (Nat.lt_of_le_of_lt hcount hfuel)
  rw [hflat, Nat.zero_add, length_mergePairs] at hpass
  exact ⟨h', hpass, hold', by simpa [hflat] using hw⟩

/-! ## The whole sort -/

theorem perm_pass (ord : LessFunc less) (xs : List Addr) :
    (pass (notLess less) xs).Perm xs := by
  have hsort := List.mergeSort_perm (pass (notLess less) xs) (notLess less)
  rw [mergeSort_pass ord.notLess_trans ord.notLess_total xs] at hsort
  exact hsort.symm.trans (List.mergeSort_perm xs (notLess less))

/-- Each pass halves the number of runs. -/
theorem listSortLoop_holds (ord : LessFunc less) (hold : Holds h list xs)
    (hfuel : xs.length < fuel) (hturns : 0 < turns)
    (hruns : (xs.splitBy (notLess less)).length ≤ 2 ^ turns) :
    ∃ h', listSortLoop less list fuel turns h = some h' ∧
      Holds h' list (xs.mergeSort (notLess less)) ∧ Within (list.chain xs) h h' := by
  induction turns generalizing h xs with
  | zero => exact absurd hturns (Nat.lt_irrefl 0)
  | succ turns ih =>
    obtain ⟨h₁, hpass, hold₁, hw⟩ := listSortPass_pass less hold hfuel
    rw [listSortLoop, hold.listBegin]
    simp only [Option.bind_eq_bind, Option.bind_some, hpass]
    by_cases hcnt : 1 < ((xs.splitBy (notLess less)).length + 1) / 2
    · have hsort := mergeSort_pass ord.notLess_trans ord.notLess_total xs
      have hhalf := length_splitBy_pass ord.notLess_trans ord.notLess_total xs
      have hperm := perm_pass ord xs
      have hturns' : 0 < turns := by
        rcases Nat.eq_zero_or_pos turns with rfl | hpos
        · omega
        · exact hpos
      rw [Nat.pow_succ] at hruns
      obtain ⟨h', hloop, hold', hw'⟩ :=
        ih hold₁ (by rwa [hperm.length_eq]) hturns' (by omega)
      refine ⟨h', by rw [if_pos hcnt, hloop], by rwa [← hsort], hw.trans (hw'.mono fun c hc => ?_)⟩
      simpa [hperm.mem_iff] using hc
    · have hlast := pass_eq_mergeSort ord.notLess_trans ord.notLess_total
        (show (xs.splitBy (notLess less)).length ≤ 2 by omega)
      exact ⟨h₁, by rw [if_neg hcnt]; rfl, hlast ▸ hold₁, hw⟩

/-- **Sorting.** -/
theorem listSort_holds (ord : LessFunc less) (hold : Holds h list xs) (hfuel : xs.length < fuel) :
    ∃ h', listSort less h list fuel = some h' ∧
      Holds h' list (xs.mergeSort (notLess less)) ∧ Within (list.chain xs) h h' := by
  have hcount := length_splitBy_le less xs
  have hpow : fuel < 2 ^ fuel := Nat.lt_two_pow_self
  obtain ⟨h', hloop, hold', hw⟩ := listSortLoop_holds ord hold hfuel (Nat.zero_lt_of_lt hfuel)
    (by omega)
  have hsorted := (List.pairwise_mergeSort ord.notLess_trans ord.notLess_total xs).isChain
  have hsort : Holds h' list ([] ++ (xs.mergeSort (notLess less) ++ [])) := by
    rwa [List.append_nil]
  have hlength : (xs.mergeSort (notLess less)).length ≤ fuel := by
    rw [List.length_mergeSort]
    exact Nat.le_of_lt hfuel
  have hend := isSorted_eq hsort hsorted hlength
  rw [List.append_nil] at hend
  refine ⟨h', ?_, hold', hw⟩
  rw [listSort, hloop]
  simp only [Option.bind_eq_bind, Option.bind_some, hold'.listBegin]
  rw [← from_nil, hend]
  rfl

theorem listSortLoop_mono {k : ℕ} (hloop : listSortLoop less list fuel k h = some h')
    (hle : k ≤ turns) : listSortLoop less list fuel turns h = some h' := by
  induction k generalizing turns h with
  | zero => cases hloop
  | succ k ih =>
    obtain ⟨turns, rfl⟩ : ∃ n, turns = n + 1 := ⟨turns - 1, by omega⟩
    rw [listSortLoop] at hloop ⊢
    obtain ⟨a, hbegin, hloop⟩ := Option.bind_eq_some_iff.mp hloop
    obtain ⟨⟨h₁, cnt⟩, hpass, hloop⟩ := Option.bind_eq_some_iff.mp hloop
    simp only [Option.bind_eq_bind, hbegin, Option.bind_some, hpass] at hloop ⊢
    by_cases hcnt : 1 < cnt
    · rw [if_pos hcnt] at hloop ⊢
      exact ih hloop (Nat.le_of_succ_le_succ hle)
    · rw [if_neg hcnt] at hloop ⊢
      exact hloop

/-- **`list_sort`** sorts the list and is stable: elements in order before are in the same order
after. When the list has at most `2 ^ k` runs, `k` passes are enough. -/
theorem listSort_stable {k : ℕ} (ord : LessFunc less) (hold : Holds h list xs)
    (hfuel : xs.length < fuel) (hk : 0 < k)
    (hruns : (xs.splitBy (notLess less)).length ≤ 2 ^ k) :
    ∃ h' ys, listSort less h list fuel = some h' ∧ listSortLoop less list fuel k h = some h' ∧
      Holds h' list ys ∧ ys.Perm xs ∧ ys.Pairwise (fun a b => less b a = false) ∧
      (∀ zs : List Addr, zs.Pairwise (fun a b => less b a = false) → zs.Sublist xs →
        zs.Sublist ys) ∧
      ∀ a, a ∉ list.chain xs → h'.next a = h.next a ∧ h'.prev a = h.prev a := by
  obtain ⟨h', hsort, hold', hw⟩ := listSort_holds ord hold hfuel
  obtain ⟨h₁, hloop, -, -⟩ := listSortLoop_holds ord hold hfuel hk hruns
  have hsame : h₁ = h' := by
    obtain ⟨h₂, hloop₂, hsort₂⟩ := Option.bind_eq_some_iff.mp hsort
    have heq := (listSortLoop_mono hloop₂ (Nat.le_max_right k fuel)).symm.trans
      (listSortLoop_mono hloop (Nat.le_max_left k fuel))
    cases heq
    obtain ⟨a, hbegin, hsort₂⟩ := Option.bind_eq_some_iff.mp hsort₂
    obtain ⟨sorted, -, hsort₂⟩ := Option.bind_eq_some_iff.mp hsort₂
    cases sorted
    · cases hsort₂
    · exact Option.some.inj hsort₂
  subst hsame
  have hle : (fun a b => less b a = false) = fun a b => (notLess less a b : Prop) := by
    funext a b
    simp [notLess]
  refine ⟨h₁, _, hsort, hloop, hold', List.mergeSort_perm xs _, ?_, fun zs hzs hsub => ?_,
    fun a ha => ⟨hw.next a ha, hw.prev a ha⟩⟩
  · rw [hle]
    exact List.pairwise_mergeSort ord.notLess_trans ord.notLess_total xs
  · rw [hle] at hzs
    exact List.sublist_mergeSort ord.notLess_trans ord.notLess_total hzs hsub

/-- A list at 0 and 1 with the elements 7 and 5. -/
def sevenFive : Elems := fun a =>
  match a with
  | 0 => some ⟨none, some 7⟩
  | 7 => some ⟨some 0, some 5⟩
  | 5 => some ⟨some 7, some 1⟩
  | 1 => some ⟨some 5, none⟩
  | _ => none

theorem listSort_stable_sevenFive :
    ∃ h' ys, listSort (fun a b => a < b) sevenFive ⟨0, 1⟩ 3 = some h' ∧
      listSortLoop (fun a b => a < b) ⟨0, 1⟩ 3 1 sevenFive = some h' ∧
      Holds h' ⟨0, 1⟩ ys ∧ ys.Perm [7, 5] ∧ ys.Pairwise (fun a b => decide (b < a) = false) ∧
      (∀ zs : List Addr, zs.Pairwise (fun a b => decide (b < a) = false) → zs.Sublist [7, 5] →
        zs.Sublist ys) ∧
      ∀ a, a ∉ KernelList.chain ⟨0, 1⟩ [7, 5] →
        h'.next a = sevenFive.next a ∧ h'.prev a = sevenFive.prev a := by
  refine listSort_stable ⟨fun a b hab => ?_, fun a b d hab hbd => ?_⟩
    ⟨?_, rfl, rfl, by decide⟩ (by decide) (by decide) (by decide)
  · simp only [decide_eq_true_eq, decide_eq_false_iff_not] at hab ⊢
    exact Nat.lt_asymm hab
  · simp only [decide_eq_false_iff_not, Nat.not_lt] at hab hbd ⊢
    exact hab.trans hbd
  · exact .cons_cons ⟨rfl, rfl⟩ (.cons_cons ⟨rfl, rfl⟩ (.cons_cons ⟨rfl, rfl⟩ (.singleton 1)))

end DocMachine.Pintos
