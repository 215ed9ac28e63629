import DocMachine.Pintos.ListContents
import Mathlib.Data.List.Destutter
import Mathlib.Data.List.Sort

/-!
# The operations on a list

What the other functions of `pintos_task0_sk4520/src/lib/kernel/list.c` do to the contents of a
list, `list_sort` apart: the ends of the list (72-163, 209-220, 260-293), the loops that read it
(`list_size` 298-306, `list_max` 493-505, `list_min` 512-524) and those that write it
(`list_reverse` 326-337, `list_insert_ordered` 446-459, `list_unique` 466-486).

* A loop over the list is an induction on the rest of it, from the place where it stands. The fuel
  that is enough is one more than the length.
* `LessFunc` says of a comparison that it is a strict weak order; `list_max` and `list_unique` need
  less.
* `list_reverse` exchanges the two links of every element and then the links at the two ends.

Results:
* `foldl_first`: of the greatest elements `list_max` returns the first.
* `listInsertOrdered_holds`: ordered insertion, after the elements that are not greater.
* `listUnique_none` and `listUnique_some`: removing repeated elements, which go or move to the end
  of another list; `unique_perm`: no element is lost.
* `listReverse_holds`: reversal.
-/

namespace DocMachine.Pintos

open DocMachine.Lib.Pointers

variable {h h' : Elems} {list : KernelList} {a b e : Addr} {xs as bs : List Addr} {fuel : ℕ}

/-! ## Iterating -/

theorem from_cons (list : KernelList) (b : Addr) (bs : List Addr) : list.from (b :: bs) = b := rfl

theorem from_nil (list : KernelList) : list.from [] = listEnd list := rfl

theorem Holds.ne_end (hold : Holds h list xs) (hb : b ∈ xs) : b ≠ listEnd list := by
  rintro rfl
  have hnodup := hold.nodup
  rw [KernelList.chain, List.nodup_append] at hnodup
  exact hnodup.2.2 _ (List.mem_cons_of_mem _ hb) _ List.mem_cons_self rfl

theorem Holds.from_eq_end (hold : Holds h list (as ++ bs)) :
    list.from bs = listEnd list ↔ bs = [] := by
  cases bs with
  | nil => exact ⟨fun _ => rfl, fun _ => rfl⟩
  | cons b bs =>
    exact ⟨fun heq => absurd heq (hold.ne_end (by simp [from_cons])), nofun⟩

theorem Holds.listBegin (hold : Holds h list xs) : listBegin h list = some (list.from xs) := by
  have hold' : Holds h list ([] ++ xs) := hold
  exact hold'.link.1

theorem Holds.prev_end (hold : Holds h list xs) : h.prev list.tail = some (list.upTo xs) := by
  have hold' : Holds h list (xs ++ []) := by rwa [List.append_nil]
  exact hold'.link.2

theorem Holds.listNext (hold : Holds h list (as ++ b :: bs)) :
    listNext h b = some (list.from bs) := by
  have hold' : Holds h list ((as ++ [b]) ++ bs) := by simpa using hold
  have hlast : list.upTo (as ++ [b]) = b := by simp [KernelList.upTo]
  exact listNext_eq (hlast ▸ hold'.link.1)

theorem Holds.listPrev (hold : Holds h list (as ++ bs)) :
    listPrev h (list.from bs) = some (list.upTo as) :=
  listPrev_eq hold.link.2

theorem Holds.listEmpty (hold : Holds h list xs) :
    listEmpty h list = some (decide (xs = [])) := by
  have hold' : Holds h list ([] ++ xs) := hold
  rw [Pintos.listEmpty, hold.listBegin]
  simp [hold'.from_eq_end]

/-! ## The ends -/

theorem listPushFront_holds (hold : Holds h list xs) (he : (h e).isSome)
    (hnew : e ∉ list.chain xs) :
    ∃ h', listPushFront h list e = some h' ∧ Holds h' list (e :: xs) ∧
      Within (list.chain (e :: xs)) h h' := by
  rw [listPushFront, hold.listBegin]
  have hold' : Holds h list ([] ++ xs) := hold
  exact listInsert_holds hold' he hnew

theorem listPushBack_holds (hold : Holds h list xs) (he : (h e).isSome)
    (hnew : e ∉ list.chain xs) :
    ∃ h', listPushBack h list e = some h' ∧ Holds h' list (xs ++ [e]) ∧
      Within (list.chain (xs ++ [e])) h h' := by
  have hold' : Holds h list (xs ++ []) := by rwa [List.append_nil]
  exact listInsert_holds hold' he (by rwa [List.append_nil])

theorem listFront_eq (hold : Holds h list (b :: bs)) : listFront h list = some b := by
  have hfirst : h.next list.head = some b := hold.listBegin
  rw [listFront, hold.listEmpty]
  simpa using hfirst

theorem listBack_eq (hold : Holds h list (as ++ [b])) : listBack h list = some b := by
  have hlast : list.upTo (as ++ [b]) = b := by simp [KernelList.upTo]
  rw [listBack, hold.listEmpty]
  simpa [hlast] using hold.prev_end

theorem listPopFront_holds (hold : Holds h list (b :: bs)) :
    ∃ h', listPopFront h list = some (b, h') ∧ Holds h' list bs ∧
      Within (list.chain bs) h h' := by
  obtain ⟨h', hremove, hold', hw⟩ :=
    listRemove_holds (show Holds h list ([] ++ b :: bs) from hold)
  refine ⟨h', ?_, hold', hw⟩
  rw [listPopFront, listFront_eq hold]
  simp [hremove]

theorem listPopBack_holds (hold : Holds h list (as ++ [b])) :
    ∃ h', listPopBack h list = some (b, h') ∧ Holds h' list as ∧
      Within (list.chain as) h h' := by
  obtain ⟨h', hremove, hold', hw⟩ := listRemove_holds hold
  rw [List.append_nil] at hold' hw
  refine ⟨h', ?_, hold', hw⟩
  rw [listPopBack, listBack_eq hold]
  simp [hremove]

/-! ## Comparison -/

section

variable (less : Addr → Addr → Bool)

/-- The second element is not less than the first one. -/
def notLess (a b : Addr) : Bool := !less b a

/-- `less` is what `list_less_func` asks for: a strict weak order. -/
structure LessFunc : Prop where
  asymm : ∀ a b, less a b = true → less b a = false
  trans : ∀ a b c, less b a = false → less c b = false → less c a = false

variable {less}

theorem LessFunc.less_trans (ord : LessFunc less) (hab : less a b = true) (hbe : less b e = true) :
    less a e = true := by
  by_contra hae
  rw [ord.trans e a b (Bool.eq_false_iff.mpr hae) (ord.asymm a b hab)] at hbe
  cases hbe

/-- The order the other way. -/
theorem LessFunc.flip (ord : LessFunc less) : LessFunc fun a b => less b a :=
  ⟨fun a b => ord.asymm b a, fun a b e hab hbe => ord.trans e b a hbe hab⟩

theorem LessFunc.notLess_trans (ord : LessFunc less) (a b c : Addr) (hab : notLess less a b)
    (hbc : notLess less b c) : notLess less a c := by
  simp only [notLess, Bool.not_eq_true'] at hab hbc ⊢
  exact ord.trans a b c hab hbc

theorem LessFunc.notLess_total (ord : LessFunc less) (a b : Addr) :
    notLess less a b || notLess less b a := by
  cases hba : less b a with
  | false => simp [notLess, hba]
  | true => simp [notLess, ord.asymm b a hba]

end

/-! ## Loops that read -/

theorem listSizeFrom_eq (hold : Holds h list (as ++ bs)) (hfuel : bs.length < fuel) :
    listSizeFrom h list fuel (list.from bs) = some bs.length := by
  induction bs generalizing as fuel with
  | nil =>
    obtain ⟨fuel, rfl⟩ : ∃ n, fuel = n + 1 := ⟨fuel - 1, by omega⟩
    simp [listSizeFrom, from_nil]
  | cons b bs ih =>
    obtain ⟨fuel, rfl⟩ : ∃ n, fuel = n + 1 := ⟨fuel - 1, by omega⟩
    have hold' : Holds h list ((as ++ [b]) ++ bs) := by simpa using hold
    have hnext := ih hold' (Nat.lt_of_succ_lt_succ hfuel)
    rw [listSizeFrom, from_cons, if_neg (hold.ne_end (by simp)), hold.listNext]
    simp [hnext]

theorem listSize_eq (hold : Holds h list xs) (hfuel : xs.length < fuel) :
    listSize h list fuel = some xs.length := by
  have hold' : Holds h list ([] ++ xs) := hold
  rw [listSize, hold.listBegin]
  exact listSizeFrom_eq hold' hfuel

section

variable (less : Addr → Addr → Bool)

theorem listMaxFrom_eq (hold : Holds h list (as ++ bs)) (max : Addr) (hfuel : bs.length < fuel) :
    listMaxFrom less h list fuel max (list.from bs) =
      some (bs.foldl (fun max e => if less max e then e else max) max) := by
  induction bs generalizing as fuel max with
  | nil =>
    obtain ⟨fuel, rfl⟩ : ∃ n, fuel = n + 1 := ⟨fuel - 1, by omega⟩
    simp [listMaxFrom, from_nil]
  | cons b bs ih =>
    obtain ⟨fuel, rfl⟩ : ∃ n, fuel = n + 1 := ⟨fuel - 1, by omega⟩
    have hold' : Holds h list ((as ++ [b]) ++ bs) := by simpa using hold
    have hnext := ih hold' (if less max b then b else max) (Nat.lt_of_succ_lt_succ hfuel)
    rw [listMaxFrom, from_cons, if_neg (hold.ne_end (by simp)), hold.listNext]
    simpa using hnext

theorem listMax_eq (hold : Holds h list xs) (hfuel : xs.length < fuel) :
    listMax less h list fuel =
      some (xs.tail.foldl (fun max e => if less max e then e else max) (list.from xs)) := by
  rw [listMax, hold.listBegin]
  cases xs with
  | nil => simp [from_nil]
  | cons x xs =>
    have hold' : Holds h list ([] ++ x :: xs) := hold
    have hold₁ : Holds h list ([x] ++ xs) := hold
    have hmax := listMaxFrom_eq less hold₁ x (Nat.lt_of_succ_lt hfuel)
    simp [from_cons, hold.ne_end (List.mem_cons_self), hold'.listNext, hmax]

theorem listMinFrom_eq (hold : Holds h list (as ++ bs)) (min : Addr) (hfuel : bs.length < fuel) :
    listMinFrom less h list fuel min (list.from bs) =
      some (bs.foldl (fun min e => if less e min then e else min) min) := by
  induction bs generalizing as fuel min with
  | nil =>
    obtain ⟨fuel, rfl⟩ : ∃ n, fuel = n + 1 := ⟨fuel - 1, by omega⟩
    simp [listMinFrom, from_nil]
  | cons b bs ih =>
    obtain ⟨fuel, rfl⟩ : ∃ n, fuel = n + 1 := ⟨fuel - 1, by omega⟩
    have hold' : Holds h list ((as ++ [b]) ++ bs) := by simpa using hold
    have hnext := ih hold' (if less b min then b else min) (Nat.lt_of_succ_lt_succ hfuel)
    rw [listMinFrom, from_cons, if_neg (hold.ne_end (by simp)), hold.listNext]
    simpa using hnext

theorem listMin_eq (hold : Holds h list xs) (hfuel : xs.length < fuel) :
    listMin less h list fuel =
      some (xs.tail.foldl (fun min e => if less e min then e else min) (list.from xs)) := by
  rw [listMin, hold.listBegin]
  cases xs with
  | nil => simp [from_nil]
  | cons x xs =>
    have hold' : Holds h list ([] ++ x :: xs) := hold
    have hold₁ : Holds h list ([x] ++ xs) := hold
    have hmin := listMinFrom_eq less hold₁ x (Nat.lt_of_succ_lt hfuel)
    simp [from_cons, hold.ne_end (List.mem_cons_self), hold'.listNext, hmin]

/-- What is kept when a greater element replaces the one before is the first of the greatest. -/
theorem foldl_first (ord : LessFunc less) (x : Addr) (xs : List Addr) :
    ∃ as bs, x :: xs = as ++ xs.foldl (fun max e => if less max e then e else max) x :: bs ∧
      (∀ a ∈ as, less a (xs.foldl (fun max e => if less max e then e else max) x) = true) ∧
      ∀ b ∈ bs, less (xs.foldl (fun max e => if less max e then e else max) x) b = false := by
  induction xs generalizing x with
  | nil => exact ⟨[], [], rfl, nofun, nofun⟩
  | cons y ys ih =>
    rw [List.foldl_cons]
    cases hxy : less x y with
    | true =>
      obtain ⟨as, bs, heq, has, hbs⟩ := ih y
      simp only [if_true]
      generalize ys.foldl (fun max e => if less max e then e else max) y = m at heq has hbs ⊢
      refine ⟨x :: as, bs, by rw [heq, List.cons_append], fun a ha => ?_, hbs⟩
      rcases List.mem_cons.mp ha with rfl | ha
      · cases as with
        | nil => rwa [← (List.cons.inj heq).1]
        | cons z as =>
          obtain rfl : y = z := (List.cons.inj heq).1
          exact ord.less_trans hxy (has y List.mem_cons_self)
      · exact has a ha
    | false =>
      obtain ⟨as, bs, heq, has, hbs⟩ := ih x
      simp only [Bool.false_eq_true, if_false]
      generalize ys.foldl (fun max e => if less max e then e else max) x = m at heq has hbs ⊢
      cases as with
      | nil =>
        obtain ⟨rfl, rfl⟩ := List.cons.inj heq
        refine ⟨[], y :: ys, rfl, nofun, fun b hb => ?_⟩
        rcases List.mem_cons.mp hb with rfl | hb
        · exact hxy
        · exact hbs b hb
      | cons z as =>
        obtain ⟨rfl, rfl⟩ := List.cons.inj heq
        refine ⟨x :: y :: as, bs, rfl, fun a ha => ?_, hbs⟩
        have hxm := has x List.mem_cons_self
        rcases List.mem_cons.mp ha with rfl | ha
        · exact hxm
        rcases List.mem_cons.mp ha with rfl | ha
        · by_contra hym
          rw [ord.trans m a x (Bool.eq_false_iff.mpr hym) hxy] at hxm
          cases hxm
        · exact has a (List.mem_cons_of_mem x ha)

/-! ## Ordered insertion -/

theorem listInsertOrderedFrom_eq (hold : Holds h list (as ++ bs)) (e : Addr)
    (hfuel : bs.length < fuel) :
    listInsertOrderedFrom less h list e fuel (list.from bs) =
      some (list.from (bs.dropWhile fun b => !less e b)) := by
  induction bs generalizing as fuel with
  | nil =>
    obtain ⟨fuel, rfl⟩ : ∃ n, fuel = n + 1 := ⟨fuel - 1, by omega⟩
    simp [listInsertOrderedFrom, from_nil]
  | cons b bs ih =>
    obtain ⟨fuel, rfl⟩ : ∃ n, fuel = n + 1 := ⟨fuel - 1, by omega⟩
    have hold' : Holds h list ((as ++ [b]) ++ bs) := by simpa using hold
    have hnext := ih hold' (Nat.lt_of_succ_lt_succ hfuel)
    rw [listInsertOrderedFrom, from_cons, if_neg (hold.ne_end (by simp)), hold.listNext]
    by_cases hless : less e b
    · simp [hless, from_cons]
    · simpa [hless] using hnext

/-- **Ordered insertion**, after the elements that are not greater. -/
theorem listInsertOrdered_holds (hold : Holds h list xs) (he : (h e).isSome)
    (hnew : e ∉ list.chain xs) (hfuel : xs.length < fuel) :
    ∃ h', listInsertOrdered less h list e fuel = some h' ∧
      Holds h' list (xs.orderedInsert (fun a b => less a b = true) e) ∧
      Within (list.chain (xs.orderedInsert (fun a b => less a b = true) e)) h h' := by
  have hold' : Holds h list ([] ++ xs) := hold
  have hsplit : xs.takeWhile (fun b => !less e b) ++ xs.dropWhile (fun b => !less e b) = xs :=
    List.takeWhile_append_dropWhile
  have hxs : Holds h list
      (xs.takeWhile (fun b => !less e b) ++ xs.dropWhile (fun b => !less e b)) := by rwa [hsplit]
  obtain ⟨h', hinsert, hholds⟩ := listInsert_holds hxs he (by rwa [hsplit])
  refine ⟨h', ?_, ?_⟩
  · rw [listInsertOrdered, hold.listBegin]
    simp only [Option.bind_eq_bind, Option.bind_some,
      listInsertOrderedFrom_eq less hold' e hfuel, hinsert]
  · rw [List.orderedInsert_eq_take_drop]
    simpa using hholds

/-! ## Repeated elements -/

/-- Neither element is less than the other. -/
def equalBy (a b : Addr) : Bool := !less a b && !less b a

/-- The elements of the second list that repeat the one before them that is kept. -/
def repeats : Addr → List Addr → List Addr
  | _, [] => []
  | a, b :: bs => if equalBy less a b then b :: repeats a bs else repeats b bs

theorem repeats_perm (a : Addr) (bs : List Addr) :
    (bs.destutter' (fun a b => equalBy less a b = false) a ++ repeats less a bs).Perm
      (a :: bs) := by
  induction bs generalizing a with
  | nil => simp [repeats]
  | cons b bs ih =>
    by_cases heq : equalBy less a b
    · rw [List.destutter'_cons_neg _ (by simp [heq]), repeats, if_pos heq]
      exact List.perm_middle.trans (((ih a).cons b).trans (.swap a b bs))
    · rw [List.destutter'_cons_pos _ (by simp [heq]), repeats, if_neg heq]
      exact (ih b).cons a

/-- No element is lost. -/
theorem unique_perm (xs ys : List Addr) :
    (xs.destutter (fun a b => equalBy less a b = false) ++
      (ys ++ xs.head?.elim [] fun x => repeats less x xs.tail)).Perm (xs ++ ys) := by
  cases xs with
  | nil => simp
  | cons x xs =>
    have hperm := (repeats_perm less x xs).append_right ys
    rw [List.append_assoc] at hperm
    exact (List.perm_append_comm.append_left _).trans hperm

theorem listUniqueFrom_none (hold : Holds h list (as ++ a :: bs)) (hfuel : bs.length < fuel) :
    ∃ h', listUniqueFrom less list none fuel h a = some h' ∧
      Holds h' list (as ++ bs.destutter' (fun a b => equalBy less a b = false) a) ∧
      Within (list.chain (as ++ a :: bs)) h h' := by
  induction bs generalizing as a h fuel with
  | nil =>
    obtain ⟨fuel, rfl⟩ : ∃ n, fuel = n + 1 := ⟨fuel - 1, by omega⟩
    refine ⟨h, ?_, hold, .refl _ h⟩
    rw [listUniqueFrom, hold.listNext]
    simp [from_nil]
  | cons b bs ih =>
    obtain ⟨fuel, rfl⟩ : ∃ n, fuel = n + 1 := ⟨fuel - 1, by omega⟩
    have hfuel' : bs.length < fuel := Nat.lt_of_succ_lt_succ hfuel
    have hold₁ : Holds h list ((as ++ [a]) ++ b :: bs) := by simpa using hold
    have hne : b ≠ listEnd list := hold.ne_end (by simp)
    rw [listUniqueFrom, hold.listNext]
    simp only [Option.bind_eq_bind, Option.bind_some, from_cons, if_neg hne]
    by_cases heq : equalBy less a b
    · obtain ⟨h₁, hremove, hold₂, hw⟩ := listRemove_holds hold₁
      obtain ⟨h', hloop, hold', hw'⟩ := ih (by simpa using hold₂) hfuel'
      refine ⟨h', ?_, by simpa [heq] using hold', ?_⟩
      · rw [if_pos (by exact heq)]
        simp [hremove, hloop]
      · refine (hw.mono fun c hc => ?_).trans (hw'.mono fun c hc => ?_)
        · simp only [mem_chain, List.mem_append, List.mem_cons] at hc ⊢
          tauto
        · simp only [mem_chain, List.mem_append, List.mem_cons] at hc ⊢
          tauto
    · obtain ⟨h', hloop, hold', hw'⟩ := ih hold₁ hfuel'
      refine ⟨h', ?_, by simpa [heq] using hold', by simpa using hw'⟩
      rw [if_neg (by exact heq)]
      exact hloop

theorem listUniqueFrom_some {dups : KernelList} {ys : List Addr}
    (hold : Holds h list (as ++ a :: bs)) (hdups : Holds h dups ys)
    (hdisjoint : ∀ c ∈ list.chain (as ++ a :: bs), c ∉ dups.chain ys) (hfuel : bs.length < fuel) :
    ∃ h', listUniqueFrom less list (some dups) fuel h a = some h' ∧
      Holds h' list (as ++ bs.destutter' (fun a b => equalBy less a b = false) a) ∧
      Holds h' dups (ys ++ repeats less a bs) ∧
      Within (list.chain (as ++ a :: bs) ++ dups.chain ys) h h' := by
  induction bs generalizing as a h fuel ys with
  | nil =>
    obtain ⟨fuel, rfl⟩ : ∃ n, fuel = n + 1 := ⟨fuel - 1, by omega⟩
    refine ⟨h, ?_, hold, by rwa [repeats, List.append_nil], .refl _ h⟩
    rw [listUniqueFrom, hold.listNext]
    simp [from_nil]
  | cons b bs ih =>
    obtain ⟨fuel, rfl⟩ : ∃ n, fuel = n + 1 := ⟨fuel - 1, by omega⟩
    have hfuel' : bs.length < fuel := Nat.lt_of_succ_lt_succ hfuel
    have hold₁ : Holds h list ((as ++ [a]) ++ b :: bs) := by simpa using hold
    have hne : b ≠ listEnd list := hold.ne_end (by simp)
    rw [listUniqueFrom, hold.listNext]
    simp only [Option.bind_eq_bind, Option.bind_some, from_cons, if_neg hne]
    by_cases heq : equalBy less a b
    · obtain ⟨h₁, hremove, hold₂, hw⟩ := listRemove_holds hold₁
      have hsub : ∀ c ∈ list.chain ((as ++ [a]) ++ bs), c ∈ list.chain (as ++ a :: b :: bs) :=
        fun c hc => by
          simp only [mem_chain, List.mem_append, List.mem_cons] at hc ⊢
          tauto
      have hdups₁ : Holds h₁ dups ys :=
        hdups.within hw fun c hc hmem => hdisjoint c (hsub c hmem) hc
      have hbchain : b ∈ list.chain (as ++ a :: b :: bs) := by simp
      have hbSome : (h₁ b).isSome := by
        rw [hw.isSome]
        exact hold.isSome hbchain
      obtain ⟨h₂, hpush, hdups₂, hw₂⟩ := listPushBack_holds hdups₁ hbSome (hdisjoint b hbchain)
      have hbnot := hold₁.nodup_middle.1
      have hapart : ∀ c ∈ list.chain ((as ++ [a]) ++ bs), c ∉ dups.chain (ys ++ [b]) := by
        intro c hc hmem
        have hcb : c ≠ b := fun heq => hbnot (heq ▸ hc)
        refine hdisjoint c (hsub c hc) ?_
        simp only [mem_chain, List.mem_append, List.mem_singleton] at hmem ⊢
        tauto
      have hold₃ : Holds h₂ list (as ++ a :: bs) := by
        simpa using hold₂.within hw₂ hapart
      obtain ⟨h', hloop, hold', hdups', hw'⟩ := ih hold₃ hdups₂ (by simpa using hapart) hfuel'
      refine ⟨h', ?_, by simpa [heq] using hold', by simpa [repeats, heq] using hdups', ?_⟩
      · rw [if_pos (by exact heq)]
        simp [hremove, hpush, hloop]
      · refine (hw.mono fun c hc => List.mem_append_left _ (hsub c hc)).trans
          ((hw₂.mono fun c hc => ?_).trans (hw'.mono fun c hc => ?_))
        · simp only [mem_chain, List.mem_append, List.mem_cons] at hc ⊢
          tauto
        · simp only [mem_chain, List.mem_append, List.mem_cons] at hc ⊢
          tauto
    · obtain ⟨h', hloop, hold', hdups', hw'⟩ := ih hold₁ hdups (by simpa using hdisjoint) hfuel'
      refine ⟨h', ?_, by simpa [heq] using hold', by simpa [repeats, heq] using hdups',
        by simpa using hw'⟩
      rw [if_neg (by exact heq)]
      exact hloop

/-- **Removing repeated elements**, without a list for them. -/
theorem listUnique_none (hold : Holds h list xs) (hfuel : xs.length < fuel) :
    ∃ h', listUnique less h list none fuel = some h' ∧
      Holds h' list (xs.destutter fun a b => equalBy less a b = false) ∧
      Within (list.chain xs) h h' := by
  rw [listUnique, hold.listEmpty]
  cases xs with
  | nil => exact ⟨h, rfl, hold, .refl _ h⟩
  | cons x xs =>
    obtain ⟨h', hloop, hold'⟩ :=
      listUniqueFrom_none less (show Holds h list ([] ++ x :: xs) from hold)
        (Nat.lt_of_succ_lt hfuel)
    refine ⟨h', ?_, hold'⟩
    simpa [hold.listBegin, from_cons] using hloop

/-- **Removing repeated elements**, which move to the end of another list. -/
theorem listUnique_some {dups : KernelList} {ys : List Addr} (hold : Holds h list xs)
    (hdups : Holds h dups ys) (hdisjoint : ∀ c ∈ list.chain xs, c ∉ dups.chain ys)
    (hfuel : xs.length < fuel) :
    ∃ h', listUnique less h list (some dups) fuel = some h' ∧
      Holds h' list (xs.destutter fun a b => equalBy less a b = false) ∧
      Holds h' dups (ys ++ xs.head?.elim [] fun x => repeats less x xs.tail) ∧
      Within (list.chain xs ++ dups.chain ys) h h' := by
  rw [listUnique, hold.listEmpty]
  cases xs with
  | nil => exact ⟨h, rfl, hold, by simpa using hdups, .refl _ h⟩
  | cons x xs =>
    obtain ⟨h', hloop, hold'⟩ :=
      listUniqueFrom_some less (show Holds h list ([] ++ x :: xs) from hold) hdups hdisjoint
        (Nat.lt_of_succ_lt hfuel)
    refine ⟨h', ?_, hold'⟩
    simpa [hold.listBegin, from_cons] using hloop

end

/-! ## Reversal -/

theorem swapLinks_writes (ha : (h a).isSome) :
    ∃ h', swapLinks h a = some h' ∧
      Writes h h' (Function.update h.next a (h.prev a)) (Function.update h.prev a (h.next a)) := by
  obtain ⟨r, hr⟩ := Option.isSome_iff_exists.mp ha
  refine ⟨_, by rw [swapLinks, hr]; rfl, funext fun b => ?_, funext fun b => ?_, fun b => ?_⟩
  · by_cases hb : b = a
    · subst hb
      simp [Elems.next, Elems.prev, hr]
    · simp [Elems.next, hb]
  · by_cases hb : b = a
    · subst hb
      simp [Elems.next, Elems.prev, hr]
    · simp [Elems.prev, hb]
  · by_cases hb : b = a
    · subst hb
      simp [hr]
    · simp [hb]

/-- The links of the elements in `as` are swapped. -/
structure Swapped (as : List Addr) (h h' : Elems) : Prop where
  next : ∀ a, h'.next a = if a ∈ as then h.prev a else h.next a
  prev : ∀ a, h'.prev a = if a ∈ as then h.next a else h.prev a
  isSome : ∀ a, (h' a).isSome = (h a).isSome

theorem listReverseFrom_swapped (hold : Holds h list (as ++ bs)) (hswapped : Swapped as h h')
    (hfuel : bs.length < fuel) :
    ∃ h'', listReverseFrom list fuel h' (list.from bs) = some h'' ∧
      Swapped (as ++ bs) h h'' := by
  induction bs generalizing as h' fuel with
  | nil =>
    obtain ⟨fuel, rfl⟩ : ∃ n, fuel = n + 1 := ⟨fuel - 1, by omega⟩
    exact ⟨h', by simp [listReverseFrom, from_nil], by rwa [List.append_nil]⟩
  | cons b bs ih =>
    obtain ⟨fuel, rfl⟩ : ∃ n, fuel = n + 1 := ⟨fuel - 1, by omega⟩
    have hold' : Holds h list ((as ++ [b]) ++ bs) := by simpa using hold
    have hlast : list.upTo (as ++ [b]) = b := by simp [KernelList.upTo]
    have hnext : h.next b = some (list.from bs) := hlast ▸ hold'.link.1
    have hb : b ∉ as := by
      have hnodup := hold.nodup
      rw [chain_append] at hnodup
      exact fun hmem => (List.nodup_append.mp hnodup).2.2 b (List.mem_cons_of_mem _ hmem) b
        (by simp) rfl
    obtain ⟨h₁, hswap, hw⟩ := swapLinks_writes (h := h') (a := b)
      (by rw [hswapped.isSome]; exact isSome_of_next hnext)
    have hswapped₁ : Swapped (as ++ [b]) h h₁ := by
      refine ⟨fun a => ?_, fun a => ?_, fun a => (hw.isSome a).trans (hswapped.isSome a)⟩
      · rw [hw.next]
        by_cases ha : a = b
        · simp [ha, hswapped.prev, hb]
        · simp [ha, hswapped.next]
      · rw [hw.prev]
        by_cases ha : a = b
        · simp [ha, hswapped.next, hb]
        · simp [ha, hswapped.prev]
    obtain ⟨h'', hloop, hswapped''⟩ := ih hold' hswapped₁ (Nat.lt_of_succ_lt_succ hfuel)
    refine ⟨h'', ?_, by simpa using hswapped''⟩
    have hprev : h₁.prev b = some (list.from bs) := by simp [hswapped₁.prev, hnext]
    rw [listReverseFrom, from_cons, if_neg (hold.ne_end (by simp))]
    simp [hswap, hprev, hloop]

/-- **Reversal.** -/
theorem listReverse_holds (hold : Holds h list xs) (hfuel : xs.length < fuel) :
    ∃ h', listReverse h list fuel = some h' ∧ Holds h' list xs.reverse ∧
      Within (list.chain xs) h h' := by
  rw [listReverse, hold.listEmpty]
  by_cases hxs : xs = []
  · subst hxs
    exact ⟨h, rfl, hold, .refl _ h⟩
  have hold' : Holds h list ([] ++ xs) := hold
  obtain ⟨h₁, hloop, hswapped⟩ := listReverseFrom_swapped hold'
    ⟨fun a => by simp, fun a => by simp, fun _ => rfl⟩ hfuel
  rw [List.nil_append] at hswapped
  have hx₀ := List.head?_eq_some_head hxs
  have hx₁ := List.getLast?_eq_some_getLast hxs
  generalize xs.head hxs = x₀, xs.getLast hxs = x₁ at hx₀ hx₁
  have hmem := And.intro (List.mem_of_head? hx₀) (List.mem_of_getLast? hx₁)
  have hlink : Link h.next h.prev list.head x₀ := by
    have hlink := hold'.link
    have hfrom := from_append list hx₀ []
    rw [List.append_nil] at hfrom
    rwa [hfrom] at hlink
  have hlink' : Link h.next h.prev x₁ list.tail := by
    have hassoc : Holds h list (xs ++ []) := by rwa [List.append_nil]
    have hupTo : list.upTo xs = x₁ := upTo_append list [] hx₁
    exact hupTo ▸ hassoc.link
  have hnodup := hold.nodup
  have hheads : list.head ∉ xs ∧ list.tail ∉ xs ∧ list.head ≠ list.tail := by
    simp only [KernelList.chain, List.cons_append, List.nodup_cons, List.mem_append,
      List.mem_singleton, not_or, List.nodup_append] at hnodup
    grind
  have hheadx₁ : list.head ≠ x₁ := fun heq => hheads.1 (heq ▸ hmem.2)
  have hheadx₀ : list.head ≠ x₀ := fun heq => hheads.1 (heq ▸ hmem.1)
  have htailx₀ : list.tail ≠ x₀ := fun heq => hheads.2.1 (heq ▸ hmem.1)
  have htailx₁ : list.tail ≠ x₁ := fun heq => hheads.2.1 (heq ▸ hmem.2)
  -- the headers and the elements beside them
  have hsome₁ : ∀ a ∈ list.chain xs, (h₁ a).isSome := fun a ha => by
    rw [hswapped.isSome]
    exact hold.isSome ha
  have hfirst : h₁.next list.head = some x₀ := by rw [hswapped.next, if_neg hheads.1, hlink.1]
  have hlast : h₁.prev list.tail = some x₁ := by rw [hswapped.prev, if_neg hheads.2.1, hlink'.2]
  obtain ⟨h₂, hset₂, hw₂⟩ := setNext_writes (hsome₁ list.head (by simp)) (some x₁)
  obtain ⟨h₃, hset₃, hw₃⟩ := setPrev_writes (h := h₂) (a := list.tail)
    (by rw [hw₂.isSome]; exact hsome₁ _ (by simp)) (some x₀)
  have ha : h₃.next list.head = some x₁ := by rw [hw₃.next, hw₂.next, Function.update_self]
  have hb : h₃.prev list.tail = some x₀ := by rw [hw₃.prev, Function.update_self]
  have hp : h₃.prev x₁ = some list.tail := by
    rw [hw₃.prev, Function.update_of_ne htailx₁.symm, hw₂.prev, hswapped.prev, if_pos hmem.2,
      hlink'.1]
  have hq : h₃.next x₀ = some list.head := by
    rw [hw₃.next, hw₂.next, Function.update_of_ne hheadx₀.symm, hswapped.next, if_pos hmem.1,
      hlink.2]
  obtain ⟨h₄, hset₄, hw₄⟩ := setPrev_writes (isSome_of_prev hp) (some list.head)
  obtain ⟨h₅, hset₅, hw₅⟩ := setNext_writes (h := h₄) (a := x₀)
    (by rw [hw₄.isSome]; exact isSome_of_next hq) (some list.tail)
  have hnext : h₅.next = Function.update (Function.update h₁.next list.head (some x₁)) x₀
      (some list.tail) := by rw [hw₅.next, hw₄.next, hw₃.next, hw₂.next]
  have hprev : h₅.prev = Function.update (Function.update h₁.prev list.tail (some x₀)) x₁
      (some list.head) := by rw [hw₅.prev, hw₄.prev, hw₃.prev, hw₂.prev]
  refine ⟨h₅, ?_, ⟨?_, ?_, ?_, ?_⟩, ?_, ?_, fun a => ?_⟩
  · simp only [Option.bind_eq_bind, Option.bind_some, decide_eq_true_eq, if_neg hxs,
      hold.listBegin, hloop, hfirst, hlast, hset₂, hset₃, ha, hb, hp, hq, hset₄, hset₅]
  · -- the elements are linked back, and the headers to their ends
    obtain ⟨hheadxs, -, -⟩ := linked_append.mp hold.linked
    have hinner : Linked h.next h.prev xs := hheadxs.tail
    have hxsnodup : xs.Nodup := by
      rw [KernelList.chain, List.cons_append, List.nodup_cons] at hnodup
      exact (List.nodup_append.mp hnodup.2).1
    have hback : Linked h₅.next h₅.prev xs.reverse := by
      refine linked_reverse.mpr (hinner.congr hxsnodup (fun a ha hne => ?_) fun b hb hne => ?_)
      · have hax₁ : a ≠ x₁ := fun heq => hne (heq ▸ hx₁)
        have hatail : a ≠ list.tail := fun heq => hheads.2.1 (heq ▸ ha)
        rw [hprev, Function.update_of_ne hax₁, Function.update_of_ne hatail, hswapped.prev,
          if_pos ha]
      · have hbx₀ : b ≠ x₀ := fun heq => hne (heq ▸ hx₀)
        have hbhead : b ≠ list.head := fun heq => hheads.1 (heq ▸ hb)
        rw [hnext, Function.update_of_ne hbx₀, Function.update_of_ne hbhead, hswapped.next,
          if_pos hb]
    have hstart : Linked h₅.next h₅.prev ([list.head] ++ xs.reverse) := by
      have hlinks : Link h₅.next h₅.prev list.head x₁ := by
        refine ⟨?_, ?_⟩
        · rw [hnext, Function.update_of_ne hheadx₀, Function.update_self]
        · rw [hprev, Function.update_self]
      exact (linked_singleton _).join hback rfl (by rw [List.head?_reverse, hx₁]) hlinks
    refine hstart.join (linked_singleton _) (a := x₀) ?_ rfl ⟨?_, ?_⟩
    · rw [List.getLast?_append, List.getLast?_reverse, hx₀]
      rfl
    · rw [hnext, Function.update_self]
    · rw [hprev, Function.update_of_ne htailx₁, Function.update_self]
  · rw [hprev, Function.update_of_ne hheadx₁, Function.update_of_ne hheads.2.2, hswapped.prev,
      if_neg hheads.1, hold.head]
  · rw [hnext, Function.update_of_ne htailx₀, Function.update_of_ne hheads.2.2.symm, hswapped.next,
      if_neg hheads.2.1, hold.tail]
  · refine List.Perm.nodup ?_ hnodup
    exact ((List.reverse_perm xs).symm.cons list.head).append_right [list.tail]
  · intro a ha
    rw [mem_chain, not_or, not_or] at ha
    have hax₀ : a ≠ x₀ := fun heq => ha.2.1 (heq ▸ hmem.1)
    rw [hnext, Function.update_of_ne hax₀, Function.update_of_ne ha.1, hswapped.next, if_neg ha.2.1]
  · intro a ha
    rw [mem_chain, not_or, not_or] at ha
    have hax₁ : a ≠ x₁ := fun heq => ha.2.1 (heq ▸ hmem.2)
    rw [hprev, Function.update_of_ne hax₁, Function.update_of_ne ha.2.2, hswapped.prev,
      if_neg ha.2.1]
  · rw [hw₅.isSome, hw₄.isSome, hw₃.isSome, hw₂.isSome, hswapped.isSome]

end DocMachine.Pintos
