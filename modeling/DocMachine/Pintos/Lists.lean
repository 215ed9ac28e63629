import DocMachine.Lib.DataType
import DocMachine.Pintos.ListSort

/-!
# The lists together

The purpose of `pintos_task0_sk4520/src/lib/kernel/list.c`: sequences of elements, each element in
at most one of them (`sequences`), with the operations that the comments of the file describe.

* `ListOp` has all operations of the file on any number of lists, and `sequences` says of each
  when it may be called and what it returns and leaves. What the comments leave open, such as the
  place of an element that is not in a list, is not promised.
* `Layout` says where the headers of the lists are: no two of them at one place.
* The relation to the memory is `Holds` for every list, with all elements present. The library on
  the refinement of data types turns one operation into any sequence of them.

Results:
* `Layout.chain_apart`: a list with no elements of another one is apart from it.
* `serves_read`: a call that only reads, and a lemma for each of the others.
* `lists_refine_sequences`: from any memory in which the headers and the elements exist, every
  sequence of calls keeps all assertions, ends, and returns what the sequences return; then the
  memory links the elements of each sequence, and those only.
-/

namespace DocMachine.Pintos

open DocMachine.Lib.DataType

/-- A call of a list function. `before`, `first` and `last` are places in lists. -/
inductive ListOp (ι : Type) where
  | init (list : ι)
  | insert (before elem : Addr)
  | splice (before first last : Addr)
  | pushFront (list : ι) (elem : Addr)
  | pushBack (list : ι) (elem : Addr)
  | remove (elem : Addr)
  | front (list : ι)
  | back (list : ι)
  | popFront (list : ι)
  | popBack (list : ι)
  | size (list : ι)
  | empty (list : ι)
  | reverse (list : ι)
  | sort (list : ι) (less : Addr → Addr → Bool)
  | insertOrdered (list : ι) (elem : Addr) (less : Addr → Addr → Bool)
  | unique (list : ι) (duplicates : Option ι) (less : Addr → Addr → Bool)
  | max (list : ι) (less : Addr → Addr → Bool)
  | min (list : ι) (less : Addr → Addr → Bool)

/-- What a call returns. -/
inductive ListResult where
  | done
  | elem (a : Addr)
  | size (n : ℕ)
  | empty (b : Bool)

variable {ι : Type}

/-- The call in the C code. -/
def ListOp.exec (lists : ι → KernelList) (fuel : ℕ) (h : Elems) :
    ListOp ι → Option (ListResult × Elems)
  | .init list => (listInit h (lists list)).map (.done, ·)
  | .insert before elem => (listInsert h before elem).map (.done, ·)
  | .splice before first last => (listSplice h before first last).map (.done, ·)
  | .pushFront list elem => (listPushFront h (lists list) elem).map (.done, ·)
  | .pushBack list elem => (listPushBack h (lists list) elem).map (.done, ·)
  | .remove elem => (listRemove h elem).map fun (next, h) => (.elem next, h)
  | .front list => (listFront h (lists list)).map (.elem ·, h)
  | .back list => (listBack h (lists list)).map (.elem ·, h)
  | .popFront list => (listPopFront h (lists list)).map fun (a, h) => (.elem a, h)
  | .popBack list => (listPopBack h (lists list)).map fun (a, h) => (.elem a, h)
  | .size list => (listSize h (lists list) fuel).map (.size ·, h)
  | .empty list => (listEmpty h (lists list)).map (.empty ·, h)
  | .reverse list => (listReverse h (lists list) fuel).map (.done, ·)
  | .sort list less => (listSort less h (lists list) fuel).map (.done, ·)
  | .insertOrdered list elem less =>
    (listInsertOrdered less h (lists list) elem fuel).map (.done, ·)
  | .unique list duplicates less =>
    (listUnique less h (lists list) (duplicates.map lists) fuel).map (.done, ·)
  | .max list less => (listMax less h (lists list) fuel).map (.elem ·, h)
  | .min list less => (listMin less h (lists list) fuel).map (.elem ·, h)

/-! ## The specification -/

/-- The elements of each list that is initialized. -/
abbrev Sequences (ι : Type) := ι → Option (List Addr)

namespace Sequences

variable (c : Sequences ι)

/-- `elem` is in no list. -/
def Free (elem : Addr) : Prop := ∀ i xs, c i = some xs → elem ∉ xs

/-- The place between two parts of a list. -/
def Place (lists : ι → KernelList) (place : Addr) (i : ι) (as bs : List Addr) : Prop :=
  c i = some (as ++ bs) ∧ (lists i).from bs = place

/-- The elements from one place of a list up to another one. -/
def Range (lists : ι → KernelList) (first last : Addr) (i : ι) (as M bs : List Addr) : Prop :=
  c i = some (as ++ (M ++ bs)) ∧ (lists i).from (M ++ bs) = first ∧ (lists i).from bs = last

end Sequences

/-- `a` is the first of the elements that no other one is greater than. -/
def FirstGreatest (less : Addr → Addr → Bool) (xs : List Addr) (m : Addr) : Prop :=
  ∃ as bs, xs = as ++ m :: bs ∧ (∀ a ∈ as, less a m = true) ∧ ∀ b ∈ bs, less m b = false

variable [DecidableEq ι]

/-- What the lists are for. Elements that are inserted are of `elems`, and in no list. -/
def sequences (lists : ι → KernelList) (elems : Finset Addr) :
    Spec (Sequences ι) (ListOp ι) ListResult where
  Pre c
    | .init _ => True
    | .insert before elem => elem ∈ elems ∧ c.Free elem ∧ ∃ i as bs, c.Place lists before i as bs
    | .splice before first last => ∃ i as M bs, c.Range lists first last i as M bs ∧
      ∃ j cs ds, Sequences.Place (Function.update c i (some (as ++ bs))) lists before j cs ds
    | .pushFront i elem | .pushBack i elem => elem ∈ elems ∧ c.Free elem ∧ c i ≠ none
    | .remove elem => ∃ i as bs, c i = some (as ++ elem :: bs)
    | .front i | .back i | .popFront i | .popBack i => ∃ x xs, c i = some (x :: xs)
    | .size i | .empty i | .reverse i => c i ≠ none
    | .sort i less | .max i less | .min i less => c i ≠ none ∧ LessFunc less
    | .insertOrdered i elem _ => elem ∈ elems ∧ c.Free elem ∧ c i ≠ none
    | .unique i duplicates _ => c i ≠ none ∧ ∀ j, duplicates = some j → j ≠ i ∧ c j ≠ none
  Post c
    | .init i, r, c' => r = .done ∧ c' = Function.update c i (some [])
    | .insert before elem, r, c' => r = .done ∧ ∃ i as bs, c.Place lists before i as bs ∧
      c' = Function.update c i (some (as ++ elem :: bs))
    | .splice before first last, r, c' => r = .done ∧
      ∃ i as M bs, c.Range lists first last i as M bs ∧
      ∃ j cs ds, Sequences.Place (Function.update c i (some (as ++ bs))) lists before j cs ds ∧
        c' = Function.update (Function.update c i (some (as ++ bs))) j (some (cs ++ (M ++ ds)))
    | .pushFront i elem, r, c' => r = .done ∧
      ∃ xs, c i = some xs ∧ c' = Function.update c i (some (elem :: xs))
    | .pushBack i elem, r, c' => r = .done ∧
      ∃ xs, c i = some xs ∧ c' = Function.update c i (some (xs ++ [elem]))
    | .remove elem, r, c' => ∃ i as bs, c i = some (as ++ elem :: bs) ∧
      r = .elem ((lists i).from bs) ∧ c' = Function.update c i (some (as ++ bs))
    | .front i, r, c' => c' = c ∧ ∃ x xs, c i = some (x :: xs) ∧ r = .elem x
    | .back i, r, c' => c' = c ∧ ∃ x xs, c i = some (xs ++ [x]) ∧ r = .elem x
    | .popFront i, r, c' =>
      ∃ x xs, c i = some (x :: xs) ∧ r = .elem x ∧ c' = Function.update c i (some xs)
    | .popBack i, r, c' =>
      ∃ x xs, c i = some (xs ++ [x]) ∧ r = .elem x ∧ c' = Function.update c i (some xs)
    | .size i, r, c' => c' = c ∧ ∃ xs, c i = some xs ∧ r = .size xs.length
    | .empty i, r, c' => c' = c ∧ ∃ xs, c i = some xs ∧ r = .empty (decide (xs = []))
    | .reverse i, r, c' => r = .done ∧
      ∃ xs, c i = some xs ∧ c' = Function.update c i (some xs.reverse)
    | .sort i less, r, c' => r = .done ∧
      ∃ xs, c i = some xs ∧ c' = Function.update c i (some (xs.mergeSort (notLess less)))
    | .insertOrdered i elem less, r, c' => r = .done ∧ ∃ xs, c i = some xs ∧
      c' = Function.update c i (some (xs.orderedInsert (fun a b => less a b = true) elem))
    | .unique i none less, r, c' => r = .done ∧ ∃ xs, c i = some xs ∧
      c' = Function.update c i (some (xs.destutter fun a b => equalBy less a b = false))
    | .unique i (some j) less, r, c' => r = .done ∧ ∃ xs ys, c i = some xs ∧ c j = some ys ∧
      c' = Function.update
        (Function.update c i (some (xs.destutter fun a b => equalBy less a b = false)))
        j (some (ys ++ xs.head?.elim [] fun x => repeats less x xs.tail))
    | .max i less, r, c' => c' = c ∧ ∃ xs, c i = some xs ∧
      ∃ m, r = .elem m ∧ if xs = [] then m = (lists i).tail else FirstGreatest less xs m
    | .min i less, r, c' => c' = c ∧ ∃ xs, c i = some xs ∧
      ∃ m, r = .elem m ∧
        if xs = [] then m = (lists i).tail else FirstGreatest (fun a b => less b a) xs m

/-! ## Representation -/

/-- The headers of the lists are apart from each other and from the elements. -/
structure Layout (lists : ι → KernelList) (elems : Finset Addr) : Prop where
  head_ne_tail : ∀ i j, (lists i).head ≠ (lists j).tail
  head_ne : ∀ i j, i ≠ j → (lists i).head ≠ (lists j).head
  tail_ne : ∀ i j, i ≠ j → (lists i).tail ≠ (lists j).tail
  elems_ne : ∀ i, ∀ a ∈ elems, a ≠ (lists i).head ∧ a ≠ (lists i).tail

/-- The headers and the elements exist. -/
structure Exist (h : Elems) (lists : ι → KernelList) (elems : Finset Addr) : Prop where
  head : ∀ i, (h (lists i).head).isSome
  tail : ∀ i, (h (lists i).tail).isSome
  elem : ∀ a ∈ elems, (h a).isSome

/-- The memory holds the sequences. -/
structure Represents (lists : ι → KernelList) (elems : Finset Addr) (h : Elems) (c : Sequences ι) :
    Prop extends Exist h lists elems where
  holds : ∀ i xs, c i = some xs → Holds h (lists i) xs
  mem : ∀ i xs, c i = some xs → ∀ a ∈ xs, a ∈ elems
  apart : ∀ i j xs ys, i ≠ j → c i = some xs → c j = some ys → ∀ a ∈ xs, a ∉ ys

variable {lists : ι → KernelList} {elems : Finset Addr} {h h' : Elems} {c : Sequences ι} {i j : ι}
  {xs ys zs l : List Addr} {a elem : Addr} {fuel : ℕ}

omit [DecidableEq ι] in
theorem Exist.within (exist : Exist h lists elems) (hw : Within l h h') : Exist h' lists elems :=
  ⟨fun i => by rw [hw.isSome, exist.head], fun i => by rw [hw.isSome, exist.tail],
    fun a ha => by rw [hw.isSome, exist.elem a ha]⟩

omit [DecidableEq ι] in
/-- A list with no elements of `l` is apart from it. -/
theorem Layout.chain_apart (layout : Layout lists elems) (hij : i ≠ j)
    (hxs : ∀ a ∈ xs, a ∈ elems) (hys : ∀ a ∈ ys, a ∈ elems) (hapart : ∀ a ∈ xs, a ∉ ys) :
    ∀ a ∈ (lists i).chain xs, a ∉ (lists j).chain ys := by
  intro a ha hmem
  rw [mem_chain] at ha hmem
  rcases ha with rfl | ha | rfl
  · rcases hmem with heq | hmem | heq
    · exact layout.head_ne i j hij heq
    · exact (layout.elems_ne i _ (hys _ hmem)).1 rfl
    · exact layout.head_ne_tail i j heq
  · rcases hmem with heq | hmem | heq
    · exact (layout.elems_ne j _ (hxs _ ha)).1 heq
    · exact hapart a ha hmem
    · exact (layout.elems_ne j _ (hxs _ ha)).2 heq
  · rcases hmem with heq | hmem | heq
    · exact layout.head_ne_tail j i heq.symm
    · exact (layout.elems_ne i _ (hys _ hmem)).2 rfl
    · exact layout.tail_ne i j hij heq

omit [DecidableEq ι] in
theorem Layout.notMem_chain (layout : Layout lists elems) (helem : elem ∈ elems)
    (hxs : elem ∉ xs) : elem ∉ (lists i).chain xs := by
  have hne := layout.elems_ne i elem helem
  simp [hne, hxs]

namespace Represents

omit [DecidableEq ι] in
theorem length_lt (rep : Represents lists elems h c) (hi : c i = some xs)
    (hfuel : elems.card < fuel) : xs.length < fuel := by
  have hnodup := (rep.holds i xs hi).nodup
  rw [KernelList.chain, List.cons_append, List.nodup_cons] at hnodup
  have hxs : xs.Nodup := (List.nodup_append.mp hnodup.2).1
  have hsub : xs.toFinset ⊆ elems := fun a ha => rep.mem i xs hi a (List.mem_toFinset.mp ha)
  have hcard := Finset.card_le_card hsub
  rw [List.toFinset_card_of_nodup hxs] at hcard
  omega

/-- `a` is an element that no list but `i` has. -/
def Own (elems : Finset Addr) (c : Sequences ι) (i : ι) (a : Addr) : Prop :=
  a ∈ elems ∧ ∀ j xs, j ≠ i → c j = some xs → a ∉ xs

omit [DecidableEq ι] in
theorem own_mem (rep : Represents lists elems h c) (hi : c i = some xs) (ha : a ∈ xs) :
    Own elems c i a :=
  ⟨rep.mem i xs hi a ha, fun j ys hji hj => rep.apart i j xs ys hji.symm hi hj a ha⟩

omit [DecidableEq ι] in
theorem own_free (helem : elem ∈ elems) (hfree : c.Free elem) (i : ι) : Own elems c i elem :=
  ⟨helem, fun j xs _ hj => hfree j xs hj⟩

omit [DecidableEq ι] in
theorem own_insert (rep : Represents lists elems h c) (helem : elem ∈ elems)
    (hfree : c.Free elem) (hi : c i = some xs) (ha : a = elem ∨ a ∈ xs) : Own elems c i a := by
  rcases ha with rfl | ha
  · exact own_free helem hfree i
  · exact rep.own_mem hi ha

/-- One list is changed. -/
theorem update (rep : Represents lists elems h c) (layout : Layout lists elems)
    (hold : Holds h' (lists i) ys) (hw : Within ((lists i).chain zs) h h')
    (hys : ∀ a ∈ ys, Own elems c i a) (hzs : ∀ a ∈ zs, Own elems c i a) :
    Represents lists elems h' (Function.update c i (some ys)) := by
  refine ⟨rep.toExist.within hw, fun k xs hk => ?_, fun k xs hk => ?_,
    fun k j xs xs' hkj hk hj => ?_⟩
  · by_cases hki : k = i
    · subst hki
      rw [Function.update_self] at hk
      cases hk
      exact hold
    · rw [Function.update_of_ne hki] at hk
      refine (rep.holds k xs hk).within hw ?_
      exact layout.chain_apart hki (rep.mem k xs hk) (fun a ha => (hzs a ha).1)
        fun a ha hmem => (hzs a hmem).2 k xs hki hk ha
  · by_cases hki : k = i
    · subst hki
      rw [Function.update_self] at hk
      cases hk
      exact fun a ha => (hys a ha).1
    · rw [Function.update_of_ne hki] at hk
      exact rep.mem k xs hk
  · by_cases hki : k = i
    · subst hki
      rw [Function.update_self] at hk
      cases hk
      rw [Function.update_of_ne hkj.symm] at hj
      exact fun a ha => (hys a ha).2 j xs' hkj.symm hj
    · rw [Function.update_of_ne hki] at hk
      by_cases hji : j = i
      · subst hji
        rw [Function.update_self] at hj
        cases hj
        exact fun a ha hmem => (hys a hmem).2 k xs hki hk ha
      · rw [Function.update_of_ne hji] at hj
        exact rep.apart k j xs xs' hkj hk hj

/-- Elements of two lists are shared out between them. -/
theorem update₂ {xs' ys' : List Addr} (rep : Represents lists elems h c)
    (layout : Layout lists elems) (hij : i ≠ j) (hi : c i = some xs) (hj : c j = some ys)
    (hold : Holds h' (lists i) xs') (hold' : Holds h' (lists j) ys')
    (hw : Within ((lists i).chain xs ++ (lists j).chain ys) h h')
    (hperm : (xs' ++ ys').Perm (xs ++ ys)) :
    Represents lists elems h' (Function.update (Function.update c i (some xs')) j (some ys')) := by
  have hmem : ∀ a, a ∈ xs' ∨ a ∈ ys' → a ∈ xs ∨ a ∈ ys := fun a ha => by
    rwa [← List.mem_append, hperm.mem_iff, List.mem_append] at ha
  have helems : ∀ a, a ∈ xs' ∨ a ∈ ys' → a ∈ elems := fun a ha =>
    (hmem a ha).elim (rep.mem i xs hi a) (rep.mem j ys hj a)
  -- the other lists are apart from both
  have hother : ∀ k zs, k ≠ i → k ≠ j → c k = some zs → ∀ a, a ∈ xs' ∨ a ∈ ys' → a ∉ zs :=
    fun k zs hki hkj hk a ha => (hmem a ha).elim
      (rep.apart i k xs zs hki.symm hi hk a) (rep.apart j k ys zs hkj.symm hj hk a)
  have hapart : ∀ a ∈ xs', a ∉ ys' := by
    have hxs := (rep.holds i xs hi).nodup
    have hys := (rep.holds j ys hj).nodup
    simp only [KernelList.chain, List.cons_append, List.nodup_cons, List.nodup_append] at hxs hys
    have hnodup : (xs' ++ ys').Nodup := hperm.symm.nodup (List.nodup_append.mpr
      ⟨hxs.2.1, hys.2.1, fun a ha b hb heq => rep.apart i j xs ys hij hi hj a ha (heq ▸ hb)⟩)
    exact fun a ha hmem => (List.nodup_append.mp hnodup).2.2 a ha a hmem rfl
  have hcases : ∀ k zs,
      Function.update (Function.update c i (some xs')) j (some ys') k = some zs →
        k = i ∧ zs = xs' ∨ k = j ∧ zs = ys' ∨ (k ≠ i ∧ k ≠ j) ∧ c k = some zs := fun k zs hk => by
    by_cases hkj : k = j
    · rw [hkj, Function.update_self] at hk
      exact .inr (.inl ⟨hkj, (Option.some.inj hk).symm⟩)
    rw [Function.update_of_ne hkj] at hk
    by_cases hki : k = i
    · rw [hki, Function.update_self] at hk
      exact .inl ⟨hki, (Option.some.inj hk).symm⟩
    rw [Function.update_of_ne hki] at hk
    exact .inr (.inr ⟨⟨hki, hkj⟩, hk⟩)
  refine ⟨rep.toExist.within hw, fun k zs hk => ?_, fun k zs hk => ?_,
    fun k m zs ws hkm hk hm a ha hmem' => ?_⟩
  · rcases hcases k zs hk with ⟨rfl, rfl⟩ | ⟨rfl, rfl⟩ | ⟨hne, hk⟩
    · exact hold
    · exact hold'
    · refine (rep.holds k zs hk).within hw fun a ha hmem => ?_
      rcases List.mem_append.mp hmem with hmem | hmem
      · exact layout.chain_apart hne.1 (rep.mem k zs hk) (rep.mem i xs hi)
          (rep.apart k i zs xs hne.1 hk hi) a ha hmem
      · exact layout.chain_apart hne.2 (rep.mem k zs hk) (rep.mem j ys hj)
          (rep.apart k j zs ys hne.2 hk hj) a ha hmem
  · rcases hcases k zs hk with ⟨rfl, rfl⟩ | ⟨rfl, rfl⟩ | ⟨-, hk⟩
    · exact fun a ha => helems a (.inl ha)
    · exact fun a ha => helems a (.inr ha)
    · exact rep.mem k zs hk
  · rcases hcases k zs hk with ⟨rfl, rfl⟩ | ⟨rfl, rfl⟩ | ⟨hne, hk'⟩
    · rcases hcases m ws hm with ⟨rfl, rfl⟩ | ⟨rfl, rfl⟩ | ⟨hne', hm⟩
      · exact hkm rfl
      · exact hapart a ha hmem'
      · exact hother m ws hne'.1 hne'.2 hm a (.inl ha) hmem'
    · rcases hcases m ws hm with ⟨rfl, rfl⟩ | ⟨rfl, rfl⟩ | ⟨hne', hm⟩
      · exact hapart a hmem' ha
      · exact hkm rfl
      · exact hother m ws hne'.1 hne'.2 hm a (.inr ha) hmem'
    · rcases hcases m ws hm with ⟨rfl, rfl⟩ | ⟨rfl, rfl⟩ | ⟨-, hm⟩
      · exact hother k zs hne.1 hne.2 hk' a (.inl hmem') ha
      · exact hother k zs hne.1 hne.2 hk' a (.inr hmem') ha
      · exact rep.apart k m zs ws hkm hk' hm a ha hmem'

end Represents

/-! ## Each call -/

/-- The call returns what the specification says. -/
def Serves (lists : ι → KernelList) (elems : Finset Addr) (fuel : ℕ) (h : Elems) (c : Sequences ι)
    (op : ListOp ι) : Prop :=
  ∃ r h' c', op.exec lists fuel h = some (r, h') ∧ (sequences lists elems).Post c op r c' ∧
    Represents lists elems h' c'

section

variable {op : ListOp ι} {r : ListResult} {less : Addr → Addr → Bool} {before first last : Addr}

/-- A call that only reads. -/
theorem serves_read (rep : Represents lists elems h c)
    (hexec : op.exec lists fuel h = some (r, h)) (hpost : (sequences lists elems).Post c op r c) :
    Serves lists elems fuel h c op :=
  ⟨r, h, c, hexec, hpost, rep⟩

theorem serves_init (rep : Represents lists elems h c) (layout : Layout lists elems) (i : ι) :
    Serves lists elems fuel h c (.init i) := by
  obtain ⟨h', hinit, hold, hw⟩ :=
    listInit_holds (rep.head i) (rep.tail i) (layout.head_ne_tail i i)
  refine ⟨.done, h', _, by simp [ListOp.exec, hinit], ⟨rfl, rfl⟩, ?_⟩
  exact rep.update layout hold hw nofun nofun

theorem serves_insert (rep : Represents lists elems h c) (layout : Layout lists elems)
    (hpre : (sequences lists elems).Pre c (.insert before elem)) :
    Serves lists elems fuel h c (.insert before elem) := by
  obtain ⟨helem, hfree, i, as, bs, hplace⟩ := hpre
  have hold := rep.holds i _ hplace.1
  have hnew : elem ∉ (lists i).chain (as ++ bs) :=
    layout.notMem_chain helem (hfree i _ hplace.1)
  obtain ⟨h', hinsert, hold', hw⟩ := listInsert_holds hold (rep.elem elem helem) hnew
  rw [hplace.2] at hinsert
  refine ⟨.done, h', _, by simp [ListOp.exec, hinsert], ⟨rfl, i, as, bs, hplace, rfl⟩, ?_⟩
  have hown : ∀ a ∈ as ++ elem :: bs, Represents.Own elems c i a := fun a ha =>
    rep.own_insert helem hfree hplace.1 (by
      simp only [List.mem_append, List.mem_cons] at ha ⊢
      tauto)
  exact rep.update layout hold' hw hown hown

theorem serves_pushFront (rep : Represents lists elems h c) (layout : Layout lists elems)
    (helem : elem ∈ elems) (hfree : c.Free elem) (hi : c i = some xs) :
    Serves lists elems fuel h c (.pushFront i elem) := by
  obtain ⟨h', hpush, hold, hw⟩ := listPushFront_holds (rep.holds i xs hi) (rep.elem elem helem)
    (layout.notMem_chain helem (hfree i xs hi))
  refine ⟨.done, h', _, by simp [ListOp.exec, hpush], ⟨rfl, xs, hi, rfl⟩, ?_⟩
  have hown : ∀ a ∈ elem :: xs, Represents.Own elems c i a := fun a ha =>
    rep.own_insert helem hfree hi (List.mem_cons.mp ha)
  exact rep.update layout hold hw hown hown

theorem serves_pushBack (rep : Represents lists elems h c) (layout : Layout lists elems)
    (helem : elem ∈ elems) (hfree : c.Free elem) (hi : c i = some xs) :
    Serves lists elems fuel h c (.pushBack i elem) := by
  obtain ⟨h', hpush, hold, hw⟩ := listPushBack_holds (rep.holds i xs hi) (rep.elem elem helem)
    (layout.notMem_chain helem (hfree i xs hi))
  refine ⟨.done, h', _, by simp [ListOp.exec, hpush], ⟨rfl, xs, hi, rfl⟩, ?_⟩
  have hown : ∀ a ∈ xs ++ [elem], Represents.Own elems c i a := fun a ha =>
    rep.own_insert helem hfree hi (by
      simp only [List.mem_append, List.mem_singleton] at ha
      tauto)
  exact rep.update layout hold hw hown hown

theorem serves_insertOrdered (rep : Represents lists elems h c) (layout : Layout lists elems)
    (hfuel : elems.card < fuel) (helem : elem ∈ elems) (hfree : c.Free elem)
    (hi : c i = some xs) : Serves lists elems fuel h c (.insertOrdered i elem less) := by
  obtain ⟨h', hinsert, hold, hw⟩ := listInsertOrdered_holds less (rep.holds i xs hi)
    (rep.elem elem helem) (layout.notMem_chain helem (hfree i xs hi)) (rep.length_lt hi hfuel)
  refine ⟨.done, h', _, by simp [ListOp.exec, hinsert], ⟨rfl, xs, hi, rfl⟩, ?_⟩
  have hown : ∀ a ∈ xs.orderedInsert (fun a b => less a b = true) elem,
      Represents.Own elems c i a := fun a ha =>
    rep.own_insert helem hfree hi ((List.mem_orderedInsert _).mp ha)
  exact rep.update layout hold hw hown hown

theorem serves_remove {as bs : List Addr} (rep : Represents lists elems h c)
    (layout : Layout lists elems) (hi : c i = some (as ++ elem :: bs)) :
    Serves lists elems fuel h c (.remove elem) := by
  obtain ⟨h', hremove, hold, hw⟩ := listRemove_holds (rep.holds i _ hi)
  refine ⟨_, h', _, by simp [ListOp.exec, hremove], ⟨i, as, bs, hi, rfl, rfl⟩, ?_⟩
  have hown : ∀ a ∈ as ++ bs, Represents.Own elems c i a := fun a ha => rep.own_mem hi (by
    simp only [List.mem_append, List.mem_cons] at ha ⊢
    tauto)
  exact rep.update layout hold hw hown hown

theorem serves_popFront {x : Addr} (rep : Represents lists elems h c)
    (layout : Layout lists elems) (hi : c i = some (x :: xs)) :
    Serves lists elems fuel h c (.popFront i) := by
  obtain ⟨h', hpop, hold, hw⟩ := listPopFront_holds (rep.holds i _ hi)
  refine ⟨.elem x, h', _, by simp [ListOp.exec, hpop], ⟨x, xs, hi, rfl, rfl⟩, ?_⟩
  have hown : ∀ a ∈ xs, Represents.Own elems c i a := fun a ha =>
    rep.own_mem hi (List.mem_cons_of_mem x ha)
  exact rep.update layout hold hw hown hown

theorem serves_popBack {x : Addr} (rep : Represents lists elems h c)
    (layout : Layout lists elems) (hi : c i = some (xs ++ [x])) :
    Serves lists elems fuel h c (.popBack i) := by
  obtain ⟨h', hpop, hold, hw⟩ := listPopBack_holds (rep.holds i _ hi)
  refine ⟨.elem x, h', _, by simp [ListOp.exec, hpop], ⟨x, xs, hi, rfl, rfl⟩, ?_⟩
  have hown : ∀ a ∈ xs, Represents.Own elems c i a := fun a ha =>
    rep.own_mem hi (List.mem_append_left [x] ha)
  exact rep.update layout hold hw hown hown

theorem serves_reverse (rep : Represents lists elems h c) (layout : Layout lists elems)
    (hfuel : elems.card < fuel) (hi : c i = some xs) :
    Serves lists elems fuel h c (.reverse i) := by
  obtain ⟨h', hreverse, hold, hw⟩ :=
    listReverse_holds (rep.holds i xs hi) (rep.length_lt hi hfuel)
  refine ⟨.done, h', _, by simp [ListOp.exec, hreverse], ⟨rfl, xs, hi, rfl⟩, ?_⟩
  exact rep.update layout hold hw (fun a ha => rep.own_mem hi (List.mem_reverse.mp ha))
    fun a ha => rep.own_mem hi ha

theorem serves_sort (rep : Represents lists elems h c) (layout : Layout lists elems)
    (hfuel : elems.card < fuel) (hi : c i = some xs) (ord : LessFunc less) :
    Serves lists elems fuel h c (.sort i less) := by
  obtain ⟨h', hsort, hold, hw⟩ := listSort_holds ord (rep.holds i xs hi) (rep.length_lt hi hfuel)
  refine ⟨.done, h', _, by simp [ListOp.exec, hsort], ⟨rfl, xs, hi, rfl⟩, ?_⟩
  exact rep.update layout hold hw (fun a ha => rep.own_mem hi (List.mem_mergeSort.mp ha))
    fun a ha => rep.own_mem hi ha

theorem serves_max (rep : Represents lists elems h c) (hfuel : elems.card < fuel)
    (hi : c i = some xs) (ord : LessFunc less) : Serves lists elems fuel h c (.max i less) := by
  have hmax := listMax_eq less (rep.holds i xs hi) (rep.length_lt hi hfuel)
  refine serves_read rep (by rw [ListOp.exec, hmax]; rfl) ⟨rfl, xs, hi, _, rfl, ?_⟩
  cases xs with
  | nil => rfl
  | cons x xs =>
    rw [if_neg (List.cons_ne_nil x xs)]
    exact foldl_first less ord x xs

theorem serves_min (rep : Represents lists elems h c) (hfuel : elems.card < fuel)
    (hi : c i = some xs) (ord : LessFunc less) : Serves lists elems fuel h c (.min i less) := by
  have hmin := listMin_eq less (rep.holds i xs hi) (rep.length_lt hi hfuel)
  refine serves_read rep (by rw [ListOp.exec, hmin]; rfl) ⟨rfl, xs, hi, _, rfl, ?_⟩
  cases xs with
  | nil => rfl
  | cons x xs =>
    rw [if_neg (List.cons_ne_nil x xs)]
    exact foldl_first _ ord.flip x xs

theorem serves_unique_none (rep : Represents lists elems h c) (layout : Layout lists elems)
    (hfuel : elems.card < fuel) (hi : c i = some xs) :
    Serves lists elems fuel h c (.unique i none less) := by
  obtain ⟨h', hunique, hold, hw⟩ :=
    listUnique_none less (rep.holds i xs hi) (rep.length_lt hi hfuel)
  refine ⟨.done, h', _, by simp [ListOp.exec, hunique], ⟨rfl, xs, hi, rfl⟩, ?_⟩
  exact rep.update layout hold hw
    (fun a ha => rep.own_mem hi ((List.destutter_sublist _ xs).mem ha))
    fun a ha => rep.own_mem hi ha

theorem serves_unique_some (rep : Represents lists elems h c) (layout : Layout lists elems)
    (hfuel : elems.card < fuel) (hij : i ≠ j) (hi : c i = some xs) (hj : c j = some ys) :
    Serves lists elems fuel h c (.unique i (some j) less) := by
  have hdisjoint := layout.chain_apart hij (rep.mem i xs hi) (rep.mem j ys hj)
    (rep.apart i j xs ys hij hi hj)
  obtain ⟨h', hunique, hold, hold', hw⟩ := listUnique_some less (rep.holds i xs hi)
    (rep.holds j ys hj) hdisjoint (rep.length_lt hi hfuel)
  refine ⟨.done, h', _, by simp [ListOp.exec, hunique], ⟨rfl, xs, ys, hi, hj, rfl⟩, ?_⟩
  exact rep.update₂ layout hij hi hj hold hold' hw (unique_perm less xs ys)

/-- The elements stay where they are, or go on or back in their own list. -/
theorem serves_splice_same {as M bs cs ds : List Addr} (rep : Represents lists elems h c)
    (layout : Layout lists elems) (hM : M ≠ []) (hrange : c.Range lists first last i as M bs)
    (hplace : Sequences.Place (Function.update c i (some (as ++ bs))) lists before i cs ds) :
    Serves lists elems fuel h c (.splice before first last) := by
  obtain ⟨hi, hfirst, hlast⟩ := hrange
  have hold := rep.holds i _ hi
  have hbefore := hplace.2
  have heq : as ++ bs = cs ++ ds := by simpa using hplace.1
  suffices hsplice : ∃ h', listSplice h before first last = some h' ∧
      Holds h' (lists i) (cs ++ (M ++ ds)) ∧
      Within ((lists i).chain (as ++ (M ++ bs))) h h' by
    obtain ⟨h', hsplice, hold', hw⟩ := hsplice
    refine ⟨.done, h', _, by simp [ListOp.exec, hsplice],
      ⟨rfl, i, as, M, bs, ⟨hi, hfirst, hlast⟩, i, cs, ds, hplace, rfl⟩, ?_⟩
    rw [Function.update_idem]
    refine rep.update layout hold' hw (fun a ha => rep.own_mem hi ?_) fun a ha => rep.own_mem hi ha
    have hmem : a ∈ cs ++ ds ↔ a ∈ as ++ bs := by rw [heq]
    simp only [List.mem_append] at ha hmem ⊢
    tauto
  rcases List.append_eq_append_iff.mp heq with ⟨Y, rfl, rfl⟩ | ⟨X, rfl, rfl⟩
  · by_cases hY : Y = []
    · subst hY
      rw [← hbefore, ← hfirst, ← hlast]
      simpa using listSplice_stay hold hM
    · obtain ⟨h', hsplice, hold', hw⟩ := listSplice_forth hold hM hY
      rw [hbefore, hfirst, hlast] at hsplice
      exact ⟨h', hsplice, by rwa [List.append_assoc], hw⟩
  · rw [List.append_assoc] at hold
    by_cases hX : X = []
    · subst hX
      rw [← hbefore, ← hfirst, ← hlast]
      simpa using listSplice_stay (show Holds h (lists i) (cs ++ (M ++ bs)) from hold) hM
    · obtain ⟨h', hsplice, hold', hw⟩ := listSplice_back hold hX hM
      have hx₀ := List.head?_eq_some_head hX
      rw [from_append _ hx₀, ← from_append _ hx₀ bs, hbefore, hfirst, hlast] at hsplice
      exact ⟨h', hsplice, hold', by rwa [List.append_assoc]⟩

theorem serves_splice (rep : Represents lists elems h c) (layout : Layout lists elems)
    (hpre : (sequences lists elems).Pre c (.splice before first last)) :
    Serves lists elems fuel h c (.splice before first last) := by
  obtain ⟨i, as, M, bs, hrange, j, cs, ds, hplace⟩ := hpre
  obtain ⟨hi, hfirst, hlast⟩ := hrange
  by_cases hM : M = []
  · -- nothing is moved
    subst hM
    have hci : Function.update c i (some (as ++ bs)) = c := by
      rw [Function.update_eq_self_iff, hi, List.nil_append]
    have hplace' := hplace
    rw [hci] at hplace'
    have hcj : Function.update c j (some (cs ++ ([] ++ ds))) = c := by
      rw [Function.update_eq_self_iff, hplace'.1, List.nil_append]
    have hsame : first = last := hfirst.symm.trans hlast
    have hsplice : listSplice h before first last = some h := by
      rw [listSplice, ← hplace'.2, assert_prev (rep.holds j _ hplace'.1).link.2, hsame]
      simp
    refine ⟨.done, h, c, by simp [ListOp.exec, hsplice],
      ⟨rfl, i, as, [], bs, ⟨hi, hfirst, hlast⟩, j, cs, ds, hplace, ?_⟩, rep⟩
    rw [hci, hcj]
  · by_cases hij : j = i
    · subst hij
      exact serves_splice_same rep layout hM ⟨hi, hfirst, hlast⟩ hplace
    · have hj := hplace.1
      rw [Function.update_of_ne hij] at hj
      have hij' := Ne.symm hij
      have hdisjoint := layout.chain_apart hij' (rep.mem i _ hi) (rep.mem j _ hj)
        (rep.apart i j _ _ hij' hi hj)
      obtain ⟨h', hsplice, hold, hold', hw⟩ :=
        listSplice_other (rep.holds i _ hi) (rep.holds j _ hj) hdisjoint hM
      rw [hplace.2, hfirst, hlast] at hsplice
      refine ⟨.done, h', _, by simp [ListOp.exec, hsplice],
        ⟨rfl, i, as, M, bs, ⟨hi, hfirst, hlast⟩, j, cs, ds, hplace, rfl⟩, ?_⟩
      refine rep.update₂ layout hij' hi hj hold hold' hw (List.perm_iff_count.mpr fun a => ?_)
      simp only [List.count_append]
      omega

end

/-! ## All sequences of calls -/

theorem serves (rep : Represents lists elems h c) (layout : Layout lists elems)
    (hfuel : elems.card < fuel) {op : ListOp ι} (hpre : (sequences lists elems).Pre c op) :
    Serves lists elems fuel h c op := by
  cases op with
  | init i => exact serves_init rep layout i
  | insert before elem => exact serves_insert rep layout hpre
  | splice before first last => exact serves_splice rep layout hpre
  | pushFront i elem =>
    obtain ⟨xs, hi⟩ := Option.ne_none_iff_exists'.mp hpre.2.2
    exact serves_pushFront rep layout hpre.1 hpre.2.1 hi
  | pushBack i elem =>
    obtain ⟨xs, hi⟩ := Option.ne_none_iff_exists'.mp hpre.2.2
    exact serves_pushBack rep layout hpre.1 hpre.2.1 hi
  | remove elem =>
    obtain ⟨i, as, bs, hi⟩ := hpre
    exact serves_remove rep layout hi
  | front i =>
    obtain ⟨x, xs, hi⟩ := hpre
    have hfront := listFront_eq (rep.holds i _ hi)
    exact serves_read rep (by rw [ListOp.exec, hfront]; rfl) ⟨rfl, x, xs, hi, rfl⟩
  | back i =>
    obtain ⟨x, xs, hi⟩ := hpre
    obtain ⟨ys, y, heq⟩ := (List.eq_nil_or_concat' (x :: xs)).resolve_left (List.cons_ne_nil x xs)
    rw [heq] at hi
    have hback := listBack_eq (rep.holds i _ hi)
    exact serves_read rep (by rw [ListOp.exec, hback]; rfl) ⟨rfl, y, ys, hi, rfl⟩
  | popFront i =>
    obtain ⟨x, xs, hi⟩ := hpre
    exact serves_popFront rep layout hi
  | popBack i =>
    obtain ⟨x, xs, hi⟩ := hpre
    obtain ⟨ys, y, heq⟩ := (List.eq_nil_or_concat' (x :: xs)).resolve_left (List.cons_ne_nil x xs)
    exact serves_popBack rep layout (heq ▸ hi)
  | size i =>
    obtain ⟨xs, hi⟩ := Option.ne_none_iff_exists'.mp hpre
    have hsize := listSize_eq (rep.holds i xs hi) (rep.length_lt hi hfuel)
    exact serves_read rep (by rw [ListOp.exec, hsize]; rfl) ⟨rfl, xs, hi, rfl⟩
  | empty i =>
    obtain ⟨xs, hi⟩ := Option.ne_none_iff_exists'.mp hpre
    have hempty := (rep.holds i xs hi).listEmpty
    exact serves_read rep (by rw [ListOp.exec, hempty]; rfl) ⟨rfl, xs, hi, rfl⟩
  | reverse i =>
    obtain ⟨xs, hi⟩ := Option.ne_none_iff_exists'.mp hpre
    exact serves_reverse rep layout hfuel hi
  | sort i less =>
    obtain ⟨xs, hi⟩ := Option.ne_none_iff_exists'.mp hpre.1
    exact serves_sort rep layout hfuel hi hpre.2
  | insertOrdered i elem less =>
    obtain ⟨xs, hi⟩ := Option.ne_none_iff_exists'.mp hpre.2.2
    exact serves_insertOrdered rep layout hfuel hpre.1 hpre.2.1 hi
  | unique i duplicates less =>
    obtain ⟨xs, hi⟩ := Option.ne_none_iff_exists'.mp hpre.1
    cases duplicates with
    | none => exact serves_unique_none rep layout hfuel hi
    | some j =>
      obtain ⟨hji, hj⟩ := hpre.2 j rfl
      obtain ⟨ys, hj⟩ := Option.ne_none_iff_exists'.mp hj
      exact serves_unique_some rep layout hfuel hji.symm hi hj
  | max i less =>
    obtain ⟨xs, hi⟩ := Option.ne_none_iff_exists'.mp hpre.1
    exact serves_max rep hfuel hi hpre.2
  | min i less =>
    obtain ⟨xs, hi⟩ := Option.ne_none_iff_exists'.mp hpre.1
    exact serves_min rep hfuel hi hpre.2

/-- **Refinement.** From any memory with the headers and the elements, every sequence of calls ends
with no assertion failed, and returns what the sequences return. -/
theorem lists_refine_sequences (layout : Layout lists elems) (exist : Exist h lists elems)
    (hfuel : elems.card < fuel) {ops : List (ListOp ι)}
    (hops : (sequences lists elems).Allows (fun _ => none) ops) :
    ∃ results h' c, runs (ListOp.exec lists fuel) h ops = some (results, h') ∧
      (sequences lists elems).Serves (fun _ => none) ops results c ∧
      Represents lists elems h' c := by
  have hnew : Represents lists elems h fun _ => none := ⟨exist, nofun, nofun, nofun⟩
  have hstep : ∀ h c op, Represents lists elems h c → (sequences lists elems).Pre c op →
      Serves lists elems fuel h c op := fun _ _ _ rep hpre => serves rep layout hfuel hpre
  exact refines hstep hnew hops

/-- Two lists, with their headers at 0, 1 and 2, 3. -/
def twoLists (i : Bool) : KernelList := if i then ⟨2, 3⟩ else ⟨0, 1⟩

/-- Two sequences. -/
def bothLists (xs ys : Option (List Addr)) : Sequences Bool
  | true => xs
  | false => ys

section

variable {xs ys zs : Option (List Addr)}

theorem update_true : Function.update (bothLists xs ys) true zs = bothLists zs ys := by
  funext i
  cases i <;> rfl

theorem update_false : Function.update (bothLists xs ys) false zs = bothLists xs zs := by
  funext i
  cases i <;> rfl

theorem free_bothLists {xs ys : List Addr} {elem : Addr} (hxs : elem ∉ xs) (hys : elem ∉ ys) :
    (bothLists (some xs) (some ys)).Free elem := by
  intro i zs hi
  cases i
  · cases hi
    exact hys
  · cases hi
    exact hxs

end

/-- Two elements in each list; the first is sorted, the second reversed. -/
def twoListCalls : List (ListOp Bool) :=
  [.init true, .init false, .pushBack true 5, .pushBack true 4, .pushFront false 6,
    .pushFront false 7, .sort true fun a b => decide (a < b), .popFront true, .reverse false,
    .front false]

theorem allows_twoListCalls :
    (sequences twoLists {4, 5, 6, 7}).Allows (fun _ => none) twoListCalls := by
  have hstart : (fun _ => none : Sequences Bool) = bothLists none none := by
    funext i
    cases i <;> rfl
  have hless : LessFunc fun a b : Addr => decide (a < b) := by
    refine ⟨fun a b hab => ?_, fun a b d hab hbd => ?_⟩
    · simp only [decide_eq_true_eq, decide_eq_false_iff_not] at hab ⊢
      exact Nat.lt_asymm hab
    · simp only [decide_eq_false_iff_not, Nat.not_lt] at hab hbd ⊢
      exact hab.trans hbd
  have hsort : [5, 4].mergeSort (notLess fun a b : Addr => decide (a < b)) = [4, 5] := by
    simp [List.mergeSort, List.MergeSort.Internal.splitInTwo, notLess]
  rw [hstart]
  refine ⟨trivial, ?_⟩
  rintro r c ⟨-, rfl⟩
  rw [update_true]
  refine ⟨trivial, ?_⟩
  rintro r c ⟨-, rfl⟩
  rw [update_false]
  refine ⟨⟨by decide, free_bothLists (by decide) (by decide), Option.some_ne_none _⟩, ?_⟩
  rintro r c ⟨-, xs, ⟨⟩, rfl⟩
  rw [update_true]
  refine ⟨⟨by decide, free_bothLists (by decide) (by decide), Option.some_ne_none _⟩, ?_⟩
  rintro r c ⟨-, xs, ⟨⟩, rfl⟩
  rw [update_true]
  refine ⟨⟨by decide, free_bothLists (by decide) (by decide), Option.some_ne_none _⟩, ?_⟩
  rintro r c ⟨-, xs, ⟨⟩, rfl⟩
  rw [update_false]
  refine ⟨⟨by decide, free_bothLists (by decide) (by decide), Option.some_ne_none _⟩, ?_⟩
  rintro r c ⟨-, xs, ⟨⟩, rfl⟩
  rw [update_false]
  refine ⟨⟨Option.some_ne_none _, hless⟩, ?_⟩
  rintro r c ⟨-, xs, ⟨⟩, rfl⟩
  rw [update_true, List.nil_append, List.singleton_append, hsort]
  refine ⟨⟨4, [5], rfl⟩, ?_⟩
  rintro r c ⟨x, xs, ⟨⟩, -, rfl⟩
  rw [update_true]
  refine ⟨Option.some_ne_none _, ?_⟩
  rintro r c ⟨-, xs, ⟨⟩, rfl⟩
  rw [update_false]
  exact ⟨⟨6, [7], rfl⟩, fun _ _ _ => trivial⟩

theorem lists_refine_sequences_twoListCalls : ∃ results h' c,
    runs (ListOp.exec twoLists 5) (fun _ => some ⟨none, none⟩) twoListCalls = some (results, h') ∧
      (sequences twoLists {4, 5, 6, 7}).Serves (fun _ => none) twoListCalls results c ∧
      Represents twoLists {4, 5, 6, 7} h' c :=
  lists_refine_sequences ⟨by decide, by decide, by decide, by decide⟩
    ⟨fun _ => rfl, fun _ => rfl, fun _ _ => rfl⟩ (by decide) allows_twoListCalls

end DocMachine.Pintos
