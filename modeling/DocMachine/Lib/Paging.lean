import Mathlib.Data.List.Perm.Lattice
import Mathlib.Data.List.Range
import Mathlib.Data.List.Sort
import Mathlib.Order.Defs.LinearOrder

/-!
# Reading a list in pages

`page limit l k` is what is left of `l` after `k` pages, cut off at `limit` entries. A list is
`Descending` if it is in descending order by a key.

Results:
* `flatMap_page`: the pages of one list add up to it.
* `Descending.page_perm`: page `k` of two descending lists of the same entries has the same entries
  if no two pages share a key.
* `Descending.exists_swap`: two neighbours with the same key may change places, also at the end of a
  page.
-/

namespace DocMachine.Lib.Paging

variable {α κ : Type}

/-- Page `k` of the list, with `limit` entries to a page. -/
def page (limit : ℕ) (l : List α) (k : ℕ) : List α := (l.drop (k * limit)).take limit

/-! ## Pages of one list -/

section

variable {limit n : ℕ} {l : List α} {x : α}

theorem take_succ_mul (l : List α) (n : ℕ) :
    l.take ((n + 1) * limit) = l.take (n * limit) ++ page limit l n := by
  rw [Nat.succ_mul, List.take_add, page]

theorem flatMap_page (limit : ℕ) (l : List α) (n : ℕ) :
    (List.range n).flatMap (page limit l) = l.take (n * limit) := by
  induction n with
  | zero => simp
  | succ n ih =>
    rw [List.range_succ, List.flatMap_append, ih, take_succ_mul]
    simp

theorem page_eq_nil (h : l.length ≤ n * limit) : page limit l n = [] := by
  rw [page, List.drop_eq_nil_of_le h, List.take_nil]

theorem map_page {β : Type} (f : α → β) (limit : ℕ) (l : List α) (n : ℕ) :
    (page limit l n).map f = page limit (l.map f) n := by
  rw [page, List.map_take, List.map_drop, page]

/-- An entry is on the page of its position. -/
theorem mem_page {i : ℕ} (hfirst : n * limit ≤ i) (hlast : i < (n + 1) * limit)
    (h : l[i]? = some x) : x ∈ page limit l n := by
  rw [page, List.mem_iff_getElem?]
  refine ⟨i - n * limit, ?_⟩
  rw [Nat.succ_mul] at hlast
  rw [List.getElem?_take_of_lt (by omega), List.getElem?_drop, Nat.add_sub_of_le hfirst, h]

/-- An entry on two pages. -/
theorem not_nodup_flatMap {f : ℕ → List α} {i j : ℕ} (hij : i < j) (hj : j < n) (hi : x ∈ f i)
    (hx : x ∈ f j) : ¬ ((List.range n).flatMap f).Nodup := by
  intro h
  rw [List.nodup_flatMap] at h
  have hdisjoint := List.pairwise_iff_getElem.mp h.2 i j (by simp; omega) (by simp; omega) hij
  simp only [List.getElem_range] at hdisjoint
  exact hdisjoint hi hx

end

/-! ## Descending order -/

section

variable [LinearOrder κ] {f : α → κ} {l l' : List α}

/-- The keys do not grow along the list. -/
def Descending (f : α → κ) (l : List α) : Prop := l.Pairwise fun a b => f b ≤ f a

theorem descending_iff_map : Descending f l ↔ (l.map f).Pairwise (· ≥ ·) := by
  rw [Descending, List.pairwise_map]

/-- The keys of two listings of the same entries. -/
theorem Descending.map_eq (h : Descending f l) (h' : Descending f l') (hperm : l.Perm l') :
    l.map f = l'.map f :=
  (hperm.map f).eq_of_pairwise (fun _ _ _ _ hab hba => le_antisymm hba hab)
    (descending_iff_map.mp h) (descending_iff_map.mp h')

/-- What has a larger key comes first. -/
theorem Descending.eq_filter_append (h : Descending f l) (bound : κ) :
    l = l.filter (bound < f ·) ++ l.filter (f · ≤ bound) := by
  induction l with
  | nil => rfl
  | cons a l ih =>
    obtain ⟨ha, hl⟩ := List.pairwise_cons.mp h
    by_cases hlt : bound < f a
    · rw [List.filter_cons_of_pos (by simpa using hlt),
        List.filter_cons_of_neg (by simpa using hlt), List.cons_append, ← ih hl]
    · have hle : ∀ b ∈ a :: l, f b ≤ bound := by
        refine List.forall_mem_cons.mpr ⟨not_lt.mp hlt, fun b hb => ?_⟩
        exact (ha b hb).trans (not_lt.mp hlt)
      have hnone : (a :: l).filter (bound < f ·) = [] := by
        rw [List.filter_eq_nil_iff]
        intro b hb
        simpa using hle b hb
      have hall : (a :: l).filter (f · ≤ bound) = a :: l := by
        rw [List.filter_eq_self]
        intro b hb
        simpa using hle b hb
      rw [hnone, hall, List.nil_append]

theorem Descending.getElem_le (h : Descending f l) {i j : ℕ} (hij : i ≤ j) (hj : j < l.length) :
    f l[j] ≤ f l[i] := by
  obtain rfl | hlt := Nat.eq_or_lt_of_le hij
  · exact le_rfl
  · exact List.pairwise_iff_getElem.mp h i j (by omega) hj hlt

/-- The entries before a change of the key. -/
theorem Descending.take_eq_filter (h : Descending f l) {j : ℕ} {a b : κ} (hj : 0 < j)
    (ha : (l.map f)[j - 1]? = some a) (hb : (l.map f)[j]? = some b) (hab : a ≠ b) :
    l.take j = l.filter (a ≤ f ·) := by
  obtain ⟨hlt, hb⟩ := List.getElem?_eq_some_iff.mp hb
  obtain ⟨_, ha⟩ := List.getElem?_eq_some_iff.mp ha
  rw [List.getElem_map] at ha hb
  rw [List.length_map] at hlt
  have hba : b < a := by
    refine lt_of_le_of_ne ?_ hab.symm
    rw [← ha, ← hb]
    exact h.getElem_le (Nat.sub_le _ _) hlt
  have htake : (l.take j).filter (a ≤ f ·) = l.take j := by
    rw [List.filter_eq_self]
    intro x hx
    obtain ⟨i, hi, rfl⟩ := List.mem_iff_getElem.mp hx
    rw [List.length_take] at hi
    rw [List.getElem_take, decide_eq_true_eq, ← ha]
    exact h.getElem_le (by omega) (by omega)
  have hdrop : (l.drop j).filter (a ≤ f ·) = [] := by
    rw [List.filter_eq_nil_iff]
    intro x hx
    obtain ⟨i, hi, rfl⟩ := List.mem_iff_getElem.mp hx
    rw [List.length_drop] at hi
    rw [List.getElem_drop, decide_eq_true_eq, not_le]
    refine lt_of_le_of_lt ?_ hba
    rw [← hb]
    exact h.getElem_le (by omega) (by omega)
  calc l.take j = (l.take j).filter (a ≤ f ·) ++ (l.drop j).filter (a ≤ f ·) := by
        rw [htake, hdrop, List.append_nil]
    _ = l.filter (a ≤ f ·) := by rw [← List.filter_append, List.take_append_drop]

/-- No two pages share a key. -/
def Separated (limit : ℕ) (keys : List κ) : Prop :=
  ∀ k a, 0 < k → keys[k * limit - 1]? = some a → keys[k * limit]? ≠ some a

theorem Descending.take_perm (h : Descending f l) (h' : Descending f l') (hperm : l.Perm l')
    {limit : ℕ} (hseparated : Separated limit (l.map f)) (n : ℕ) :
    (l.take (n * limit)).Perm (l'.take (n * limit)) := by
  by_cases hpos : 0 < n * limit
  · by_cases hlt : n * limit < l.length
    · obtain ⟨a, ha⟩ : ∃ a, (l.map f)[n * limit - 1]? = some a :=
        ⟨_, List.getElem?_eq_getElem (by rw [List.length_map]; omega)⟩
      obtain ⟨b, hb⟩ : ∃ b, (l.map f)[n * limit]? = some b :=
        ⟨_, List.getElem?_eq_getElem (by rw [List.length_map]; omega)⟩
      have hab : a ≠ b := by
        rintro rfl
        exact hseparated n a (Nat.pos_of_mul_pos_right hpos) ha hb
      have hkeys := h.map_eq h' hperm
      rw [h.take_eq_filter hpos ha hb hab,
        h'.take_eq_filter hpos (hkeys ▸ ha) (hkeys ▸ hb) hab]
      exact hperm.filter _
    · rw [List.take_of_length_le (by omega),
        List.take_of_length_le (by rw [← hperm.length_eq]; omega)]
      exact hperm
  · obtain hzero : n * limit = 0 := by omega
    rw [hzero, List.take_zero, List.take_zero]

/-- **Pages of different listings of the same entries.** -/
theorem Descending.page_perm (h : Descending f l) (h' : Descending f l') (hperm : l.Perm l')
    {limit : ℕ} (hseparated : Separated limit (l.map f)) (n : ℕ) :
    (page limit l n).Perm (page limit l' n) := by
  have hbefore := h.take_perm h' hperm hseparated n
  have hafter := h.take_perm h' hperm hseparated (n + 1)
  rw [take_succ_mul, take_succ_mul] at hafter
  have hcancel := hafter.trans (hbefore.symm.append_right _)
  exact (List.perm_append_left_iff _).mp hcancel

/-- Two neighbours with the same key may change places. -/
theorem Descending.exists_swap (h : Descending f l) {j : ℕ} {a : κ} (hj : 0 < j)
    (hbefore : (l.map f)[j - 1]? = some a) (hafter : (l.map f)[j]? = some a) :
    ∃ x l', l[j - 1]? = some x ∧ l'[j]? = some x ∧ l'.Perm l ∧ Descending f l' := by
  obtain ⟨i, rfl⟩ := Nat.exists_eq_add_of_le' hj
  rw [Nat.add_sub_cancel] at hbefore ⊢
  obtain ⟨hlt, hy⟩ := List.getElem?_eq_some_iff.mp hafter
  obtain ⟨_, hx⟩ := List.getElem?_eq_some_iff.mp hbefore
  rw [List.getElem_map] at hx hy
  rw [List.length_map] at hlt
  have hparts : l = l.take i ++ l[i] :: l[i + 1] :: l.drop (i + 2) := by
    rw [← List.drop_eq_getElem_cons, ← List.drop_eq_getElem_cons, List.take_append_drop]
  have hlength : (l.take i).length = i := List.length_take_of_le (by omega)
  refine ⟨l[i], l.take i ++ l[i + 1] :: l[i] :: l.drop (i + 2), List.getElem?_eq_getElem _, ?_, ?_,
    ?_⟩
  · rw [List.getElem?_append_right (by omega), hlength, Nat.add_sub_cancel_left]
    rfl
  · have hperm : (l.take i ++ l[i + 1] :: l[i] :: l.drop (i + 2)).Perm
        (l.take i ++ l[i] :: l[i + 1] :: l.drop (i + 2)) := (List.Perm.swap _ _ _).append_left _
    rwa [← hparts] at hperm
  · have hkeys := congrArg (List.map f) hparts
    rw [List.map_append, List.map_cons, List.map_cons, hx, hy] at hkeys
    rw [descending_iff_map] at h ⊢
    rwa [List.map_append, List.map_cons, List.map_cons, hx, hy, ← hkeys]

end

end DocMachine.Lib.Paging
