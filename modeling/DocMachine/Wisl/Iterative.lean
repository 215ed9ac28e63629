import Mathlib.Data.List.Forall2
import Mathlib.Logic.Equiv.Basic
import DocMachine.Wisl.SinglyLinked

/-!
# The iterative functions on singly linked lists

Model of the iterative functions of `gillian-lab/sll.wisl` (`SLL_append_iter` 301-321,
`SLL_append_node_iter` 324-343, `SLL_concat_iter` 346-365, `SLL_copy_iter` 368-394,
`SLL_length_iter` 397-411, `SLL_member_iter` 414-429, `SLL_free_iter` 432-441), each next to the
recursive version of `SinglyLinked.lean`.

* The loop that looks for the last node is one function, `link`, in those that put something at the
  end of a list (`walk` in the source's words: two pointers, one behind the other).
* Two runs may be given different locations by `new`, so the same list is meant up to a renaming of
  the new locations, and each version here has an allocator of its own.
* A renaming is a permutation of the locations that leaves those of the old heap alone
  (`exists_perm_map`): a product of swaps, one for each pair of new nodes.

Results:
* `SLL.walk_spec`: the loop ends at the last node, and `SLL.link_spec`: the second list is at the
  end of the first.
* `SLL.copy_loop_spec`, `SLL.length_loop_spec` and `SLL.member_loop_spec`: the other loops, at the
  rest of the list.
* `SLL.iterative`: on every heap with the list, and another one for two of the functions, the two
  versions of each function both end, with the same list up to new locations, or with the same value
  and the heap as it was.
-/

namespace DocMachine.Wisl

open DocMachine.Lib DocMachine.Lib.Separation

variable {L V : Type}

/-! ## The same list -/

/-- The nodes, elsewhere. -/
def rename (σ : Equiv.Perm L) (ns : List (Node L V)) : List (Node L V) :=
  ns.map fun node => (σ node.1, node.2)

theorem forall₂_new {S : Set L} {new new' : List (Node L V)}
    (hsnd : new.map Prod.snd = new'.map Prod.snd) (hnew : ∀ node ∈ new, node.1 ∉ S)
    (hnew' : ∀ node ∈ new', node.1 ∉ S) :
    List.Forall₂ (fun a b => a.2 = b.2 ∧ (a.1 = b.1 ∨ a.1 ∉ S ∧ b.1 ∉ S)) new new' := by
  induction new generalizing new' with
  | nil =>
    obtain rfl := List.map_eq_nil_iff.mp hsnd.symm
    exact .nil
  | cons node new ih =>
    obtain ⟨node', new', rfl, hhead, htail⟩ := List.map_eq_cons_iff.mp hsnd.symm
    rw [List.forall_mem_cons] at hnew hnew'
    exact .cons ⟨hhead.symm, .inr ⟨hnew.1, hnew'.1⟩⟩ (ih htail.symm hnew.2 hnew'.2)

variable [DecidableEq L]

/-- Two lists of different names are the same up to a permutation that leaves `S` alone, if two
names that are not equal lie outside `S`. It is a product of swaps, one for each pair. -/
theorem exists_perm_map {S : Set L} {as bs : List L}
    (h : List.Forall₂ (fun a b => a = b ∨ a ∉ S ∧ b ∉ S) as bs) (ha : as.Nodup) (hb : bs.Nodup) :
    ∃ σ : Equiv.Perm L, (∀ s ∈ S, σ s = s) ∧ as.map σ = bs := by
  induction h with
  | nil => exact ⟨Equiv.refl L, fun _ _ => rfl, rfl⟩
  | @cons a b as bs hab _ ih =>
    obtain ⟨hna, ha⟩ := List.nodup_cons.mp ha
    obtain ⟨hnb, hb⟩ := List.nodup_cons.mp hb
    obtain ⟨σ, hfix, hmap⟩ := ih ha hb
    by_cases haS : a ∈ S
    · obtain rfl : a = b := hab.resolve_right fun h => h.1 haS
      refine ⟨σ, hfix, ?_⟩
      rw [List.map_cons, hfix a haS, hmap]
    · have hbS : b ∉ S := by
        rcases hab with rfl | h
        · exact haS
        · exact h.2
      refine ⟨σ.trans (Equiv.swap (σ a) b), fun s hs => ?_, ?_⟩
      · have hsa : s ≠ σ a := by
          intro h
          have hs' : s = a := σ.injective ((hfix s hs).trans h)
          exact haS (hs' ▸ hs)
        have hsb : s ≠ b := fun h => hbS (h ▸ hs)
        rw [Equiv.trans_apply, hfix s hs, Equiv.swap_apply_of_ne_of_ne hsa hsb]
      · have hrest : as.map (σ.trans (Equiv.swap (σ a) b)) = as.map σ := by
          refine List.map_congr_left fun x hx => ?_
          have hxa : σ x ≠ σ a := fun h => hna (σ.injective h ▸ hx)
          have hxb : σ x ≠ b := fun h => hnb (h ▸ hmap ▸ List.mem_map_of_mem hx)
          rw [Equiv.trans_apply, Equiv.swap_apply_of_ne_of_ne hxa hxb]
        rw [List.map_cons, hrest, hmap, Equiv.trans_apply, Equiv.swap_apply_left]

/-- From `h ∪ hf` the two programs end, in lists with the contents `vs` in place of `h`. The first
list is the second one up to a renaming of the locations that were free. -/
def SameList (prog prog' : ℕ → Prog L V (Val L V)) (h hf : Heap L (Block L V))
    (vs : List (Val L V)) : Prop :=
  ∃ x x' h₁ h₁', Program.Ends prog (h ∪ hf) x (h₁ ∪ hf) ∧
    Program.Ends prog' (h ∪ hf) x' (h₁' ∪ hf) ∧ h₁.Disjoint hf ∧ h₁'.Disjoint hf ∧
    SLL x vs h₁ ∧ SLL x' vs h₁' ∧ ∃ (σ : Equiv.Perm L) (ns : List (Node L V)),
      (∀ l ∈ h ∪ hf, σ l = l) ∧ x = first ns .null ∧ seg ns .null h₁ ∧
      x' = first (rename σ ns) .null ∧ seg (rename σ ns) .null h₁'

/-- Nodes after those of `base`, with the values `vs`. -/
def Extends (base : List (Node L V)) (vs : List (Val L V)) (ns : List (Node L V)) : Prop :=
  ∃ new, new.map Prod.snd = vs ∧ ns = base ++ new

theorem exists_rename {S : Set L} {ns ms : List (Node L V)}
    (h : List.Forall₂ (fun a b => a.2 = b.2 ∧ (a.1 = b.1 ∨ a.1 ∉ S ∧ b.1 ∉ S)) ns ms)
    (hns : (ns.map Prod.fst).Nodup) (hms : (ms.map Prod.fst).Nodup) :
    ∃ σ : Equiv.Perm L, (∀ s ∈ S, σ s = s) ∧ ms = rename σ ns := by
  have hfst : List.Forall₂ (fun a b => a = b ∨ a ∉ S ∧ b ∉ S) (ns.map Prod.fst)
      (ms.map Prod.fst) := by
    rw [List.forall₂_map_left_iff, List.forall₂_map_right_iff]
    exact h.imp fun _ _ hab => hab.2
  obtain ⟨σ, hfix, hmap⟩ := exists_perm_map hfst hns hms
  refine ⟨σ, hfix, ?_⟩
  clear hns hms hfst
  induction h with
  | nil => rfl
  | @cons a b ns ms hab _ ih =>
    obtain ⟨hhead, htail⟩ := List.cons_eq_cons.mp hmap
    exact congrArg₂ List.cons (Prod.ext hhead.symm hab.1.symm) (ih htail)

/-- New nodes are at locations that were free. -/
theorem new_notMem {base new : List (Node L V)} {h h₁ hf : Heap L (Block L V)}
    (hbase : ∀ l ∈ h, l ∈ base.map Prod.fst) (hs : seg (base ++ new) .null h₁)
    (hd : h₁.Disjoint hf) : ∀ node ∈ new, node.1 ∉ h ∪ hf := by
  intro node hnode hmem
  have hnew : node.1 ∈ new.map Prod.fst := List.mem_map_of_mem hnode
  rcases Finmap.mem_union.mp hmem with hh | hhf
  · have hnodup := nodup_seg hs
    rw [List.map_append] at hnodup
    exact (List.disjoint_of_nodup_append hnodup) (hbase _ hh) hnew
  · refine hd _ ((mem_seg hs _).mpr ?_) hhf
    rw [List.map_append]
    exact List.mem_append_right _ hnew

variable {prog prog' : ℕ → Prog L V (Val L V)} {h hf : Heap L (Block L V)}
  {vs : List (Val L V)} {base : List (Node L V)}

theorem SameList.of_ends (hbase : ∀ l ∈ h, l ∈ base.map Prod.fst)
    (hprog : ∃ x h₁, Program.Ends prog (h ∪ hf) x (h₁ ∪ hf) ∧ h₁.Disjoint hf ∧
      listIn (Extends base vs) x h₁)
    (hprog' : ∃ x h₁, Program.Ends prog' (h ∪ hf) x (h₁ ∪ hf) ∧ h₁.Disjoint hf ∧
      listIn (Extends base vs) x h₁) :
    SameList prog prog' h hf (base.map Prod.snd ++ vs) := by
  obtain ⟨x, h₁, hends, hd, _, ⟨new, hnew, rfl⟩, hx, hs⟩ := hprog
  obtain ⟨x', h₁', hends', hd', _, ⟨new', hnew', rfl⟩, hx', hs'⟩ := hprog'
  have hsame : List.Forall₂ (fun a b => a.2 = b.2 ∧
      (a.1 = b.1 ∨ a.1 ∉ {l | l ∈ h ∪ hf} ∧ b.1 ∉ {l | l ∈ h ∪ hf})) (base ++ new)
      (base ++ new') :=
    List.rel_append (List.forall₂_same.mpr fun _ _ => ⟨rfl, .inl rfl⟩)
      (forall₂_new (hnew.trans hnew'.symm) (new_notMem hbase hs hd) (new_notMem hbase hs' hd'))
  obtain ⟨σ, hfix, hσ⟩ := exists_rename hsame (nodup_seg hs) (nodup_seg hs')
  have hSLL : SLL x (base.map Prod.snd ++ vs) h₁ :=
    SLL_iff.mpr ⟨_, hx.symm, by rw [List.map_append, hnew], hs⟩
  have hSLL' : SLL x' (base.map Prod.snd ++ vs) h₁' :=
    SLL_iff.mpr ⟨_, hx'.symm, by rw [List.map_append, hnew'], hs'⟩
  rw [hσ] at hx' hs'
  exact ⟨x, x', h₁, h₁', hends, hends', hd, hd', hSLL, hSLL', σ, _, hfix, hx, hs, hx', hs'⟩

/-! Programs that end elsewhere, read the list or free it. -/

variable {n : ℕ} {ns : List (Node L V)}

/-- A copy next to the list is a new list, with the list as a part of the rest. -/
theorem SLL.copy_ends (hprog : Triple n (seg ns .null) prog
      fun y => sep (listIn (fun ms => ms.map Prod.snd = ns.map Prod.snd) y) (seg ns .null))
    (hs : seg ns .null h) (hd : h.Disjoint hf) :
    ∃ x h₁, Program.Ends prog (∅ ∪ (h ∪ hf)) x (h₁ ∪ (h ∪ hf)) ∧ h₁.Disjoint (h ∪ hf) ∧
      listIn (Extends [] (ns.map Prod.snd)) x h₁ := by
  obtain ⟨x, _, hends, hd', h₁, h₂, hd'', rfl, ⟨ks, hks, hx⟩, hs₂⟩ := hprog.ends hs hd
  obtain rfl := seg_unique hs hs₂
  rw [Finmap.disjoint_union_left] at hd'
  refine ⟨x, h₁, ?_, (Finmap.disjoint_union_right _ _ _).mpr ⟨hd'', hd'.1⟩, ks, ⟨ks, hks, rfl⟩, hx⟩
  rw [Finmap.empty_union, ← Finmap.union_assoc]
  exact hends

/-- A function that only reads the list. -/
theorem ends_of_reads {α : Type} {prog : ℕ → Prog L V α} {a : α}
    (hprog : Triple n (seg ns .null) prog fun b h => b = a ∧ seg ns .null h)
    (hs : seg ns .null h) (hd : h.Disjoint hf) : Program.Ends prog (h ∪ hf) a (h ∪ hf) := by
  obtain ⟨b, h', hends, -, rfl, hs'⟩ := hprog.ends hs hd
  rw [seg_unique hs hs'] at *
  exact hends

theorem ends_of_frees
    (hprog : Triple n (seg ns .null) prog fun b h => b = .null ∧ emp h)
    (hs : seg ns .null h) (hd : h.Disjoint hf) : Program.Ends prog (h ∪ hf) .null hf := by
  obtain ⟨b, h', hends, -, rfl, rfl⟩ := hprog.ends hs hd
  rw [Finmap.empty_union] at hends
  exact hends

variable [DecidableEq V]

/-! ## The functions -/

/-- `while (not (next = null))`, on `(prev, next)`. -/
def SLL.walk : ℕ → Val L V × Val L V → Prog L V (Val L V × Val L V) :=
  Program.whileDo (fun s => s.2 ≠ .null) fun s => do
    let next ← load s.2 1
    pure (s.2, next)

/-- Put `y` at the end of a list. -/
def SLL.link (fuel : ℕ) (x y : Val L V) : Prog L V (Val L V) :=
  if x = .null then pure y
  else do
    let next ← load x 1
    let s ← SLL.walk fuel (x, next)
    store s.1 1 y
    pure x

/-- `SLL_append_iter`. -/
def SLL.append_iter (A : Allocator L (Block L V)) (fuel : ℕ) (x k : Val L V) :
    Prog L V (Val L V) := do
  let y ← SLL.allocate_node A k
  SLL.link fuel x y

/-- `SLL_append_node_iter`. -/
def SLL.append_node_iter (fuel : ℕ) (x y : Val L V) : Prog L V (Val L V) := SLL.link fuel x y

/-- `SLL_concat_iter`. -/
def SLL.concat_iter (fuel : ℕ) (x y : Val L V) : Prog L V (Val L V) := SLL.link fuel x y

/-- `SLL_copy_iter`. -/
def SLL.copy_iter (A : Allocator L (Block L V)) (fuel : ℕ) (x : Val L V) : Prog L V (Val L V) :=
  if x = .null then pure .null
  else do
    let y ← new A 2
    let v ← load x 0
    store y 0 v
    let t ← load x 1
    let _ ← Program.whileDo (fun s : Val L V × Val L V => s.1 ≠ .null) (fun s => do
      let v ← load s.1 0
      let c ← new A 2
      store c 0 v
      store s.2 1 c
      let t ← load s.1 1
      pure (t, c)) fuel (t, y)
    pure y

/-- `SLL_length_iter`. -/
def SLL.length_iter (fuel : ℕ) (x : Val L V) : Prog L V ℕ := do
  let s ← Program.whileDo (fun s : Val L V × ℕ => s.1 ≠ .null) (fun s => do
    let y ← load s.1 1
    pure (y, s.2 + 1)) fuel (x, 0)
  pure s.2

/-- `SLL_member_iter`. -/
def SLL.member_iter (fuel : ℕ) (x k : Val L V) : Prog L V Bool := do
  let s ← Program.whileDo (fun s : Bool × Val L V => s.1 = false ∧ s.2 ≠ .null) (fun s => do
    let v ← load s.2 0
    let next ← load s.2 1
    pure (decide (v = k), next)) fuel (false, x)
  pure s.1

/-- `SLL_free_iter`. -/
def SLL.free_iter (fuel : ℕ) (x : Val L V) : Prog L V (Val L V) := do
  let _ ← Program.whileDo (fun x : Val L V => x ≠ .null) (fun x => do
    let next ← load x 1
    Wisl.free x
    pure next) fuel x
  pure .null

/-! ## What they do -/

variable {A : Allocator L (Block L V)} {k : Val L V}

omit [DecidableEq V] in
/-- One turn of a loop that reads the first node of a list. -/
theorem while_cons {σ : Type} {test : σ → Bool} {body : σ → Prog L V σ} {s t : σ} {R : σ → Prop}
    {l : L} {v : Val L V} {ns : List (Node L V)} {n : ℕ} (htest : test s = true)
    (hbody : Triple n (seg ((l, v) :: ns) .null) (fun _ => body s)
      fun s' h => s' = t ∧ seg ((l, v) :: ns) .null h)
    (hrest : Triple n (seg ns .null) (fun fuel => Program.whileDo test body fuel t)
      fun s' h => R s' ∧ seg ns .null h) :
    Triple (n + 1) (seg ((l, v) :: ns) .null) (fun fuel => Program.whileDo test body fuel s)
      fun s' h => R s' ∧ seg ((l, v) :: ns) .null h := by
  refine Triple.while_step htest hbody fun s' => Triple.and_pre fun hs => ?_
  subst hs
  rw [seg_cons, sep_comm]
  refine (hrest.frame _).conseq (fun _ hs => hs) fun s' h hs => ?_
  rw [sep_and] at hs
  exact hs

/-- The loop ends at the last node. -/
theorem SLL.walk_spec (node : Node L V) (ns : List (Node L V)) :
    Triple (ns.length + 1) (seg (node :: ns) .null)
      (fun fuel => SLL.walk fuel (.ptr node.1 0, first ns .null))
      fun s h => s.1 = .ptr ((node :: ns).getLast (List.cons_ne_nil _ _)).1 0 ∧
        seg (node :: ns) .null h := by
  induction ns generalizing node with
  | nil => exact Triple.while_done rfl fun h hs => ⟨rfl, hs⟩
  | cons node' ns ih =>
    obtain ⟨l, v⟩ := node
    obtain ⟨l', v'⟩ := node'
    refine while_cons (R := fun s : Val L V × Val L V => s.1 =
      .ptr (((l, v) :: (l', v') :: ns).getLast (List.cons_ne_nil _ _)).1 0) rfl ?_ (ih (l', v'))
    rw [seg, seg, sep_left_comm]
    exact load_bind (v := first ns .null) rfl (Triple.pure _ fun h hs => ⟨rfl, hs⟩)

/-- The list `ns` with the list `ms` at its end. -/
theorem SLL.link_spec (ns ms : List (Node L V)) :
    Triple (ns.length + 1) (sep (seg ns .null) (seg ms .null))
      (fun fuel => SLL.link fuel (first ns .null) (first ms .null)) (listIn (· = ns ++ ms)) := by
  unfold SLL.link
  cases ns with
  | nil =>
    rw [seg, emp_sep]
    exact pure_spec ms
  | cons node ns =>
    obtain ⟨l, v⟩ := node
    simp only [first, reduceCtorEq, if_false]
    rw [seg, sep_assoc]
    refine load_bind (v := first ns .null) rfl ?_
    rw [← sep_assoc]
    have hwalk := (SLL.walk_spec (l, v) ns).of_le (Nat.le_succ (ns.length + 1))
    refine hwalk.bind_frame fun s => ?_
    rw [sep_and]
    refine Triple.and_pre fun hs => ?_
    rw [hs]
    obtain ⟨ini, last, hini⟩ : ∃ ini last, (l, v) :: ns = ini ++ [last] :=
      ⟨_, _, (List.dropLast_concat_getLast (List.cons_ne_nil (l, v) ns)).symm⟩
    obtain ⟨l', v'⟩ := last
    have hlast : ((l, v) :: ns).getLast (List.cons_ne_nil _ _) = (l', v') := by
      simp only [hini, List.getLast_concat]
    rw [hlast, hini, seg_concat, sep_assoc, List.append_assoc]
    refine store_bind Nat.one_lt_two (Triple.pure _ fun h hs => ?_)
    refine ⟨ini ++ ([(l', v')] ++ ms), rfl, ?_, ?_⟩
    · rw [← List.append_assoc, ← hini]
      rfl
    · rw [seg_append, List.singleton_append, seg, sep_left_comm]
      exact hs

theorem SLL.append_iter_spec (ns : List (Node L V)) :
    Triple (ns.length + 1) (seg ns .null) (fun fuel => SLL.append_iter A fuel (first ns .null) k)
      (listIn fun ks => ∃ l, ks = ns ++ [(l, k)]) := by
  refine SLL.allocate_node_bind fun l => ?_
  have hnew : pointsTo l [k, .null] = seg [(l, k)] .null := (sep_emp _).symm
  rw [hnew, sep_comm]
  refine (SLL.link_spec ns [(l, k)]).conseq (fun _ hs => hs) ?_
  rintro x h ⟨ks, rfl, hx⟩
  exact ⟨_, ⟨l, rfl⟩, hx⟩

/-- The loop of `copy_iter`, with the rest `ns` of the list to go. `(l, v)` is the last node that
was made. -/
theorem SLL.copy_loop_spec (l : L) (v : Val L V) (ns : List (Node L V)) :
    Triple (ns.length + 1) (sep (pointsTo l [v, .null]) (seg ns .null))
      (fun fuel => Program.whileDo (fun s : Val L V × Val L V => s.1 ≠ .null) (fun s => do
        let v ← load s.1 0
        let c ← new A 2
        store c 0 v
        store s.2 1 c
        let t ← load s.1 1
        pure (t, c)) fuel (first ns .null, .ptr l 0))
      fun _ h => ∃ ms, ms.map Prod.snd = ns.map Prod.snd ∧
        sep (seg ((l, v) :: ms) .null) (seg ns .null) h := by
  induction ns generalizing l v with
  | nil =>
    refine Triple.while_done rfl fun h hs => ⟨[], rfl, ?_⟩
    rw [seg, seg, sep_emp]
    exact hs
  | cons node ns ih =>
    obtain ⟨l₁, v₁⟩ := node
    refine Triple.while_step (S := fun s h => ∃ l₂, s = (first ns .null, .ptr l₂ 0) ∧
      sep (sep (pointsTo l₂ [v₁, .null]) (seg ns .null))
        (sep (pointsTo l [v, .ptr l₂ 0]) (pointsTo l₁ [v₁, first ns .null])) h)
      rfl ?_ fun s => Triple.exists_pre fun l₂ => Triple.and_pre fun hs => ?_
    · rw [seg, sep_left_comm]
      refine load_bind (v := v₁) rfl (new_bind fun l₂ => store_bind Nat.zero_lt_two ?_)
      have hpre : sep (pointsTo l₂ [v₁, .null]) (sep (pointsTo l₁ [v₁, first ns .null])
          (sep (pointsTo l [v, .null]) (seg ns .null))) =
          sep (pointsTo l [v, .null]) (sep (pointsTo l₁ [v₁, first ns .null])
            (sep (pointsTo l₂ [v₁, .null]) (seg ns .null))) := by ac_rfl
      refine Triple.conseq ?_ (fun _ hs => hpre ▸ hs) fun _ _ hs => hs
      refine store_bind Nat.one_lt_two ?_
      rw [sep_left_comm]
      refine load_bind (v := first ns .null) rfl (Triple.pure _ fun h hs => ⟨l₂, rfl, ?_⟩)
      have hpost : sep (pointsTo l₁ [v₁, first ns .null]) (sep (pointsTo l [v, .ptr l₂ 0])
          (sep (pointsTo l₂ [v₁, .null]) (seg ns .null))) =
          sep (sep (pointsTo l₂ [v₁, .null]) (seg ns .null))
            (sep (pointsTo l [v, .ptr l₂ 0]) (pointsTo l₁ [v₁, first ns .null])) := by ac_rfl
      exact hpost ▸ hs
    · subst hs
      refine ((ih l₂ v₁).frame _).conseq (fun _ hs => hs) fun s h hs => ?_
      rw [sep_exists] at hs
      obtain ⟨ms, hs⟩ := hs
      rw [sep_and] at hs
      refine ⟨(l₂, v₁) :: ms, congrArg (v₁ :: ·) hs.1, ?_⟩
      have hpost : sep (sep (seg ((l₂, v₁) :: ms) .null) (seg ns .null))
          (sep (pointsTo l [v, .ptr l₂ 0]) (pointsTo l₁ [v₁, first ns .null])) =
          sep (seg ((l, v) :: (l₂, v₁) :: ms) .null) (seg ((l₁, v₁) :: ns) .null) := by
        rw [seg_cons l v, seg_cons l₁ v₁, first_cons]
        ac_rfl
      exact hpost ▸ hs.2

theorem SLL.copy_iter_spec (ns : List (Node L V)) :
    Triple (ns.length + 1) (seg ns .null) (fun fuel => SLL.copy_iter A fuel (first ns .null))
      fun y => sep (listIn (fun ms => ms.map Prod.snd = ns.map Prod.snd) y) (seg ns .null) := by
  unfold SLL.copy_iter
  cases ns with
  | nil =>
    refine Triple.pure _ ?_
    rintro _ rfl
    rw [seg, sep_emp]
    exact ⟨[], rfl, rfl, rfl⟩
  | cons node ns =>
    obtain ⟨l, v⟩ := node
    simp only [first, reduceCtorEq, if_false]
    refine new_bind fun l' => ?_
    rw [seg_cons, sep_left_comm]
    refine load_bind (v := v) rfl ?_
    rw [sep_left_comm]
    refine store_bind Nat.zero_lt_two ?_
    rw [sep_left_comm]
    refine load_bind (v := first ns .null) rfl ?_
    have hpre : sep (pointsTo l [v, first ns .null]) (sep (pointsTo l' [v, .null])
        (seg ns .null)) = sep (sep (pointsTo l' [v, .null]) (seg ns .null))
          (pointsTo l [v, first ns .null]) := by ac_rfl
    refine Triple.conseq ?_ (fun _ hs => hpre ▸ hs) fun _ _ hs => hs
    refine ((SLL.copy_loop_spec l' v ns).of_le (Nat.le_succ _)).bind_frame fun _ => ?_
    rw [sep_exists]
    refine Triple.exists_pre fun ms => ?_
    rw [sep_and]
    refine Triple.and_pre fun hms => Triple.pure _ fun h hs => ?_
    rw [sep_assoc, sep_comm (seg ns _)] at hs
    refine sep_mono (fun h hs => ⟨(l', v) :: ms, ?_, rfl, hs⟩) (fun _ hs => hs) hs
    exact congrArg (v :: ·) hms

/-- The loop of `length_iter`, at the rest `ns` of the list. -/
theorem SLL.length_loop_spec (m : ℕ) (ns : List (Node L V)) :
    Triple (ns.length + 1) (seg ns .null)
      (fun fuel => Program.whileDo (fun s : Val L V × ℕ => s.1 ≠ .null) (fun s => do
        let y ← load s.1 1
        pure (y, s.2 + 1)) fuel (first ns .null, m))
      fun s h => s.2 = m + ns.length ∧ seg ns .null h := by
  induction ns generalizing m with
  | nil => exact Triple.while_done rfl fun _ hs => ⟨rfl, hs⟩
  | cons node ns ih =>
    obtain ⟨l, v⟩ := node
    have hlength : m + (ns.length + 1) = m + 1 + ns.length := by omega
    rw [List.length_cons, hlength]
    refine while_cons (t := (first ns .null, m + 1)) rfl ?_ (ih (m + 1))
    exact load_bind (v := first ns .null) rfl (Triple.pure _ fun _ hs => ⟨rfl, hs⟩)

theorem SLL.length_iter_spec (ns : List (Node L V)) :
    Triple (ns.length + 1) (seg ns .null) (fun fuel => SLL.length_iter fuel (first ns .null))
      fun a h => a = ns.length ∧ seg ns .null h :=
  (SLL.length_loop_spec 0 ns).bind fun _ => Triple.pure _ fun _ hs =>
    ⟨hs.1.trans (Nat.zero_add _), hs.2⟩

/-- The loop of `member_iter`, at the rest `ns` of the list. -/
theorem SLL.member_loop_spec (found : Bool) (ns : List (Node L V)) :
    Triple (ns.length + 1) (seg ns .null)
      (fun fuel => Program.whileDo (fun s : Bool × Val L V => s.1 = false ∧ s.2 ≠ .null)
        (fun s => do
        let v ← load s.2 0
        let next ← load s.2 1
        pure (decide (v = k), next)) fuel (found, first ns .null))
      fun s h => s.1 = (found || decide (k ∈ ns.map Prod.snd)) ∧ seg ns .null h := by
  induction ns generalizing found with
  | nil =>
    have htest : decide (found = false ∧ first ([] : List (Node L V)) .null ≠ .null) = false :=
      decide_eq_false fun h => h.2 rfl
    exact Triple.while_done htest fun _ hs => ⟨(Bool.or_false found).symm, hs⟩
  | cons node ns ih =>
    obtain ⟨l, v⟩ := node
    cases found with
    | true => exact Triple.while_done rfl fun _ hs => ⟨rfl, hs⟩
    | false =>
      have hmem : (false || decide (k ∈ ((l, v) :: ns).map Prod.snd)) =
          (decide (v = k) || decide (k ∈ ns.map Prod.snd)) := by
        rw [Bool.false_or, List.map_cons, ← Bool.decide_or]
        refine decide_eq_decide.mpr ?_
        rw [List.mem_cons, eq_comm]
      rw [hmem]
      refine while_cons (t := (decide (v = k), first ns .null)) rfl ?_ (ih (decide (v = k)))
      exact load_bind (v := v) rfl (load_bind (v := first ns .null) rfl
        (Triple.pure _ fun _ hs => ⟨rfl, hs⟩))

theorem SLL.member_iter_spec (ns : List (Node L V)) :
    Triple (ns.length + 1) (seg ns .null) (fun fuel => SLL.member_iter fuel (first ns .null) k)
      fun a h => a = decide (k ∈ ns.map Prod.snd) ∧ seg ns .null h :=
  (SLL.member_loop_spec false ns).bind fun _ => Triple.pure _ fun _ hs => hs

theorem SLL.free_iter_spec (ns : List (Node L V)) :
    Triple (ns.length + 1) (seg ns .null) (fun fuel => SLL.free_iter fuel (first ns .null))
      fun a h => a = .null ∧ emp h := by
  have hloop : Triple (ns.length + 1) (seg ns .null)
      (fun fuel => Program.whileDo (fun x : Val L V => x ≠ .null) (fun x => do
        let next ← load x 1
        Wisl.free x
        pure next) fuel (first ns .null)) fun _ h => emp h := by
    induction ns with
    | nil => exact Triple.while_done rfl fun _ hs => hs
    | cons node ns ih =>
      obtain ⟨l, v⟩ := node
      rw [seg_cons]
      refine Triple.while_step (S := fun x h => x = first ns .null ∧ seg ns .null h) rfl
        (load_bind (v := first ns .null) rfl (free_bind (Triple.pure _ fun _ hs => ⟨rfl, hs⟩)))
        fun x => Triple.and_pre fun hx => ?_
      subst hx
      exact ih
  exact hloop.bind fun _ => Triple.pure _ fun _ hs => ⟨rfl, hs⟩

/-! ## The two versions -/

section

variable {A' : Allocator L (Block L V)} {x : Val L V} {ms : List (Node L V)}

theorem SLL.append_same (hs : seg ns .null h) (hd : h.Disjoint hf) (k : Val L V) :
    SameList (fun fuel => SLL.append A fuel (first ns .null) k)
      (fun fuel => SLL.append_iter A' fuel (first ns .null) k) h hf
      (ns.map Prod.snd ++ [k]) := by
  have hiff : ∀ (M : List (Node L V) → Prop), (∀ ks, M ks → ∃ l, ks = ns ++ [(l, k)]) →
      ∀ x h₁, listIn M x h₁ → listIn (Extends ns [k]) x h₁ := by
    rintro M hM x h₁ ⟨ks, hks, hx⟩
    obtain ⟨l, rfl⟩ := hM ks hks
    exact ⟨_, ⟨[(l, k)], rfl, rfl⟩, hx⟩
  have hrec : Triple (ns.length + 1) (seg ns .null)
      (fun fuel => SLL.append A fuel (first ns .null) k) (listIn (Extends ns [k])) := by
    refine (SLL.attach_spec (SLL.allocate_node_listIn k) ns).conseq (fun h hs => ?_) (hiff _ ?_)
    · rw [sep_emp]
      exact hs
    · rintro ks ⟨_, ⟨l, rfl⟩, rfl⟩
      exact ⟨l, rfl⟩
  have hiter := (SLL.append_iter_spec (A := A') (k := k) ns).conseq (fun _ hs => hs)
    (hiff _ fun _ hks => hks)
  exact SameList.of_ends (fun l hl => (mem_seg hs l).mp hl) (hrec.ends hs hd) (hiter.ends hs hd)

/-- Two lists, one to be put at the end of the other. -/
theorem SLL.concat_same {hy : Heap L (Block L V)} (hs : seg ns .null h) (hsy : seg ms .null hy)
    (hy_disjoint : hy.Disjoint (h ∪ hf)) (hd : h.Disjoint hf) :
    SameList (fun fuel => SLL.concat fuel (first ns .null) (first ms .null))
      (fun fuel => SLL.concat_iter fuel (first ns .null) (first ms .null)) (h ∪ hy) hf
      (ns.map Prod.snd ++ ms.map Prod.snd) := by
  rw [Finmap.disjoint_union_right] at hy_disjoint
  have hpre : sep (seg ns .null) (seg ms .null) (h ∪ hy) :=
    ⟨h, hy, hy_disjoint.1.symm, rfl, hs, hsy⟩
  have hdisj : (h ∪ hy).Disjoint hf :=
    (Finmap.disjoint_union_left _ _ _).mpr ⟨hd, hy_disjoint.2⟩
  have hrec : Triple (ns.length + 1) (sep (seg ns .null) (seg ms .null))
      (fun fuel => SLL.concat fuel (first ns .null) (first ms .null))
      (listIn (Extends (ns ++ ms) [])) := by
    refine (SLL.attach_spec (pure_spec ms) ns).conseq (fun _ hs => hs) ?_
    rintro x h₁ ⟨_, ⟨ks, hks, rfl⟩, hx⟩
    rw [hks] at hx
    exact ⟨_, ⟨[], rfl, rfl⟩, (List.append_nil (ns ++ ms)).symm ▸ hx⟩
  have hiter : Triple (ns.length + 1) (sep (seg ns .null) (seg ms .null))
      (fun fuel => SLL.concat_iter fuel (first ns .null) (first ms .null))
      (listIn (Extends (ns ++ ms) [])) := by
    refine (SLL.link_spec ns ms).conseq (fun _ hs => hs) ?_
    rintro x h₁ ⟨_, rfl, hx⟩
    exact ⟨_, ⟨[], rfl, rfl⟩, (List.append_nil (ns ++ ms)).symm ▸ hx⟩
  have hbase : ∀ l ∈ h ∪ hy, l ∈ (ns ++ ms).map Prod.fst := by
    intro l hl
    rw [List.map_append, List.mem_append, ← mem_seg hs, ← mem_seg hsy]
    exact Finmap.mem_union.mp hl
  have hsame := SameList.of_ends hbase (hrec.ends hpre hdisj) (hiter.ends hpre hdisj)
  rw [List.map_append, List.append_nil] at hsame
  exact hsame

theorem SLL.copy_same (hs : seg ns .null h) (hd : h.Disjoint hf) :
    SameList (fun fuel => SLL.copy A fuel (first ns .null))
      (fun fuel => SLL.copy_iter A' fuel (first ns .null)) ∅ (h ∪ hf) (ns.map Prod.snd) :=
  SameList.of_ends (fun _ hl => absurd hl Finmap.notMem_empty)
    (SLL.copy_ends (SLL.copy_spec ns) hs hd) (SLL.copy_ends (SLL.copy_iter_spec ns) hs hd)

/-- **The two versions of each function agree**, on every heap with the list `x` and, for two of the
functions, another list `y`: both end, with the same list up to new locations, or with the same
value and the heap as it was, and without a change to the rest `hf`. -/
theorem SLL.iterative (A A' : Allocator L (Block L V)) {vs : List (Val L V)}
    (hx : SLL x vs h) (hd : h.Disjoint hf) :
    (∀ k, SameList (fun fuel => SLL.append A fuel x k) (fun fuel => SLL.append_iter A' fuel x k)
      h hf (vs ++ [k])) ∧
    (∀ y vy hy, SLL y [vy] hy → hy.Disjoint (h ∪ hf) →
      SameList (fun fuel => SLL.append_node fuel x y) (fun fuel => SLL.append_node_iter fuel x y)
        (h ∪ hy) hf (vs ++ [vy])) ∧
    (∀ y ws hy, SLL y ws hy → hy.Disjoint (h ∪ hf) →
      SameList (fun fuel => SLL.concat fuel x y) (fun fuel => SLL.concat_iter fuel x y)
        (h ∪ hy) hf (vs ++ ws)) ∧
    SameList (fun fuel => SLL.copy A fuel x) (fun fuel => SLL.copy_iter A' fuel x) ∅ (h ∪ hf) vs ∧
    (Program.Ends (fun fuel => SLL.length fuel x) (h ∪ hf) vs.length (h ∪ hf) ∧
      Program.Ends (fun fuel => SLL.length_iter fuel x) (h ∪ hf) vs.length (h ∪ hf)) ∧
    (∀ k, ∃ r, list_member vs k r ∧
      Program.Ends (fun fuel => SLL.member fuel x k) (h ∪ hf) r (h ∪ hf) ∧
      Program.Ends (fun fuel => SLL.member_iter fuel x k) (h ∪ hf) r (h ∪ hf)) ∧
    Program.Ends (fun fuel => SLL.free fuel x) (h ∪ hf) .null hf ∧
    Program.Ends (fun fuel => SLL.free_iter fuel x) (h ∪ hf) .null hf := by
  obtain ⟨ns, rfl, rfl, hs⟩ := SLL_iff.mp hx
  refine ⟨SLL.append_same hs hd, ?_, ?_, SLL.copy_same hs hd, ⟨?_, ?_⟩, fun k => ?_, ?_, ?_⟩
  · intro y vy hy hsy hdy
    obtain ⟨ms, rfl, hms, hsegy⟩ := SLL_iff.mp hsy
    rw [← hms]
    exact SLL.concat_same hs hsegy hdy hd
  · intro y ws hy hsy hdy
    obtain ⟨ms, rfl, rfl, hsegy⟩ := SLL_iff.mp hsy
    exact SLL.concat_same hs hsegy hdy hd
  · rw [List.length_map]
    exact ends_of_reads (SLL.length_spec ns) hs hd
  · rw [List.length_map]
    exact ends_of_reads (SLL.length_iter_spec ns) hs hd
  · exact ⟨_, list_member_decide _ k, ends_of_reads (SLL.member_spec ns) hs hd,
      ends_of_reads (SLL.member_iter_spec ns) hs hd⟩
  · exact ends_of_frees (SLL.free_spec ns) hs hd
  · exact ends_of_frees (SLL.free_iter_spec ns) hs hd

end

/-- A list of two nodes. -/
def twoNodes (l l' : ℕ) (v v' : Val ℕ ℕ) : Heap ℕ (Block ℕ ℕ) :=
  Finmap.singleton l [v, .ptr l' 0] ∪ Finmap.singleton l' [v', .null]

theorem mem_twoNodes {l l' a : ℕ} {v v' : Val ℕ ℕ} :
    a ∈ twoNodes l l' v v' ↔ a = l ∨ a = l' := by
  rw [twoNodes, Finmap.mem_union, mem_singleton_iff, mem_singleton_iff]

theorem SLL_twoNodes {l l' : ℕ} (hne : l ≠ l') (v v' : Val ℕ ℕ) :
    SLL (.ptr l 0) [v, v'] (twoNodes l l' v v') := by
  have hlast : SLL (.ptr l' 0) [v'] (Finmap.singleton l' [v', .null]) :=
    ⟨.null, _, ∅, (Finmap.disjoint_empty _).symm, Finmap.union_empty.symm, ⟨l', rfl, rfl⟩, rfl, rfl⟩
  refine ⟨.ptr l' 0, _, _, fun a ha ha' => hne ?_, rfl, ⟨l, rfl, rfl⟩, hlast⟩
  exact (mem_singleton_iff.mp ha).symm.trans (mem_singleton_iff.mp ha')

theorem SLL.iterative_two :
    SameList (fun fuel => SLL.append Allocator.next fuel (.ptr 0 0) (.data 9))
      (fun fuel => SLL.append_iter Allocator.next fuel (.ptr 0 0) (.data 9))
      (twoNodes 0 1 (.data 7) (.data 8)) ∅ [.data 7, .data 8, .data 9] ∧
    SameList (fun fuel => SLL.concat fuel (.ptr 0 0) (.ptr 2 0))
      (fun fuel => SLL.concat_iter fuel (.ptr 0 0) (.ptr 2 0))
      (twoNodes 0 1 (.data 7) (.data 8) ∪ twoNodes 2 3 (.data 9) (.data 10)) ∅
      [.data 7, .data 8, .data 9, .data 10] := by
  have hagree := SLL.iterative Allocator.next Allocator.next
    (SLL_twoNodes (by decide : 0 ≠ 1) (.data 7) (.data 8)) (Finmap.disjoint_empty _).symm
  refine ⟨hagree.1 (.data 9),
    hagree.2.2.1 _ _ _ (SLL_twoNodes (by decide : 2 ≠ 3) (.data 9) (.data 10)) ?_⟩
  intro a ha ha'
  rw [Finmap.union_empty, mem_twoNodes] at ha'
  rw [mem_twoNodes] at ha
  omega

end DocMachine.Wisl
