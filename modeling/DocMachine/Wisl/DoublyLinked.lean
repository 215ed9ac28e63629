import DocMachine.Wisl.SinglyLinked

/-!
# Doubly linked lists

Model of `gillian-lab/dll.wisl` (`dlsegl` 2-6, `dlsegr` 8-12, `dlist` 92-96, `concat` 121-139).

* A node of a doubly linked list is a block of three cells: the value, the next node and the one
  before.
* There are two predicates for a segment: `dlsegl` takes off the first node, `dlsegr` the last one.
  The lemmas of the file (14-90) relate them step by step.
* `concat` takes two lists and returns a pair of the first and the last node of the whole, in a
  block of two cells.
* As for singly linked lists the proofs go through the list of the nodes: `dseg ns y w` is the
  segment of the nodes `ns` after `w` and before `y`.

Results:
* `dlsegl_iff_dlsegr`: the two predicates describe the same heaps.
* `dlsegr_and_concat`: they do, and `concat` joins two lists, for every rest of the heap. The pair
  it returns is new, and the nodes of the list are those of the two.
-/

namespace DocMachine.Wisl

open DocMachine.Lib DocMachine.Lib.Separation

variable {L V : Type}

/-- The last of the nodes, or `w`. -/
def last : List (Node L V) → Val L V → Val L V
  | [], w => w
  | (l, _) :: ns, _ => last ns (.ptr l 0)

theorem last_append (ns ms : List (Node L V)) (w : Val L V) :
    last (ns ++ ms) w = last ms (last ns w) := by
  induction ns generalizing w with
  | nil => rfl
  | cons node ns ih => exact ih (.ptr node.1 0)

variable [DecidableEq L]

/-! ## Predicates -/

/-- A segment from `x` to `v`, after `w` and before `y`, from the left. -/
inductive dlsegl : Val L V → Val L V → Val L V → Val L V → List (Val L V) →
    Assertion L (Block L V)
  | nil (x v : Val L V) : dlsegl x x v v [] ∅
  | cons {x y v w a z : Val L V} {beta : List (Val L V)} {h₁ h₂ : Heap L (Block L V)}
      (hd : h₁.Disjoint h₂) (hx : block x [a, z, w] h₁) (hz : dlsegl z y v x beta h₂) :
      dlsegl x y v w (a :: beta) (h₁ ∪ h₂)

/-- The same from the right. -/
inductive dlsegr : Val L V → Val L V → Val L V → Val L V → List (Val L V) →
    Assertion L (Block L V)
  | nil (x v : Val L V) : dlsegr x x v v [] ∅
  | snoc {x y v w a z : Val L V} {beta : List (Val L V)} {h₁ h₂ : Heap L (Block L V)}
      (hd : h₁.Disjoint h₂) (hv : block v [a, y, z] h₁) (hz : dlsegr x v z w beta h₂) :
      dlsegr x y v w (beta ++ [a]) (h₁ ∪ h₂)

/-- A list from `x` to `y`. -/
def dlist (x y : Val L V) (alpha : List (Val L V)) : Assertion L (Block L V) :=
  dlsegl x .null y .null alpha

variable {x y v w z a : Val L V} {alpha beta : List (Val L V)} {h₁ h₂ : Heap L (Block L V)}

theorem dlsegl_append_right (hs : dlsegl x v z w alpha h₁) (hv : block v [a, y, z] h₂)
    (hd : h₁.Disjoint h₂) : dlsegl x y v w (alpha ++ [a]) (h₁ ∪ h₂) := by
  induction hs with
  | nil x w =>
    rw [Finmap.union_comm_of_disjoint hd]
    exact .cons hd.symm hv (.nil y x)
  | @cons x v z w b l beta h h' hd' hx _ ih =>
    rw [Finmap.disjoint_union_left] at hd
    rw [Finmap.union_assoc]
    exact .cons ((Finmap.disjoint_union_right _ _ _).mpr ⟨hd', hd.1⟩) hx (ih hv hd.2)

theorem dlsegr_append_left (hx : block x [a, z, w] h₁) (hs : dlsegr z y v x alpha h₂)
    (hd : h₁.Disjoint h₂) : dlsegr x y v w (a :: alpha) (h₁ ∪ h₂) := by
  generalize hw : x = x' at hs
  induction hs with
  | nil v =>
    subst hw
    have hone : dlsegr x z x w ([] ++ [a]) (h₁ ∪ ∅) := .snoc hd hx (.nil x w)
    exact hone
  | @snoc y v w' b l beta h h' hd' hv _ ih =>
    rw [Finmap.disjoint_union_right] at hd
    rw [← Finmap.union_assoc, Finmap.union_comm_of_disjoint hd.1, Finmap.union_assoc,
      ← List.cons_append]
    exact .snoc ((Finmap.disjoint_union_right _ _ _).mpr ⟨hd.1.symm, hd'⟩) hv (ih hd.2 hw)

theorem dlseg_l_to_r (hs : dlsegl x y v w alpha h₁) : dlsegr x y v w alpha h₁ := by
  induction hs with
  | nil x v => exact .nil x v
  | cons hd hx _ ih => exact dlsegr_append_left hx ih hd

theorem dlseg_r_to_l (hs : dlsegr x y v w alpha h₁) : dlsegl x y v w alpha h₁ := by
  induction hs with
  | nil v => exact .nil _ v
  | snoc hd hv _ ih =>
    rw [Finmap.union_comm_of_disjoint hd]
    exact dlsegl_append_right ih hv hd.symm

theorem dlsegl_iff_dlsegr : dlsegl x y v w alpha h₁ ↔ dlsegr x y v w alpha h₁ :=
  ⟨dlseg_l_to_r, dlseg_r_to_l⟩

/-- The nodes, linked in both ways, the first one to `w` and the last one to `y`. -/
def dseg : List (Node L V) → Val L V → Val L V → Assertion L (Block L V)
  | [], _, _ => emp
  | (l, a) :: ns, y, w => sep (pointsTo l [a, first ns y, w]) (dseg ns y (.ptr l 0))

theorem dseg_cons (l : L) (a : Val L V) (ns : List (Node L V)) (y w : Val L V) :
    dseg ((l, a) :: ns) y w = sep (pointsTo l [a, first ns y, w]) (dseg ns y (.ptr l 0)) := rfl

theorem dseg_append (ns ms : List (Node L V)) (y w : Val L V) :
    dseg (ns ++ ms) y w = sep (dseg ns (first ms y) w) (dseg ms y (last ns w)) := by
  induction ns generalizing w with
  | nil => exact (emp_sep _).symm
  | cons node ns ih =>
    obtain ⟨l, a⟩ := node
    rw [List.cons_append, dseg_cons, dseg_cons, ih, first_append, sep_assoc]
    rfl

theorem dlsegl_iff {h : Heap L (Block L V)} : dlsegl x y v w alpha h ↔
    ∃ ns, x = first ns y ∧ v = last ns w ∧ ns.map Prod.snd = alpha ∧ dseg ns y w h := by
  constructor
  · intro hs
    induction hs with
    | nil x v => exact ⟨[], rfl, rfl, rfl, rfl⟩
    | @cons x y v w a z beta h₁ h₂ hd hx _ ih =>
      obtain ⟨l, rfl, hl⟩ := hx
      obtain ⟨ns, rfl, rfl, rfl, hs⟩ := ih
      exact ⟨(l, a) :: ns, rfl, rfl, rfl, h₁, h₂, hd, rfl, hl, hs⟩
  · rintro ⟨ns, rfl, rfl, rfl, hs⟩
    induction ns generalizing w h with
    | nil =>
      cases hs
      exact .nil y w
    | cons node ns ih =>
      obtain ⟨l, a⟩ := node
      obtain ⟨h₁, h₂, hd, rfl, hl, hs⟩ := hs
      exact .cons hd ⟨l, rfl, hl⟩ (ih hs)

/-! ## `concat` -/

/-- `concat`, on two lists from `x_a` to `v_a` and from `x_b` to `v_b`. -/
def concat [DecidableEq V] (A : Allocator L (Block L V)) (x_a v_a x_b v_b : Val L V) :
    Prog L V (Val L V) := do
  let r ← new A 2
  if x_a = .null then do
    store r 0 x_b
    store r 1 v_b
    pure r
  else if x_b = .null then do
    store r 0 x_a
    store r 1 v_a
    pure r
  else do
    store v_a 1 x_b
    store x_b 2 v_a
    store r 0 x_a
    store r 1 v_b
    pure r

/-- The same cells, with the same values, and maybe with other links. -/
def SameCells (h h' : Heap L (Block L V)) : Prop :=
  ∀ l, (h.lookup l).map List.head? = (h'.lookup l).map List.head?

theorem SameCells.mem_iff {h h' : Heap L (Block L V)} (hs : SameCells h h') {l : L} :
    l ∈ h ↔ l ∈ h' := by
  rw [← not_iff_not, ← Finmap.lookup_eq_none, ← Finmap.lookup_eq_none, ← Option.map_eq_none_iff,
    hs l, Option.map_eq_none_iff]

/-- What a list of nodes says of the cell at `l`. -/
theorem dseg_lookup {ns : List (Node L V)} {h : Heap L (Block L V)} (hs : dseg ns y w h) (l : L) :
    (h.lookup l).map List.head? = (ns.lookup l).map some := by
  induction ns generalizing w h with
  | nil =>
    cases hs
    rfl
  | cons node ns ih =>
    obtain ⟨l', a⟩ := node
    obtain ⟨_, h₂, hd, rfl, rfl, hs⟩ := hs
    by_cases hl : l = l'
    · subst hl
      rw [Finmap.lookup_union_left (mem_singleton_iff.mpr rfl), Finmap.lookup_singleton_eq,
        List.lookup_cons_self]
      rfl
    · rw [Finmap.lookup_union_right fun h => hl (mem_singleton_iff.mp h), ih hs, List.lookup_cons,
        beq_false_of_ne hl]

theorem sameCells_append {ns ms : List (Node L V)} {h : Heap L (Block L V)}
    (h₁s : dseg ns y w h₁) (h₂s : dseg ms y w h₂) (hs : dseg (ns ++ ms) y w h) :
    SameCells (h₁ ∪ h₂) h := by
  intro l
  rw [dseg_lookup hs, List.lookup_append]
  have hns := dseg_lookup h₁s l
  by_cases hl : l ∈ h₁
  · rw [Finmap.lookup_union_left hl, hns]
    obtain ⟨cells, hcells⟩ := Finmap.mem_iff.mp hl
    rw [hcells] at hns
    cases hlookup : ns.lookup l with
    | none =>
      rw [hlookup] at hns
      cases hns
    | some v => rfl
  · rw [Finmap.lookup_union_right hl, dseg_lookup h₂s]
    rw [Finmap.lookup_eq_none.mpr hl] at hns
    cases hlookup : ns.lookup l with
    | none => rfl
    | some v =>
      rw [hlookup] at hns
      cases hns

theorem concat_spec [DecidableEq V] (A : Allocator L (Block L V)) (ns ms : List (Node L V)) :
    Triple 0 (sep (dseg ns .null .null) (dseg ms .null .null))
      (fun _ => concat A (first ns .null) (last ns .null) (first ms .null) (last ms .null))
      fun r h => ∃ l, r = .ptr l 0 ∧ sep
        (pointsTo l [first (ns ++ ms) .null, last (ns ++ ms) .null])
        (dseg (ns ++ ms) .null .null) h := by
  refine new_bind fun r => ?_
  by_cases hns : ns = []
  · subst hns
    rw [dseg, emp_sep]
    simp only [first, if_true]
    exact store_bind Nat.zero_lt_two (store_bind Nat.one_lt_two
      (Triple.pure _ fun _ hs => ⟨r, rfl, hs⟩))
  simp only [if_neg (fun h => hns (first_eq_null.mp h))]
  by_cases hms : ms = []
  · subst hms
    rw [dseg, sep_emp, List.append_nil]
    simp only [first, if_true]
    exact store_bind Nat.zero_lt_two (store_bind Nat.one_lt_two
      (Triple.pure _ fun _ hs => ⟨r, rfl, hs⟩))
  simp only [if_neg (fun h => hms (first_eq_null.mp h))]
  obtain ⟨ini, ⟨l, a⟩, rfl⟩ : ∃ ini node, ns = ini ++ [node] :=
    ⟨_, _, (List.dropLast_concat_getLast hns).symm⟩
  obtain ⟨⟨l', b⟩, ms, rfl⟩ := List.exists_cons_of_ne_nil hms
  have hlast : ∀ w : Val L V, last (ini ++ [(l, a)]) w = .ptr l 0 := last_append ini [(l, a)]
  -- the last node of the one list and the first one of the other
  have hpre : sep (pointsTo r (List.replicate 2 .null))
      (sep (dseg (ini ++ [(l, a)]) .null .null) (dseg ((l', b) :: ms) .null .null)) =
      sep (pointsTo l [a, .null, last ini .null]) (sep (pointsTo l' [b, first ms .null, .null])
        (sep (pointsTo r (List.replicate 2 .null))
          (sep (dseg ini (.ptr l 0) .null) (dseg ms .null (.ptr l' 0))))) := by
    rw [dseg_append, dseg_cons, dseg_cons, dseg, sep_emp]
    simp only [first]
    ac_rfl
  have hpost : sep (pointsTo l' [b, first ms .null, .ptr l 0])
      (sep (pointsTo l [a, .ptr l' 0, last ini .null]) (sep (pointsTo r (List.replicate 2 .null))
        (sep (dseg ini (.ptr l 0) .null) (dseg ms .null (.ptr l' 0))))) =
      sep (pointsTo r (List.replicate 2 .null))
        (dseg (ini ++ [(l, a)] ++ (l', b) :: ms) .null .null) := by
    rw [dseg_append, hlast, dseg_append, dseg_cons, dseg_cons, dseg, sep_emp]
    simp only [first]
    ac_rfl
  rw [hpre, hlast]
  refine store_bind (Nat.succ_lt_succ Nat.zero_lt_two) ?_
  rw [sep_left_comm]
  refine store_bind (Nat.lt_succ_self 2)
    (Triple.conseq ?_ (fun _ hs => hpost ▸ hs) fun _ _ hs => hs)
  refine store_bind Nat.zero_lt_two (store_bind Nat.one_lt_two (Triple.pure _ fun _ hs =>
    ⟨r, ?_, ?_⟩))
  · rfl
  · rw [first_append, first_eq_of_ne_nil hns _ .null, last_append]
    exact hs

/-- **The two predicates for a segment are the same, and `concat` joins two lists**, for every rest
`hf` of the heap: the block it returns is new, and the nodes of the list are those of the two. -/
theorem dlsegr_and_concat [DecidableEq V] :
    (∀ (x y v w : Val L V) (alpha : List (Val L V)) (h : Heap L (Block L V)),
      dlsegl x y v w alpha h ↔ dlsegr x y v w alpha h) ∧
    ∀ (A : Allocator L (Block L V)) (x_a v_a x_b v_b : Val L V) (alpha beta : List (Val L V))
      (h_a h_b hf : Heap L (Block L V)), dlist x_a v_a alpha h_a → dlist x_b v_b beta h_b →
      h_a.Disjoint h_b → (h_a ∪ h_b).Disjoint hf →
      ∃ l head tail h', concat A x_a v_a x_b v_b (h_a ∪ h_b ∪ hf) =
          .done (.ptr l 0, Finmap.singleton l [head, tail] ∪ h' ∪ hf) ∧
        l ∉ h_a ∪ h_b ∪ hf ∧ dlist head tail (alpha ++ beta) h' ∧ SameCells (h_a ∪ h_b) h' := by
  refine ⟨fun x y v w alpha h => dlsegl_iff_dlsegr, ?_⟩
  intro A x_a v_a x_b v_b alpha beta h_a h_b hf ha hb hd hdf
  obtain ⟨ns, rfl, rfl, rfl, hns⟩ := dlsegl_iff.mp ha
  obtain ⟨ms, rfl, rfl, rfl, hms⟩ := dlsegl_iff.mp hb
  obtain ⟨_, _, ⟨n, hrun⟩, hdisj, l, rfl, _, h', hd', rfl, rfl, hs⟩ :=
    (concat_spec A ns ms).ends ⟨h_a, h_b, hd, rfl, hns, hms⟩ hdf
  have hcells := sameCells_append hns hms hs
  refine ⟨l, _, _, h', hrun n (Nat.le_refl n), ?_, ?_, hcells⟩
  · have hl : l ∈ (Finmap.singleton l [first (ns ++ ms) .null, last (ns ++ ms) .null] :
        Heap L (Block L V)) := mem_singleton_iff.mpr rfl
    rw [Finmap.mem_union, hcells.mem_iff, not_or]
    exact ⟨hd' l hl, hdisj l (Finmap.mem_union.mpr (.inl hl))⟩
  · exact dlsegl_iff.mpr ⟨ns ++ ms, rfl, rfl, List.map_append, hs⟩

theorem dlsegr_and_concat_one :
    ∃ l head tail h', concat Allocator.next (.ptr 0 0) (.ptr 0 0) (.ptr 1 0) (.ptr 1 0)
        (Finmap.singleton 0 [.data 7, .null, .null] ∪ Finmap.singleton 1 [.data 8, .null, .null] ∪
          ∅) = .done (.ptr l 0, Finmap.singleton l [head, tail] ∪ h' ∪ ∅) ∧
      l ∉ (Finmap.singleton 0 [.data 7, .null, .null] ∪
        Finmap.singleton 1 [.data 8, .null, .null] ∪ ∅ : Heap ℕ (Block ℕ ℕ)) ∧
      dlist head tail ([.data 7] ++ [.data 8]) h' ∧
      SameCells (Finmap.singleton 0 [.data 7, .null, .null] ∪
        Finmap.singleton 1 [.data 8, .null, .null]) h' := by
  have hone : ∀ (l : ℕ) (a : Val ℕ ℕ),
      dlist (.ptr l 0) (.ptr l 0) [a] (Finmap.singleton l [a, .null, .null]) := by
    intro l a
    have hcons : dlsegl (.ptr l 0) .null (.ptr l 0) .null [a]
        (Finmap.singleton l [a, .null, .null] ∪ ∅) :=
      .cons (Finmap.disjoint_empty _).symm ⟨l, rfl, rfl⟩ (.nil .null (.ptr l 0))
    rw [Finmap.union_empty] at hcons
    exact hcons
  refine dlsegr_and_concat.2 Allocator.next _ _ _ _ _ _ _ _ ∅ (hone 0 (.data 7))
    (hone 1 (.data 8)) (fun l hl hl' => ?_) (Finmap.disjoint_empty _).symm
  exact absurd ((mem_singleton_iff.mp hl).symm.trans (mem_singleton_iff.mp hl')) nofun

end DocMachine.Wisl
