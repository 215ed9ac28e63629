import DocMachine.Wisl.Language

/-!
# Singly linked lists

Model of the recursive functions of `gillian-lab/sll.wisl` (`SLL_allocate_node` 56-64, `SLL_append`
83-91, `SLL_append_node` 98-105, `SLL_concat` 112-119, `SLL_copy` 126-137, `SLL_length` 143-152,
`SLL_member` 173-189, `SLL_free` 222-232) and of its predicates (`SLL` 4-11, `list_member` 15-22,
`SLLseg` 241-247).

* A node is a block of two cells, the value and the next node, and `SLL x vs` describes a list with
  the contents `vs`.
* The values alone do not say which heap it is, so the proofs go through the list of the nodes:
  `seg ns y` is the segment of the nodes `ns` that ends before `y`, and holds of one heap only.
* A recursive function takes a bound on its calls; one more than the length of the list is enough.
* `SLL.append`, `SLL.append_node` and `SLL.concat` walk to the end of the list and put there what
  they got: they are all `attach`.

Results:
* `seg_unique`: a segment is in one heap only, and `SLL_iff`: a list is a segment up to `null`.
* `SLL.allocate_node_listIn`: a list of one new node, and a triple for each of the functions.
-/

namespace DocMachine.Wisl

open DocMachine.Lib DocMachine.Lib.Separation

variable {L V : Type}

/-! ## Predicates -/

/-- Where a node is, and its value. -/
abbrev Node (L V : Type) := L × Val L V

/-- The first of the nodes, or `y`. -/
def first : List (Node L V) → Val L V → Val L V
  | [], y => y
  | (l, _) :: _, _ => .ptr l 0

theorem first_cons (l : L) (v : Val L V) (ns : List (Node L V)) (y : Val L V) :
    first ((l, v) :: ns) y = .ptr l 0 := rfl

theorem first_append (ns ms : List (Node L V)) (y : Val L V) :
    first (ns ++ ms) y = first ns (first ms y) := by
  cases ns <;> rfl

theorem first_eq_of_ne_nil {ns : List (Node L V)} (hns : ns ≠ []) (y y' : Val L V) :
    first ns y = first ns y' := by
  cases ns with
  | nil => exact absurd rfl hns
  | cons node ns => rfl

theorem first_eq_null {ns : List (Node L V)} : first ns .null = .null ↔ ns = [] := by
  cases ns with
  | nil => exact ⟨fun _ => rfl, fun _ => rfl⟩
  | cons n ns => exact ⟨nofun, nofun⟩

variable [DecidableEq L]

/-- A list with the contents `vs`. -/
def SLL (x : Val L V) : List (Val L V) → Assertion L (Block L V)
  | [] => fun h => x = .null ∧ emp h
  | v :: vs => fun h => ∃ next, sep (block x [v, next]) (SLL next vs) h

/-- The nodes, linked one to the next and the last one to `y`. -/
def seg : List (Node L V) → Val L V → Assertion L (Block L V)
  | [], _ => emp
  | (l, v) :: ns, y => sep (pointsTo l [v, first ns y]) (seg ns y)

theorem seg_cons (l : L) (v : Val L V) (ns : List (Node L V)) (y : Val L V) :
    seg ((l, v) :: ns) y = sep (pointsTo l [v, first ns y]) (seg ns y) := rfl

theorem seg_append (ns ms : List (Node L V)) (y : Val L V) :
    seg (ns ++ ms) y = sep (seg ns (first ms y)) (seg ms y) := by
  induction ns with
  | nil => exact (emp_sep _).symm
  | cons n ns ih =>
    obtain ⟨l, v⟩ := n
    rw [List.cons_append, seg, seg, ih, first_append, sep_assoc]

theorem seg_concat (ns : List (Node L V)) (l : L) (v y : Val L V) :
    seg (ns ++ [(l, v)]) y = sep (pointsTo l [v, y]) (seg ns (.ptr l 0)) := by
  rw [seg_append, first_cons, seg_cons, seg, sep_emp, sep_comm]
  rfl

/-- A segment is in one heap only. -/
theorem seg_unique {ns : List (Node L V)} {y : Val L V} {h h' : Heap L (Block L V)}
    (hs : seg ns y h) (hs' : seg ns y h') : h = h' := by
  induction ns generalizing h h' with
  | nil => exact hs.trans hs'.symm
  | cons n ns ih =>
    obtain ⟨_, h₂, -, rfl, rfl, hs⟩ := hs
    obtain ⟨_, h₂', -, rfl, rfl, hs'⟩ := hs'
    rw [ih hs hs']

theorem mem_seg {ns : List (Node L V)} {y : Val L V} {h : Heap L (Block L V)} (hs : seg ns y h)
    (l : L) : l ∈ h ↔ l ∈ ns.map Prod.fst := by
  induction ns generalizing h with
  | nil =>
    cases hs
    exact ⟨fun h => absurd h (Finmap.notMem_empty), nofun⟩
  | cons n ns ih =>
    obtain ⟨_, h₂, -, rfl, rfl, hs⟩ := hs
    rw [Finmap.mem_union, mem_singleton_iff, ih hs, List.map_cons, List.mem_cons]

theorem nodup_seg {ns : List (Node L V)} {y : Val L V} {h : Heap L (Block L V)} (hs : seg ns y h) :
    (ns.map Prod.fst).Nodup := by
  induction ns generalizing h with
  | nil => exact List.nodup_nil
  | cons n ns ih =>
    obtain ⟨_, h₂, hd, rfl, rfl, hs⟩ := hs
    refine List.nodup_cons.mpr ⟨fun hmem => ?_, ih hs⟩
    exact hd n.1 (mem_singleton_iff.mpr rfl) ((mem_seg hs _).mpr hmem)

/-- A list is a segment up to `null`. -/
theorem SLL_iff {x : Val L V} {vs : List (Val L V)} {h : Heap L (Block L V)} :
    SLL x vs h ↔ ∃ ns, first ns .null = x ∧ ns.map Prod.snd = vs ∧ seg ns .null h := by
  induction vs generalizing x h with
  | nil =>
    refine ⟨fun ⟨hx, hs⟩ => ⟨[], hx.symm, rfl, hs⟩, ?_⟩
    rintro ⟨ns, hx, hns, hs⟩
    obtain rfl := List.map_eq_nil_iff.mp hns
    exact ⟨hx.symm, hs⟩
  | cons v vs ih =>
    constructor
    · rintro ⟨next, h₁, h₂, hd, rfl, ⟨l, rfl, hl⟩, htail⟩
      obtain ⟨ns, rfl, rfl, hs⟩ := ih.mp htail
      exact ⟨(l, v) :: ns, rfl, rfl, h₁, h₂, hd, rfl, hl, hs⟩
    · rintro ⟨ns, rfl, hns, hs⟩
      obtain ⟨⟨l, v⟩, ns, rfl, rfl, rfl⟩ := List.map_eq_cons_iff.mp hns
      obtain ⟨h₁, h₂, hd, rfl, hl, hs⟩ := hs
      exact ⟨first ns .null, h₁, h₂, hd, rfl, ⟨l, rfl, hl⟩, ih.mpr ⟨ns, rfl, rfl, hs⟩⟩

/-- Whether a value is in a list. -/
def list_member : List (Val L V) → Val L V → Bool → Prop
  | [], _, r => r = false
  | v' :: vs, v, r => (v' = v ∧ r = true ∧ ∃ mem, list_member vs v mem) ∨
      (v' ≠ v ∧ list_member vs v r)

theorem list_member_decide [DecidableEq V] (vs : List (Val L V)) (v : Val L V) :
    list_member vs v (decide (v ∈ vs)) := by
  induction vs with
  | nil => rfl
  | cons v' vs ih =>
    by_cases hv : v' = v
    · exact .inl ⟨hv, decide_eq_true (hv ▸ List.mem_cons_self), _, ih⟩
    · refine .inr ⟨hv, ?_⟩
      have hiff : v ∈ v' :: vs ↔ v ∈ vs := List.mem_cons.trans (or_iff_right (Ne.symm hv))
      rw [decide_eq_decide.mpr hiff]
      exact ih

/-! ## The functions -/

/-- `SLL_allocate_node`. -/
def SLL.allocate_node (A : Allocator L (Block L V)) (v : Val L V) : Prog L V (Val L V) := do
  let t ← new A 2
  store t 0 v
  pure t

/-- Put what `last` returns at the end of a list. -/
def SLL.attach (last : Prog L V (Val L V)) : ℕ → Val L V → Prog L V (Val L V)
  | 0, _ => Program.outOfFuel
  | _ + 1, .null => last
  | fuel + 1, x => do
    let t ← load x 1
    let z ← SLL.attach last fuel t
    store x 1 z
    pure x

/-- `SLL_append`. -/
def SLL.append (A : Allocator L (Block L V)) (fuel : ℕ) (x k : Val L V) : Prog L V (Val L V) :=
  SLL.attach (SLL.allocate_node A k) fuel x

/-- `SLL_append_node`. -/
def SLL.append_node (fuel : ℕ) (x y : Val L V) : Prog L V (Val L V) :=
  SLL.attach (pure y) fuel x

/-- `SLL_concat`. -/
def SLL.concat (fuel : ℕ) (x y : Val L V) : Prog L V (Val L V) :=
  SLL.attach (pure y) fuel x

/-- `SLL_copy`. -/
def SLL.copy (A : Allocator L (Block L V)) : ℕ → Val L V → Prog L V (Val L V)
  | 0, _ => Program.outOfFuel
  | _ + 1, .null => pure .null
  | fuel + 1, x => do
    let k ← load x 0
    let y ← SLL.allocate_node A k
    let t ← load x 1
    let z ← SLL.copy A fuel t
    store y 1 z
    pure y

/-- `SLL_length`. -/
def SLL.length : ℕ → Val L V → Prog L V ℕ
  | 0, _ => Program.outOfFuel
  | _ + 1, .null => pure 0
  | fuel + 1, x => do
    let t ← load x 1
    let n ← SLL.length fuel t
    pure (1 + n)

/-- `SLL_member`. -/
def SLL.member [DecidableEq V] : ℕ → Val L V → Val L V → Prog L V Bool
  | 0, _, _ => Program.outOfFuel
  | _ + 1, .null, _ => pure false
  | fuel + 1, x, k => do
    let v ← load x 0
    if v = k then pure true
    else do
      let t ← load x 1
      SLL.member fuel t k

/-- `SLL_free`. -/
def SLL.free : ℕ → Val L V → Prog L V (Val L V)
  | 0, _ => Program.outOfFuel
  | _ + 1, .null => pure .null
  | fuel + 1, x => do
    let t ← load x 1
    let _ ← SLL.free fuel t
    Wisl.free x
    pure .null

/-! ## What they do -/

/-- A list of nodes in `M`, from `x` on. -/
def listIn (M : List (Node L V) → Prop) (x : Val L V) : Assertion L (Block L V) :=
  fun h => ∃ ns, M ns ∧ x = first ns .null ∧ seg ns .null h

variable {n : ℕ} {P : Assertion L (Block L V)} {A : Allocator L (Block L V)} {y k : Val L V}

theorem SLL.allocate_node_spec (v : Val L V) :
    Triple n emp (fun _ => SLL.allocate_node A v)
      fun x h => ∃ l, x = .ptr l 0 ∧ pointsTo l [v, .null] h := by
  refine new_bind fun l => store_bind (Nat.zero_lt_two) (Triple.pure _ fun h hl => ⟨l, rfl, ?_⟩)
  rw [sep_emp] at hl
  exact hl

theorem SLL.allocate_node_bind {α : Type} {v : Val L V} {R : Assertion L (Block L V)}
    {f : ℕ → Val L V → Prog L V α} {Q : α → Assertion L (Block L V)}
    (h : ∀ l, Triple n (sep (pointsTo l [v, .null]) R) (fun fuel => f fuel (.ptr l 0)) Q) :
    Triple n R (fun fuel => SLL.allocate_node A v >>= f fuel) Q := by
  rw [← emp_sep R]
  refine (SLL.allocate_node_spec v).bind_frame fun x => ?_
  rw [sep_exists]
  refine Triple.exists_pre fun l => ?_
  rw [sep_and]
  refine Triple.and_pre fun hx => ?_
  subst hx
  exact h l

theorem SLL.attach_spec {last : Prog L V (Val L V)} {M : List (Node L V) → Prop}
    (hlast : Triple 0 P (fun _ => last) (listIn M)) (ns : List (Node L V)) :
    Triple (ns.length + 1) (sep (seg ns .null) P)
      (fun fuel => SLL.attach last fuel (first ns .null))
      (listIn fun ks => ∃ ms, M ms ∧ ks = ns ++ ms) := by
  induction ns with
  | nil =>
    rw [seg, emp_sep]
    refine Triple.of_succ ((hlast.of_le (Nat.zero_le _)).conseq (fun _ hP => hP) ?_)
    rintro x h ⟨ms, hM, hx, hs⟩
    exact ⟨ms, ⟨ms, hM, rfl⟩, hx, hs⟩
  | cons node ns ih =>
    obtain ⟨l, v⟩ := node
    refine Triple.of_succ ?_
    rw [seg, sep_assoc]
    refine load_bind (v := first ns .null) rfl ?_
    rw [sep_comm]
    refine ih.bind_frame fun z => ?_
    unfold listIn
    rw [sep_exists]
    refine Triple.exists_pre fun ks => ?_
    rw [sep_and]
    refine Triple.and_pre fun ⟨ms, hM, hks⟩ => ?_
    rw [sep_and, sep_comm]
    refine Triple.and_pre fun hz => store_bind (Nat.one_lt_two) (Triple.pure _ fun h hs => ?_)
    subst hks hz
    exact ⟨(l, v) :: (ns ++ ms), ⟨ms, hM, rfl⟩, rfl, hs⟩

/-- A list that is already there. -/
theorem pure_spec (ms : List (Node L V)) :
    Triple n (seg ms .null) (fun _ => (pure (first ms .null) : Prog L V (Val L V)))
      (listIn (· = ms)) :=
  Triple.pure _ fun _ hs => ⟨ms, rfl, rfl, hs⟩

/-- A list of one new node. -/
theorem SLL.allocate_node_listIn (v : Val L V) :
    Triple n emp (fun _ => SLL.allocate_node A v) (listIn fun ms => ∃ l, ms = [(l, v)]) := by
  refine (SLL.allocate_node_spec v).conseq (fun _ h => h) ?_
  rintro x h ⟨l, rfl, hl⟩
  refine ⟨[(l, v)], ⟨l, rfl⟩, rfl, ?_⟩
  rw [seg, seg, sep_emp]
  exact hl

theorem SLL.copy_spec (ns : List (Node L V)) :
    Triple (ns.length + 1) (seg ns .null) (fun fuel => SLL.copy A fuel (first ns .null))
      fun y => sep (listIn (fun ms => ms.map Prod.snd = ns.map Prod.snd) y) (seg ns .null) := by
  induction ns with
  | nil =>
    refine Triple.of_succ (Triple.pure _ ?_)
    rintro _ rfl
    rw [seg, sep_emp]
    exact ⟨[], rfl, rfl, rfl⟩
  | cons node ns ih =>
    obtain ⟨l, v⟩ := node
    refine Triple.of_succ ?_
    rw [seg]
    refine load_bind (v := v) rfl ?_
    refine SLL.allocate_node_bind fun l' => ?_
    rw [sep_left_comm]
    refine load_bind (v := first ns .null) rfl ?_
    rw [← sep_assoc, sep_comm]
    refine ih.bind_frame fun z => ?_
    have hpost : ∀ ms, z = first ms .null →
        sep (pointsTo l' [v, z]) (sep (seg ms .null) (sep (seg ns .null)
          (pointsTo l [v, first ns .null]))) =
        sep (seg ((l', v) :: ms) .null) (seg ((l, v) :: ns) .null) := by
      rintro ms rfl
      rw [seg, seg]
      ac_rfl
    unfold listIn
    rw [sep_exists, sep_exists]
    refine Triple.exists_pre fun ms => ?_
    rw [sep_and, sep_and]
    refine Triple.and_pre fun hms => ?_
    rw [sep_and, sep_and]
    refine Triple.and_pre fun hz => ?_
    have hpre : sep (sep (seg ms .null) (seg ns .null))
        (sep (pointsTo l [v, first ns .null]) (pointsTo l' [v, .null])) =
        sep (pointsTo l' [v, .null]) (sep (seg ms .null) (sep (seg ns .null)
          (pointsTo l [v, first ns .null]))) := by ac_rfl
    rw [hpre]
    refine store_bind (Nat.one_lt_two) (Triple.pure _ fun h hs => ?_)
    rw [List.set_cons_succ, List.set_cons_zero, hpost ms hz] at hs
    refine sep_mono (fun h hs => ⟨(l', v) :: ms, ?_, rfl, hs⟩) (fun _ hs => hs) hs
    exact congrArg (v :: ·) hms

theorem SLL.length_spec (ns : List (Node L V)) :
    Triple (ns.length + 1) (seg ns .null) (fun fuel => SLL.length fuel (first ns .null))
      fun a h => a = ns.length ∧ seg ns .null h := by
  induction ns with
  | nil => exact Triple.of_succ (Triple.pure _ fun _ hs => ⟨rfl, hs⟩)
  | cons node ns ih =>
    obtain ⟨l, v⟩ := node
    refine Triple.of_succ ?_
    rw [seg]
    refine load_bind (v := first ns .null) rfl ?_
    rw [sep_comm]
    refine ih.bind_frame fun a => ?_
    rw [sep_and]
    refine Triple.and_pre fun ha => Triple.pure _ fun h hs => ⟨?_, hs⟩
    rw [ha, List.length_cons, Nat.add_comm]

theorem SLL.member_spec [DecidableEq V] (ns : List (Node L V)) :
    Triple (ns.length + 1) (seg ns .null) (fun fuel => SLL.member fuel (first ns .null) k)
      fun a h => a = decide (k ∈ ns.map Prod.snd) ∧ seg ns .null h := by
  induction ns with
  | nil => exact Triple.of_succ (Triple.pure _ fun _ hs => ⟨rfl, hs⟩)
  | cons node ns ih =>
    obtain ⟨l, v⟩ := node
    refine Triple.of_succ ?_
    rw [seg]
    refine load_bind (v := v) rfl ?_
    by_cases hv : v = k
    · simp only [if_pos hv]
      refine Triple.pure _ fun h hs => ⟨?_, hs⟩
      rw [hv, List.map_cons, decide_eq_true List.mem_cons_self]
    · simp only [if_neg hv]
      refine load_bind (v := first ns .null) rfl ?_
      rw [sep_comm]
      refine (ih.frame _).conseq (fun _ hs => hs) fun a h hs => ?_
      rw [sep_and] at hs
      obtain ⟨rfl, hs⟩ := hs
      refine ⟨decide_eq_decide.mpr ?_, hs⟩
      rw [List.map_cons, List.mem_cons, or_iff_right (Ne.symm hv)]

theorem SLL.free_spec (ns : List (Node L V)) :
    Triple (ns.length + 1) (seg ns .null) (fun fuel => SLL.free fuel (first ns .null))
      fun a h => a = .null ∧ emp h := by
  induction ns with
  | nil => exact Triple.of_succ (Triple.pure _ fun _ hs => ⟨rfl, hs⟩)
  | cons node ns ih =>
    obtain ⟨l, v⟩ := node
    refine Triple.of_succ ?_
    rw [seg]
    refine load_bind (v := first ns .null) rfl ?_
    rw [sep_comm]
    refine ih.bind_frame fun z => ?_
    rw [sep_and]
    refine Triple.and_pre fun _ => ?_
    rw [sep_comm]
    exact free_bind (Triple.pure _ fun _ hs => ⟨rfl, hs⟩)

end DocMachine.Wisl
