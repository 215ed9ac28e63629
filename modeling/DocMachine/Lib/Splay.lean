import Mathlib

/-!
# Splaying

Binary trees with labels that have keys, and the bottom-up splay of a tree around a key.

* A node in a tree is given by the node and the frames around it, the nearest one first (`Located`).
  `locate` finds the node with a key, or the last one on the way to where it would be.
* `splayUp` brings a located node to the root, two frames at a time: by two rotations in the same
  direction where both frames are on one side, by two different ones otherwise, and by one where a
  single frame is left.
* `Splayed` says of a tree that no key is between that of the root and the given one.
* `balance` makes a tree of a list, with its middle at the root.

Results:
* `exists_splayUp`: the node is at the root, between the labels that were on its sides, so that the
  order of the labels is kept.
* `splay_spec`: splaying keeps the labels and their order, and a sorted tree is then splayed.
* `Splayed.left_lt` and `Splayed.lt_right`: where the key is in a splayed tree.
* `inorder_balance` and `height_balance_le`: the order of the tree is that of the list, and its
  height is the least one (`numNodes_lt_two_pow_height`).
-/

namespace DocMachine.Lib.Splay

open BinaryTree

variable {α : Type}

/-- The labels from left to right. -/
def inorder : BinaryTree α → List α
  | .nil => []
  | .node a l r => inorder l ++ a :: inorder r

theorem length_inorder (t : BinaryTree α) : (inorder t).length = t.numNodes := by
  induction t with
  | nil => rfl
  | node a l r ihl ihr =>
    simp only [inorder, numNodes, List.length_append, List.length_cons, ihl, ihr]
    omega

theorem inorder_eq_nil {t : BinaryTree α} : inorder t = [] ↔ t = .nil := by
  cases t <;> simp [inorder]

theorem numNodes_of_inorder {t t' : BinaryTree α} (h : inorder t' = inorder t) :
    t'.numNodes = t.numNodes := by
  rw [← length_inorder, h, length_inorder]

/-! ## Frames -/

/-- A node on the way to a place; `isLeft` says on which side of it the place is. -/
structure Frame (α : Type) where
  isLeft : Bool
  label : α
  sibling : BinaryTree α

/-- The node of the frame with `t` in the place of its missing child. -/
def Frame.fill (f : Frame α) (t : BinaryTree α) : BinaryTree α :=
  if f.isLeft then .node f.label t f.sibling else .node f.label f.sibling t

/-- The tree around `t`, the nearest frame first. -/
def plug : List (Frame α) → BinaryTree α → BinaryTree α
  | [], t => t
  | f :: frames, t => plug frames (f.fill t)

/-- The labels to the left of the place. -/
def before : List (Frame α) → List α
  | [] => []
  | f :: frames =>
    if f.isLeft then before frames else before frames ++ (inorder f.sibling ++ [f.label])

/-- The labels to the right of the place. -/
def after : List (Frame α) → List α
  | [] => []
  | f :: frames => if f.isLeft then f.label :: inorder f.sibling ++ after frames else after frames

theorem inorder_plug (frames : List (Frame α)) (t : BinaryTree α) :
    inorder (plug frames t) = before frames ++ inorder t ++ after frames := by
  induction frames generalizing t with
  | nil => simp [plug, before, after]
  | cons f frames ih =>
    rw [plug, ih]
    cases hside : f.isLeft <;> simp [Frame.fill, before, after, hside, inorder]

/-- A node in a tree. -/
structure Located (α : Type) where
  frames : List (Frame α)
  label : α
  left : BinaryTree α
  right : BinaryTree α

/-! ## Splaying a node -/

/-- The node `a` with subtrees `l` and `r` is brought to the root, past two frames at a time. -/
def splayUp : List (Frame α) → α → BinaryTree α → BinaryTree α → BinaryTree α
  | [], a, l, r => .node a l r
  | [⟨true, p, s⟩], a, l, r => .node a l (.node p r s)
  | [⟨false, p, s⟩], a, l, r => .node a (.node p s l) r
  | ⟨true, p, s⟩ :: ⟨true, g, u⟩ :: frames, a, l, r =>
    splayUp frames a l (.node p r (.node g s u))
  | ⟨false, p, s⟩ :: ⟨false, g, u⟩ :: frames, a, l, r =>
    splayUp frames a (.node p (.node g u s) l) r
  | ⟨true, p, s⟩ :: ⟨false, g, u⟩ :: frames, a, l, r =>
    splayUp frames a (.node g u l) (.node p r s)
  | ⟨false, p, s⟩ :: ⟨true, g, u⟩ :: frames, a, l, r =>
    splayUp frames a (.node p s l) (.node g r u)

/-- The node is at the root, between the labels that were on its sides. -/
theorem exists_splayUp (frames : List (Frame α)) (a : α) (l r : BinaryTree α) :
    ∃ l' r', splayUp frames a l r = .node a l' r' ∧
      inorder l' = before frames ++ inorder l ∧ inorder r' = inorder r ++ after frames := by
  induction frames, a, l, r using splayUp.induct with
  | case1 a l r => exact ⟨l, r, rfl, by simp [before], by simp [after]⟩
  | case2 a l r p s => exact ⟨_, _, rfl, by simp [before], by simp [after, inorder]⟩
  | case3 a l r p s => exact ⟨_, _, rfl, by simp [before, inorder], by simp [after]⟩
  | case4 p s g u frames a l r ih =>
    obtain ⟨l', r', heq, hl, hr⟩ := ih
    exact ⟨l', r', heq, by simp [hl, before], by simp [hr, after, inorder]⟩
  | case5 p s g u frames a l r ih =>
    obtain ⟨l', r', heq, hl, hr⟩ := ih
    exact ⟨l', r', heq, by simp [hl, before, inorder], by simp [hr, after]⟩
  | case6 p s g u frames a l r ih =>
    obtain ⟨l', r', heq, hl, hr⟩ := ih
    exact ⟨l', r', heq, by simp [hl, before, inorder], by simp [hr, after, inorder]⟩
  | case7 p s g u frames a l r ih =>
    obtain ⟨l', r', heq, hl, hr⟩ := ih
    exact ⟨l', r', heq, by simp [hl, before, inorder], by simp [hr, after, inorder]⟩

/-- The node is brought past two frames, or past the last one. -/
def Located.rotate : Located α → Located α
  | ⟨[], a, l, r⟩ => ⟨[], a, l, r⟩
  | ⟨[⟨true, p, s⟩], a, l, r⟩ => ⟨[], a, l, .node p r s⟩
  | ⟨[⟨false, p, s⟩], a, l, r⟩ => ⟨[], a, .node p s l, r⟩
  | ⟨⟨true, p, s⟩ :: ⟨true, g, u⟩ :: frames, a, l, r⟩ => ⟨frames, a, l, .node p r (.node g s u)⟩
  | ⟨⟨false, p, s⟩ :: ⟨false, g, u⟩ :: frames, a, l, r⟩ => ⟨frames, a, .node p (.node g u s) l, r⟩
  | ⟨⟨true, p, s⟩ :: ⟨false, g, u⟩ :: frames, a, l, r⟩ => ⟨frames, a, .node g u l, .node p r s⟩
  | ⟨⟨false, p, s⟩ :: ⟨true, g, u⟩ :: frames, a, l, r⟩ => ⟨frames, a, .node p s l, .node g r u⟩

/-- The located node, splayed to the root. -/
def Located.splayUp (x : Located α) : BinaryTree α := Splay.splayUp x.frames x.label x.left x.right

theorem Located.splayUp_rotate (x : Located α) : x.rotate.splayUp = x.splayUp := by
  unfold splayUp
  fun_cases rotate x <;> rfl

theorem Located.label_rotate (x : Located α) : x.rotate.label = x.label := by
  fun_cases rotate x <;> rfl

theorem Located.frames_rotate (x : Located α) : x.rotate.frames = x.frames.drop 2 := by
  fun_cases rotate x <;> rfl

/-! ## Finding a key -/

section

variable {K : Type} [LinearOrder K] (key : α → K) (k : K)

/-- The last node on the way to a key, below `frames`. -/
def locate : BinaryTree α → List (Frame α) → Option (Located α)
  | .nil, _ => none
  | .node a l r, frames =>
    some <|
      if k < key a then (locate l (⟨true, a, r⟩ :: frames)).getD ⟨frames, a, l, r⟩
      else if key a < k then (locate r (⟨false, a, l⟩ :: frames)).getD ⟨frames, a, l, r⟩
      else ⟨frames, a, l, r⟩

/-- The tree splayed around the key, at the node with the key or the last one on the way to it. -/
def splay (t : BinaryTree α) : BinaryTree α :=
  match locate key k t [] with
  | none => .nil
  | some x => x.splayUp

/-- The keys are in order. -/
def Sorted (t : BinaryTree α) : Prop := (inorder t).Pairwise fun a b => key a < key b

/-- No key of the tree is between the root and `k`. -/
def Splayed : BinaryTree α → Prop
  | .nil => True
  | .node a l r =>
    (k < key a → ∀ b ∈ inorder l, key b < k) ∧ (key a < k → ∀ b ∈ inorder r, k < key b)

instance (t : BinaryTree α) : Decidable (Sorted key t) :=
  inferInstanceAs (Decidable (List.Pairwise _ _))

instance (t : BinaryTree α) : Decidable (Splayed key k t) := by
  cases t <;> unfold Splayed <;> infer_instance

variable {key k} {t l r : BinaryTree α} {a : α} {frames : List (Frame α)}

theorem Sorted.left (h : Sorted key (.node a l r)) : Sorted key l :=
  (List.pairwise_append.mp h).1

theorem Sorted.right (h : Sorted key (.node a l r)) : Sorted key r :=
  (List.pairwise_cons.mp (List.pairwise_append.mp h).2.1).2

theorem Sorted.lt_root (h : Sorted key (.node a l r)) : ∀ b ∈ inorder l, key b < key a :=
  fun b hb => (List.pairwise_append.mp h).2.2 b hb a List.mem_cons_self

theorem Sorted.root_lt (h : Sorted key (.node a l r)) : ∀ b ∈ inorder r, key a < key b :=
  (List.pairwise_cons.mp (List.pairwise_append.mp h).2.1).1

/-- A key is the key of one label. -/
theorem Sorted.eq_of_key {b : α} (h : Sorted key t) (ha : a ∈ inorder t) (hb : b ∈ inorder t)
    (heq : key a = key b) : a = b :=
  List.inj_on_of_nodup_map (List.pairwise_map.mpr (h.imp fun hlt => hlt.ne)) ha hb heq

theorem Sorted.of_inorder {t' : BinaryTree α} (h : Sorted key t) (heq : inorder t' = inorder t) :
    Sorted key t' := by
  rw [Sorted, heq]
  exact h

/-- The found node is in its place in the tree. -/
theorem locate_plug {x : Located α} (hx : locate key k t frames = some x) :
    plug x.frames (.node x.label x.left x.right) = plug frames t := by
  induction t generalizing frames x with
  | nil => cases hx
  | node a l r ihl ihr =>
    obtain rfl := Option.some.inj hx
    by_cases hlt : k < key a
    · rw [if_pos hlt]
      cases hl : locate key k l (⟨true, a, r⟩ :: frames) with
      | none => rfl
      | some x => exact ihl hl
    · rw [if_neg hlt]
      by_cases hgt : key a < k
      · rw [if_pos hgt]
        cases hr : locate key k r (⟨false, a, l⟩ :: frames) with
        | none => rfl
        | some x => exact ihr hr
      · rw [if_neg hgt]

theorem locate_nil_iff : locate key k t frames = none ↔ t = .nil := by
  cases t with
  | nil => exact ⟨fun _ => rfl, fun _ => rfl⟩
  | node a l r => exact ⟨nofun, nofun⟩

/-- What the found node satisfies, given what the frames do. -/
theorem locate_spec {x : Located α} (hsorted : Sorted key t) (hx : locate key k t frames = some x)
    (hbefore : ∀ b ∈ before frames, key b < k) (hafter : ∀ b ∈ after frames, k < key b) :
    (∀ b ∈ before x.frames, key b < k) ∧ (∀ b ∈ after x.frames, k < key b) ∧
      (k < key x.label → x.left = .nil) ∧ (key x.label < k → x.right = .nil) := by
  induction t generalizing frames x with
  | nil => cases hx
  | node a l r ihl ihr =>
    obtain rfl := Option.some.inj hx
    by_cases hlt : k < key a
    · rw [if_pos hlt]
      cases hl : locate key k l (⟨true, a, r⟩ :: frames) with
      | none => exact ⟨hbefore, hafter, fun _ => locate_nil_iff.mp hl, fun h => absurd h hlt.asymm⟩
      | some x =>
        refine ihl hsorted.left hl (fun b hb => hbefore b hb) fun b hb => ?_
        simp only [after, if_true, List.cons_append, List.mem_cons, List.mem_append] at hb
        obtain rfl | hb | hb := hb
        · exact hlt
        · exact hlt.trans (hsorted.root_lt b hb)
        · exact hafter b hb
    · rw [if_neg hlt]
      by_cases hgt : key a < k
      · rw [if_pos hgt]
        cases hr : locate key k r (⟨false, a, l⟩ :: frames) with
        | none => exact ⟨hbefore, hafter, fun h => absurd h hlt, fun _ => locate_nil_iff.mp hr⟩
        | some x =>
          refine ihr hsorted.right hr (fun b hb => ?_) fun b hb => hafter b hb
          simp only [before, Bool.false_eq_true, if_false, List.mem_append,
            List.mem_singleton] at hb
          obtain hb | hb | rfl := hb
          · exact hbefore b hb
          · exact (hsorted.lt_root b hb).trans hgt
          · exact hgt
      · rw [if_neg hgt]
        exact ⟨hbefore, hafter, fun h => absurd h hlt, fun h => absurd h hgt⟩

/-- **Splaying**: the same labels in the same order, with a node at the root that no key is
between and the key. -/
theorem splay_spec (hsorted : Sorted key t) :
    inorder (splay key k t) = inorder t ∧ Splayed key k (splay key k t) := by
  unfold splay
  cases hx : locate key k t [] with
  | none =>
    cases t with
    | nil => exact ⟨rfl, trivial⟩
    | node a l r => cases hx
  | some x =>
    have hplug := locate_plug hx
    obtain ⟨hbefore, hafter, hleft, hright⟩ := locate_spec hsorted hx nofun nofun
    obtain ⟨l', r', heq, hl, hr⟩ := exists_splayUp x.frames x.label x.left x.right
    dsimp only
    rw [Located.splayUp, heq]
    refine ⟨?_, fun hlt => ?_, fun hgt => ?_⟩
    · rw [inorder, hl, hr]
      have hinorder := congrArg inorder hplug
      rw [inorder_plug] at hinorder
      simpa [inorder, plug] using hinorder
    · rw [hl, hleft hlt]
      simpa [inorder] using hbefore
    · rw [hr, hright hgt]
      simpa [inorder] using hafter

/-- After a splay the keys of the left subtree are below the key. -/
theorem Splayed.left_lt (hsorted : Sorted key (.node a l r)) (h : Splayed key k (.node a l r)) :
    ∀ b ∈ inorder l, key b < k := by
  intro b hb
  by_cases hlt : k < key a
  · exact h.1 hlt b hb
  · exact (hsorted.lt_root b hb).trans_le (not_lt.mp hlt)

theorem Splayed.lt_right (hsorted : Sorted key (.node a l r)) (h : Splayed key k (.node a l r)) :
    ∀ b ∈ inorder r, k < key b := by
  intro b hb
  by_cases hgt : key a < k
  · exact h.2 hgt b hb
  · exact (not_lt.mp hgt).trans_lt (hsorted.root_lt b hb)

end

/-! ## Appending -/

/-- The second tree hangs off the last node of the first one. -/
def append : BinaryTree α → BinaryTree α → BinaryTree α
  | .nil, u => u
  | .node a l r, u => .node a l (append r u)

theorem inorder_append (t u : BinaryTree α) :
    inorder (append t u) = inorder t ++ inorder u := by
  induction t with
  | nil => rfl
  | node a l r _ ih => simp [append, inorder, ih]

theorem append_nil (t : BinaryTree α) : append t .nil = t := by
  induction t with
  | nil => rfl
  | node a l r _ ih => rw [append, ih]

/-! ## Balancing -/

/-- The tree of a list, cut in the middle; of the two halves the right one is the longer one. -/
def balance (xs : List α) : BinaryTree α :=
  match h : xs.drop ((xs.length - 1) / 2) with
  | [] => .nil
  | a :: right => .node a (balance (xs.take ((xs.length - 1) / 2))) (balance right)
termination_by xs.length
decreasing_by
  · have hlength := congrArg List.length h
    simp only [List.length_drop, List.length_cons, List.length_take] at hlength ⊢
    omega
  · have hlength := congrArg List.length h
    simp only [List.length_drop, List.length_cons] at hlength
    omega

theorem balance_append {left right : List α} (a : α)
    (h : left.length = (left.length + right.length) / 2) :
    balance (left ++ a :: right) = .node a (balance left) (balance right) := by
  have hlength : ((left ++ a :: right).length - 1) / 2 = left.length := by
    simp only [List.length_append, List.length_cons]
    omega
  rw [balance]
  split
  · next heq =>
    rw [hlength, List.drop_left] at heq
    cases heq
  · next b right' heq =>
    rw [hlength, List.drop_left] at heq
    obtain ⟨rfl, rfl⟩ := List.cons.inj heq
    rw [hlength, List.take_left]

/-- A list that is not empty has a middle. -/
theorem exists_middle {xs : List α} (hne : xs ≠ []) :
    ∃ left a right, xs = left ++ a :: right ∧ left.length = (left.length + right.length) / 2 := by
  have hpos := List.length_pos_iff.mpr hne
  have hlt : (xs.length - 1) / 2 < xs.length := by omega
  refine ⟨xs.take ((xs.length - 1) / 2), xs[(xs.length - 1) / 2],
    xs.drop ((xs.length - 1) / 2 + 1), ?_, ?_⟩
  · rw [← List.drop_eq_getElem_cons hlt, List.take_append_drop]
  · rw [List.length_take, List.length_drop]
    omega

theorem balance_nil : balance ([] : List α) = .nil := by
  rw [balance]
  split
  · rfl
  · next h => simp at h

theorem inorder_balance (xs : List α) : inorder (balance xs) = xs := by
  induction hlength : xs.length using Nat.strong_induction_on generalizing xs with
  | _ length ih =>
    by_cases hne : xs = []
    · rw [hne, balance_nil]
      rfl
    · obtain ⟨left, a, right, rfl, hmiddle⟩ := exists_middle hne
      rw [List.length_append, List.length_cons] at hlength
      rw [balance_append a hmiddle, inorder, ih _ (by omega) left rfl, ih _ (by omega) right rfl]

/-- **The least height**: a tree of height `h` has fewer than `2 ^ h` labels. -/
theorem height_balance_le {xs : List α} {h : ℕ} (hxs : xs.length < 2 ^ h) :
    (balance xs).height ≤ h := by
  induction h generalizing xs with
  | zero =>
    obtain rfl : xs = [] := List.length_eq_zero_iff.mp (by simpa using hxs)
    rw [balance_nil]
    exact le_rfl
  | succ h ih =>
    by_cases hne : xs = []
    · rw [hne, balance_nil]
      exact Nat.zero_le _
    · obtain ⟨left, a, right, rfl, hmiddle⟩ := exists_middle hne
      rw [List.length_append, List.length_cons, Nat.pow_succ] at hxs
      rw [balance_append a hmiddle, height]
      have hl : (balance left).height ≤ h := ih (by omega)
      have hr : (balance right).height ≤ h := ih (by omega)
      omega

theorem numNodes_lt_two_pow_height (t : BinaryTree α) : t.numNodes < 2 ^ t.height := by
  induction t with
  | nil => exact Nat.one_pos
  | node a l r ihl ihr =>
    rw [numNodes, height, Nat.pow_succ]
    have hl := ihl.trans_le (Nat.pow_le_pow_right Nat.two_pos (le_max_left l.height r.height))
    have hr := ihr.trans_le (Nat.pow_le_pow_right Nat.two_pos (le_max_right l.height r.height))
    omega

end DocMachine.Lib.Splay
