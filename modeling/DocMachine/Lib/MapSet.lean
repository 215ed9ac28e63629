import Mathlib.Data.List.Nodup
import Mathlib.Data.List.Lattice

/-!
# Sets as duplicate-free lists

The operations of Elixir's `MapSet`, on lists that carry the proof that no element repeats, so that
`size` counts elements.

* The order of the list is the order of insertion. A client that depends on the order in which a set
  is listed takes that order as a parameter (`Listing`).

Results:
* `mem_put`, `mem_delete`, `mem_union`, `mem_filter` and `mem_ofList`: each operation by its
  elements.
* `filter_key`: a functional set of pairs has one pair under a key, or none.
-/

namespace DocMachine.Lib

/-- A finite set. -/
structure MapSet (α : Type) where
  elems : List α
  nodup : elems.Nodup
deriving DecidableEq

/-- The order in which a set is listed: any rearrangement of its elements. -/
structure Listing (α : Type) where
  toList : List α → List α
  perm : ∀ l, (toList l).Perm l

namespace MapSet

variable {α : Type}

instance : Membership α (MapSet α) := ⟨fun s a => a ∈ s.elems⟩

/-- The empty set. -/
def empty : MapSet α := ⟨[], List.nodup_nil⟩

/-- The elements that satisfy `p`. -/
def filter (p : α → Bool) (s : MapSet α) : MapSet α := ⟨s.elems.filter p, s.nodup.filter p⟩

/-- The number of elements. -/
def size (s : MapSet α) : Nat := s.elems.length

theorem mem_iff {a : α} {s : MapSet α} : a ∈ s ↔ a ∈ s.elems := Iff.rfl

@[simp] theorem not_mem_empty (a : α) : a ∉ (empty : MapSet α) := List.not_mem_nil

@[simp] theorem mem_filter {p : α → Bool} {s : MapSet α} {a : α} :
    a ∈ s.filter p ↔ a ∈ s ∧ p a = true :=
  List.mem_filter

theorem size_eq_zero {s : MapSet α} : s.size = 0 ↔ ∀ a, a ∉ s := by
  rw [size, List.length_eq_zero_iff, List.eq_nil_iff_forall_not_mem]
  rfl

/-- The pairs of a functional set under one key: none or one. -/
theorem filter_key {κ β : Type} [DecidableEq κ] {m : MapSet (κ × β)} {k : κ}
    (hfun : ∀ b b', (k, b) ∈ m → (k, b') ∈ m → b = b') :
    (m.elems.filter (fun x => x.1 = k) = [] ∧ ∀ b, (k, b) ∉ m) ∨
      ∃ b, m.elems.filter (fun x => x.1 = k) = [(k, b)] ∧ (k, b) ∈ m := by
  have hmem : ∀ x, x ∈ m.elems.filter (fun x => x.1 = k) ↔ x ∈ m ∧ x.1 = k := fun x => by
    rw [List.mem_filter, decide_eq_true_eq]
    rfl
  have hnd : (m.elems.filter fun x => x.1 = k).Nodup := m.nodup.filter _
  match hl : m.elems.filter fun x => x.1 = k with
  | [] =>
    refine Or.inl ⟨hl, fun b hb => ?_⟩
    have hin := (hmem (k, b)).mpr ⟨hb, rfl⟩
    rw [hl] at hin
    exact List.not_mem_nil hin
  | [x] =>
    obtain ⟨hx, rfl⟩ := (hmem x).mp (hl ▸ List.mem_cons_self)
    exact Or.inr ⟨x.2, hl, hx⟩
  | x :: y :: l =>
    obtain ⟨hx, hxk⟩ := (hmem x).mp (hl ▸ List.mem_cons_self)
    obtain ⟨hy, hyk⟩ := (hmem y).mp (hl ▸ List.mem_cons_of_mem _ List.mem_cons_self)
    obtain ⟨kx, bx⟩ := x
    obtain ⟨ky, by'⟩ := y
    obtain rfl : kx = k := hxk
    obtain rfl : ky = kx := hyk
    obtain rfl := hfun _ _ hx hy
    rw [hl] at hnd
    exact absurd List.mem_cons_self (List.nodup_cons.mp hnd).1

variable [DecidableEq α]

instance (a : α) (s : MapSet α) : Decidable (a ∈ s) := inferInstanceAs (Decidable (a ∈ s.elems))

/-- The set with `a` in it. -/
def put (s : MapSet α) (a : α) : MapSet α := ⟨s.elems.insert a, s.nodup.insert⟩

/-- The set without `a`. -/
def delete (s : MapSet α) (a : α) : MapSet α := ⟨s.elems.erase a, s.nodup.erase a⟩

/-- The elements of either. -/
def union (s t : MapSet α) : MapSet α := ⟨s.elems ∪ t.elems, List.Nodup.union _ t.nodup⟩

/-- `for x <- l, into: MapSet.new()`. -/
def ofList (l : List α) : MapSet α := l.foldl put empty

@[simp] theorem mem_put {s : MapSet α} {a b : α} : b ∈ s.put a ↔ b = a ∨ b ∈ s :=
  List.mem_insert_iff

@[simp] theorem mem_delete {s : MapSet α} {a b : α} : b ∈ s.delete a ↔ b ≠ a ∧ b ∈ s :=
  s.nodup.mem_erase_iff

@[simp] theorem mem_union {s t : MapSet α} {a : α} : a ∈ s.union t ↔ a ∈ s ∨ a ∈ t :=
  List.mem_union_iff

theorem mem_foldl_put {a : α} (l : List α) (s : MapSet α) :
    a ∈ l.foldl put s ↔ a ∈ l ∨ a ∈ s := by
  induction l generalizing s with
  | nil => simp
  | cons b l ih =>
    rw [List.foldl_cons, ih, mem_put, List.mem_cons]
    tauto

@[simp] theorem mem_ofList {l : List α} {a : α} : a ∈ ofList l ↔ a ∈ l := by
  rw [ofList, mem_foldl_put]
  simp

end MapSet

end DocMachine.Lib
