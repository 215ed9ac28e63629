import Mathlib.Data.Finmap
import Mathlib.Order.Lattice.Nat
import DocMachine.Lib.Outcome

/-!
# Separation logic for programs over a heap

A heap is a finite map, an assertion a set of heaps, and a program a function of the heap it
starts in. Programs that loop or recurse take a bound, so a program here is a family indexed by
the bound.

`Triple n P prog Q` is total correctness with the frame built in: started in a heap one part of
which satisfies `P`, the program ends, with the same result for every bound from `n` on, in a heap
one part of which satisfies `Q`, and the rest is unchanged. The rules: `Triple.bind`,
`Triple.frame`, one for each way to access a cell, and `Triple.of_succ` for a recursion or a loop.
-/

namespace DocMachine.Lib.Separation

open Finmap

variable {L B α β : Type}

/-- A finite map from locations to contents. -/
abbrev Heap (L B : Type) := Finmap fun _ : L => B

/-- A set of heaps. -/
abbrev Assertion (L B : Type) := Heap L B → Prop

/-! ## Assertions -/

/-- Nothing is owned. -/
def emp : Assertion L B := fun h => h = ∅

/-- One cell is owned. -/
def pointsTo (l : L) (b : B) : Assertion L B := fun h => h = singleton l b

theorem mem_singleton_iff {l x : L} {b : B} : x ∈ (singleton l b : Heap L B) ↔ x = l :=
  mem_singleton x l b

variable [DecidableEq L]

/-- The heap splits into two parts. -/
def sep (P Q : Assertion L B) : Assertion L B :=
  fun h => ∃ h₁ h₂, h₁.Disjoint h₂ ∧ h = h₁ ∪ h₂ ∧ P h₁ ∧ Q h₂

theorem sep_comm (P Q : Assertion L B) : sep P Q = sep Q P := by
  have himp : ∀ P Q : Assertion L B, ∀ h, sep P Q h → sep Q P h := by
    rintro P Q h ⟨h₁, h₂, hd, rfl, hP, hQ⟩
    exact ⟨h₂, h₁, hd.symm, union_comm_of_disjoint hd, hQ, hP⟩
  funext h
  exact propext ⟨himp P Q h, himp Q P h⟩

theorem sep_assoc (P Q R : Assertion L B) : sep (sep P Q) R = sep P (sep Q R) := by
  funext h
  refine propext ⟨?_, ?_⟩
  · rintro ⟨_, h₃, hd, rfl, ⟨h₁, h₂, hd', rfl, hP, hQ⟩, hR⟩
    rw [disjoint_union_left] at hd
    exact ⟨h₁, h₂ ∪ h₃, (disjoint_union_right _ _ _).mpr ⟨hd', hd.1⟩, union_assoc, hP,
      h₂, h₃, hd.2, rfl, hQ, hR⟩
  · rintro ⟨h₁, _, hd, rfl, hP, h₂, h₃, hd', rfl, hQ, hR⟩
    rw [disjoint_union_right] at hd
    exact ⟨h₁ ∪ h₂, h₃, (disjoint_union_left _ _ _).mpr ⟨hd.2, hd'⟩, union_assoc.symm,
      ⟨h₁, h₂, hd.1, rfl, hP, hQ⟩, hR⟩

theorem sep_left_comm (P Q R : Assertion L B) : sep P (sep Q R) = sep Q (sep P R) := by
  rw [← sep_assoc, sep_comm P Q, sep_assoc]

theorem emp_sep (P : Assertion L B) : sep emp P = P := by
  funext h
  refine propext ⟨?_, fun hP => ⟨∅, h, disjoint_empty h, empty_union.symm, rfl, hP⟩⟩
  rintro ⟨_, h₂, -, rfl, rfl, hP⟩
  rw [empty_union]
  exact hP

theorem sep_emp (P : Assertion L B) : sep P emp = P := by rw [sep_comm, emp_sep]

theorem sep_mono {P P' Q Q' : Assertion L B} (hP : ∀ h, P h → P' h) (hQ : ∀ h, Q h → Q' h)
    {h : Heap L B} : sep P Q h → sep P' Q' h := by
  rintro ⟨h₁, h₂, hd, rfl, h1, h2⟩
  exact ⟨h₁, h₂, hd, rfl, hP _ h1, hQ _ h2⟩

instance : Std.Associative (sep (L := L) (B := B)) := ⟨sep_assoc⟩

instance : Std.Commutative (sep (L := L) (B := B)) := ⟨sep_comm⟩

theorem sep_exists {ι : Type} (P : ι → Assertion L B) (R : Assertion L B) :
    sep (fun h => ∃ i, P i h) R = fun h => ∃ i, sep (P i) R h := by
  funext h
  refine propext ⟨?_, ?_⟩
  · rintro ⟨h₁, h₂, hd, rfl, ⟨i, hP⟩, hR⟩
    exact ⟨i, h₁, h₂, hd, rfl, hP, hR⟩
  · rintro ⟨i, h₁, h₂, hd, rfl, hP, hR⟩
    exact ⟨h₁, h₂, hd, rfl, ⟨i, hP⟩, hR⟩

theorem sep_and (p : Prop) (P R : Assertion L B) :
    sep (fun h => p ∧ P h) R = fun h => p ∧ sep P R h := by
  funext h
  refine propext ⟨?_, ?_⟩
  · rintro ⟨h₁, h₂, hd, rfl, ⟨hp, hP⟩, hR⟩
    exact ⟨hp, h₁, h₂, hd, rfl, hP, hR⟩
  · rintro ⟨hp, h₁, h₂, hd, rfl, hP, hR⟩
    exact ⟨h₁, h₂, hd, rfl, ⟨hp, hP⟩, hR⟩

/-! ## Programs -/

/-- A program, run from a heap. -/
def Program (L B α : Type) := Heap L B → Outcome (α × Heap L B)

instance : Monad (Program L B) where
  pure a := fun h => .done (a, h)
  bind prog f := fun h => (prog h).bind fun r => f r.1 r.2

namespace Program

/-- The program goes wrong. -/
def wrong : Program L B α := fun _ => .wrong

/-- The bound was too small. -/
def outOfFuel : Program L B α := fun _ => .outOfFuel

/-- The cell at `l`. -/
def get (l : L) : Program L B B := fun h =>
  match h.lookup l with
  | some b => .done (b, h)
  | none => .wrong

/-- Change the cell at `l`. -/
def set (l : L) (b : B) : Program L B Unit := fun h =>
  if l ∈ h then .done ((), h.insert l b) else .wrong

/-- Remove the cell at `l`. -/
def dispose (l : L) : Program L B Unit := fun h =>
  if l ∈ h then .done ((), h.erase l) else .wrong

/-- `while`, with a bound on the turns. -/
def whileDo {σ : Type} (test : σ → Bool) (body : σ → Program L B σ) : ℕ → σ → Program L B σ
  | 0, _ => outOfFuel
  | fuel + 1, a => if test a then body a >>= whileDo test body fuel else pure a

theorem get_eq {l : L} {b : B} {h : Heap L B} (hb : h.lookup l = some b) :
    get l h = .done (b, h) := by
  unfold get
  rw [hb]

theorem set_eq {l : L} {b : B} {h : Heap L B} (hl : l ∈ h) :
    set l b h = .done ((), h.insert l b) := if_pos hl

theorem dispose_eq {l : L} {h : Heap L B} (hl : l ∈ h) :
    dispose l h = .done ((), h.erase l) := if_pos hl

end Program

/-- A choice of a free cell. -/
structure Allocator (L B : Type) where
  new : Heap L B → L
  fresh : ∀ h, new h ∉ h

/-- The cell after all others. -/
def Allocator.next : Allocator ℕ B where
  new h := h.keys.sup id + 1
  fresh h hmem := by
    have hle := Finset.le_sup (f := id) (mem_keys.mpr hmem)
    exact Nat.not_succ_le_self _ hle

/-- A new cell. -/
def Program.alloc (A : Allocator L B) (b : B) : Program L B L := fun h =>
  .done (A.new h, h.insert (A.new h) b)

/-- The program ends in `a` and `h'`, with every bound from some one on. -/
def Program.Ends (prog : ℕ → Program L B α) (h : Heap L B) (a : α) (h' : Heap L B) : Prop :=
  ∃ n, ∀ fuel, n ≤ fuel → prog fuel h = .done (a, h')

/-! ## Triples -/

/-- Started in a heap a part of which satisfies `P`, the program ends with every bound from `n` on,
in a heap a part of which satisfies `Q`; the rest is unchanged. -/
def Triple (n : ℕ) (P : Assertion L B) (prog : ℕ → Program L B α) (Q : α → Assertion L B) : Prop :=
  ∀ h hf, P h → h.Disjoint hf → ∃ a h',
    (∀ fuel, n ≤ fuel → prog fuel (h ∪ hf) = .done (a, h' ∪ hf)) ∧ h'.Disjoint hf ∧ Q a h'

namespace Triple

variable {n : ℕ} {P R : Assertion L B} {Q : α → Assertion L B}

theorem ends {prog : ℕ → Program L B α} (hprog : Triple n P prog Q) {h hf : Heap L B} (hP : P h)
    (hd : h.Disjoint hf) :
    ∃ a h', Program.Ends prog (h ∪ hf) a (h' ∪ hf) ∧ h'.Disjoint hf ∧ Q a h' := by
  obtain ⟨a, h', hrun, hrest⟩ := hprog h hf hP hd
  exact ⟨a, h', ⟨n, hrun⟩, hrest⟩

theorem pure (a : α) (h : ∀ h, P h → Q a h) : Triple n P (fun _ => Pure.pure a) Q :=
  fun h' _ hP hd => ⟨a, h', fun _ _ => rfl, hd, h h' hP⟩

theorem bind {prog : ℕ → Program L B β} {f : ℕ → β → Program L B α} {S : β → Assertion L B}
    (hprog : Triple n P prog S) (hf : ∀ b, Triple n (S b) (fun fuel => f fuel b) Q) :
    Triple n P (fun fuel => prog fuel >>= f fuel) Q := by
  intro h h₀ hP hd
  obtain ⟨b, h', hrun, hd', hS⟩ := hprog h h₀ hP hd
  obtain ⟨a, h'', hrun', hd'', hQ⟩ := hf b h' h₀ hS hd'
  refine ⟨a, h'', fun fuel hfuel => ?_, hd'', hQ⟩
  rw [← hrun' fuel hfuel]
  exact congrArg (fun o => Outcome.bind o fun r => f fuel r.1 r.2) (hrun fuel hfuel)

theorem conseq {P' : Assertion L B} {Q' : α → Assertion L B} {prog : ℕ → Program L B α}
    (h : Triple n P' prog Q') (hP : ∀ h, P h → P' h) (hQ : ∀ a h, Q' a h → Q a h) :
    Triple n P prog Q := by
  intro h₁ h₀ hp hd
  obtain ⟨a, h', hrun, hd', hq⟩ := h h₁ h₀ (hP _ hp) hd
  exact ⟨a, h', hrun, hd', hQ a h' hq⟩

/-- **The frame rule.** -/
theorem frame {prog : ℕ → Program L B α} (h : Triple n P prog Q) (R : Assertion L B) :
    Triple n (sep P R) prog fun a => sep (Q a) R := by
  rintro _ h₀ ⟨h₁, h₂, hd, rfl, hP, hR⟩ hd₀
  rw [disjoint_union_left] at hd₀
  obtain ⟨a, h', hrun, hd', hQ⟩ := h h₁ (h₂ ∪ h₀) hP ((disjoint_union_right _ _ _).mpr ⟨hd, hd₀.1⟩)
  rw [disjoint_union_right] at hd'
  refine ⟨a, h' ∪ h₂, fun fuel hfuel => ?_, (disjoint_union_left _ _ _).mpr ⟨hd'.2, hd₀.2⟩,
    h', h₂, hd'.1, rfl, hQ, hR⟩
  rw [union_assoc, union_assoc]
  exact hrun fuel hfuel

/-- The frame rule for the first part of a program. -/
theorem bind_frame {prog : ℕ → Program L B β} {f : ℕ → β → Program L B α} {S : β → Assertion L B}
    (hprog : Triple n P prog S) (hf : ∀ b, Triple n (sep (S b) R) (fun fuel => f fuel b) Q) :
    Triple n (sep P R) (fun fuel => prog fuel >>= f fuel) Q :=
  (hprog.frame R).bind hf

theorem exists_pre {ι : Type} {P : ι → Assertion L B} {prog : ℕ → Program L B α}
    (h : ∀ i, Triple n (P i) prog Q) : Triple n (fun h => ∃ i, P i h) prog Q :=
  fun h₁ h₀ ⟨i, hP⟩ hd => h i h₁ h₀ hP hd

theorem and_pre {p : Prop} {prog : ℕ → Program L B α} (h : p → Triple n P prog Q) :
    Triple n (fun h => p ∧ P h) prog Q :=
  fun h₁ h₀ ⟨hp, hP⟩ hd => h hp h₁ h₀ hP hd

/-- A larger bound. -/
theorem of_le {m : ℕ} {prog : ℕ → Program L B α} (h : Triple n P prog Q) (hnm : n ≤ m) :
    Triple m P prog Q := by
  intro h₁ h₀ hP hd
  obtain ⟨a, h', hrun, hrest⟩ := h h₁ h₀ hP hd
  exact ⟨a, h', fun fuel hfuel => hrun fuel (hnm.trans hfuel), hrest⟩

/-- One call or one turn of a loop uses one of the bound. -/
theorem of_succ {prog : ℕ → Program L B α} (h : Triple n P (fun fuel => prog (fuel + 1)) Q) :
    Triple (n + 1) P prog Q := by
  intro h₁ h₀ hP hd
  obtain ⟨a, h', hrun, hrest⟩ := h h₁ h₀ hP hd
  refine ⟨a, h', fun fuel hfuel => ?_, hrest⟩
  obtain ⟨fuel, rfl⟩ : ∃ k, fuel = k + 1 := ⟨fuel - 1, by omega⟩
  exact hrun fuel (by omega)

/-! ### Loops -/

section

variable {σ : Type} {test : σ → Bool} {body : σ → Program L B σ} {a : σ} {S Q : σ → Assertion L B}

theorem while_done (ht : test a = false) (h : ∀ h, P h → Q a h) :
    Triple (n + 1) P (fun fuel => Program.whileDo test body fuel a) Q := by
  refine of_succ ?_
  simp only [Program.whileDo, ht, Bool.false_eq_true, if_false]
  exact Triple.pure a h

/-- One turn of the loop. -/
theorem while_step (ht : test a = true) (hbody : Triple n P (fun _ => body a) S)
    (hrest : ∀ b, Triple n (S b) (fun fuel => Program.whileDo test body fuel b) Q) :
    Triple (n + 1) P (fun fuel => Program.whileDo test body fuel a) Q := by
  refine of_succ ?_
  simp only [Program.whileDo, ht, if_true]
  exact hbody.bind hrest

end

/-! ### Cells -/

theorem get (l : L) (b : B) : Triple n (pointsTo l b) (fun _ => Program.get l)
    fun a h => a = b ∧ pointsTo l b h := by
  rintro _ h₀ rfl hd
  refine ⟨b, singleton l b, fun _ _ => ?_, hd, rfl, rfl⟩
  have hlookup : (singleton l b ∪ h₀ : Heap L B).lookup l = some b := by
    rw [lookup_union_left (mem_singleton_iff.mpr rfl), lookup_singleton_eq]
  exact Program.get_eq hlookup

theorem set (l : L) (b b' : B) : Triple n (pointsTo l b) (fun _ => Program.set l b')
    fun _ => pointsTo l b' := by
  rintro _ h₀ rfl hd
  have hmem : l ∈ (singleton l b ∪ h₀ : Heap L B) :=
    mem_union.mpr (Or.inl (mem_singleton_iff.mpr rfl))
  refine ⟨(), singleton l b', fun _ _ => ?_, fun x hx => ?_, rfl⟩
  · dsimp only
    rw [Program.set_eq hmem, insert_union, insert_singleton_eq]
  · exact hd x (mem_singleton_iff.mpr (mem_singleton_iff.mp hx))

theorem dispose (l : L) (b : B) : Triple n (pointsTo l b) (fun _ => Program.dispose l)
    fun _ => emp := by
  rintro _ h₀ rfl hd
  have hl : l ∈ (singleton l b : Heap L B) := mem_singleton_iff.mpr rfl
  refine ⟨(), ∅, fun _ _ => ?_, disjoint_empty h₀, rfl⟩
  have herase : (singleton l b ∪ h₀ : Heap L B).erase l = h₀ := by
    refine ext_lookup fun x => ?_
    by_cases hx : x = l
    · subst hx
      rw [lookup_erase, lookup_eq_none.mpr (hd x hl)]
    · rw [lookup_erase_ne hx, lookup_union_right (fun h => hx (mem_singleton_iff.mp h))]
  dsimp only
  rw [Program.dispose_eq (mem_union.mpr (Or.inl hl)), herase, empty_union]

theorem alloc (A : Allocator L B) (b : B) : Triple n emp (fun _ => Program.alloc A b)
    fun l => pointsTo l b := by
  rintro _ h₀ rfl -
  obtain ⟨l, hl⟩ : ∃ l, A.new ((∅ : Heap L B) ∪ h₀) = l := ⟨_, rfl⟩
  refine ⟨l, singleton l b, fun _ _ => ?_, fun x hx => ?_, rfl⟩
  · unfold Program.alloc
    dsimp only
    rw [hl, empty_union]
    refine congrArg (fun h => Outcome.done (l, h)) (ext_lookup fun x => ?_)
    by_cases hx : x = l
    · rw [hx, lookup_insert, lookup_union_left (mem_singleton_iff.mpr rfl), lookup_singleton_eq]
    · rw [lookup_insert_of_ne _ hx, lookup_union_right (fun h => hx (mem_singleton_iff.mp h))]
  · have hfresh := A.fresh ((∅ : Heap L B) ∪ h₀)
    rw [hl, mem_union, not_or] at hfresh
    rw [mem_singleton_iff.mp hx]
    exact hfresh.2

end Triple

end DocMachine.Lib.Separation
