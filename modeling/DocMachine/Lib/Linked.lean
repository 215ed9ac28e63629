import Mathlib.Data.List.Chain
import Mathlib.Data.List.Nodup
import Mathlib.Logic.Function.Basic

/-!
# Doubly linked sequences

Two pointer functions `next` and `prev`, over any type, and the sequences that they link.

* `Linked next prev l`: each element of `l` is linked with the one after it, in both directions.
  Nothing is said of the outer pointers of the two ends.
* A sequence is cut into blocks. A change of the pointers that only touches the ends of the blocks
  leaves each of them linked, and blocks are joined by the link between their ends. So every
  operation on the pointers is a join of blocks that were there before.

Results:
* `Linked.congr`: the pointers may differ at the ends.
* `linked_append` and `Linked.join`: two blocks are joined by a link between their ends.
* `Linked.insert`, `Linked.remove`, `Linked.swap` and `Linked.move`: an element comes between two
  blocks, goes from there, two blocks change places, a block moves to another sequence.
* `linked_reverse`: with the pointers exchanged, the sequence is linked backwards.
-/

namespace DocMachine.Lib.Pointers

variable {α : Type} {next prev next' prev' : α → Option α} {a b e : α} {l A B X Y : List α}

/-- `b` comes after `a`. -/
def Link (next prev : α → Option α) (a b : α) : Prop := next a = some b ∧ prev b = some a

/-- Neighbours point at each other. -/
def Linked (next prev : α → Option α) (l : List α) : Prop := l.IsChain (Link next prev)

theorem linked_singleton (a : α) : Linked next prev [a] := .singleton a

theorem linked_append : Linked next prev (A ++ B) ↔
    Linked next prev A ∧ Linked next prev B ∧
      ∀ a ∈ A.getLast?, ∀ b ∈ B.head?, Link next prev a b :=
  List.isChain_append

/-- The pointers may differ at the ends: `next` of the last element and `prev` of the first one. -/
theorem Linked.congr (h : Linked next prev l) (hnodup : l.Nodup)
    (hnext : ∀ a ∈ l, l.getLast? ≠ some a → next' a = next a)
    (hprev : ∀ b ∈ l, l.head? ≠ some b → prev' b = prev b) : Linked next' prev' l := by
  induction l with
  | nil => exact .nil
  | cons a l ih =>
    cases l with
    | nil => exact .singleton a
    | cons b l =>
      obtain ⟨hlink, h⟩ := List.isChain_cons_cons.mp h
      obtain ⟨ha, hnodup⟩ := List.nodup_cons.mp hnodup
      have hlast : (b :: l).getLast? ≠ some a := fun heq => ha (List.mem_of_getLast? heq)
      have hba : b ≠ a := fun heq => ha (heq ▸ List.mem_cons_self)
      refine List.isChain_cons_cons.mpr ⟨⟨?_, ?_⟩, ih h hnodup ?_ ?_⟩
      · rw [hnext a List.mem_cons_self (by rwa [List.getLast?_cons_cons]), hlink.1]
      · rw [hprev b (List.mem_cons_of_mem a List.mem_cons_self) (by simpa using hba.symm), hlink.2]
      · exact fun c hc hne => hnext c (List.mem_cons_of_mem a hc) (by rwa [List.getLast?_cons_cons])
      · intro c hc hne
        refine hprev c (List.mem_cons_of_mem a hc) fun heq => ha ?_
        rw [Option.some.inj heq]
        exact hc

/-- In the same order back. -/
theorem linked_reverse : Linked next prev l.reverse ↔ Linked prev next l := by
  unfold Linked
  rw [List.isChain_reverse]
  exact List.IsChain.iff fun a b => And.comm

theorem Linked.next_eq (h : Linked next prev (A ++ a :: b :: B)) : next a = some b :=
  (List.isChain_append_cons_cons.mp h).2.1.1

theorem Linked.prev_eq (h : Linked next prev (A ++ a :: b :: B)) : prev b = some a :=
  (List.isChain_append_cons_cons.mp h).2.1.2

/-- Two blocks are joined by a link between their ends. -/
theorem Linked.join (hA : Linked next prev A) (hB : Linked next prev B) (ha : A.getLast? = some a)
    (hb : B.head? = some b) (h : Link next prev a b) : Linked next prev (A ++ B) := by
  refine linked_append.mpr ⟨hA, hB, fun c hc d hd => ?_⟩
  rw [ha] at hc
  rw [hb] at hd
  obtain rfl := Option.some.inj hc
  obtain rfl := Option.some.inj hd
  exact h

variable {p q : α}

/-- `e` comes between two blocks. -/
theorem Linked.insert (h : Linked next prev (A ++ B)) (hnodup : (A ++ e :: B).Nodup)
    (hp : A.getLast? = some p) (hq : B.head? = some q) (hpe : Link next' prev' p e)
    (heq : Link next' prev' e q) (hnext : ∀ a, a ≠ p → a ≠ e → next' a = next a)
    (hprev : ∀ b, b ≠ q → b ≠ e → prev' b = prev b) : Linked next' prev' (A ++ e :: B) := by
  obtain ⟨hA, hB, -⟩ := linked_append.mp h
  have hmem := And.intro (List.mem_of_getLast? hp) (List.mem_of_head? hq)
  rw [List.nodup_append, List.nodup_cons] at hnodup
  obtain ⟨hnodupA, ⟨heB, hnodupB⟩, hdisjoint⟩ := hnodup
  have hA' : Linked next' prev' A := hA.congr hnodupA
    (fun a ha hne => hnext a (by grind) (by grind)) (fun b hb _ => hprev b (by grind) (by grind))
  have hB' : Linked next' prev' B := hB.congr hnodupB
    (fun a ha _ => hnext a (by grind) (by grind)) (fun b hb hne => hprev b (by grind) (by grind))
  have heB' : Linked next' prev' ([e] ++ B) := (linked_singleton e).join hB' rfl hq heq
  exact hA'.join heB' hp rfl hpe

/-- `e` goes from between two blocks. -/
theorem Linked.remove (h : Linked next prev (A ++ e :: B)) (hnodup : (A ++ e :: B).Nodup)
    (hp : A.getLast? = some p) (hq : B.head? = some q) (hpq : Link next' prev' p q)
    (hnext : ∀ a, a ≠ p → next' a = next a) (hprev : ∀ b, b ≠ q → prev' b = prev b) :
    Linked next' prev' (A ++ B) := by
  obtain ⟨hA, heB, -⟩ := linked_append.mp h
  have hB : Linked next prev B := heB.tail
  have hmem := And.intro (List.mem_of_getLast? hp) (List.mem_of_head? hq)
  rw [List.nodup_append, List.nodup_cons] at hnodup
  obtain ⟨hnodupA, ⟨-, hnodupB⟩, hdisjoint⟩ := hnodup
  have hA' : Linked next' prev' A := hA.congr hnodupA
    (fun a ha hne => hnext a (by grind)) (fun b hb _ => hprev b (by grind))
  have hB' : Linked next' prev' B := hB.congr hnodupB
    (fun a ha _ => hnext a (by grind)) (fun b hb hne => hprev b (by grind))
  exact hA'.join hB' hp hq hpq

/-- Two blocks between two others change places: only their ends are written. -/
theorem Linked.swap {x₀ x₁ y₀ y₁ : α} (h : Linked next prev (A ++ (X ++ (Y ++ B))))
    (hnodup : (A ++ (X ++ (Y ++ B))).Nodup) (hp : A.getLast? = some p) (hq : B.head? = some q)
    (hx₀ : X.head? = some x₀) (hx₁ : X.getLast? = some x₁) (hy₀ : Y.head? = some y₀)
    (hy₁ : Y.getLast? = some y₁)
    (hpy : Link next' prev' p y₀) (hyx : Link next' prev' y₁ x₀) (hxq : Link next' prev' x₁ q)
    (hnext : ∀ a, a ≠ p → a ≠ x₁ → a ≠ y₁ → next' a = next a)
    (hprev : ∀ b, b ≠ q → b ≠ x₀ → b ≠ y₀ → prev' b = prev b) :
    Linked next' prev' (A ++ (Y ++ (X ++ B))) := by
  obtain ⟨hA, h, -⟩ := linked_append.mp h
  obtain ⟨hX, h, -⟩ := linked_append.mp h
  obtain ⟨hY, hB, -⟩ := linked_append.mp h
  have hmem := And.intro (List.mem_of_getLast? hp) (List.mem_of_head? hq)
  have hmemX := And.intro (List.mem_of_head? hx₀) (List.mem_of_getLast? hx₁)
  have hmemY := And.intro (List.mem_of_head? hy₀) (List.mem_of_getLast? hy₁)
  simp only [List.nodup_append, List.mem_append] at hnodup
  obtain ⟨hnodupA, ⟨hnodupX, ⟨hnodupY, hnodupB, hYB⟩, hXYB⟩, hAXYB⟩ := hnodup
  have hA' : Linked next' prev' A := hA.congr hnodupA
    (fun a ha hne => hnext a (by grind) (by grind) (by grind))
    (fun b hb _ => hprev b (by grind) (by grind) (by grind))
  have hX' : Linked next' prev' X := hX.congr hnodupX
    (fun a ha hne => hnext a (by grind) (by grind) (by grind))
    (fun b hb hne => hprev b (by grind) (by grind) (by grind))
  have hY' : Linked next' prev' Y := hY.congr hnodupY
    (fun a ha hne => hnext a (by grind) (by grind) (by grind))
    (fun b hb hne => hprev b (by grind) (by grind) (by grind))
  have hB' : Linked next' prev' B := hB.congr hnodupB
    (fun a ha _ => hnext a (by grind) (by grind) (by grind))
    (fun b hb hne => hprev b (by grind) (by grind) (by grind))
  have hXB := hX'.join hB' hx₁ hq hxq
  have hYXB := hY'.join hXB hy₁ (by rw [List.head?_append, hx₀]; rfl) hyx
  exact hA'.join hYXB hp (by rw [List.head?_append, hy₀]; rfl) hpy

/-- A block moves from one sequence to another one. -/
theorem Linked.move {r s m₀ m₁ : α} {M C D : List α} (h : Linked next prev (A ++ (M ++ B)))
    (h' : Linked next prev (C ++ D)) (hnodup : (A ++ (M ++ B) ++ (C ++ D)).Nodup)
    (hp : A.getLast? = some p) (hq : B.head? = some q) (hr : C.getLast? = some r)
    (hs : D.head? = some s) (hm₀ : M.head? = some m₀) (hm₁ : M.getLast? = some m₁)
    (hpq : Link next' prev' p q) (hrm : Link next' prev' r m₀) (hms : Link next' prev' m₁ s)
    (hnext : ∀ a, a ≠ p → a ≠ r → a ≠ m₁ → next' a = next a)
    (hprev : ∀ b, b ≠ q → b ≠ s → b ≠ m₀ → prev' b = prev b) :
    Linked next' prev' (A ++ B) ∧ Linked next' prev' (C ++ (M ++ D)) := by
  obtain ⟨hA, h, -⟩ := linked_append.mp h
  obtain ⟨hM, hB, -⟩ := linked_append.mp h
  obtain ⟨hC, hD, -⟩ := linked_append.mp h'
  have hmem := And.intro (List.mem_of_getLast? hp) (List.mem_of_head? hq)
  have hmem' := And.intro (List.mem_of_getLast? hr) (List.mem_of_head? hs)
  have hmemM := And.intro (List.mem_of_head? hm₀) (List.mem_of_getLast? hm₁)
  simp only [List.nodup_append, List.mem_append] at hnodup
  obtain ⟨⟨hnodupA, ⟨hnodupM, hnodupB, hMB⟩, hAMB⟩, ⟨hnodupC, hnodupD, hCD⟩, hdisjoint⟩ := hnodup
  have hA' : Linked next' prev' A := hA.congr hnodupA
    (fun a ha hne => hnext a (by grind) (by grind) (by grind))
    (fun b hb _ => hprev b (by grind) (by grind) (by grind))
  have hB' : Linked next' prev' B := hB.congr hnodupB
    (fun a ha _ => hnext a (by grind) (by grind) (by grind))
    (fun b hb hne => hprev b (by grind) (by grind) (by grind))
  have hM' : Linked next' prev' M := hM.congr hnodupM
    (fun a ha hne => hnext a (by grind) (by grind) (by grind))
    (fun b hb hne => hprev b (by grind) (by grind) (by grind))
  have hC' : Linked next' prev' C := hC.congr hnodupC
    (fun a ha hne => hnext a (by grind) (by grind) (by grind))
    (fun b hb _ => hprev b (by grind) (by grind) (by grind))
  have hD' : Linked next' prev' D := hD.congr hnodupD
    (fun a ha _ => hnext a (by grind) (by grind) (by grind))
    (fun b hb hne => hprev b (by grind) (by grind) (by grind))
  have hMD := hM'.join hD' hm₁ hs hms
  exact ⟨hA'.join hB' hp hq hpq, hC'.join hMD hr (by rw [List.head?_append, hm₀]; rfl) hrm⟩

end DocMachine.Lib.Pointers
