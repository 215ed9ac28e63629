import Mathlib.Data.List.Infix

/-!
# Searching for a pattern with a group

A pattern is a text, a group of one character of a class or more, and another text, such as
`TITLE\((.+?)\)`.

* `find` returns the group of the leftmost match. A greedy group takes in another character before
  it tries to stop, a lazy one stops as soon as it can; both go back if what follows does not match.
* `Occurs` says that the pattern with a group is somewhere in a text.

Results:
* `find_occurs` and `find_isSome`: what is found occurs, and something is found if anything occurs.
* `find_append_cons`: a character that no match contains divides the search.
* `find_append_cons_of_not_infix`: a part in which the pattern does not begin is skipped.
* `group_greedy` and `group_lazy`: where a group ends whose end is not in its class.
-/

namespace DocMachine.Lib.Capture

/-- The text before the group, the class of its characters, and the text behind it. -/
structure Pattern (α : Type) where
  before : List α
  member : α → Bool
  lazy : Bool
  after : List α

namespace Pattern

variable {α : Type}

/-! ## Occurrences -/

/-- `g` can be a group. -/
structure Group (p : Pattern α) (g : List α) : Prop where
  ne_nil : g ≠ []
  member : ∀ c ∈ g, p.member c = true

/-- The pattern matches somewhere in `cs` with the group `g`. -/
def Occurs (p : Pattern α) (g cs : List α) : Prop :=
  p.Group g ∧ p.before ++ g ++ p.after <:+: cs

/-- No match contains `c`. -/
structure Avoids (p : Pattern α) (c : α) : Prop where
  before : c ∉ p.before
  member : p.member c = false
  after : c ∉ p.after

instance [DecidableEq α] (p : Pattern α) (c : α) : Decidable (p.Avoids c) :=
  decidable_of_iff (c ∉ p.before ∧ p.member c = false ∧ c ∉ p.after)
    ⟨fun h => ⟨h.1, h.2.1, h.2.2⟩, fun h => ⟨h.before, h.member, h.after⟩⟩

theorem group_cons {p : Pattern α} {c : α} {g : List α} (hc : p.member c = true)
    (hg : ∀ d ∈ g, p.member d = true) : p.Group (c :: g) :=
  ⟨List.cons_ne_nil c g, List.forall_mem_cons.mpr ⟨hc, hg⟩⟩

/-! ## The search -/

variable [DecidableEq α]

/-- The group and what is behind it match at the start. -/
def group (p : Pattern α) : List α → Option (List α)
  | [] => none
  | c :: cs =>
    if p.member c then
      let stop := if p.after <+: cs then some [c] else none
      let more := (group p cs).map (c :: ·)
      if p.lazy then stop.or more else more.or stop
    else none

/-- The group of a match at the start of the text. -/
def matchStart (p : Pattern α) (cs : List α) : Option (List α) :=
  if p.before <+: cs then p.group (cs.drop p.before.length) else none

/-- The group of the leftmost match. -/
def find (p : Pattern α) : List α → Option (List α)
  | [] => p.matchStart []
  | c :: cs => (p.matchStart (c :: cs)).or (find p cs)

variable {p : Pattern α} {g cs u v : List α} {c : α}

/-! ## What is found -/

theorem group_spec (h : p.group cs = some g) : p.Group g ∧ g ++ p.after <+: cs := by
  induction cs generalizing g with
  | nil => cases h
  | cons c cs ih =>
    rw [group] at h
    split at h
    · next hc =>
      have hstop : (if p.after <+: cs then some [c] else none) = some g →
          p.Group g ∧ g ++ p.after <+: c :: cs := by
        intro h
        split at h
        · next hafter =>
          cases h
          exact ⟨group_cons hc nofun, List.cons_prefix_cons.mpr ⟨rfl, hafter⟩⟩
        · cases h
      have hmore : (p.group cs).map (c :: ·) = some g →
          p.Group g ∧ g ++ p.after <+: c :: cs := by
        intro h
        obtain ⟨g, hg, rfl⟩ := Option.map_eq_some_iff.mp h
        obtain ⟨hgroup, hprefix⟩ := ih hg
        exact ⟨group_cons hc hgroup.member, List.cons_prefix_cons.mpr ⟨rfl, hprefix⟩⟩
      dsimp only at h
      split at h
      · exact (Option.or_eq_some_iff.mp h).elim hstop fun h => hmore h.2
      · exact (Option.or_eq_some_iff.mp h).elim hmore fun h => hstop h.2
    · cases h

theorem group_isSome (hg : p.Group g) (h : g ++ p.after <+: cs) : (p.group cs).isSome := by
  induction cs generalizing g with
  | nil => exact absurd (List.append_eq_nil_iff.mp (List.prefix_nil.mp h)).1 hg.ne_nil
  | cons c cs ih =>
    obtain ⟨d, g, rfl⟩ := List.exists_cons_of_ne_nil hg.ne_nil
    rw [List.cons_append, List.cons_prefix_cons] at h
    obtain ⟨rfl, h⟩ := h
    rw [group, if_pos (hg.member d List.mem_cons_self)]
    by_cases hnil : g = []
    · have hstop : p.after <+: cs := by rwa [hnil, List.nil_append] at h
      simp only [if_pos hstop]
      split <;> simp
    · have hmore : (p.group cs).isSome :=
        ih ⟨hnil, fun c hc => hg.member c (List.mem_cons_of_mem d hc)⟩ h
      dsimp only
      split <;> simp [hmore]

theorem find_occurs (h : p.find cs = some g) : p.Occurs g cs := by
  have hstart : ∀ cs, p.matchStart cs = some g → p.Occurs g cs := by
    intro cs h
    unfold matchStart at h
    split at h
    · next hbefore =>
      obtain ⟨rest, rfl⟩ := hbefore
      rw [List.drop_left] at h
      obtain ⟨hgroup, hprefix⟩ := group_spec h
      refine ⟨hgroup, List.IsPrefix.isInfix ?_⟩
      rw [List.append_assoc]
      exact (List.prefix_append_right_inj _).mpr hprefix
    · cases h
  induction cs with
  | nil => exact hstart [] h
  | cons c cs ih =>
    obtain h | ⟨-, h⟩ := Option.or_eq_some_iff.mp h
    · exact hstart _ h
    · obtain ⟨hgroup, hinfix⟩ := ih h
      exact ⟨hgroup, hinfix.trans (List.suffix_cons c cs).isInfix⟩

theorem find_isSome (h : p.Occurs g cs) : (p.find cs).isSome := by
  obtain ⟨hgroup, s, t, hcs⟩ := h
  have hmatch : (p.matchStart (p.before ++ (g ++ p.after ++ t))).isSome := by
    rw [matchStart, if_pos (List.prefix_append _ _), List.drop_left]
    exact group_isSome hgroup (List.prefix_append _ _)
  have hstart : ∀ cs, (p.matchStart cs).isSome → (p.find cs).isSome := by
    intro cs h
    cases cs with
    | nil => exact h
    | cons c cs => simp [find, h]
  subst hcs
  induction s with
  | nil => exact hstart _ (by simpa using hmatch)
  | cons c s ih =>
    rw [List.cons_append, List.cons_append, find, Option.isSome_or, ih, Bool.or_true]

theorem find_eq_none_iff : p.find cs = none ↔ ∀ g, ¬ p.Occurs g cs := by
  constructor
  · intro h g hg
    have hsome := find_isSome hg
    rw [h] at hsome
    cases hsome
  · intro h
    by_contra hne
    obtain ⟨g, hg⟩ := Option.ne_none_iff_exists'.mp hne
    exact h g (find_occurs hg)

/-! ## Dividing the text -/

omit [DecidableEq α] in
theorem prefix_append_cons_iff {l : List α} (hc : c ∉ l) : l <+: u ++ c :: v ↔ l <+: u := by
  constructor
  · intro h
    obtain hgt | hle := Nat.lt_or_ge u.length l.length
    · have hlonger : u ++ [c] <+: l := by
        refine List.prefix_of_prefix_length_le ?_ h (by simp; omega)
        exact (List.prefix_append_right_inj u).mpr (List.prefix_append [c] v)
      exact absurd (hlonger.subset (List.mem_append_right u (List.mem_singleton_self c))) hc
    · exact List.prefix_of_prefix_length_le h (List.prefix_append u (c :: v)) hle
  · exact fun h => h.trans (List.prefix_append u (c :: v))

theorem group_append_cons (hc : p.Avoids c) : p.group (u ++ c :: v) = p.group u := by
  induction u with
  | nil => simp [group, hc.member]
  | cons d u ih =>
    rw [List.cons_append, group, group, ih]
    simp only [prefix_append_cons_iff hc.after]

theorem matchStart_append_cons (hc : p.Avoids c) :
    p.matchStart (u ++ c :: v) = p.matchStart u := by
  unfold matchStart
  simp only [prefix_append_cons_iff hc.before]
  split
  · next h => rw [List.drop_append_of_le_length h.length_le, group_append_cons hc]
  · rfl

/-- The search on both sides of a character that no match contains. -/
theorem find_append_cons (hc : p.Avoids c) :
    p.find (u ++ c :: v) = (p.find u).or (p.find v) := by
  induction u with
  | nil =>
    rw [List.nil_append, find, ← matchStart_append_cons (u := []) hc]
    rfl
  | cons d u ih =>
    rw [List.cons_append, find, find, ih, ← Option.or_assoc]
    have hstart : p.matchStart (d :: u ++ c :: v) = p.matchStart (d :: u) :=
      matchStart_append_cons hc
    rw [← hstart]
    rfl

/-- A part in which the pattern does not begin is skipped. -/
theorem find_append_cons_of_not_infix (hc : c ∉ p.before) (hu : ¬ p.before <:+: u) :
    p.find (u ++ c :: v) = p.find v := by
  have hstart : ∀ w, w <:+ u → p.matchStart (w ++ c :: v) = none := by
    intro w hw
    rw [matchStart, if_neg]
    rw [prefix_append_cons_iff hc]
    exact fun h => hu (h.isInfix.trans hw.isInfix)
  clear hu
  induction u with
  | nil =>
    have h := hstart [] (List.suffix_refl _)
    rw [List.nil_append] at h ⊢
    rw [find, h, Option.none_or]
  | cons d u ih =>
    have h := hstart (d :: u) (List.suffix_refl _)
    rw [List.cons_append] at h ⊢
    rw [find, h, Option.none_or]
    exact ih fun w hw => hstart w (hw.trans (List.suffix_cons d u))

theorem find_eq_none_of_not_infix (h : ¬ p.before <:+: cs) : p.find cs = none := by
  rw [find_eq_none_iff]
  intro g hg
  refine h (List.IsInfix.trans ?_ hg.2)
  rw [List.append_assoc]
  exact (List.prefix_append _ _).isInfix

/-! ## A match at the start is found -/

theorem find_append (h : (p.group cs).isSome) : p.find (p.before ++ cs) = p.group cs := by
  have hstart : p.matchStart (p.before ++ cs) = p.group cs := by
    rw [matchStart, if_pos (List.prefix_append _ _), List.drop_left]
  rw [← hstart] at h ⊢
  cases hcs : p.before ++ cs with
  | nil => rfl
  | cons c cs =>
    rw [hcs] at h
    rw [find, Option.or_of_isSome h]

/-- The greedy group goes as far as its class. -/
theorem group_greedy (hgreedy : p.lazy = false) (hg : p.Group g) {a : α} {after : List α}
    (hafter : p.after = a :: after) (ha : p.member a = false) :
    p.group (g ++ (p.after ++ v)) = some g := by
  obtain ⟨hne, hmember⟩ := hg
  have hend : p.group (p.after ++ v) = none := by
    rw [hafter, List.cons_append, group, if_neg (by simp [ha])]
  induction g with
  | nil => exact absurd rfl hne
  | cons c g ih =>
    obtain ⟨hc, hg⟩ := List.forall_mem_cons.mp hmember
    rw [List.cons_append, group, if_pos hc, hgreedy]
    by_cases hnil : g = []
    · subst hnil
      rw [List.nil_append, hend]
      simp
    · rw [ih hnil hg]
      simp

/-- The lazy group stops at the first end behind its first character. -/
theorem group_lazy (hlazy : p.lazy = true) (hg : p.Group g) {b : α} (hafter : p.after = [b]) :
    p.group (g ++ b :: v) = some g ↔ b ∉ g.tail := by
  obtain ⟨hne, hmember⟩ := hg
  induction g with
  | nil => exact absurd rfl hne
  | cons c g ih =>
    obtain ⟨hc, hg⟩ := List.forall_mem_cons.mp hmember
    rw [List.cons_append, group, if_pos hc, hlazy, hafter]
    cases g with
    | nil => simp
    | cons d g =>
      have hmore := ih (List.cons_ne_nil d g) hg
      by_cases hd : b = d
      · simp [hd]
      · have hprefix : ¬ [b] <+: (d :: g) ++ b :: v := by
          simp [List.cons_prefix_cons, hd]
        have hmap : (p.group (d :: g ++ b :: v)).map (c :: ·) = some (c :: d :: g) ↔
            p.group (d :: g ++ b :: v) = some (d :: g) := by
          simp [Option.map_eq_some_iff]
        simp only [if_neg hprefix, if_true, Option.none_or]
        rw [hmap, hmore, List.tail_cons, List.tail_cons, List.mem_cons]
        simp [hd]

theorem find_lazy (hlazy : p.lazy = true) {b : α} (hafter : p.after = [b]) :
    p.find (p.before ++ (g ++ b :: v)) = some g ↔ p.Group g ∧ b ∉ g.tail := by
  have hfind : p.Group g →
      (p.find (p.before ++ (g ++ b :: v)) = some g ↔ b ∉ g.tail) := by
    intro hg
    have hsome : (p.group (g ++ b :: v)).isSome := group_isSome hg (by simp [hafter])
    rw [find_append hsome, group_lazy hlazy hg hafter]
  constructor
  · intro h
    have hg : p.Group g := (find_occurs h).1
    exact ⟨hg, (hfind hg).mp h⟩
  · rintro ⟨hg, hb⟩
    exact (hfind hg).mpr hb

end Pattern

end DocMachine.Lib.Capture
