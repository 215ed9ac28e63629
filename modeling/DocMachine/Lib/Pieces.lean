import Mathlib.Data.List.Basic
import Mathlib.Data.Nat.Notation

/-!
# Cutting bracketed text

Texts of tokens with brackets, cut at the tokens outside all brackets that satisfy `p`.

* `pieces p d` cuts a text of which `d` brackets are open at the start, and returns the first piece
  and, for each cut, the token and the piece behind it.
* A text without such tokens that closes its own brackets is `Solid`: it stays in one piece,
  whatever follows it.
* A text that ends outside brackets is `Level`: a cut behind it leaves its own pieces as they are.

Results:
* `Solid.pieces`: what the pieces of a text are that begins with a solid one.
* `Level.append_cons`: a further piece behind a cut. With these two, the pieces of a text are found
  along its grammar.
-/

namespace DocMachine.Lib.Pieces

variable {T : Type}

/-- `ts` in front of the first piece. -/
def prepend (ts : List T) (r : List T × List (T × List T)) : List T × List (T × List T) :=
  (ts ++ r.1, r.2)

theorem prepend_prepend (ts us : List T) (r : List T × List (T × List T)) :
    prepend ts (prepend us r) = prepend (ts ++ us) r := by
  simp [prepend]

variable [DecidableEq T] (opening closing : T)

/-- The open brackets after a token. -/
def depth (d : ℕ) (t : T) : ℕ :=
  if t = opening then d + 1 else if t = closing then d - 1 else d

/-- The first piece, and the others, each behind the token before it. -/
def pieces (p : T → Bool) : ℕ → List T → List T × List (T × List T)
  | _, [] => ([], [])
  | d, t :: ts =>
    if d = 0 ∧ p t then
      let (first, rest) := pieces p 0 ts
      ([], (t, first) :: rest)
    else
      let (first, rest) := pieces p (depth opening closing d t) ts
      (t :: first, rest)

/-- Inside brackets the text is never cut and leaves the depth as it was. -/
def Inside (ts : List T) : Prop :=
  ∀ p d us, pieces opening closing p (d + 1) (ts ++ us) =
    prepend ts (pieces opening closing p (d + 1) us)

/-- The text stays in one piece. -/
def Solid (p : T → Bool) (ts : List T) : Prop :=
  ∀ us, pieces opening closing p 0 (ts ++ us) = prepend ts (pieces opening closing p 0 us)

/-- A cut behind the text is a cut at the level of its own. -/
def Level (p : T → Bool) (ts : List T) : Prop :=
  ∀ t us, p t = true → pieces opening closing p 0 (ts ++ t :: us) =
    ((pieces opening closing p 0 ts).1, (pieces opening closing p 0 ts).2 ++
      (t, (pieces opening closing p 0 us).1) :: (pieces opening closing p 0 us).2)

variable {opening closing} {p : T → Bool} {t : T} {ts us : List T}

theorem pieces_cons_of_not {d : ℕ} (h : ¬ (d = 0 ∧ p t)) :
    pieces opening closing p d (t :: ts) =
      prepend [t] (pieces opening closing p (depth opening closing d t) ts) := by
  rw [pieces, if_neg h]
  rfl

theorem pieces_cons_of_pos (h : p t = true) : pieces opening closing p 0 (t :: ts) =
    ([], (t, (pieces opening closing p 0 ts).1) :: (pieces opening closing p 0 ts).2) := by
  rw [pieces, if_pos ⟨rfl, h⟩]

/-! ## Inside brackets -/

theorem Inside.append (h : Inside opening closing ts) (h' : Inside opening closing us) :
    Inside opening closing (ts ++ us) := by
  intro p d vs
  rw [List.append_assoc, h, h', prepend_prepend]

theorem Inside.singleton (ho : t ≠ opening) (hc : t ≠ closing) : Inside opening closing [t] := by
  intro p d us
  rw [List.singleton_append, pieces_cons_of_not (by omega), depth, if_neg ho, if_neg hc]

theorem Inside.cons (ho : t ≠ opening) (hc : t ≠ closing) (h : Inside opening closing ts) :
    Inside opening closing (t :: ts) :=
  (Inside.singleton ho hc).append h

theorem pieces_brackets (hne : opening ≠ closing) (h : Inside opening closing ts) {d : ℕ}
    (ho : ¬ (d = 0 ∧ p opening)) :
    pieces opening closing p d ((opening :: ts ++ [closing]) ++ us) =
      prepend (opening :: ts ++ [closing]) (pieces opening closing p d us) := by
  have hdepth : depth opening closing d opening = d + 1 := if_pos rfl
  have hback : depth opening closing (d + 1) closing = d := by
    rw [depth, if_neg hne.symm, if_pos rfl, Nat.add_sub_cancel]
  rw [List.append_assoc, List.cons_append, pieces_cons_of_not ho, hdepth, h, List.singleton_append,
    pieces_cons_of_not (by omega), hback, prepend_prepend, prepend_prepend]
  simp [prepend]

theorem Inside.brackets (hne : opening ≠ closing) (h : Inside opening closing ts) :
    Inside opening closing (opening :: ts ++ [closing]) :=
  fun _ _ _ => pieces_brackets hne h (by omega)

/-! ## Outside brackets -/

theorem Solid.append (h : Solid opening closing p ts) (h' : Solid opening closing p us) :
    Solid opening closing p (ts ++ us) := by
  intro vs
  rw [List.append_assoc, h, h', prepend_prepend]

theorem Solid.singleton (ho : t ≠ opening) (hc : t ≠ closing) (hp : p t = false) :
    Solid opening closing p [t] := by
  intro us
  rw [List.singleton_append, pieces_cons_of_not (by simp [hp]), depth, if_neg ho, if_neg hc]

theorem Solid.cons (ho : t ≠ opening) (hc : t ≠ closing) (hp : p t = false)
    (h : Solid opening closing p ts) : Solid opening closing p (t :: ts) :=
  (Solid.singleton ho hc hp).append h

theorem Solid.brackets (hne : opening ≠ closing) (h : Inside opening closing ts)
    (ho : p opening = false) : Solid opening closing p (opening :: ts ++ [closing]) :=
  fun _ => pieces_brackets hne h (by simp [ho])

theorem Solid.pieces (h : Solid opening closing p ts) :
    pieces opening closing p 0 ts = (ts, []) := by
  have hnil := h []
  rw [List.append_nil] at hnil
  rw [hnil]
  simp [Pieces.pieces, prepend]

theorem Solid.level (h : Solid opening closing p ts) : Level opening closing p ts := by
  intro t us ht
  rw [h, pieces_cons_of_pos ht, h.pieces]
  simp [prepend]

/-- A further piece behind a cut. -/
theorem Level.append_cons (h : Level opening closing p ts) (ht : p t = true)
    (h' : Level opening closing p us) : Level opening closing p (ts ++ t :: us) := by
  intro t' vs ht'
  rw [List.append_assoc, List.cons_append, h t (us ++ t' :: vs) ht, h' t' vs ht', h t us ht]
  simp

end DocMachine.Lib.Pieces
