import DocMachine.Fruits.Board
import Mathlib.Logic.Equiv.Basic

/-!
# What a move changes

The moves of `Prolog/fruit-matching_sk4520/fruits.pl` (114-226) in terms of the board as a map from
places to tiles.

* `Exchanged` relates two arrangements: a transposition of two places, and nothing else changes.
* A switch exchanges two adjacent places that hold different fruits; a removal empties one row of
  equal fruits.

Results:
* `Exchanged.map` and `Exchanged.below`: an exchange in a part of a larger arrangement, the rest of
  which stays as it is.
* `exchanged_head` and `exchanged_heads`: the two exchanges that the first clauses make, in a row
  and between two rows.
* `move_effect`: a move on a square board leads to another square board of the same size and does to
  its tiles what its name says.
-/

namespace DocMachine.Fruits

variable {F : Type}

/-! ## Exchanges -/

/-- The tiles in `t'` are those in `t`, with the ones at `p` and `q` exchanged; these are two
different fruits. -/
structure Exchanged {ι : Type} [DecidableEq ι] (t t' : ι → Option (Tile F)) (p q : ι) : Prop where
  fruits : ∃ x y : Tile F, x ≠ y ∧ x ≠ .e ∧ y ≠ .e ∧ t p = some x ∧ t q = some y
  swapped : t' = t ∘ Equiv.swap p q

/-- An exchange in a part of a larger arrangement, the rest of which stays as it is. -/
theorem Exchanged.map {ι κ : Type} [DecidableEq ι] [DecidableEq κ] {g : ι → κ}
    (hg : Function.Injective g) {t t' : ι → Option (Tile F)} {T T' : κ → Option (Tile F)} {p q : ι}
    (h : Exchanged t t' p q) (ht : ∀ i, T (g i) = t i) (ht' : ∀ i, T' (g i) = t' i)
    (hrest : ∀ k, (∀ i, g i ≠ k) → T' k = T k) : Exchanged T T' (g p) (g q) := by
  obtain ⟨⟨x, y, hxy, hx, hy, hp, hq⟩, hswapped⟩ := h
  refine ⟨⟨x, y, hxy, hx, hy, by rw [ht, hp], by rw [ht, hq]⟩, ?_⟩
  funext k
  rw [Function.comp_apply]
  by_cases hk : ∃ i, g i = k
  · obtain ⟨i, rfl⟩ := hk
    rw [ht', hswapped, Function.comp_apply, hg.swap_apply, ht]
  · have houtside : ∀ i, g i ≠ k := fun i hi => hk ⟨i, hi⟩
    rw [Equiv.swap_apply_of_ne_of_ne (houtside p).symm (houtside q).symm, hrest k houtside]

/-! ## Places -/

/-- The tile in column `p.2` of row `p.1`. -/
def tileAt (board : Board F) (p : ℕ × ℕ) : Option (Tile F) := board[p.1]?.bind fun row => row[p.2]?

/-- The tile in column `p.2` of the first or the second of two rows. -/
def pairAt (rows : Row F × Row F) (p : Bool × ℕ) : Option (Tile F) :=
  (bif p.1 then rows.2 else rows.1)[p.2]?

variable {board board' : Board F} {row row' : Row F}

/-- Two adjacent tiles at the start of a row. -/
theorem exchanged_head {x y : Tile F} (h : x ≠ y ∧ x ≠ .e ∧ y ≠ .e) (tail : Row F) :
    Exchanged (fun j => (x :: y :: tail)[j]?) (fun j => (y :: x :: tail)[j]?) 0 1 := by
  refine ⟨⟨x, y, h.1, h.2.1, h.2.2, rfl, rfl⟩, ?_⟩
  funext j
  rw [Function.comp_apply]
  match j with
  | 0 => rw [Equiv.swap_apply_left]; rfl
  | 1 => rw [Equiv.swap_apply_right]; rfl
  | j + 2 => rw [Equiv.swap_apply_of_ne_of_ne (by omega) (by omega)]; rfl

/-- Two tiles at the start of two rows. -/
theorem exchanged_heads {x y : Tile F} (h : x ≠ y ∧ x ≠ .e ∧ y ≠ .e) (l₁ l₂ : Row F) :
    Exchanged (pairAt (x :: l₁, y :: l₂)) (pairAt (y :: l₁, x :: l₂)) (false, 0) (true, 0) := by
  refine ⟨⟨x, y, h.1, h.2.1, h.2.2, rfl, rfl⟩, ?_⟩
  funext p
  rw [Function.comp_apply]
  match p with
  | (false, 0) => rw [Equiv.swap_apply_left]; rfl
  | (true, 0) => rw [Equiv.swap_apply_right]; rfl
  | (false, j + 1) => rw [Equiv.swap_apply_of_ne_of_ne (by simp) (by simp)]; rfl
  | (true, j + 1) => rw [Equiv.swap_apply_of_ne_of_ne (by simp) (by simp)]; rfl

/-- An exchange in the rows below the first. -/
theorem Exchanged.below {p q : ℕ × ℕ} (h : Exchanged (tileAt board) (tileAt board') p q)
    (row : Row F) :
    Exchanged (tileAt (row :: board)) (tileAt (row :: board')) (p.1 + 1, p.2) (q.1 + 1, q.2) := by
  have hinjective : Function.Injective fun p : ℕ × ℕ => (p.1 + 1, p.2) := by
    intro p q hpq
    simp only [Prod.mk.injEq, Nat.add_right_cancel_iff] at hpq
    exact Prod.ext hpq.1 hpq.2
  refine h.map hinjective (fun _ => rfl) (fun _ => rfl) fun k hk => ?_
  obtain ⟨i, j⟩ := k
  cases i with
  | zero => rfl
  | succ i => exact absurd rfl (hk (i, j))

/-! ## The switches -/

variable [DecidableEq F]

theorem swap_row_tiles_exchanged (h : row' ∈ swap_row_tiles row) :
    ∃ j, Exchanged (fun j => row[j]?) (fun j => row'[j]?) j (j + 1) := by
  induction row generalizing row' with
  | nil => exact absurd h List.not_mem_nil
  | cons x row ih =>
    cases row with
    | nil => exact absurd h List.not_mem_nil
    | cons y tail =>
      rw [swap_row_tiles, List.mem_append] at h
      rcases h with h | h
      · split at h
        · next hxy =>
          obtain rfl := List.mem_singleton.mp h
          exact ⟨0, exchanged_head hxy tail⟩
        · exact absurd h List.not_mem_nil
      · obtain ⟨row', hrow', rfl⟩ := List.mem_map.mp h
        obtain ⟨j, hj⟩ := ih hrow'
        refine ⟨j + 1,
          hj.map (fun _ _ => Nat.succ.inj) (fun _ => rfl) (fun _ => rfl) fun k hk => ?_⟩
        cases k with
        | zero => rfl
        | succ k => exact absurd rfl (hk k)

theorem switch_row_exchanged (h : board' ∈ switch_row board) :
    ∃ i j, Exchanged (tileAt board) (tileAt board') (i, j) (i, j + 1) := by
  induction board generalizing board' with
  | nil => exact absurd h List.not_mem_nil
  | cons row tail ih =>
    rw [switch_row, List.mem_append] at h
    rcases h with h | h
    · obtain ⟨tail', htail', rfl⟩ := List.mem_map.mp h
      obtain ⟨i, j, hij⟩ := ih htail'
      exact ⟨i + 1, j, hij.below row⟩
    · obtain ⟨row', hrow', rfl⟩ := List.mem_map.mp h
      obtain ⟨j, hj⟩ := swap_row_tiles_exchanged hrow'
      refine ⟨0, j, hj.map (fun _ _ hjk => (Prod.mk.inj hjk).2) (fun _ => rfl) (fun _ => rfl)
        fun k hk => ?_⟩
      obtain ⟨i, j⟩ := k
      cases i with
      | zero => exact absurd rfl (hk j)
      | succ i => rfl

theorem swap_columns_tiles_exchanged {row₁ row₂ : Row F} {rows : Row F × Row F}
    (h : rows ∈ swap_columns_tiles row₁ row₂) :
    ∃ j, Exchanged (pairAt (row₁, row₂)) (pairAt rows) (false, j) (true, j) := by
  induction row₁ generalizing row₂ rows with
  | nil => exact absurd h List.not_mem_nil
  | cons x l₁ ih =>
    cases row₂ with
    | nil => exact absurd h List.not_mem_nil
    | cons y l₂ =>
      rw [swap_columns_tiles, List.mem_append] at h
      rcases h with h | h
      · split at h
        · next hxy =>
          obtain rfl := List.mem_singleton.mp h
          exact ⟨0, exchanged_heads hxy l₁ l₂⟩
        · exact absurd h List.not_mem_nil
      · obtain ⟨rows, hrows, rfl⟩ := List.mem_map.mp h
        obtain ⟨j, hj⟩ := ih hrows
        have hinjective : Function.Injective fun p : Bool × ℕ => (p.1, p.2 + 1) := by
          intro p q hpq
          simp only [Prod.mk.injEq, Nat.add_right_cancel_iff] at hpq
          exact Prod.ext hpq.1 hpq.2
        refine ⟨j + 1, hj.map hinjective ?_ ?_ fun k hk => ?_⟩
        · rintro ⟨_ | _, j⟩ <;> rfl
        · rintro ⟨_ | _, j⟩ <;> rfl
        · obtain ⟨b, j⟩ := k
          cases j with
          | zero => cases b <;> rfl
          | succ j => exact absurd rfl (hk (b, j))

theorem switch_column_exchanged (h : board' ∈ switch_column board) :
    ∃ i j, Exchanged (tileAt board) (tileAt board') (i, j) (i + 1, j) := by
  induction board generalizing board' with
  | nil => exact absurd h List.not_mem_nil
  | cons row₁ tail ih =>
    cases tail with
    | nil => exact absurd h List.not_mem_nil
    | cons row₂ tail =>
      rw [switch_column, List.mem_append] at h
      rcases h with h | h
      · obtain ⟨tail', htail', rfl⟩ := List.mem_map.mp h
        obtain ⟨i, j, hij⟩ := ih htail'
        exact ⟨i + 1, j, hij.below row₁⟩
      · obtain ⟨rows, hrows, rfl⟩ := List.mem_map.mp h
        obtain ⟨j, hj⟩ := swap_columns_tiles_exchanged hrows
        have hinjective : Function.Injective fun p : Bool × ℕ => (p.1.toNat, p.2) := by
          rintro ⟨_ | _, j⟩ ⟨_ | _, k⟩ hpq <;> simp_all
        refine ⟨0, j, hj.map hinjective ?_ ?_ fun k hk => ?_⟩
        · rintro ⟨_ | _, j⟩ <;> rfl
        · rintro ⟨_ | _, j⟩ <;> rfl
        · obtain ⟨_ | _ | i, j⟩ := k
          · exact absurd rfl (hk (false, j))
          · exact absurd rfl (hk (true, j))
          · rfl

/-! ## The removal -/

/-- A row of equal fruits, replaced by a row without fruits. -/
def Removed (board board' : Board F) : Prop :=
  ∃ (i : ℕ) (f : F), board[i]? = some (List.replicate board.length (.fruit f)) ∧
    board' = board.set i (List.replicate board.length .e)

/-- The rows that can be removed. -/
theorem eq_replicate_of_matching (hne : row ≠ [])
    (h : (matching_row row && !match_item .e row) = true) :
    ∃ f : F, row = List.replicate row.length (.fruit f) := by
  obtain ⟨hmatching, hnot⟩ := Bool.and_eq_true_iff.mp h
  rw [Bool.not_eq_true', Bool.eq_false_iff] at hnot
  cases row with
  | nil => exact absurd rfl hne
  | cons x tail =>
    obtain ⟨-, htail⟩ := match_item_iff.mp hmatching
    have hall : ∀ t ∈ x :: tail, t = x := List.forall_mem_cons.mpr ⟨rfl, htail⟩
    cases x with
    | e => exact absurd (match_item_iff.mpr ⟨hne, hall⟩) hnot
    | fruit f => exact ⟨f, List.eq_replicate_of_mem hall⟩

theorem remove_row_removed {n : ℕ} (hn : 0 < n) (hboard : ∀ row ∈ board, row.length = n)
    (h : board' ∈ remove_row board) :
    ∃ (i : ℕ) (f : F), board[i]? = some (List.replicate n (.fruit f)) ∧
      board' = board.set i (List.replicate n .e) := by
  induction board generalizing board' with
  | nil => exact absurd h List.not_mem_nil
  | cons row tail ih =>
    obtain ⟨hrow, htail⟩ := List.forall_mem_cons.mp hboard
    rw [remove_row, List.mem_append] at h
    rcases h with h | h
    · split at h
      · next hmatch =>
        obtain rfl := List.mem_singleton.mp h
        have hne : row ≠ [] := List.length_pos_iff.mp (hrow.symm ▸ hn)
        obtain ⟨f, hf⟩ := eq_replicate_of_matching hne hmatch
        rw [hrow] at hf
        refine ⟨0, f, congrArg some hf, ?_⟩
        rw [replace_row_tiles_eq, hrow]
        rfl
      · exact absurd h List.not_mem_nil
    · obtain ⟨tail', htail', rfl⟩ := List.mem_map.mp h
      obtain ⟨i, f, hi, rfl⟩ := ih htail htail'
      exact ⟨i + 1, f, hi, rfl⟩

/-! ## Moves -/

/-- What a move does to the tiles. -/
def Move.Effect (board board' : Board F) : Move → Prop
  | remove => Removed board board'
  | switch_column => ∃ i j, Exchanged (tileAt board) (tileAt board') (i, j) (i + 1, j)
  | switch_row => ∃ i j, Exchanged (tileAt board) (tileAt board') (i, j) (i, j + 1)

/-- **A move on a square board** leads to another square board of the same size and does to its
tiles what its name says. -/
theorem move_effect (hvalid : valid board = true) {step : Move × Board F} (h : step ∈ move board) :
    valid step.2 = true ∧ step.2.length = board.length ∧ step.2 ≠ board ∧
      step.1.Effect board step.2 := by
  have hrows := valid_iff.mp hvalid
  have hn : 0 < board.length := by
    rw [List.length_pos_iff]
    rintro rfl
    exact absurd h List.not_mem_nil
  have hboard : ∀ row ∈ board, RowIn board.length (.e :: board.flatten) row := fun row hrow =>
    ⟨hrows row hrow, fun t ht =>
      List.mem_cons_of_mem _ (List.mem_flatten.mpr ⟨row, hrow, ht⟩)⟩
  obtain ⟨hne, hlength, hrows'⟩ := move_changed hn List.mem_cons_self hboard h
  refine ⟨valid_iff.mpr fun row hrow => ?_, hlength, hne, ?_⟩
  · rw [hlength]
    exact (hrows' row hrow).1
  · rw [move, List.mem_append, List.mem_append, List.mem_map, List.mem_map, List.mem_map] at h
    rcases h with (⟨board', h, rfl⟩ | ⟨board', h, rfl⟩) | ⟨board', h, rfl⟩
    · exact remove_row_removed hn hrows h
    · exact switch_column_exchanged h
    · exact switch_row_exchanged h

/-- The first row of a 2 x 2 board is removed. -/
theorem move_effect_two :
    valid [[Tile.e, .e], [Tile.fruit true, .fruit false]] = true ∧
      [[Tile.e, .e], [Tile.fruit true, .fruit false]].length =
        [[Tile.fruit true, .fruit true], [Tile.fruit true, .fruit false]].length ∧
      [[Tile.e, .e], [Tile.fruit true, .fruit false]] ≠
        [[Tile.fruit true, .fruit true], [Tile.fruit true, .fruit false]] ∧
      Move.Effect [[Tile.fruit true, .fruit true], [Tile.fruit true, .fruit false]]
        [[Tile.e, .e], [Tile.fruit true, .fruit false]] .remove :=
  @move_effect Bool [[.fruit true, .fruit true], [.fruit true, .fruit false]] _ (by decide)
    (.remove, [[.e, .e], [.fruit true, .fruit false]]) (by decide)

end DocMachine.Fruits
