import DocMachine.Lib.DepthFirst

/-!
# Boards and moves of the fruit game

Model of `Prolog/fruit-matching_sk4520/fruits.pl` up to the moves (`valid` 47-69, the row and board
tests 76-106, the switches and the removal 114-209, `move` 224-226), on ground boards.

* A predicate with an output is the list of its solutions in the order in which they are found. A
  test is a Boolean, as it never holds twice.
* A tile is a fruit or empty (`e`). Fruits are of any type with equality, for the atoms of the
  source.
* `match_item` has a clause for a single last element and none for the empty list; `empty_board` has
  one for a last row. The repository's tests expect more of both.
* Unification of the boards is equality: no board has variables in it when a move is looked for.

Results:
* `all_iff`: the two clauses of `match_item` and of `empty_board`, for a last element and for the
  others.
* `rowTests_iff`: which rows and boards the tests get right. They fail on a single tile, the empty
  row and the empty board.
* `move_changed`: on a square board a move leads to another board of the same size with no new tile.
-/

namespace DocMachine.Fruits

/-- `e` is the tile without a fruit. -/
inductive Tile (F : Type) where
  | e
  | fruit (f : F)
  deriving DecidableEq, Repr

/-- A row of tiles. -/
abbrev Row (F : Type) := List (Tile F)

/-- The rows of a board. -/
abbrev Board (F : Type) := List (Row F)

variable {F : Type}

/-! ## The board -/

/-- `same_length`. -/
def same_length {α β : Type} : List α → List β → Bool
  | [], [] => true
  | _ :: tail₁, _ :: tail₂ => same_length tail₁ tail₂
  | _, _ => false

/-- `invalidRows`: some row has another length than the board. -/
def invalidRows : Board F → Board F → Bool
  | [], _ => false
  | row :: tail, board => !same_length row board || invalidRows tail board

/-- Not a square. -/
def invalid (board : Board F) : Bool := invalidRows board board

/-- `valid`: a square board. -/
def valid (board : Board F) : Bool := !invalid board

theorem same_length_iff {α β : Type} {l₁ : List α} {l₂ : List β} :
    same_length l₁ l₂ = true ↔ l₁.length = l₂.length := by
  induction l₁ generalizing l₂ with
  | nil => cases l₂ <;> simp [same_length]
  | cons a l₁ ih => cases l₂ <;> simp [same_length, ih]

theorem valid_iff {board : Board F} :
    valid board = true ↔ ∀ row ∈ board, row.length = board.length := by
  have hrows : ∀ rows : Board F,
      invalidRows rows board = false ↔ ∀ row ∈ rows, row.length = board.length := by
    intro rows
    induction rows with
    | nil => simp [invalidRows]
    | cons row rows ih => simp [invalidRows, ih, same_length_iff]
  rw [valid, Bool.not_eq_true', invalid, hrows]

/-- The two clauses of `match_item` and of `empty_board`, for a last element and for the others. -/
theorem all_iff {α : Type} {p : α → Bool} {f : List α → Bool} (hnil : f [] = false)
    (hcons : ∀ a as, f (a :: as) = ((p a && as.isEmpty) || (p a && f as))) {l : List α} :
    f l = true ↔ l ≠ [] ∧ ∀ a ∈ l, p a = true := by
  induction l with
  | nil =>
    rw [hnil]
    exact ⟨nofun, fun h => absurd rfl h.1⟩
  | cons a as ih =>
    rw [hcons, ← Bool.and_or_distrib_left, Bool.and_eq_true, Bool.or_eq_true, ih,
      List.forall_mem_cons, List.isEmpty_iff]
    constructor
    · rintro ⟨ha, rfl | ⟨-, has⟩⟩
      · exact ⟨List.cons_ne_nil a [], ha, nofun⟩
      · exact ⟨List.cons_ne_nil a as, ha, has⟩
    · rintro ⟨-, ha, has⟩
      exact ⟨ha, (Classical.em (as = [])).imp_right fun h => ⟨h, has⟩⟩

/-! ## Boards with rows of one length -/

/-- `n` tiles of `tiles`. -/
def RowIn (n : ℕ) (tiles : List (Tile F)) (row : Row F) : Prop :=
  row.length = n ∧ ∀ t ∈ row, t ∈ tiles

/-- Another board of the same size, with rows of `n` tiles of `tiles`. -/
def Changed (n : ℕ) (tiles : List (Tile F)) (board board' : Board F) : Prop :=
  board' ≠ board ∧ board'.length = board.length ∧ ∀ row ∈ board', RowIn n tiles row

variable {n : ℕ} {tiles : List (Tile F)} {board board' : Board F} {row row' : Row F}

theorem Changed.cons (h : Changed n tiles board board') (hrow : RowIn n tiles row) :
    Changed n tiles (row :: board) (row :: board') :=
  ⟨fun heq => h.1 (List.cons_eq_cons.mp heq).2, congrArg (· + 1) h.2.1,
    List.forall_mem_cons.mpr ⟨hrow, h.2.2⟩⟩

theorem Changed.head (hne : row' ≠ row) (hrow' : RowIn n tiles row')
    (hboard : ∀ row ∈ board, RowIn n tiles row) :
    Changed n tiles (row :: board) (row' :: board) :=
  ⟨fun heq => hne (List.cons_eq_cons.mp heq).1, rfl, List.forall_mem_cons.mpr ⟨hrow', hboard⟩⟩

/-- `replace_row_tiles`. -/
def replace_row_tiles (row : Row F) (x : Tile F) : Row F :=
  match row with
  | [] => []
  | _ :: l => x :: replace_row_tiles l x

theorem replace_row_tiles_eq (row : Row F) (x : Tile F) :
    replace_row_tiles row x = List.replicate row.length x := by
  induction row with
  | nil => rfl
  | cons y l ih => exact congrArg (x :: ·) ih

/-! ## The tests -/

variable [DecidableEq F]

/-- `match_item`: all tiles of the row, at least one, are `x`. -/
def match_item (x : Tile F) : Row F → Bool
  | [] => false
  | y :: tail => (decide (y = x) && tail.isEmpty) || (decide (y = x) && match_item x tail)

/-- All tiles are the same. There are at least two, but for the empty row. -/
def matching_row : Row F → Bool
  | [] => true
  | x :: tail => match_item x tail

/-- `empty_row`. -/
def empty_row (row : Row F) : Bool := match_item .e row

/-- `empty_board`. -/
def empty_board : Board F → Bool
  | [] => false
  | row :: board => (empty_row row && board.isEmpty) || (empty_row row && empty_board board)

/-- `goal`. -/
def goal (board : Board F) : Bool := empty_board board

theorem match_item_iff {x : Tile F} {row : Row F} :
    match_item x row = true ↔ row ≠ [] ∧ ∀ y ∈ row, y = x := by
  rw [all_iff (p := fun y => decide (y = x)) rfl fun _ _ => rfl]
  simp only [decide_eq_true_eq]

/-! ## What the tests say -/

/-- What the tests should say of a row and of a board. -/
structure RowTests (row : Row F) (board : Board F) : Prop where
  matching : matching_row row = true ↔ ∀ x ∈ row, ∀ y ∈ row, x = y
  empty : empty_row row = true ↔ ∀ x ∈ row, x = .e
  board : empty_board board = true ↔ ∀ row ∈ board, empty_row row = true

theorem matching_row_iff {row : Row F} :
    matching_row row = true ↔ row.length ≠ 1 ∧ ∀ x ∈ row, ∀ y ∈ row, x = y := by
  cases row with
  | nil => simp [matching_row]
  | cons x tail =>
    have hlen : (x :: tail).length ≠ 1 ↔ tail ≠ [] := by simp
    rw [matching_row, match_item_iff, hlen]
    refine and_congr_right fun _ => ⟨fun h => ?_, fun h y hy => ?_⟩
    · have hx : ∀ y ∈ x :: tail, y = x := List.forall_mem_cons.mpr ⟨rfl, h⟩
      exact fun y hy z hz => (hx y hy).trans (hx z hz).symm
    · exact h y (List.mem_cons_of_mem x hy) x List.mem_cons_self

theorem empty_row_iff {row : Row F} : empty_row row = true ↔ row ≠ [] ∧ ∀ x ∈ row, x = .e :=
  match_item_iff

theorem empty_board_iff {board : Board F} :
    empty_board board = true ↔ board ≠ [] ∧ ∀ row ∈ board, empty_row row = true :=
  all_iff rfl fun _ _ => rfl

theorem goal_iff {board : Board F} :
    goal board = true ↔ board ≠ [] ∧ ∀ row ∈ board, row ≠ [] ∧ ∀ t ∈ row, t = .e := by
  rw [goal, empty_board_iff]
  simp only [empty_row_iff]

/-- The last clauses ask for one more element: the tests fail on a single tile, the empty row and
the empty board. -/
theorem rowTests_iff (row : Row F) (board : Board F) :
    RowTests row board ↔ 2 ≤ row.length ∧ board ≠ [] := by
  constructor
  · intro h
    have hone : row.length ≠ 1 := by
      intro hlen
      obtain ⟨x, rfl⟩ := List.length_eq_one_iff.mp hlen
      have hall : ∀ y ∈ [x], ∀ z ∈ [x], y = z := by simp
      exact (matching_row_iff.mp (h.matching.mpr hall)).1 hlen
    have hrow : row ≠ [] := by
      rintro rfl
      exact (empty_row_iff.mp (h.empty.mpr nofun)).1 rfl
    refine ⟨?_, ?_⟩
    · have := List.length_pos_iff.mpr hrow
      omega
    · rintro rfl
      exact (empty_board_iff.mp (h.board.mpr nofun)).1 rfl
  · rintro ⟨hlen, hboard⟩
    have hrow : row ≠ [] := List.length_pos_iff.mp (by omega)
    exact ⟨matching_row_iff.trans (and_iff_right (by omega)),
      empty_row_iff.trans (and_iff_right hrow), empty_board_iff.trans (and_iff_right hboard)⟩

/-- A row of one tile is no matching row. -/
theorem not_rowTests_single : ¬ RowTests [Tile.fruit 'b'] [[.e]] := by
  intro h
  exact absurd (h.matching.mpr (by decide)) (by decide)

/-! ## The moves -/

/-- `swap_row_tiles`: two neighbours with different fruits change places. -/
def swap_row_tiles : Row F → List (Row F)
  | [] => []
  | [_] => []
  | x :: y :: tail =>
    (if x ≠ y ∧ x ≠ .e ∧ y ≠ .e then [y :: x :: tail] else []) ++
      (swap_row_tiles (y :: tail)).map (x :: ·)

/-- `switch_row`. -/
def switch_row : Board F → List (Board F)
  | [] => []
  | row :: tail =>
    (switch_row tail).map (row :: ·) ++ (swap_row_tiles row).map (· :: tail)

/-- `remove_row`: a row of one fruit is emptied. -/
def remove_row : Board F → List (Board F)
  | [] => []
  | row :: tail =>
    (if matching_row row && !match_item .e row then [replace_row_tiles row .e :: tail] else []) ++
      (remove_row tail).map (row :: ·)

/-- `swap_columns_tiles`: two tiles with different fruits, one above the other, change places. -/
def swap_columns_tiles : Row F → Row F → List (Row F × Row F)
  | x :: l₁, y :: l₂ =>
    (if x ≠ y ∧ x ≠ .e ∧ y ≠ .e then [(y :: l₁, x :: l₂)] else []) ++
      (swap_columns_tiles l₁ l₂).map fun r => (x :: r.1, y :: r.2)
  | _, _ => []

/-- `switch_column`. -/
def switch_column : Board F → List (Board F)
  | [] => []
  | [_] => []
  | row₁ :: row₂ :: tail =>
    (switch_column (row₂ :: tail)).map (row₁ :: ·) ++
      (swap_columns_tiles row₁ row₂).map fun r => r.1 :: r.2 :: tail

/-- The names of the moves. -/
inductive Move where
  | remove
  | switch_column
  | switch_row
  deriving DecidableEq, Repr

/-- `move`. -/
def move (board : Board F) : List (Move × Board F) :=
  (remove_row board).map (.remove, ·) ++ (switch_column board).map (.switch_column, ·) ++
    (switch_row board).map (.switch_row, ·)

/-! ## Moves stay on the board -/

theorem swap_row_tiles_spec {row row' : Row F} (h : row' ∈ swap_row_tiles row) :
    row'.Perm row ∧ row' ≠ row := by
  induction row generalizing row' with
  | nil => exact absurd h List.not_mem_nil
  | cons x row ih =>
    cases row with
    | nil => exact absurd h List.not_mem_nil
    | cons y tail =>
      rw [swap_row_tiles, List.mem_append] at h
      rcases h with h | h
      · split at h
        · next hxy =>
          obtain rfl := List.mem_singleton.mp h
          exact ⟨List.Perm.swap x y tail, fun heq => hxy.1 (List.cons_eq_cons.mp heq).1.symm⟩
        · exact absurd h List.not_mem_nil
      · obtain ⟨row', hrow', rfl⟩ := List.mem_map.mp h
        obtain ⟨hperm, hne⟩ := ih hrow'
        exact ⟨hperm.cons x, fun heq => hne (List.cons_eq_cons.mp heq).2⟩

theorem swap_columns_tiles_spec {row₁ row₂ : Row F} {rows : Row F × Row F}
    (h : rows ∈ swap_columns_tiles row₁ row₂) :
    rows.1.length = row₁.length ∧ rows.2.length = row₂.length ∧
      (∀ t, t ∈ rows.1 ∨ t ∈ rows.2 → t ∈ row₁ ∨ t ∈ row₂) ∧ rows.1 ≠ row₁ := by
  induction row₁ generalizing row₂ rows with
  | nil => exact absurd h List.not_mem_nil
  | cons x l₁ ih =>
    cases row₂ with
    | nil => exact absurd h List.not_mem_nil
    | cons y l₂ =>
      rw [swap_columns_tiles, List.mem_append] at h
      rcases h with h | h
      · split at h
        · next hxy =>
          obtain rfl := List.mem_singleton.mp h
          refine ⟨rfl, rfl, fun t ht => ?_, fun heq => hxy.1 (List.cons_eq_cons.mp heq).1.symm⟩
          simp only [List.mem_cons] at ht ⊢
          tauto
        · exact absurd h List.not_mem_nil
      · obtain ⟨rows, hrows, rfl⟩ := List.mem_map.mp h
        obtain ⟨hlen₁, hlen₂, hmem, hne⟩ := ih hrows
        refine ⟨congrArg (· + 1) hlen₁, congrArg (· + 1) hlen₂, fun t ht => ?_,
          fun heq => hne (List.cons_eq_cons.mp heq).2⟩
        have hrest := hmem t
        simp only [List.mem_cons] at ht ⊢
        tauto

theorem remove_row_changed (hn : 0 < n) (he : .e ∈ tiles)
    (hboard : ∀ row ∈ board, RowIn n tiles row) (h : board' ∈ remove_row board) :
    Changed n tiles board board' := by
  induction board generalizing board' with
  | nil => exact absurd h List.not_mem_nil
  | cons row tail ih =>
    obtain ⟨hrow, htail⟩ := List.forall_mem_cons.mp hboard
    rw [remove_row, List.mem_append] at h
    rcases h with h | h
    · split at h
      · next hmatch =>
        obtain rfl := List.mem_singleton.mp h
        obtain ⟨-, hnot⟩ := Bool.and_eq_true_iff.mp hmatch
        rw [Bool.not_eq_true', Bool.eq_false_iff] at hnot
        rw [replace_row_tiles_eq]
        refine .head (fun heq => ?_) ⟨(List.length_replicate).trans hrow.1, fun t ht => ?_⟩ htail
        -- a row that is left as it is would be an empty one
        · refine hnot (match_item_iff.mpr ⟨?_, fun t ht => ?_⟩)
          · rw [← List.length_pos_iff, hrow.1]
            exact hn
          · rw [← heq] at ht
            exact List.eq_of_mem_replicate ht
        · rw [List.eq_of_mem_replicate ht]
          exact he
      · exact absurd h List.not_mem_nil
    · obtain ⟨tail', htail', rfl⟩ := List.mem_map.mp h
      exact (ih htail htail').cons hrow

theorem switch_row_changed (hboard : ∀ row ∈ board, RowIn n tiles row)
    (h : board' ∈ switch_row board) : Changed n tiles board board' := by
  induction board generalizing board' with
  | nil => exact absurd h List.not_mem_nil
  | cons row tail ih =>
    obtain ⟨hrow, htail⟩ := List.forall_mem_cons.mp hboard
    rw [switch_row, List.mem_append] at h
    rcases h with h | h
    · obtain ⟨tail', htail', rfl⟩ := List.mem_map.mp h
      exact (ih htail htail').cons hrow
    · obtain ⟨row', hrow', rfl⟩ := List.mem_map.mp h
      obtain ⟨hperm, hne⟩ := swap_row_tiles_spec hrow'
      exact .head hne ⟨hperm.length_eq.trans hrow.1, fun t ht => hrow.2 t (hperm.mem_iff.mp ht)⟩
        htail

theorem switch_column_changed (hboard : ∀ row ∈ board, RowIn n tiles row)
    (h : board' ∈ switch_column board) : Changed n tiles board board' := by
  induction board generalizing board' with
  | nil => exact absurd h List.not_mem_nil
  | cons row₁ tail ih =>
    obtain ⟨hrow₁, htail⟩ := List.forall_mem_cons.mp hboard
    cases tail with
    | nil => exact absurd h List.not_mem_nil
    | cons row₂ tail =>
      rw [switch_column, List.mem_append] at h
      rcases h with h | h
      · obtain ⟨tail', htail', rfl⟩ := List.mem_map.mp h
        exact (ih htail htail').cons hrow₁
      · obtain ⟨rows, hrows, rfl⟩ := List.mem_map.mp h
        obtain ⟨hrow₂, htail⟩ := List.forall_mem_cons.mp htail
        obtain ⟨hlen₁, hlen₂, hmem, hne⟩ := swap_columns_tiles_spec hrows
        have htiles : ∀ t, t ∈ rows.1 ∨ t ∈ rows.2 → t ∈ tiles := fun t ht =>
          (hmem t ht).elim (hrow₁.2 t) (hrow₂.2 t)
        exact ⟨fun heq => hne (List.cons_eq_cons.mp heq).1, rfl, List.forall_mem_cons.mpr
          ⟨⟨hlen₁.trans hrow₁.1, fun t ht => htiles t (.inl ht)⟩, List.forall_mem_cons.mpr
            ⟨⟨hlen₂.trans hrow₂.1, fun t ht => htiles t (.inr ht)⟩, htail⟩⟩⟩

/-- A move leads to another board of the same size, with no new tile. -/
theorem move_changed (hn : 0 < n) (he : .e ∈ tiles) (hboard : ∀ row ∈ board, RowIn n tiles row)
    {step : Move × Board F} (h : step ∈ move board) : Changed n tiles board step.2 := by
  rw [move, List.mem_append, List.mem_append, List.mem_map, List.mem_map, List.mem_map] at h
  rcases h with (⟨board', h, rfl⟩ | ⟨board', h, rfl⟩) | ⟨board', h, rfl⟩
  · exact remove_row_changed hn he hboard h
  · exact switch_column_changed hboard h
  · exact switch_row_changed hboard h

end DocMachine.Fruits
