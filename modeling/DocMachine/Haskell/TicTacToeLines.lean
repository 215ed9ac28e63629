import DocMachine.Haskell.TicTacToe

/-!
# Cells and lines of a board

The board of `haskelltictactoe_sk4520/TicTacToe.hs` as a square: what `tryMove` (107-121) and
`gameOver` (69-77) should do in terms of its cells, rows, columns and diagonals.

* `OnBoard` is a position of the square and `Board.cell` its cell. A comment (82-83) leaves the
  bounds to `tryMove`.
* `MoveCorrect` says that a move is accepted iff its position is an empty cell of the square, and
  then marks that cell and no other.
* `tryMove` checks the index of a position and not its coordinates, so that a position off the board
  is accepted if its index is the one of an empty cell.

Results:
* `moveCorrect_iff`: which moves `tryMove` treats as moves on the square, with the wrap-around of
  `Int`; `not_moveCorrect_column` is one that it does not.
* `diags_eq` and `transpose_map`: the lists that `gameOver` checks, as functions of a number below
  `n`.
* `gameOver_iff`: the game is over iff a player has a row, a column or a diagonal.
-/

namespace DocMachine.Haskell.TicTacToe

open DocMachine.Haskell.Crypto (int64 int64_of_nonneg)

/-! ## The square -/

/-- The coordinates are those of a cell. -/
def OnBoard (n : ℕ) (pos : Position) : Prop :=
  (0 ≤ pos.1 ∧ pos.1 < n) ∧ 0 ≤ pos.2 ∧ pos.2 < n

instance (n : ℕ) (pos : Position) : Decidable (OnBoard n pos) :=
  inferInstanceAs (Decidable (_ ∧ _))

/-- The number of a cell, without wrapping. -/
def flat (n : ℕ) (pos : Position) : ℤ := pos.1 * n + pos.2

/-- The cell at a position, if it is on the board. -/
def Board.cell (b : Board) (pos : Position) : Option Cell :=
  if OnBoard b.n pos then b.cells[(flat b.n pos).toNat]? else none

variable {b b' : Board} {p : Player} {pos pos' : Position} {n : ℕ}

theorem OnBoard.flat_nonneg (h : OnBoard n pos) : 0 ≤ flat n pos := by
  obtain ⟨⟨hi, -⟩, hj, -⟩ := h
  unfold flat
  positivity

theorem OnBoard.flat_lt (h : OnBoard n pos) : flat n pos < n ^ 2 := by
  obtain ⟨⟨-, hi⟩, -, hj⟩ := h
  unfold flat
  nlinarith

/-- A cell has one position. -/
theorem OnBoard.flat_inj (h : OnBoard n pos) (h' : OnBoard n pos')
    (heq : flat n pos = flat n pos') : pos = pos' := by
  obtain ⟨⟨hi, hin⟩, hj⟩ := h
  have hn : (0 : ℤ) < n := by omega
  have hdivmod : ∀ {q : Position}, OnBoard n q → flat n q / n = q.1 ∧ flat n q % n = q.2 := by
    intro q hq
    exact (Int.ediv_emod_unique hn).mpr ⟨by rw [flat, mul_comm, add_comm], hq.2⟩
  obtain ⟨hfst, hsnd⟩ := hdivmod ⟨⟨hi, hin⟩, hj⟩
  obtain ⟨hfst', hsnd'⟩ := hdivmod h'
  exact Prod.ext (by rw [← hfst, heq, hfst']) (by rw [← hsnd, heq, hsnd'])

theorem Board.cast_length_cells (b : Board) : ((b.cells.length : ℕ) : ℤ) = (b.n : ℤ) ^ 2 := by
  rw [b.size, Nat.cast_pow]

/-! ## Moves -/

/-- What a move is on the square. -/
structure MoveCorrect (p : Player) (pos : Position) (b : Board) : Prop where
  accepted : (tryMove p pos b).isSome ↔ OnBoard b.n pos ∧ b.cell pos = some .Empty
  marked : ∀ b', tryMove p pos b = some b' → b'.n = b.n ∧
    ∀ pos', b'.cell pos' = if pos' = pos then some (.Taken p) else b.cell pos'

/-- The index that is checked, reduced to an `Int`, is the one of an empty cell. -/
def Hits (b : Board) (pos : Position) (k : ℕ) : Prop :=
  int64 (flat b.n pos) = k ∧ b.playable[k]? = some .Empty

theorem checks_iff_hits (b : Board) (pos : Position) :
    (outOfBounds b.n (index b.n pos) = false ∧ isTaken b.cells (index b.n pos) = false) ↔
      ∃ k, Hits b pos k := by
  have hindex : index b.n pos = int64 (flat b.n pos) := Int.bmod_add_bmod
  rw [checks_iff, hindex]
  rfl

theorem isSome_tryMove_iff : (tryMove p pos b).isSome ↔ ∃ k, Hits b pos k := by
  rw [← checks_iff_hits]
  unfold tryMove
  cases hbounds : outOfBounds b.n (index b.n pos)
  · cases htaken : isTaken b.cells (index b.n pos) <;> simp [hbounds, htaken]
  · simp [hbounds]

theorem tryMove_eq_some_hits (h : tryMove p pos b = some b') :
    ∃ k, Hits b pos k ∧ b'.n = b.n ∧ b'.cells = b.cells.set k (.Taken p) := by
  obtain ⟨k, hk⟩ := isSome_tryMove_iff.mp (Option.isSome_of_eq_some h)
  obtain ⟨hbounds, htaken⟩ := (checks_iff_hits b pos).mpr ⟨k, hk⟩
  have hindex : index b.n pos = k := Int.bmod_add_bmod.trans hk.1
  rw [hindex] at hbounds htaken
  simp only [tryMove, hindex] at h
  rw [if_neg (Bool.not_eq_true _ ▸ hbounds), if_neg (Bool.not_eq_true _ ▸ htaken)] at h
  cases h
  exact ⟨k, hk, rfl, replace_natCast k _ _⟩

theorem cell_of_set {k : ℕ} (hn : b'.n = b.n) (hcells : b'.cells = b.cells.set k (.Taken p))
    (hpos : OnBoard b.n pos) (hk : flat b.n pos = k) (pos' : Position) :
    b'.cell pos' = if pos' = pos then some (.Taken p) else b.cell pos' := by
  have hlt := hpos.flat_lt
  have hsize := b.cast_length_cells
  unfold Board.cell
  rw [hn, hcells]
  by_cases hpos' : OnBoard b.n pos'
  · rw [if_pos hpos', if_pos hpos', List.getElem?_set]
    by_cases heq : pos' = pos
    · have hsame : k = (flat b.n pos').toNat := by
        rw [heq, hk, Int.toNat_natCast]
      rw [if_pos hsame, if_pos heq, if_pos (by omega)]
    · have hother : k ≠ (flat b.n pos').toNat := by
        have hnonneg := hpos'.flat_nonneg
        exact fun hk' => heq (hpos'.flat_inj hpos (by omega))
      rw [if_neg hother, if_neg heq]
  · have hother : pos' ≠ pos := fun heq => hpos' (heq ▸ hpos)
    rw [if_neg hpos', if_neg hpos', if_neg hother]

/-- Below the bound of the check an index is a cell of the square. -/
theorem cell_eq_playable {k : ℕ} (hpos : OnBoard b.n pos) (hk : flat b.n pos = k)
    (hlt : (k : ℤ) < int64 (b.n ^ 2)) : b.cell pos = b.playable[k]? := by
  rw [Board.cell, if_pos hpos, hk, Int.toNat_natCast, Board.playable,
    List.getElem?_take_of_lt (by omega)]

/-- **A move is right** on the board, if its index does not wrap, and off it iff it is refused. -/
theorem moveCorrect_iff (p : Player) (pos : Position) (b : Board) :
    MoveCorrect p pos b ↔ (OnBoard b.n pos ∧ flat b.n pos < int64 (b.n ^ 2)) ∨
      (¬ (OnBoard b.n pos ∧ b.cell pos = some .Empty) ∧ ¬ ∃ k, Hits b pos k) := by
  by_cases hin : OnBoard b.n pos ∧ flat b.n pos < int64 (b.n ^ 2)
  · refine ⟨fun _ => .inl hin, fun _ => ?_⟩
    obtain ⟨hpos, hlt⟩ := hin
    obtain ⟨k, hk⟩ := Int.eq_ofNat_of_zero_le hpos.flat_nonneg
    rw [hk] at hlt
    have hindex : int64 (flat b.n pos) = k := by
      have hmax := int64_lt (b.n ^ 2)
      rw [hk]
      exact int64_of_nonneg (Int.natCast_nonneg k) (Int.le_sub_one_of_lt hlt) (by omega)
    have hcell := cell_eq_playable hpos hk hlt
    refine ⟨?_, fun b' hb' => ?_⟩
    · rw [isSome_tryMove_iff, hcell]
      constructor
      · rintro ⟨k', hk', hempty⟩
        obtain rfl : k = k' := by omega
        exact ⟨hpos, hempty⟩
      · rintro ⟨-, hempty⟩
        exact ⟨k, hindex, hempty⟩
    · obtain ⟨k', ⟨hk', -⟩, hn, hcells⟩ := tryMove_eq_some_hits hb'
      obtain rfl : k = k' := by omega
      exact ⟨hn, cell_of_set hn hcells hpos hk⟩
  · rw [or_iff_right hin]
    by_cases hhits : ∃ k, Hits b pos k
    · -- another cell is marked
      refine iff_of_false (fun h => ?_) fun h => h.2 hhits
      have hsome : (tryMove p pos b).isSome := isSome_tryMove_iff.mpr hhits
      obtain ⟨b', hb'⟩ := Option.isSome_iff_exists.mp hsome
      obtain ⟨hpos, hempty⟩ := h.accepted.mp hsome
      obtain ⟨k, hk, hn, hcells⟩ := tryMove_eq_some_hits hb'
      have hmarked := (h.marked b' hb').2 pos
      have hbeyond : int64 (b.n ^ 2) ≤ flat b.n pos := not_lt.mp fun hlt => hin ⟨hpos, hlt⟩
      have hbelow := (List.getElem?_eq_some_iff.mp hk.2).1
      rw [length_playable] at hbelow
      have hother : k ≠ (flat b.n pos).toNat := by omega
      have hsame : b'.cell pos = b.cell pos := by
        rw [Board.cell, Board.cell, hn, hcells, List.getElem?_set_ne hother]
      rw [hsame, hempty, if_pos rfl] at hmarked
      cases hmarked
    · have hnone : (tryMove p pos b).isSome = false := by
        rw [← Bool.not_eq_true, isSome_tryMove_iff]
        exact hhits
      constructor
      · intro h
        exact ⟨fun hempty => by simpa [hnone] using h.accepted.mpr hempty, hhits⟩
      · rintro ⟨hfull, -⟩
        exact ⟨by simp [hnone, hfull], fun b' hb' => by simp [hb'] at hnone⟩

/-- Row 0 has no column 3 on a board of three columns, but the move is accepted and marks the first
cell of row 1. -/
theorem not_moveCorrect_column : ¬ MoveCorrect .X (0, 3) (makeBoard 3) := by
  intro h
  have hsome : (tryMove .X (0, 3) (makeBoard 3)).isSome := by decide +kernel
  exact absurd (h.accepted.mp hsome).1 (by decide)

/-! ## Lines -/

/-- The cells of a line, which is given by the numbers of its cells. -/
def line (cells : List Cell) (n : ℕ) (f : ℕ → ℕ) : List Cell :=
  (List.range n).map fun k => cells.getD (f k) .Empty

theorem check_iff (lines : List (List Cell)) :
    check lines = true ↔ ∃ l ∈ lines, ∃ p, ∀ c ∈ l, c = .Taken p := by
  induction lines with
  | nil => simp [check]
  | cons l lines ih =>
    simp only [check, Bool.or_eq_true, List.all_eq_true, beq_iff_eq, ih, List.mem_cons,
      exists_eq_or_imp]
    refine or_congr_left ⟨?_, ?_⟩
    · rintro (h | h)
      · exact ⟨.O, h⟩
      · exact ⟨.X, h⟩
    · rintro ⟨p, h⟩
      cases p with
      | O => exact .inl h
      | X => exact .inr h

theorem line_take {n : ℕ} {cs : List Cell} (h : n ≤ cs.length) :
    line cs n (fun j => j) = cs.take n := by
  apply List.ext_getElem
  · simp [line, h]
  · intro j hj _
    have hlt : j < cs.length := by
      simp only [line, List.length_map, List.length_range] at hj
      omega
    simp [line, hlt]

theorem line_drop (cs : List Cell) (d n : ℕ) (f : ℕ → ℕ) :
    line (cs.drop d) n f = line cs n fun k => d + f k := by
  simp [line, List.getD_eq_getElem?_getD, List.getElem?_drop]

theorem rows'_eq {n : ℕ} (hn : 0 < n) (m : ℕ) {calls : ℕ} {cs : List Cell}
    (hsize : cs.length = m * n) (hcalls : m ≤ calls) :
    rows' n calls cs = (List.range m).map fun i => line cs n fun j => i * n + j := by
  induction m generalizing calls cs with
  | zero =>
    have hnil : cs = [] := List.eq_nil_of_length_eq_zero (by omega)
    rw [hnil, rows']
    rfl
  | succ m ih =>
    obtain ⟨calls, rfl⟩ := Nat.exists_eq_succ_of_ne_zero (show calls ≠ 0 by omega)
    have hlength : cs.length = m * n + n := hsize.trans (Nat.succ_mul m n)
    obtain ⟨c, cs', rfl⟩ := List.exists_cons_of_length_pos (l := cs) (by omega)
    change (c :: cs').take n :: rows' n calls ((c :: cs').drop n) = _
    rw [ih (by rw [List.length_drop]; omega) (by omega), List.range_succ_eq_map, List.map_cons,
      List.map_map]
    congr 1
    · simp only [Nat.zero_mul, Nat.zero_add]
      exact (line_take (by omega)).symm
    · refine List.map_congr_left fun i _ => ?_
      rw [line_drop]
      congr 1
      funext j
      rw [Nat.succ_mul]
      omega

theorem onTop_map {α : Type} (is : List ℕ) (f : ℕ → α) (g : ℕ → List α) :
    onTop (is.map f) (is.map g) = is.map fun i => f i :: g i := by
  induction is with
  | nil => rfl
  | cons i is ih => rw [List.map_cons, List.map_cons, onTop, ih, List.map_cons]

theorem onTop_nil {α : Type} (xs : List α) : onTop xs [] = xs.map fun x => [x] := by
  induction xs with
  | nil => rfl
  | cons x xs ih => rw [onTop, ih, List.map_cons]

/-- The columns of a table that has a row. -/
theorem transpose_map {α : Type} (g : ℕ → ℕ → α) (js : List ℕ) {is : List ℕ} (h : is ≠ []) :
    transpose (is.map fun i => js.map (g i)) = js.map fun j => is.map fun i => g i j := by
  induction is with
  | nil => exact absurd rfl h
  | cons i is ih =>
    unfold transpose at ih ⊢
    rw [List.map_cons, List.foldr_cons]
    by_cases his : is = []
    · subst his
      rw [List.map_nil, List.foldr_nil, onTop_nil, List.map_map]
      rfl
    · rw [ih his, onTop_map]
      rfl

theorem rows_eq (b : Board) :
    rows b = (List.range b.n).map fun i => line b.cells b.n fun j => i * b.n + j := by
  unfold rows
  rcases Nat.eq_zero_or_pos b.n with hn | hn
  · have hnil : b.cells = [] := List.eq_nil_of_length_eq_zero (by rw [b.size, hn]; rfl)
    rw [hnil, hn]
    rfl
  · have hsize : b.cells.length = b.n * b.n := b.size.trans (pow_two b.n)
    exact rows'_eq hn b.n hsize (by rw [hsize]; exact Nat.le_mul_self b.n)

theorem cols_eq (b : Board) :
    cols b = (List.range b.n).map fun j => line b.cells b.n fun i => i * b.n + j := by
  unfold cols
  rw [rows_eq]
  rcases Nat.eq_zero_or_pos b.n with hn | hn
  · rw [hn]
    rfl
  · have hrows : List.range b.n ≠ [] := by simp [hn.ne']
    exact transpose_map (fun i j => b.cells.getD (i * b.n + j) .Empty) _ hrows

/-- The second diagonal goes from the last column to the first. -/
theorem diags_eq (b : Board) : diags b =
    [line b.cells b.n fun k => k * b.n + k, line b.cells b.n fun k => k * b.n + (b.n - 1 - k)] := by
  have hfirst : (List.range b.n).map (fun k => k * (b.n + 1)) =
      (List.range b.n).map fun k => k * b.n + k :=
    List.map_congr_left fun k _ => Nat.mul_succ k b.n
  have hsecond : (List.range' 1 b.n).map (fun k => k * (b.n - 1)) =
      (List.range b.n).map fun k => k * b.n + (b.n - 1 - k) := by
    rw [List.range'_eq_map_range, List.map_map]
    refine List.map_congr_left fun k hk => ?_
    obtain ⟨t, ht⟩ := Nat.exists_eq_add_of_lt (List.mem_range.mp hk)
    have hlast : b.n - 1 = k + t := by omega
    have hcolumn : b.n - 1 - k = t := by omega
    rw [Function.comp_apply, hcolumn, hlast, ht]
    ring
  simp only [diags, line, hfirst, hsecond, List.map_cons, List.map_nil, List.map_map,
    Function.comp_def]

theorem cell_natCast {i j : ℕ} (hi : i < b.n) (hj : j < b.n) :
    b.cell (i, j) = some (b.cells.getD (i * b.n + j) .Empty) := by
  have hon : OnBoard b.n (i, j) := by
    unfold OnBoard
    omega
  have hflat : flat b.n (i, j) = (i * b.n + j : ℕ) := by
    unfold flat
    push_cast
    rfl
  have hlt := hon.flat_lt
  have hsize := b.cast_length_cells
  rw [hflat] at hlt
  have hin : i * b.n + j < b.cells.length := by omega
  rw [Board.cell, if_pos hon, hflat, Int.toNat_natCast, List.getElem?_eq_getElem hin,
    List.getD_eq_getElem?_getD, List.getElem?_eq_getElem hin, Option.getD_some]

/-- One of the lines, each a function from the numbers below `n` to cells, belongs to a player. -/
theorem check_lines (b : Board) (fs : List (ℕ → ℕ × ℕ))
    (hf : ∀ f ∈ fs, ∀ k < b.n, (f k).1 < b.n ∧ (f k).2 < b.n) :
    check (fs.map fun f => line b.cells b.n fun k => (f k).1 * b.n + (f k).2) = true ↔
      ∃ p, ∃ f ∈ fs, ∀ k < b.n, b.cell ((f k).1, (f k).2) = some (.Taken p) := by
  have hline : ∀ f ∈ fs, ∀ p,
      (∀ c ∈ line b.cells b.n fun k => (f k).1 * b.n + (f k).2, c = .Taken p) ↔
        ∀ k < b.n, b.cell ((f k).1, (f k).2) = some (.Taken p) := by
    intro f hmem p
    simp only [line, List.forall_mem_map, List.mem_range]
    refine forall₂_congr fun k hk => ?_
    obtain ⟨hi, hj⟩ := hf f hmem k hk
    rw [cell_natCast hi hj, Option.some_inj]
  rw [check_iff]
  constructor
  · rintro ⟨l, hl, p, hp⟩
    obtain ⟨f, hmem, rfl⟩ := List.mem_map.mp hl
    exact ⟨p, f, hmem, (hline f hmem p).mp hp⟩
  · rintro ⟨p, f, hmem, hp⟩
    exact ⟨_, List.mem_map_of_mem hmem, p, (hline f hmem p).mpr hp⟩

/-- **The game is over** iff a player has a row, a column or a diagonal. -/
theorem gameOver_iff (b : Board) : gameOver b = true ↔ ∃ p,
    (∃ i < b.n, ∀ j < b.n, b.cell (i, j) = some (.Taken p)) ∨
      (∃ j < b.n, ∀ i < b.n, b.cell (i, j) = some (.Taken p)) ∨
      (∀ k < b.n, b.cell (k, k) = some (.Taken p)) ∨
      ∀ k < b.n, b.cell (k, b.n - 1 - k) = some (.Taken p) := by
  have hrow : check (rows b) = true ↔
      ∃ p, ∃ i < b.n, ∀ j < b.n, b.cell (i, j) = some (.Taken p) := by
    have h := check_lines b ((List.range b.n).map fun i j => (i, j)) (by simp +contextual)
    rw [List.map_map] at h
    rw [rows_eq]
    simpa [Function.comp_def] using h
  have hcol : check (cols b) = true ↔
      ∃ p, ∃ j < b.n, ∀ i < b.n, b.cell (i, j) = some (.Taken p) := by
    have h := check_lines b ((List.range b.n).map fun j i => (i, j)) (by simp +contextual)
    rw [List.map_map] at h
    rw [cols_eq]
    simpa [Function.comp_def] using h
  have hdiag : check (diags b) = true ↔ ∃ p, (∀ k < b.n, b.cell (k, k) = some (.Taken p)) ∨
      ∀ k < b.n, b.cell (k, b.n - 1 - k) = some (.Taken p) := by
    have h := check_lines b [fun k => (k, k), fun k => (k, b.n - 1 - k)] (by simp; omega)
    have hcast : ∀ p, (∀ k < b.n, b.cell (k, (b.n - 1 - k : ℕ)) = some (.Taken p)) ↔
        ∀ k < b.n, b.cell (k, b.n - 1 - k) = some (.Taken p) := by
      intro p
      refine forall₂_congr fun k hk => ?_
      have hcolumn : ((b.n - 1 - k : ℕ) : ℤ) = b.n - 1 - k := by omega
      rw [hcolumn]
    rw [diags_eq]
    simpa [hcast] using h
  simp only [gameOver, Bool.or_eq_true, hrow, hcol, hdiag, exists_or, or_assoc]

end DocMachine.Haskell.TicTacToe
