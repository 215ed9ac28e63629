import DocMachine.Haskell.Crypto
import DocMachine.Lib.Run

/-!
# Noughts and crosses

Model of `haskelltictactoe_sk4520/TicTacToe.hs` (`replace` 35-40, `rows` 44-54, `cols` 56-59,
`diags` 61-67, `gameOver` 69-77, `tryMove` 107-121, `takeTurn` 159-180, `playGame` 183-198).

* A board is the list of its cells, `n * n` of them, which is in its type. Positions are pairs of
  any two numbers, and the arithmetic that checks a position wraps as `Int` does.
* Input lines come as `parsePosition` (89-102) reads them; `none` is a player who is still being
  asked when the input ends.
* `tryMove` turns a position into an index, and checks the index only: that it is in bounds, and
  that the cell is not taken.
* The game ends with a line of one player and in no other way. On a full board without a line a
  player is asked for a position for ever.

Results:
* `tryMove_eq_some`: an accepted move marks one empty cell.
* `free_of_tryMove`: each accepted move uses up one position.
* `run_of_playGame`: a game that ends was played by alternating accepted moves up to a board that is
  over, and the player of the last one won.
* `progress_iff`: a game that is not over has a position left to play iff fewer moves were made than
  there are cells.
* `playGame_full` and `drawn_stuck`: the full board.
-/

namespace DocMachine.Haskell.TicTacToe

open DocMachine.Lib.Run
open DocMachine.Haskell.Crypto (int64 int64_eq)

/-! ## TicTacToe.hs -/

/-- `Player`. -/
inductive Player where
  | O
  | X
  deriving DecidableEq, Repr

/-- `Cell`. -/
inductive Cell where
  | Empty
  | Taken (p : Player)
  deriving DecidableEq, Repr

/-- The cells of all rows, one row after the other. -/
structure Board where
  cells : List Cell
  n : ℕ
  size : cells.length = n ^ 2
  deriving DecidableEq, Repr

/-- `Position`. -/
abbrev Position := ℤ × ℤ

/-- `replace`: nothing is replaced at an index outside the list. -/
def replace {α : Type} : ℤ → α → List α → List α
  | _, _, [] => []
  | i, p, c :: cs => if i = 0 then p :: cs else c :: replace (i - 1) p cs

/-- A row takes at least one cell, so there are no more calls than cells. -/
def rows' (n : ℕ) : ℕ → List Cell → List (List Cell)
  | _, [] => []
  | 0, _ => []
  | calls + 1, cs => cs.take n :: rows' n calls (cs.drop n)

/-- `rows`. -/
def rows (b : Board) : List (List Cell) :=
  rows' b.n b.cells.length b.cells

/-- One more row on top of a list of columns; a row may be longer or shorter than the others. -/
def onTop {α : Type} : List α → List (List α) → List (List α)
  | [], columns => columns
  | x :: xs, [] => [x] :: onTop xs []
  | x :: xs, column :: columns => (x :: column) :: onTop xs columns

/-- `transpose` of `Data.List`. -/
def transpose {α : Type} (xss : List (List α)) : List (List α) :=
  xss.foldr onTop []

/-- `cols`. -/
def cols (b : Board) : List (List Cell) :=
  transpose (rows b)

/-- Every index is one of the board. -/
def diags (b : Board) : List (List Cell) :=
  [(List.range b.n).map fun k => k * (b.n + 1), (List.range' 1 b.n).map fun k => k * (b.n - 1)].map
    fun line => line.map fun k => b.cells.getD k .Empty

/-- The local `check` of `gameOver`: some line belongs to one player. -/
def check : List (List Cell) → Bool
  | [] => false
  | x :: xs => x.all (· == .Taken .O) || x.all (· == .Taken .X) || check xs

/-- `gameOver`. -/
def gameOver (b : Board) : Bool :=
  check (rows b) || check (cols b) || check (diags b)

theorem length_replace {α : Type} (i : ℤ) (p : α) (cs : List α) :
    (replace i p cs).length = cs.length := by
  induction cs generalizing i with
  | nil => rfl
  | cons c cs ih =>
    by_cases hi : i = 0
    · simp [replace, hi]
    · simp [replace, hi, ih]

/-- The index that `tryMove` computes, with the wrap-around of `Int`. -/
def index (n : ℕ) (pos : Position) : ℤ :=
  int64 (int64 (pos.1 * n) + pos.2)

/-- The check of the index. -/
def outOfBounds (n : ℕ) (x : ℤ) : Bool :=
  x ≥ int64 (n ^ 2) || x < 0

/-- The check of the cell. -/
def isTaken (cells : List Cell) (x : ℤ) : Bool :=
  cells.getD x.toNat .Empty == .Taken .O || cells.getD x.toNat .Empty == .Taken .X

/-- `tryMove`. -/
def tryMove (p : Player) (pos : Position) (b : Board) : Option Board :=
  let x := index b.n pos
  if outOfBounds b.n x then none
  else if isTaken b.cells x then none
  else some
    { b with
      cells := replace x (.Taken p) b.cells
      size := (length_replace x (.Taken p) b.cells).trans b.size }

/-- Lines that are no position, and positions that are refused, are asked for again. -/
def takeTurn (b : Board) (p : Player) :
    List (Option Position) → Option (Board × List (Option Position))
  | [] => none
  | line :: lines =>
    match line.bind (tryMove p · b) with
    | some b' => some (b', lines)
    | none => takeTurn b p lines

theorem length_of_takeTurn {b b' : Board} {p : Player} {lines rest : List (Option Position)}
    (h : takeTurn b p lines = some (b', rest)) : rest.length < lines.length := by
  induction lines with
  | nil => cases h
  | cons line lines ih =>
    unfold takeTurn at h
    split at h
    · cases h
      simp
    · have hrest := ih h
      simp only [List.length_cons]
      omega

/-- The player whose turn is next. -/
def Player.other : Player → Player
  | X => O
  | O => X

/-- The player who won. -/
def playGame (b : Board) (p : Player) (lines : List (Option Position)) : Option Player :=
  match _h : takeTurn b p lines with
  | none => none
  | some (b', rest) => if gameOver b' then some p else playGame b' p.other rest
termination_by lines.length
decreasing_by exact length_of_takeTurn ‹_›

/-- The board `main` starts from; `n ^ 2` wraps for no board that fits a memory. -/
def makeBoard (n : ℕ) : Board where
  cells := List.replicate (n ^ 2) .Empty
  n := n
  size := List.length_replicate

/-- One turn of `playGame`, when its loop goes on. -/
def play (s : Board × Player) (pos : Position) : Option (Board × Player) :=
  (tryMove s.2 pos s.1).map fun b' => (b', s.2.other)

/-! ## Accepted positions -/

/-- The cells the check of bounds lets through: all of them, unless `n ^ 2` wraps. -/
def Board.playable (b : Board) : List Cell :=
  b.cells.take (int64 (b.n ^ 2)).toNat

/-- How many positions are left to play. -/
def Board.free (b : Board) : ℕ :=
  b.playable.count .Empty

variable {b b' : Board} {p : Player} {pos : Position}

theorem replace_natCast {α : Type} (k : ℕ) (a : α) (cs : List α) :
    replace (k : ℤ) a cs = cs.set k a := by
  induction cs generalizing k with
  | nil => rfl
  | cons c cs ih =>
    cases k with
    | zero => simp [replace]
    | succ k =>
      have hpred : ((k + 1 : ℕ) : ℤ) - 1 = k := by omega
      have hne : ((k + 1 : ℕ) : ℤ) ≠ 0 := by omega
      rw [replace, if_neg hne, hpred, ih, List.set_cons_succ]

theorem isTaken_eq_false (cells : List Cell) (x : ℤ) :
    isTaken cells x = false ↔ cells.getD x.toNat .Empty = .Empty := by
  unfold isTaken
  generalize cells.getD x.toNat .Empty = cell
  match cell with
  | .Empty => simp
  | .Taken .O => simp
  | .Taken .X => simp

/-- Wrapping makes no number that is not negative larger. -/
theorem int64_le {z : ℤ} (hz : 0 ≤ z) : int64 z ≤ z := by
  unfold int64 Int.bmod
  push_cast
  split <;> omega

theorem int64_lt (z : ℤ) : int64 z < 2 ^ 63 := by
  have hlt := Int.bmod_lt (x := z) (m := 2 ^ 64) (by norm_num)
  unfold int64
  omega

theorem length_playable (b : Board) : b.playable.length = (int64 (b.n ^ 2)).toNat := by
  have hle : int64 ((b.n : ℤ) ^ 2) ≤ (b.n : ℤ) ^ 2 := int64_le (by positivity)
  have hsize : ((b.cells.length : ℕ) : ℤ) = (b.n : ℤ) ^ 2 := by
    rw [b.size]
    push_cast
    rfl
  unfold Board.playable
  rw [List.length_take]
  omega

/-- The two checks of a position let the empty cells through that are in bounds. -/
theorem checks_iff (b : Board) (x : ℤ) :
    (outOfBounds b.n x = false ∧ isTaken b.cells x = false) ↔
      ∃ k : ℕ, x = k ∧ b.playable[k]? = some .Empty := by
  have hbounds : outOfBounds b.n x = false ↔ 0 ≤ x ∧ x.toNat < (int64 (b.n ^ 2)).toNat := by
    simp only [outOfBounds, Bool.or_eq_false_iff, decide_eq_false_iff_not]
    omega
  have hlength := length_playable b
  rw [hbounds, isTaken_eq_false]
  constructor
  · rintro ⟨⟨hx, hlt⟩, hcell⟩
    refine ⟨x.toNat, (Int.toNat_of_nonneg hx).symm, ?_⟩
    have hle : b.playable.length ≤ b.cells.length := List.length_take_le' _ _
    have hin : x.toNat < b.cells.length := by omega
    rw [List.getD_eq_getElem?_getD, List.getElem?_eq_getElem hin, Option.getD_some] at hcell
    rw [Board.playable, List.getElem?_take_of_lt hlt, List.getElem?_eq_getElem hin, hcell]
  · rintro ⟨k, rfl, hk⟩
    obtain ⟨hlt, -⟩ := List.getElem?_eq_some_iff.mp hk
    rw [hlength] at hlt
    rw [Board.playable, List.getElem?_take_of_lt hlt] at hk
    rw [Int.toNat_natCast, List.getD_eq_getElem?_getD, hk]
    exact ⟨⟨Int.natCast_nonneg k, hlt⟩, rfl⟩

/-- **An accepted move** marks one empty cell. -/
theorem tryMove_eq_some (h : tryMove p pos b = some b') :
    ∃ k, b.playable[k]? = some .Empty ∧ b'.n = b.n ∧ b'.cells = b.cells.set k (.Taken p) := by
  unfold tryMove at h
  simp only at h
  split at h
  · cases h
  · rename_i hbounds
    split at h
    · cases h
    · rename_i htaken
      cases h
      obtain ⟨k, hindex, hk⟩ :=
        (checks_iff b (index b.n pos)).mp ⟨by simpa using hbounds, by simpa using htaken⟩
      refine ⟨k, hk, rfl, ?_⟩
      simp only [hindex, replace_natCast]

/-- Row 0 reaches every cell, with the number of the cell as the column. -/
theorem index_row_zero {k : ℕ} (hk : k < b.playable.length) : index b.n (0, k) = k := by
  rw [length_playable] at hk
  have hfits := int64_lt ((b.n : ℤ) ^ 2)
  have hzero : int64 0 = 0 := int64_eq (by simp)
  rw [index, zero_mul, hzero, zero_add]
  exact int64_eq (by rw [abs_of_nonneg (by omega)]; omega)

theorem exists_tryMove_iff (b : Board) (p : Player) :
    (∃ pos, (tryMove p pos b).isSome) ↔ .Empty ∈ b.playable := by
  constructor
  · rintro ⟨pos, hpos⟩
    obtain ⟨b', hb'⟩ := Option.isSome_iff_exists.mp hpos
    obtain ⟨k, hk, -⟩ := tryMove_eq_some hb'
    exact List.mem_of_getElem? hk
  · intro hempty
    obtain ⟨k, hk⟩ := List.mem_iff_getElem?.mp hempty
    obtain ⟨hlt, -⟩ := List.getElem?_eq_some_iff.mp hk
    obtain ⟨hbounds, htaken⟩ := (checks_iff b k).mpr ⟨k, rfl, hk⟩
    refine ⟨(0, k), ?_⟩
    simp [tryMove, index_row_zero hlt, hbounds, htaken]

/-- **Each accepted move uses up one position.** -/
theorem free_of_tryMove (h : tryMove p pos b = some b') : b'.free + 1 = b.free := by
  obtain ⟨k, hk, hn, hcells⟩ := tryMove_eq_some h
  obtain ⟨hlt, hcell⟩ := List.getElem?_eq_some_iff.mp hk
  have hplayable : b'.playable = b.playable.set k (.Taken p) := by
    rw [Board.playable, hn, hcells, List.take_set, Board.playable]
  have hpos : 0 < b.playable.count .Empty := List.count_pos_iff.mpr (List.mem_of_getElem? hk)
  rw [Board.free, Board.free, hplayable, List.count_set hlt, hcell]
  have hmark : (Cell.Taken p == Cell.Empty) = false := rfl
  rw [hmark, beq_self_eq_true, if_pos rfl, if_neg Bool.false_ne_true]
  omega

/-! ## Turns and games -/

/-- A turn that ends made an accepted move. -/
theorem tryMove_of_takeTurn {lines rest : List (Option Position)}
    (h : takeTurn b p lines = some (b', rest)) : ∃ pos, tryMove p pos b = some b' := by
  induction lines with
  | nil => cases h
  | cons line lines ih =>
    unfold takeTurn at h
    split at h
    · rename_i hline
      cases h
      obtain ⟨pos, -, hpos⟩ := Option.bind_eq_some_iff.mp hline
      exact ⟨pos, hpos⟩
    · exact ih h

theorem playGame_eq (b : Board) (p : Player) (lines : List (Option Position)) :
    playGame b p lines = (takeTurn b p lines).bind fun r =>
      if gameOver r.1 then some p else playGame r.1 p.other r.2 := by
  rw [playGame]
  split
  · rename_i hturn
    rw [hturn, Option.bind_none]
  · rename_i b' rest hturn
    rw [hturn, Option.bind_some]

/-- **A game that ends** was played by alternating accepted moves up to a board that is over, and
the player of the last one won. -/
theorem run_of_playGame {lines : List (Option Position)} {q : Player}
    (h : playGame b p lines = some q) :
    ∃ positions b', run play (b, p) positions = some (b', q.other) ∧ gameOver b' = true := by
  induction b, p, lines using playGame.induct with
  | case1 b p lines hturn =>
    rw [playGame_eq, hturn] at h
    cases h
  | case2 b p lines b' rest hturn hover =>
    obtain ⟨pos, hpos⟩ := tryMove_of_takeTurn hturn
    rw [playGame_eq, hturn, Option.bind_some, if_pos hover] at h
    cases h
    exact ⟨[pos], b', by simp [run, play, hpos], hover⟩
  | case3 b p lines b' rest hturn hover ih =>
    obtain ⟨pos, hpos⟩ := tryMove_of_takeTurn hturn
    rw [playGame_eq, hturn, Option.bind_some, if_neg hover] at h
    obtain ⟨positions, b'', hrun, hend⟩ := ih h
    exact ⟨pos :: positions, b'', by simp [run, play, hpos, hrun], hend⟩

/-- **On a full board** the player is asked for ever. -/
theorem playGame_full (hfull : .Empty ∉ b.playable) (lines : List (Option Position)) :
    playGame b p lines = none := by
  have hturn : takeTurn b p lines = none := by
    by_contra hne
    obtain ⟨⟨b', rest⟩, hb'⟩ := Option.ne_none_iff_exists'.mp hne
    obtain ⟨pos, hpos⟩ := tryMove_of_takeTurn hb'
    exact hfull ((exists_tryMove_iff b p).mp ⟨pos, Option.isSome_iff_exists.mpr ⟨b', hpos⟩⟩)
  rw [playGame_eq, hturn, Option.bind_none]

theorem free_makeBoard (n : ℕ) : (makeBoard n).free = (int64 (n ^ 2)).toNat := by
  have hlength := length_playable (makeBoard n)
  have hempty : ∀ c ∈ (makeBoard n).playable, .Empty = c := fun c hc =>
    (List.eq_of_mem_replicate (List.mem_of_mem_take hc)).symm
  rw [Board.free, List.count_eq_length.mpr hempty, hlength]
  rfl

/-- **When the game can go on.** After alternating accepted moves from the empty board, a game that
is not over has a position left to play iff there were fewer moves than there are cells. -/
theorem progress_iff {n : ℕ} {positions : List Position}
    (h : run play (makeBoard n, .X) positions = some (b, p)) :
    (gameOver b = false → ∃ pos, (tryMove p pos b).isSome) ↔
      (gameOver b = true ∨ (positions.length : ℤ) < int64 (n ^ 2)) := by
  have hstep : ∀ s pos t, play s pos = some t → t.1.free + 1 = s.1.free := by
    intro s pos t ht
    obtain ⟨b', hb', rfl⟩ := Option.map_eq_some_iff.mp ht
    exact free_of_tryMove hb'
  have hcount : b.free + positions.length = (int64 (n ^ 2)).toNat := by
    rw [← free_makeBoard]
    exact run_measure (μ := fun s => s.1.free) hstep h
  have hleft : (∃ pos, (tryMove p pos b).isSome) ↔ (positions.length : ℤ) < int64 (n ^ 2) := by
    rw [exists_tryMove_iff, ← List.count_pos_iff, ← Board.free]
    omega
  rw [hleft]
  cases gameOver b <;> simp

/-- The first move, in the middle of a board of three rows. -/
theorem progress_iff_middle : ∃ b, run play (makeBoard 3, .X) [(1, 1)] = some (b, .O) ∧
    ((gameOver b = false → ∃ pos, (tryMove .O pos b).isSome) ↔
      (gameOver b = true ∨ (([(1, 1)] : List Position).length : ℤ) < int64 ((3 : ℕ) ^ 2))) := by
  have hrun : run play (makeBoard 3, .X) [(1, 1)] = some
      (⟨[.Empty, .Empty, .Empty, .Empty, .Taken .X, .Empty, .Empty, .Empty, .Empty], 3, rfl⟩,
        .O) := by
    decide +kernel
  exact ⟨_, hrun, progress_iff hrun⟩

/-- A full board of three rows without a line. -/
def drawn : Board where
  cells :=
    [.Taken .X, .Taken .O, .Taken .X,
      .Taken .X, .Taken .O, .Taken .O,
      .Taken .O, .Taken .X, .Taken .X]
  n := 3
  size := rfl

/-- Nine moves lead to `drawn`: the game is not over, no position is accepted and no input ends
the game. -/
theorem drawn_stuck :
    run play (makeBoard 3, .X)
      [(0, 0), (0, 1), (0, 2), (1, 1), (1, 0), (1, 2), (2, 1), (2, 0), (2, 2)] =
        some (drawn, .O) ∧
    gameOver drawn = false ∧ (¬ ∃ pos, (tryMove .O pos drawn).isSome) ∧
    ∀ lines, playGame drawn .O lines = none := by
  have hfull : .Empty ∉ drawn.playable := fun hempty =>
    absurd (List.mem_of_mem_take hempty) (by decide)
  refine ⟨by decide +kernel, by decide, ?_, playGame_full hfull⟩
  rw [exists_tryMove_iff]
  exact hfull

end DocMachine.Haskell.TicTacToe
