import DocMachine.Lib.Separation

/-!
# Values and memory of WISL

The language of `gillian-lab/sll.wisl` and `gillian-lab/dll.wisl`, as far as the two files use it:
the commands `[x + i]`, `[x + i] := v`, `new(n)` and `free(x)`, and the block assertion
`x -b> v, ..`.

* A heap maps locations to blocks of cells, and a pointer is a location and an offset. The files are
  annotated for a verifier; what it checks is not modelled, the functions and their specifications
  are.
* A program is one of the library on separation logic: a function of the heap with a bound on its
  recursion and its loops. It goes wrong at what is not a pointer, at a block that is not there and
  at a cell outside its block.
* `new` is given its location by an `Allocator`, any function that finds a free one.

Results:
* The rule of each command, as a triple: a cell is read and written in its block, `new` gives a
  block that was not there, `free` takes one away.
-/

namespace DocMachine.Wisl

open DocMachine.Lib DocMachine.Lib.Separation

variable {L V α : Type}

/-- `null`, pointers, and all other values. -/
inductive Val (L V : Type) where
  | null
  | ptr (l : L) (offset : ℕ)
  | data (v : V)
  deriving DecidableEq, Repr

/-- The cells of a block. -/
abbrev Block (L V : Type) := List (Val L V)

/-- A program over heaps of blocks. -/
abbrev Prog (L V α : Type) := Program L (Block L V) α

section

variable [DecidableEq L]

/-- `[x + i]`. -/
def load (x : Val L V) (i : ℕ) : Prog L V (Val L V) :=
  match x with
  | .ptr l offset => do
    let block ← Program.get l
    match block[offset + i]? with
    | some v => pure v
    | none => Program.wrong
  | _ => Program.wrong

/-- `[x + i] := v`. -/
def store (x : Val L V) (i : ℕ) (v : Val L V) : Prog L V Unit :=
  match x with
  | .ptr l offset => do
    let block ← Program.get l
    if offset + i < block.length then Program.set l (block.set (offset + i) v) else Program.wrong
  | _ => Program.wrong

/-- `new(n)`: the cells start as `null`. -/
def new (A : Allocator L (Block L V)) (n : ℕ) : Prog L V (Val L V) := do
  let l ← Program.alloc A (List.replicate n .null)
  pure (.ptr l 0)

/-- `free(x)`, of a whole block. -/
def free (x : Val L V) : Prog L V Unit :=
  match x with
  | .ptr l 0 => Program.dispose l
  | _ => Program.wrong

end

/-- `x -b> v, ..`: a block of just these cells. -/
def block (x : Val L V) (cells : Block L V) : Assertion L (Block L V) :=
  fun h => ∃ l, x = .ptr l 0 ∧ pointsTo l cells h

/-! ## Rules -/

section

variable [DecidableEq L] {n : ℕ} {R : Assertion L (Block L V)} {Q : α → Assertion L (Block L V)}
  {l : L} {cells : Block L V}

theorem triple_load {i : ℕ} {v : Val L V} (hv : cells[i]? = some v) :
    Triple n (pointsTo l cells) (fun _ => load (.ptr l 0) i)
      fun a h => a = v ∧ pointsTo l cells h := by
  refine (Triple.get l cells).bind fun b => Triple.and_pre fun hb => ?_
  subst hb
  rw [Nat.zero_add, hv]
  exact Triple.pure v fun h hl => ⟨rfl, hl⟩

theorem triple_store {i : ℕ} (hi : i < cells.length) (v : Val L V) :
    Triple n (pointsTo l cells) (fun _ => store (.ptr l 0) i v)
      fun _ => pointsTo l (cells.set i v) := by
  refine (Triple.get l cells).bind fun b => Triple.and_pre fun hb => ?_
  subst hb
  rw [Nat.zero_add, if_pos hi]
  exact Triple.set l b _

theorem triple_new (A : Allocator L (Block L V)) (k : ℕ) :
    Triple n emp (fun _ => new A k)
      fun x h => ∃ l, x = .ptr l 0 ∧ pointsTo l (List.replicate k .null) h :=
  (Triple.alloc A _).bind fun l => Triple.pure _ fun _ hl => ⟨l, rfl, hl⟩

theorem triple_free : Triple n (pointsTo l cells) (fun _ => free (.ptr l 0)) fun _ => emp :=
  Triple.dispose l cells

/-! The same in front of the rest of a program. -/

theorem load_bind {i : ℕ} {v : Val L V} {f : ℕ → Val L V → Prog L V α} (hv : cells[i]? = some v)
    (h : Triple n (sep (pointsTo l cells) R) (fun fuel => f fuel v) Q) :
    Triple n (sep (pointsTo l cells) R) (fun fuel => load (.ptr l 0) i >>= f fuel) Q := by
  refine (triple_load hv).bind_frame fun a => ?_
  rintro _ h₀ ⟨h₁, h₂, hd, rfl, ⟨rfl, hl⟩, hR⟩ hd₀
  exact h _ h₀ ⟨h₁, h₂, hd, rfl, hl, hR⟩ hd₀

theorem store_bind {i : ℕ} {v : Val L V} {f : ℕ → Unit → Prog L V α} (hi : i < cells.length)
    (h : Triple n (sep (pointsTo l (cells.set i v)) R) (fun fuel => f fuel ()) Q) :
    Triple n (sep (pointsTo l cells) R) (fun fuel => store (.ptr l 0) i v >>= f fuel) Q :=
  (triple_store hi v).bind_frame fun _ => h

theorem new_bind {A : Allocator L (Block L V)} {k : ℕ} {f : ℕ → Val L V → Prog L V α}
    (h : ∀ l, Triple n (sep (pointsTo l (List.replicate k .null)) R)
      (fun fuel => f fuel (.ptr l 0)) Q) :
    Triple n R (fun fuel => new A k >>= f fuel) Q := by
  rw [← emp_sep R]
  refine (triple_new A k).bind_frame fun x => ?_
  rintro _ h₀ ⟨h₁, h₂, hd, rfl, ⟨l, rfl, hl⟩, hR⟩ hd₀
  exact h l _ h₀ ⟨h₁, h₂, hd, rfl, hl, hR⟩ hd₀

theorem free_bind {f : ℕ → Unit → Prog L V α} (h : Triple n R (fun fuel => f fuel ()) Q) :
    Triple n (sep (pointsTo l cells) R) (fun fuel => free (.ptr l 0) >>= f fuel) Q := by
  refine triple_free.bind_frame fun _ => ?_
  rw [emp_sep]
  exact h

end

end DocMachine.Wisl
