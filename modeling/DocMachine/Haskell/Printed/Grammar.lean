import DocMachine.Haskell.Printed.Tokens
import DocMachine.Lib.Pieces

/-!
# The grammar of printed expressions

What the texts of `showExp` (`haskellcalculus_sk4520/Calculus.hs` 122-169) mean to a reader, as a
grammar over the tokens of `Tokens.lean`.

* `Reads` gives tokens their value. A chain of operands is multiplied and divided from the left; a
  sum or a difference stands in brackets, and so does an operator with its operand, unless the
  operand is a product in brackets of its own.
* The grammar is not read off the clauses of `showExp`: it covers more texts, and every text that is
  printed for an expression with plain denominators is one of them (`ShowExp.lean`).
* That the value is determined is shown by a reader, `readChain`, which cuts the tokens where
  brackets are closed.

Results:
* `Reads.solid` and `Reads.solid_sum`: outside its brackets an operand has no infix operator and a
  chain no sum, so that the cuts are the right ones.
* `Reads.read`: the reader finds the value.
* `Reads.unique`: tokens have one value, and with `Reads.eq_of_render_eq` so does a text.
-/

namespace DocMachine.Haskell.Calculus.Printed

open DocMachine.Lib.Pieces

/-! ## The grammar -/

/-- The two kinds of texts: one operand, or a chain of them with `*` and `/`. -/
inductive Kind where
  | operand
  | chain

section

variable {K : Type} [Field K] [Floating K]

/-- The value of an operator applied to a value. -/
def apply : UnOp → K → K
  | .neg, v => -v
  | .sin, v => Floating.sin v
  | .cos, v => Floating.cos v
  | .log, v => Floating.log v

variable (value : List Char → K) (ρ : Char → K)

/-- The tokens have the value, as an operand or as a chain. -/
inductive Reads : Kind → List Token → K → Prop
  | num {text : List Char} (h : IsUnsigned text) : Reads .operand [.num text] (value text)
  | negative {text : List Char} (h : IsUnsigned text) :
    Reads .operand [.op .neg, .num text] (value ('-' :: text))
  | var {c : Char} (h : isLetter c) : Reads .operand [.var c] (ρ c)
  | pair {c d : Char} (h : isLetter c ∧ isLetter d) : Reads .operand [.pair c d] (ρ c * ρ d)
  | square {c : Char} (h : isLetter c) : Reads .operand [.square c] (ρ c * ρ c)
  | argument {ts : List Token} {v : K} (op : UnOp) (h : Reads .chain ts v) :
    Reads .operand (.op op :: (.opening :: ts ++ [.closing])) (apply op v)
  | applied {ts : List Token} {v : K} (op : UnOp) (h : Reads .chain ts v) :
    Reads .operand (.opening :: (.op op :: ts) ++ [.closing]) (apply op v)
  | appliedVar {c : Char} (op : UnOp) (h : isLetter c) :
    Reads .operand (.opening :: (.op op :: (.opening :: [.var c] ++ [.closing])) ++ [.closing])
      (apply op (ρ c))
  | sum {ts us : List Token} {v w : K} (h : Reads .chain ts v) (h' : Reads .chain us w) :
    Reads .operand (.opening :: (ts ++ .plus :: us) ++ [.closing]) (v + w)
  | difference {ts us : List Token} {v w : K} (h : Reads .chain ts v) (h' : Reads .chain us w) :
    Reads .operand (.opening :: (ts ++ .minus :: us) ++ [.closing]) (v - w)
  | single {ts : List Token} {v : K} (h : Reads .operand ts v) : Reads .chain ts v
  | times {ts us : List Token} {v w : K} (h : Reads .chain ts v) (h' : Reads .operand us w) :
    Reads .chain (ts ++ .times :: us) (v * w)
  | divide {ts us : List Token} {v w : K} (h : Reads .chain ts v) (h' : Reads .operand us w) :
    Reads .chain (ts ++ .divide :: us) (v / w)

variable {value ρ} {k : Kind} {ts us : List Token} {v w : K}

/-- Chains may be multiplied: a product is associative and a quotient is one with an inverse. -/
theorem Reads.mul (h : Reads value ρ .chain ts v) (h' : Reads value ρ .chain us w) :
    Reads value ρ .chain (ts ++ .times :: us) (v * w) := by
  generalize hk : Kind.chain = k at h'
  induction h' with
  | single h' _ => exact h.times h'
  | times _ h' ih _ =>
    rw [← mul_assoc, ← List.cons_append, ← List.append_assoc]
    exact (ih hk).times h'
  | divide _ h' ih _ =>
    rw [← mul_div_assoc, ← List.cons_append, ← List.append_assoc]
    exact (ih hk).divide h'
  | _ => cases hk

theorem Reads.spaced (h : Reads value ρ k ts v) (us : List Token) (hus : Spaced true us) :
    Spaced false (ts ++ us) := by
  have hclosing {us : List Token} (hus : Spaced true us) : Spaced true (.closing :: us) :=
    ⟨rfl, trivial, hus⟩
  induction h generalizing us with
  | num h => exact ⟨rfl, h, hus⟩
  | negative h => exact ⟨rfl, trivial, rfl, h, hus⟩
  | var h => exact ⟨rfl, h, hus⟩
  | pair h => exact ⟨rfl, h, hus⟩
  | square h => exact ⟨rfl, h, hus⟩
  | @argument ts v op h ih =>
    have hinner : Spaced false ((ts ++ [.closing]) ++ us) := by
      rw [List.append_assoc]
      exact ih _ (hclosing hus)
    exact ⟨rfl, trivial, rfl, trivial, hinner⟩
  | @applied ts v op h ih =>
    have hinner : Spaced false ((ts ++ [.closing]) ++ us) := by
      rw [List.append_assoc]
      exact ih _ (hclosing hus)
    exact ⟨rfl, trivial, rfl, trivial, hinner⟩
  | appliedVar op h =>
    exact ⟨rfl, trivial, rfl, trivial, rfl, trivial, rfl, h, hclosing (hclosing hus)⟩
  | @sum ts ts' v w h h' ih ih' =>
    have hinner : Spaced false (((ts ++ .plus :: ts') ++ [.closing]) ++ us) := by
      rw [List.append_assoc, List.append_assoc]
      exact ih (.plus :: _) ⟨rfl, trivial, ih' _ (hclosing hus)⟩
    exact ⟨rfl, trivial, hinner⟩
  | @difference ts ts' v w h h' ih ih' =>
    have hinner : Spaced false (((ts ++ .minus :: ts') ++ [.closing]) ++ us) := by
      rw [List.append_assoc, List.append_assoc]
      exact ih (.minus :: _) ⟨rfl, trivial, ih' _ (hclosing hus)⟩
    exact ⟨rfl, trivial, hinner⟩
  | single h ih => exact ih us hus
  | times h h' ih ih' =>
    rw [List.append_assoc]
    exact ih (.times :: _) ⟨rfl, trivial, ih' us hus⟩
  | divide h h' ih ih' =>
    rw [List.append_assoc]
    exact ih (.divide :: _) ⟨rfl, trivial, ih' us hus⟩

/-! ## Brackets -/

theorem inside_var (c : Char) :
    Inside .opening .closing (Token.opening :: [.var c] ++ [.closing]) :=
  Inside.brackets nofun (Inside.singleton nofun nofun)

theorem Reads.inside (h : Reads value ρ k ts v) : Inside .opening .closing ts := by
  induction h with
  | num h => exact Inside.singleton nofun nofun
  | negative h => exact Inside.cons nofun nofun (Inside.singleton nofun nofun)
  | var h => exact Inside.singleton nofun nofun
  | pair h => exact Inside.singleton nofun nofun
  | square h => exact Inside.singleton nofun nofun
  | argument op h ih => exact Inside.cons nofun nofun (Inside.brackets nofun ih)
  | applied op h ih => exact Inside.brackets nofun (Inside.cons nofun nofun ih)
  | appliedVar op h => exact Inside.brackets nofun (Inside.cons nofun nofun (inside_var _))
  | sum h h' ih ih' => exact Inside.brackets nofun (ih.append (Inside.cons nofun nofun ih'))
  | difference h h' ih ih' => exact Inside.brackets nofun (ih.append (Inside.cons nofun nofun ih'))
  | single h ih => exact ih
  | times h h' ih ih' => exact ih.append (Inside.cons nofun nofun ih')
  | divide h h' ih ih' => exact ih.append (Inside.cons nofun nofun ih')

/-- An operand has no infix operator outside its brackets. -/
theorem Reads.solid (h : Reads value ρ .operand ts v) {p : Token → Bool}
    (hp : ∀ t, t.isInfix = false → p t = false) : Solid .opening .closing p ts := by
  have hinside := h.inside
  cases h with
  | num h => exact Solid.singleton nofun nofun (hp _ rfl)
  | negative h => exact Solid.cons nofun nofun (hp _ rfl) (Solid.singleton nofun nofun (hp _ rfl))
  | var h => exact Solid.singleton nofun nofun (hp _ rfl)
  | pair h => exact Solid.singleton nofun nofun (hp _ rfl)
  | square h => exact Solid.singleton nofun nofun (hp _ rfl)
  | argument op h =>
    exact Solid.cons nofun nofun (hp _ rfl) (Solid.brackets nofun h.inside (hp _ rfl))
  | applied op h => exact Solid.brackets nofun (Inside.cons nofun nofun h.inside) (hp _ rfl)
  | appliedVar op h =>
    exact Solid.brackets nofun (Inside.cons nofun nofun (inside_var _)) (hp _ rfl)
  | sum h h' =>
    exact Solid.brackets nofun (h.inside.append (Inside.cons nofun nofun h'.inside)) (hp _ rfl)
  | difference h h' =>
    exact Solid.brackets nofun (h.inside.append (Inside.cons nofun nofun h'.inside)) (hp _ rfl)

theorem Reads.solid_factor (h : Reads value ρ .operand ts v) :
    Solid .opening .closing Token.isFactor ts :=
  h.solid fun _ ht => (Bool.or_eq_false_iff.mp ht).2

/-- A chain has no sum outside its brackets. -/
theorem Reads.solid_sum (h : Reads value ρ .chain ts v) :
    Solid .opening .closing Token.isSum ts := by
  have hoperand {us : List Token} {w : K} (h : Reads value ρ .operand us w) :
      Solid .opening .closing Token.isSum us := h.solid fun _ ht => (Bool.or_eq_false_iff.mp ht).1
  generalize hk : Kind.chain = k at h
  induction h with
  | single h _ => exact hoperand h
  | times _ h' ih _ => exact (ih hk).append (Solid.cons nofun nofun rfl (hoperand h'))
  | divide _ h' ih _ => exact (ih hk).append (Solid.cons nofun nofun rfl (hoperand h'))
  | _ => cases hk

theorem Reads.level (h : Reads value ρ .chain ts v) :
    Level .opening .closing Token.isFactor ts := by
  generalize hk : Kind.chain = k at h
  induction h with
  | single h _ => exact h.solid_factor.level
  | times _ h' ih _ => exact (ih hk).append_cons rfl h'.solid_factor.level
  | divide _ h' ih _ => exact (ih hk).append_cons rfl h'.solid_factor.level
  | _ => cases hk

/-! ## Reading tokens -/

variable (value ρ) in
/-- What is inside the brackets of an operand. -/
def readGroup (read : List Token → Option K) (ts : List Token) : Option K :=
  match pieces .opening .closing Token.isSum 0 ts with
  | (us, [(.plus, us')]) => do return (← read us) + (← read us')
  | (us, [(.minus, us')]) => do return (← read us) - (← read us')
  | (.op op :: us, []) => (read us).map (apply op)
  | ([.var c], []) => some (ρ c)
  | _ => none

variable (value ρ) in
/-- The value of an operand, given a reader for what stands in its brackets. -/
def readOperand (read : List Token → Option K) : List Token → Option K
  | [.num text] => some (value text)
  | [.op .neg, .num text] => some (value ('-' :: text))
  | [.var c] => some (ρ c)
  | [.pair c d] => some (ρ c * ρ d)
  | [.square c] => some (ρ c * ρ c)
  | .op op :: .opening :: ts => (read ts.dropLast).map (apply op)
  | .opening :: ts => readGroup ρ read ts.dropLast
  | _ => none

variable (value ρ) in
/-- One more factor of a chain. -/
def readFactor (read : List Token → Option K) (acc : Option K) : Token × List Token → Option K
  | (.times, us) => do return (← acc) * (← readOperand value ρ read us)
  | (.divide, us) => do return (← acc) / (← readOperand value ρ read us)
  | _ => none

variable (value ρ) in
/-- Nesting of at most so many brackets. -/
def readChain : ℕ → List Token → Option K
  | 0, _ => none
  | n + 1, ts =>
    let (first, rest) := pieces .opening .closing Token.isFactor 0 ts
    rest.foldl (readFactor value ρ (readChain n)) (readOperand value ρ (readChain n) first)

theorem readChain_operand (h : Reads value ρ .operand ts v) (n : ℕ) :
    readChain value ρ (n + 1) ts = readOperand value ρ (readChain value ρ n) ts := by
  rw [readChain, h.solid_factor.pieces]
  rfl

theorem readChain_append (h : Reads value ρ .chain ts v) {t : Token} (ht : t.isFactor = true)
    (h' : Reads value ρ .operand us w) (n : ℕ) : readChain value ρ (n + 1) (ts ++ t :: us) =
      readFactor value ρ (readChain value ρ n) (readChain value ρ (n + 1) ts) (t, us) := by
  rw [readChain, h.level t us ht, h'.solid_factor.pieces, readChain]
  simp

/-- The sums and differences in brackets. -/
theorem pieces_sum (h : Reads value ρ .chain ts v) (h' : Reads value ρ .chain us w) {t : Token}
    (ht : t.isSum = true) : pieces .opening .closing Token.isSum 0 (ts ++ t :: us) =
      (ts, [(t, us)]) := by
  rw [h.solid_sum, pieces_cons_of_pos ht, h'.solid_sum.pieces]
  simp [prepend]

theorem readOperand_brackets (read : List Token → Option K) (ts : List Token) :
    readOperand value ρ read (.opening :: ts ++ [.closing]) = readGroup ρ read ts := by
  rw [List.cons_append, readOperand, List.dropLast_concat]

variable (value ρ) in
/-- The reader for texts of a kind. -/
def Kind.read (n : ℕ) : Kind → List Token → Option K
  | operand => readOperand value ρ (readChain value ρ n)
  | chain => readChain value ρ n

/-- The reader for a chain takes one more turn than that for an operand. -/
def Kind.extra : Kind → ℕ
  | operand => 0
  | chain => 1

/-- **The reader** finds the value. -/
theorem Reads.read (h : Reads value ρ k ts v) {n : ℕ} (hn : ts.length + k.extra ≤ n) :
    k.read value ρ n ts = some v := by
  induction h generalizing n with
  | num h => rfl
  | negative h => rfl
  | var h => rfl
  | pair h => rfl
  | square h => rfl
  | @argument ts v op h ih =>
    have hread : readChain value ρ n ts = some v := ih (by simp [Kind.extra] at hn ⊢; omega)
    rw [Kind.read, List.cons_append, readOperand, List.dropLast_concat, hread]
    rfl
  | @applied ts v op h ih =>
    have hread : readChain value ρ n ts = some v := ih (by simp [Kind.extra] at hn ⊢; omega)
    have hsolid : Solid .opening .closing Token.isSum (.op op :: ts) :=
      Solid.cons nofun nofun rfl h.solid_sum
    rw [Kind.read, readOperand_brackets, readGroup, hsolid.pieces]
    simp only [hread]
    rfl
  | appliedVar op h =>
    obtain ⟨n, rfl⟩ := Nat.exists_eq_add_one.mpr (show 0 < n by simp at hn; omega)
    rfl
  | @sum ts us v w h h' ih ih' =>
    have hread : readChain value ρ n ts = some v := ih (by simp [Kind.extra] at hn ⊢; omega)
    have hread' : readChain value ρ n us = some w := ih' (by simp [Kind.extra] at hn ⊢; omega)
    rw [Kind.read, readOperand_brackets, readGroup, pieces_sum h h' rfl]
    simp only [hread, hread']
    rfl
  | @difference ts us v w h h' ih ih' =>
    have hread : readChain value ρ n ts = some v := ih (by simp [Kind.extra] at hn ⊢; omega)
    have hread' : readChain value ρ n us = some w := ih' (by simp [Kind.extra] at hn ⊢; omega)
    rw [Kind.read, readOperand_brackets, readGroup, pieces_sum h h' rfl]
    simp only [hread, hread']
    rfl
  | single h ih =>
    obtain ⟨n, rfl⟩ := Nat.exists_eq_add_one.mpr (show 0 < n by simp [Kind.extra] at hn; omega)
    exact (readChain_operand h n).trans (ih (Nat.le_of_succ_le_succ hn))
  | @times ts us v w h h' ih ih' =>
    obtain ⟨n, rfl⟩ := Nat.exists_eq_add_one.mpr (show 0 < n by simp [Kind.extra] at hn; omega)
    have hread : readChain value ρ (n + 1) ts = some v :=
      ih (n := n + 1) (by simp [Kind.extra] at hn ⊢; omega)
    have hread' : readOperand value ρ (readChain value ρ n) us = some w :=
      ih' (by simp [Kind.extra] at hn ⊢; omega)
    rw [Kind.read, readChain_append h rfl h', hread, readFactor, hread']
    rfl
  | @divide ts us v w h h' ih ih' =>
    obtain ⟨n, rfl⟩ := Nat.exists_eq_add_one.mpr (show 0 < n by simp [Kind.extra] at hn; omega)
    have hread : readChain value ρ (n + 1) ts = some v :=
      ih (n := n + 1) (by simp [Kind.extra] at hn ⊢; omega)
    have hread' : readOperand value ρ (readChain value ρ n) us = some w :=
      ih' (by simp [Kind.extra] at hn ⊢; omega)
    rw [Kind.read, readChain_append h rfl h', hread, readFactor, hread']
    rfl

/-- **Tokens have one value.** -/
theorem Reads.unique (h : Reads value ρ k ts v) (h' : Reads value ρ k ts w) : v = w :=
  Option.some.inj ((h.read le_rfl).symm.trans (h'.read le_rfl))

/-- **A text has one value.** -/
theorem Reads.eq_of_render_eq (h : Reads value ρ k ts v) (h' : Reads value ρ k us w)
    (heq : render ts = render us) : v = w := by
  have hspaced : Spaced false ts := by simpa using h.spaced [] trivial
  have hspaced' : Spaced false us := by simpa using h'.spaced [] trivial
  obtain rfl := render_injective hspaced hspaced' heq
  exact h.unique h'

end

end DocMachine.Haskell.Calculus.Printed
