import DocMachine.Haskell.Calculus

/-!
# The tokens of a printed expression

The texts that `showExp` (`haskellcalculus_sk4520/Calculus.hs` 122-169) prints, cut into tokens.

* A token is a number, one or two letters, a square, an operator, a bracket or an infix sign. A
  variable is one letter; two of them side by side are a product (`pair`).
* `render` writes tokens one after the other, and `nextToken` reads the first one back. It has to
  know whether an operand stands before it: a minus behind an operand is binary, any other is a
  sign.
* A number is as long as it can be, and three letters in a row begin with the name of a function.

Results:
* `numeralPrefix_text`, `word_var`, `word_pair`, `word_square` and `word_function`: the tokens are
  read off the characters, one kind after the other.
* `nextToken_render`: the first token is read off the characters.
* `render_injective`: if operands and what stands behind them alternate (`Spaced`), the characters
  determine the tokens.
-/

namespace DocMachine.Haskell.Calculus.Printed

/-! ## Tokens -/

/-- Digits, a point, digits and perhaps an exponent. -/
def IsUnsigned (text : List Char) : Prop :=
  ∃ whole fraction exponent : List Char, text = whole ++ '.' :: (fraction ++ exponent) ∧
    (whole ≠ [] ∧ ∀ c ∈ whole, c.isDigit) ∧ (fraction ≠ [] ∧ ∀ c ∈ fraction, c.isDigit) ∧
    (exponent = [] ∨ ∃ ds, (ds ≠ [] ∧ ∀ c ∈ ds, c.isDigit) ∧
      (exponent = 'e' :: ds ∨ exponent = 'e' :: '-' :: ds))

/-- Not a character of a number, an operator or a bracket. -/
def isLetter (c : Char) : Bool := !c.isDigit && c ∉ ['(', ')', '+', '-', '*', '/', '^', '.']

/-- The tokens. -/
inductive Token where
  | num (text : List Char)
  | var (c : Char)
  | pair (c d : Char)
  | square (c : Char)
  | op (op : UnOp)
  | opening
  | closing
  | plus
  | minus
  | times
  | divide
deriving DecidableEq

namespace Token

/-- The characters of a token. -/
def render : Token → List Char
  | num text => text
  | var c => [c]
  | pair c d => [c, d]
  | square c => [c, '^', '2']
  | op .neg => "-".toList
  | op .sin => "sin".toList
  | op .cos => "cos".toList
  | op .log => "log".toList
  | opening => "(".toList
  | closing => ")".toList
  | plus => "+".toList
  | minus => "-".toList
  | times => "*".toList
  | divide => "/".toList

/-- The text of a number is one, and letters are letters. -/
def Valid : Token → Prop
  | num text => IsUnsigned text
  | var c => isLetter c
  | pair c d => isLetter c ∧ isLetter d
  | square c => isLetter c
  | _ => True

/-- It stands behind an operand. -/
def follows : Token → Bool
  | closing | plus | minus | times | divide => true
  | _ => false

/-- It is the end of an operand. -/
def ends : Token → Bool
  | num _ | var _ | pair _ _ | square _ | closing => true
  | _ => false

/-- A sign that binds less tightly than `*` and `/`. -/
def isSum : Token → Bool
  | plus | minus => true
  | _ => false

/-- A sign of a chain. -/
def isFactor : Token → Bool
  | times | divide => true
  | _ => false

/-- It stands between operands. -/
def isInfix (t : Token) : Bool := t.isSum || t.isFactor

end Token

/-- The characters of the tokens. -/
def render (ts : List Token) : List Char := ts.flatMap Token.render

/-- Operands and what stands behind them alternate. -/
def Spaced : Bool → List Token → Prop
  | _, [] => True
  | after, t :: ts => t.follows = after ∧ t.Valid ∧ Spaced t.ends ts

/-! ## Reading characters -/

/-- The characters of a number; behind an `e` a minus is one of them. -/
def numeralPrefix : Bool → List Char → List Char
  | _, [] => []
  | e, c :: cs =>
    if c.isDigit ∨ c = '.' ∨ c = 'e' ∨ (e ∧ c = '-') then c :: numeralPrefix (c = 'e') cs else []

/-- Three letters or more begin with the name of a function. -/
def word (cs : List Char) : Option (Token × List Char) :=
  let rest := cs.dropWhile isLetter
  match cs.takeWhile isLetter with
  | [] => none
  | [c] => if rest.take 2 = ['^', '2'] then some (.square c, rest.drop 2) else some (.var c, rest)
  | [c, d] => some (.pair c d, rest)
  | 's' :: _ => some (.op .sin, cs.drop 3)
  | 'c' :: _ => some (.op .cos, cs.drop 3)
  | _ => some (.op .log, cs.drop 3)

/-- The token of a sign or bracket. A minus behind an operand is binary. -/
def symbol (after : Bool) (c : Char) : Option Token :=
  if c = '(' then some .opening
  else if c = ')' then some .closing
  else if c = '+' then some .plus
  else if c = '*' then some .times
  else if c = '/' then some .divide
  else if c = '-' then some (if after then .minus else .op .neg)
  else none

/-- The first token, after an operand or not, and the characters behind it. -/
def nextToken (after : Bool) : List Char → Option (Token × List Char)
  | [] => none
  | c :: cs =>
    if isLetter c then word (c :: cs)
    else if c.isDigit then
      let text := numeralPrefix false (c :: cs)
      some (.num text, (c :: cs).drop text.length)
    else (symbol after c).map fun t => (t, cs)

/-- What stands behind an operand. -/
def Boundary (cs : List Char) : Prop := ∀ c ∈ cs.head?, c ∈ [')', '+', '-', '*', '/']

variable {after : Bool} {t : Token} {ts ts' : List Token} {cs : List Char}

theorem Spaced.boundary (h : Spaced true ts) : Boundary (render ts) := by
  cases ts with
  | nil => nofun
  | cons t ts =>
    obtain ⟨hfollows, -⟩ := h
    cases t <;> simp_all [Token.follows, Boundary, render, Token.render]

theorem numeralPrefix_digits {ds : List Char} (hne : ds ≠ []) (h : ∀ c ∈ ds, c.isDigit) (e : Bool)
    (cs : List Char) : numeralPrefix e (ds ++ cs) = ds ++ numeralPrefix false cs := by
  induction ds generalizing e with
  | nil => exact absurd rfl hne
  | cons d ds ih =>
    have hd := h d List.mem_cons_self
    have hflag : decide (d = 'e') = false := by
      refine decide_eq_false ?_
      rintro rfl
      cases hd
    rw [List.cons_append, numeralPrefix, if_pos (.inl hd), hflag]
    by_cases hds : ds = []
    · rw [hds]
      rfl
    · rw [ih hds fun c hc => h c (List.mem_cons_of_mem _ hc)]
      rfl

theorem numeralPrefix_boundary (h : Boundary cs) : numeralPrefix false cs = [] := by
  cases cs with
  | nil => rfl
  | cons c cs =>
    have hno : ∀ c ∈ [')', '+', '-', '*', '/'],
        ¬ (c.isDigit ∨ c = '.' ∨ c = 'e' ∨ (false ∧ c = '-')) := by
      simp
    rw [numeralPrefix, if_neg (hno c (h c rfl))]

theorem numeralPrefix_text {text : List Char} (h : IsUnsigned text) (hcs : Boundary cs) :
    numeralPrefix false (text ++ cs) = text := by
  obtain ⟨whole, fraction, exponent, rfl, ⟨hw, hwhole⟩, ⟨hf, hfraction⟩, hexponent⟩ := h
  have htail : numeralPrefix false (exponent ++ cs) = exponent := by
    obtain rfl | ⟨ds, ⟨hne, hds⟩, rfl | rfl⟩ := hexponent
    · exact numeralPrefix_boundary hcs
    · rw [List.cons_append, numeralPrefix, if_pos (by simp), numeralPrefix_digits hne hds,
        numeralPrefix_boundary hcs, List.append_nil]
    · rw [List.cons_append, List.cons_append, numeralPrefix, if_pos (by simp), numeralPrefix,
        if_pos (by simp), numeralPrefix_digits hne hds, numeralPrefix_boundary hcs,
        List.append_nil]
  rw [List.append_assoc, List.cons_append, List.append_assoc, numeralPrefix_digits hw hwhole,
    numeralPrefix, if_pos (by simp), numeralPrefix_digits hf hfraction, htail]

/-- Letters at the end of an operand. -/
theorem span_letters (letters cs : List Char) (h : ∀ c ∈ letters, isLetter c = true)
    (hcs : ∀ c ∈ cs.head?, isLetter c = false) :
    (letters ++ cs).takeWhile isLetter = letters ∧ (letters ++ cs).dropWhile isLetter = cs := by
  rw [List.takeWhile_append_of_pos h, List.dropWhile_append_of_pos h]
  cases cs with
  | nil => simp
  | cons c cs => simp [hcs c rfl]

theorem Boundary.not_letter (h : Boundary cs) : ∀ c ∈ cs.head?, isLetter c = false := by
  have hno : ∀ c ∈ [')', '+', '-', '*', '/'], isLetter c = false := by simp [isLetter]
  exact fun c hc => hno c (h c hc)

theorem word_var {c : Char} (hc : isLetter c) (hcs : Boundary cs) :
    word (c :: cs) = some (.var c, cs) := by
  obtain ⟨htake, hdrop⟩ := span_letters [c] cs (by simpa using hc) hcs.not_letter
  have hsquare : cs.take 2 ≠ ['^', '2'] := by
    intro h
    cases cs with
    | nil => cases h
    | cons d cs =>
      obtain ⟨rfl, -⟩ := List.cons.inj h
      exact absurd (hcs '^' rfl) (by simp)
  rw [List.singleton_append] at htake hdrop
  simp only [word, htake, hdrop, if_neg hsquare]

theorem word_pair {c d : Char} (h : isLetter c ∧ isLetter d) (hcs : Boundary cs) :
    word (c :: d :: cs) = some (.pair c d, cs) := by
  obtain ⟨htake, hdrop⟩ := span_letters [c, d] cs (by simpa using h) hcs.not_letter
  rw [List.cons_append, List.singleton_append] at htake hdrop
  simp only [word, htake, hdrop]

theorem word_square {c : Char} (hc : isLetter c) :
    word (c :: '^' :: '2' :: cs) = some (.square c, cs) := by
  have hpower : isLetter '^' = false := by simp [isLetter]
  obtain ⟨htake, hdrop⟩ := span_letters [c] ('^' :: '2' :: cs) (by simpa using hc)
    (by simpa using hpower)
  rw [List.singleton_append] at htake hdrop
  simp [word, htake, hdrop]

theorem word_function (op : UnOp) (h : op ≠ .neg) :
    word ((Token.op op).render ++ cs) = some (.op op, cs) := by
  cases op with
  | neg => exact absurd rfl h
  | sin => simp [word, Token.render, isLetter]
  | cos => simp [word, Token.render, isLetter]
  | log => simp [word, Token.render, isLetter]

theorem IsUnsigned.exists_cons {text : List Char} (h : IsUnsigned text) :
    ∃ c cs, text = c :: cs ∧ c.isDigit := by
  obtain ⟨whole, fraction, exponent, rfl, ⟨hw, hwhole⟩, -⟩ := h
  obtain ⟨c, cs, rfl⟩ := List.exists_cons_of_ne_nil hw
  exact ⟨c, _, rfl, hwhole c List.mem_cons_self⟩

theorem nextToken_num {text : List Char} (h : IsUnsigned text) (hcs : Boundary cs) :
    nextToken after (text ++ cs) = some (.num text, cs) := by
  have hprefix := numeralPrefix_text h hcs
  obtain ⟨c, cs', rfl, hc⟩ := h.exists_cons
  have hletter : isLetter c = false := by simp [isLetter, hc]
  rw [List.cons_append] at hprefix ⊢
  rw [nextToken, if_neg (by simp [hletter]), if_pos hc, hprefix, ← List.cons_append]
  simp

/-- The first token is read off the characters. -/
theorem nextToken_render (h : Spaced after (t :: ts)) :
    nextToken after (render (t :: ts)) = some (t, render ts) := by
  obtain ⟨hfollows, hvalid, hrest⟩ := h
  have hrender : render (t :: ts) = t.render ++ render ts := List.flatMap_cons
  rw [hrender]
  cases t with
  | num text => exact nextToken_num hvalid hrest.boundary
  | var c =>
    have hc : isLetter c = true := hvalid
    rw [Token.render, List.singleton_append, nextToken, if_pos hc, word_var hc hrest.boundary]
  | pair c d =>
    rw [Token.render, List.cons_append, List.singleton_append, nextToken, if_pos hvalid.1,
      word_pair hvalid hrest.boundary]
  | square c =>
    have hc : isLetter c = true := hvalid
    rw [Token.render, List.cons_append, nextToken, if_pos hc]
    exact word_square hc
  | op op =>
    obtain rfl : false = after := hfollows
    cases op with
    | neg => rfl
    | sin => exact word_function .sin nofun
    | cos => exact word_function .cos nofun
    | log => exact word_function .log nofun
  | opening => rfl
  | closing => rfl
  | plus => rfl
  | minus =>
    obtain rfl : true = after := hfollows
    rfl
  | times => rfl
  | divide => rfl

/-- **The characters determine the tokens.** -/
theorem render_injective (h : Spaced after ts) (h' : Spaced after ts')
    (heq : render ts = render ts') : ts = ts' := by
  induction ts generalizing after ts' with
  | nil =>
    cases ts' with
    | nil => rfl
    | cons t' ts' =>
      have hnext := nextToken_render h'
      rw [← heq] at hnext
      cases hnext
  | cons t ts ih =>
    cases ts' with
    | nil =>
      have hnext := nextToken_render h
      rw [heq] at hnext
      cases hnext
    | cons t' ts' =>
      have hnext := nextToken_render h
      rw [heq, nextToken_render h'] at hnext
      obtain ⟨rfl, hrest⟩ := Prod.mk.inj (Option.some.inj hnext)
      rw [ih h.2.2 h'.2.2 hrest.symm]

end DocMachine.Haskell.Calculus.Printed
