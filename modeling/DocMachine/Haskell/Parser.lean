import Mathlib.Data.Int.Notation
import Mathlib.Data.Nat.Notation
import Mathlib.Tactic.Tauto

/-!
# The operator-precedence parser

Model of `haskellinterimtest_sk4520/Parser.hs` (`opTable` 18-21, `precedence` 37-39, `associativity`
42-44, `supersedes` 47-50, `parse` 107-134) over the types of `Types.hs`. The version without
brackets (88-103) is a comment there; `tokenise` is not modelled.

* `parse` is a loop over the tokens with a stack of expressions and a stack of operators. It applies
  an operator when the next one does not supersede it. An operator without an entry in the table and
  an empty stack have no result.
* A bracket is an operator of low precedence. The opening one is put on the stack whatever is there,
  the closing one removes it.
* `Derives` is the usual grammar, with a level for each precedence: sums and products to the left,
  powers to the right, and brackets at the innermost level.

Results:
* `parse_reduce`: an operator is applied before what does not supersede it, and at the end.
* `Derives.pushes`: the invariant. Reading the tokens of an expression has the effect of pushing the
  expression, if the operator below binds less tightly than the level and what follows can follow
  that level.
* `parse_correct`: what the grammar derives for an expression is parsed to that expression.
-/

namespace DocMachine.Haskell.Parser

/-! ## Parser.hs -/

/-- `Operator`. -/
abbrev Operator := Char

/-- `Token`. -/
inductive Token where
  | num (n : ℤ)
  | var (v : String)
  | op (o : Operator)
deriving DecidableEq

/-- `Expr`. -/
inductive Expr where
  | num (n : ℤ)
  | var (v : String)
  | app (op : Operator) (e₁ e₂ : Expr)
deriving DecidableEq

/-- `Associativity`. -/
inductive Associativity where
  | left
  | none
  | right
deriving DecidableEq

/-- `opTable`: the precedence and the associativity of each operator. -/
def opTable : List (Operator × ℕ × Associativity) :=
  [('$', 0, .none), ('(', 1, .none), (')', 1, .none), ('+', 6, .left), ('-', 6, .left),
    ('*', 7, .left), ('/', 7, .left), ('^', 8, .right)]

/-- `precedence`, if the operator is in the table. -/
def precedence (op : Operator) : Option ℕ := (opTable.lookup op).map Prod.fst

/-- `associativity`. -/
def associativity (op : Operator) : Option Associativity := (opTable.lookup op).map Prod.snd

/-- `supersedes`: `a` is applied before `b`, which stands to its left. -/
def supersedes (a b : Operator) : Option Bool := do
  let p ← precedence a
  let q ← precedence b
  if q < p then return true
  else if p = q then return (← associativity a) = .right
  else return false

/-- `parse`, with the two stacks. -/
def parse : List Token → List Expr → List Operator → Option Expr
  | [], [exp], _ => some exp
  | [], exp1 :: exp2 :: expSt, opS :: opSt => parse [] (.app opS exp2 exp1 :: expSt) opSt
  | [], _, _ => none
  | .num n :: ts, expSt, opSt => parse ts (.num n :: expSt) opSt
  | .var v :: ts, expSt, opSt => parse ts (.var v :: expSt) opSt
  | .op _ :: _, _, [] => none
  | .op op :: ts, expSt, opS :: opSt =>
    match supersedes op opS with
    | none => none
    | some true => parse ts expSt (op :: opS :: opSt)
    | some false =>
      if op = '(' then parse ts expSt (op :: opS :: opSt)
      else if op = ')' ∧ opS = '(' then parse ts expSt opSt
      else
        match expSt with
        | exp1 :: exp2 :: expSt => parse (.op op :: ts) (.app opS exp2 exp1 :: expSt) opSt
        | _ => none
termination_by ts _ opSt => 2 * ts.length + opSt.length

/-! ## The grammar -/

/-- The levels of the grammar, the loosest first. -/
inductive Level where
  | sum
  | product
  | power
  | primary
deriving DecidableEq

/-- `Derives level e tokens`: the tokens are an expression of the level, with tree `e`. -/
inductive Derives : Level → Expr → List Token → Prop
  | num (n : ℤ) : Derives .primary (.num n) [.num n]
  | var (v : String) : Derives .primary (.var v) [.var v]
  | paren {e : Expr} {ts : List Token} (h : Derives .sum e ts) :
      Derives .primary e (.op '(' :: (ts ++ [.op ')']))
  | primary {e : Expr} {ts : List Token} (h : Derives .primary e ts) : Derives .power e ts
  | power {e₁ e₂ : Expr} {ts₁ ts₂ : List Token} (h₁ : Derives .primary e₁ ts₁)
      (h₂ : Derives .power e₂ ts₂) : Derives .power (.app '^' e₁ e₂) (ts₁ ++ .op '^' :: ts₂)
  | factor {e : Expr} {ts : List Token} (h : Derives .power e ts) : Derives .product e ts
  | product {op : Operator} {e₁ e₂ : Expr} {ts₁ ts₂ : List Token} (hop : op ∈ ['*', '/'])
      (h₁ : Derives .product e₁ ts₁) (h₂ : Derives .power e₂ ts₂) :
      Derives .product (.app op e₁ e₂) (ts₁ ++ .op op :: ts₂)
  | term {e : Expr} {ts : List Token} (h : Derives .product e ts) : Derives .sum e ts
  | sum {op : Operator} {e₁ e₂ : Expr} {ts₁ ts₂ : List Token} (hop : op ∈ ['+', '-'])
      (h₁ : Derives .sum e₁ ts₁) (h₂ : Derives .product e₂ ts₂) :
      Derives .sum (.app op e₁ e₂) (ts₁ ++ .op op :: ts₂)

/-- The operators on top of which an expression of the level is parsed: those that bind less
tightly, and `^` below its right operand. -/
def Level.below : Level → List Operator
  | .sum => ['$', '(']
  | .product => ['$', '(', '+', '-']
  | .power | .primary => ['$', '(', '+', '-', '*', '/', '^']

/-- The operators that follow an expression of the level. -/
def Level.followers : Level → List Operator
  | .sum => [')', '+', '-']
  | .product | .power => [')', '+', '-', '*', '/']
  | .primary => [')', '+', '-', '*', '/', '^']

/-- The tokens left are none, or begin with an operator that can follow the level. -/
def Follows (level : Level) : List Token → Prop
  | [] => True
  | .op o :: _ => o ∈ level.followers
  | _ :: _ => False

/-! ## Steps of the parser -/

/-- A statement about the operators in a list is decided along the list, not over all characters. -/
local instance (priority := high) decidableForallMem {P : Operator → Prop} [DecidablePred P]
    (l : List Operator) : Decidable (∀ o ∈ l, P o) :=
  List.decidableBAll P l

variable {es : List Expr} {os : List Operator} {o op : Operator} {rest : List Token}

theorem parse_push (h : supersedes op o = some true) :
    parse (.op op :: rest) es (o :: os) = parse rest es (op :: o :: os) := by
  rw [parse.eq_def]
  simp only [h]

theorem parse_open (h : o ∈ Level.below .primary) :
    parse (.op '(' :: rest) es (o :: os) = parse rest es ('(' :: o :: os) := by
  have hknown : ∀ o ∈ Level.below .primary, supersedes '(' o = some true ∨
      supersedes '(' o = some false := by decide
  rw [parse.eq_def]
  obtain h | h := hknown o h <;> simp [h]

theorem parse_close :
    parse (.op ')' :: rest) es ('(' :: os) = parse rest es os := by
  have h : supersedes ')' '(' = some false := by decide
  rw [parse.eq_def]
  simp [h]

/-- An operator is applied before what does not supersede it, and at the end. -/
theorem parse_reduce {level : Level} {e₁ e₂ : Expr} (hfollows : Follows level rest)
    (ho : ∀ op ∈ level.followers, supersedes op o = some false) (hopen : o ≠ '(') :
    parse rest (e₂ :: e₁ :: es) (o :: os) = parse rest (.app o e₁ e₂ :: es) os := by
  cases rest with
  | nil => rw [parse]
  | cons token rest =>
    cases token with
    | num n => exact absurd hfollows id
    | var v => exact absurd hfollows id
    | op op =>
      have hop : op ≠ '(' := by
        have hnot : ∀ level : Level, '(' ∉ level.followers := by
          intro level
          cases level <;> decide
        rintro rfl
        exact hnot level hfollows
      rw [parse.eq_def]
      simp [ho op hfollows, hop, hopen]

theorem Follows.mono {level level' : Level}
    (hsub : ∀ op ∈ level.followers, op ∈ level'.followers) (h : Follows level rest) :
    Follows level' rest := by
  cases rest with
  | nil => trivial
  | cons token rest =>
    cases token with
    | num n => exact h
    | var v => exact h
    | op op => exact hsub op h

/-! ## Expressions -/

/-- The tokens push the expression: what is on the stacks stays below it. -/
def Pushes (level : Level) (e : Expr) (ts : List Token) : Prop :=
  ∀ (o : Operator) (rest : List Token) (es : List Expr) (os : List Operator), o ∈ level.below →
    Follows level rest → parse (ts ++ rest) es (o :: os) = parse rest (e :: es) (o :: os)

/-- The place of an operator between operands of two levels: it waits on the stack for its right
operand, and what follows the whole expression applies it. -/
structure Between (level left right : Level) (op : Operator) : Prop where
  left_below : ∀ o ∈ level.below, o ∈ left.below
  follows_left : op ∈ left.followers
  push : ∀ o ∈ level.below, supersedes op o = some true
  right_below : op ∈ right.below
  follows_right : ∀ o ∈ level.followers, o ∈ right.followers
  reduce : ∀ o ∈ level.followers, supersedes o op = some false
  not_open : op ≠ '('

theorem Pushes.app {level left right : Level} {e₁ e₂ : Expr} {ts₁ ts₂ : List Token}
    (h₁ : Pushes left e₁ ts₁) (h₂ : Pushes right e₂ ts₂) (hop : Between level left right op) :
    Pushes level (.app op e₁ e₂) (ts₁ ++ .op op :: ts₂) := by
  intro o rest es os ho hfollows
  have hnext : Follows left (.op op :: (ts₂ ++ rest)) := hop.follows_left
  calc parse (ts₁ ++ .op op :: ts₂ ++ rest) es (o :: os)
      = parse (ts₁ ++ .op op :: (ts₂ ++ rest)) es (o :: os) := by simp
    _ = parse (.op op :: (ts₂ ++ rest)) (e₁ :: es) (o :: os) :=
        h₁ _ _ _ _ (hop.left_below o ho) hnext
    _ = parse (ts₂ ++ rest) (e₁ :: es) (op :: o :: os) := parse_push (hop.push o ho)
    _ = parse rest (e₂ :: e₁ :: es) (op :: o :: os) :=
        h₂ _ _ _ _ hop.right_below (hfollows.mono hop.follows_right)
    _ = parse rest (.app op e₁ e₂ :: es) (o :: os) :=
        parse_reduce hfollows hop.reduce hop.not_open

theorem Pushes.paren {e : Expr} {ts : List Token} (h : Pushes .sum e ts) :
    Pushes .primary e (.op '(' :: (ts ++ [.op ')'])) := by
  intro o rest es os ho _
  have hopen : '(' ∈ Level.below .sum := by decide
  have hclose : Follows .sum (.op ')' :: rest) := by
    change ')' ∈ Level.followers .sum
    decide
  calc parse (.op '(' :: (ts ++ [.op ')']) ++ rest) es (o :: os)
      = parse (.op '(' :: (ts ++ .op ')' :: rest)) es (o :: os) := by simp
    _ = parse (ts ++ .op ')' :: rest) es ('(' :: o :: os) := parse_open ho
    _ = parse (.op ')' :: rest) (e :: es) ('(' :: o :: os) := h _ _ _ _ hopen hclose
    _ = parse rest (e :: es) (o :: os) := parse_close

/-- An expression of a tighter level is one of the level. -/
theorem Pushes.lift {level level' : Level} {e : Expr} {ts : List Token} (h : Pushes level' e ts)
    (hbelow : ∀ o ∈ level.below, o ∈ level'.below)
    (hfollowers : ∀ o ∈ level.followers, o ∈ level'.followers) : Pushes level e ts :=
  fun o rest es os ho hfollows =>
    h o rest es os (hbelow o ho) (hfollows.mono hfollowers)

theorem between_power : Between .power .primary .power '^' := by
  constructor <;> decide

theorem between_product : ∀ op ∈ ['*', '/'], Between .product .product .power op := by
  intro op hop
  obtain rfl | rfl : op = '*' ∨ op = '/' := by simpa using hop
  · constructor <;> decide
  · constructor <;> decide

theorem between_sum : ∀ op ∈ ['+', '-'], Between .sum .sum .product op := by
  intro op hop
  obtain rfl | rfl : op = '+' ∨ op = '-' := by simpa using hop
  · constructor <;> decide
  · constructor <;> decide

/-- **The invariant.** The tokens of an expression push the expression. -/
theorem Derives.pushes {level : Level} {e : Expr} {ts : List Token} (h : Derives level e ts) :
    Pushes level e ts := by
  induction h with
  | num n =>
    intro o rest es os _ _
    rw [List.singleton_append, parse]
  | var v =>
    intro o rest es os _ _
    rw [List.singleton_append, parse]
  | paren _ ih => exact ih.paren
  | primary _ ih => exact ih.lift (by decide) (by decide)
  | power _ _ ih₁ ih₂ => exact ih₁.app ih₂ between_power
  | factor _ ih => exact ih.lift (by decide) (by decide)
  | product hop _ _ ih₁ ih₂ => exact ih₁.app ih₂ (between_product _ hop)
  | term _ ih => exact ih.lift (by decide) (by decide)
  | sum hop _ _ ih₁ ih₂ => exact ih₁.app ih₂ (between_sum _ hop)

/-- **The parser.** -/
theorem parse_correct {e : Expr} {ts : List Token} (h : Derives .sum e ts) :
    parse ts [] ['$'] = some e := by
  have hpushes := h.pushes '$' [] [] [] (by decide) trivial
  rw [List.append_nil] at hpushes
  rw [hpushes, parse]

/-- `(x-1)*2^y`. -/
theorem parse_power : parse [.op '(', .var "x", .op '-', .num 1, .op ')', .op '*', .num 2, .op '^',
      .var "y"] [] ['$'] =
    some (.app '*' (.app '-' (.var "x") (.num 1)) (.app '^' (.num 2) (.var "y"))) :=
  parse_correct <| .term <| .product (by decide)
    (.factor (.primary (.paren (.sum (by decide)
      (.term (.factor (.primary (.var "x")))) (.factor (.primary (.num 1)))))))
    (.power (.num 2) (.primary (.var "y")))

/-! ## Full parentheses -/

/-- The operators of an expression are those of the grammar. -/
def Expr.WellFormed : Expr → Prop
  | .num n => 0 ≤ n
  | .var _ => True
  | .app op e₁ e₂ => op ∈ ['+', '-', '*', '/', '^'] ∧ e₁.WellFormed ∧ e₂.WellFormed

/-- The tokens of what `showExpr` prints. -/
def showTokens : Expr → List Token
  | .num n => [.num n]
  | .var v => [.var v]
  | .app op e₁ e₂ => .op '(' :: (showTokens e₁ ++ .op op :: showTokens e₂ ++ [.op ')'])

theorem derives_showTokens {e : Expr} (h : e.WellFormed) : Derives .primary e (showTokens e) := by
  induction e with
  | num n => exact .num n
  | var v => exact .var v
  | app op e₁ e₂ ih₁ ih₂ =>
    obtain ⟨hop, h₁, h₂⟩ := h
    have hsum : Derives .sum (.app op e₁ e₂) (showTokens e₁ ++ .op op :: showTokens e₂) := by
      have hpower := Derives.primary (ih₂ h₂)
      by_cases hlevel : op ∈ ['+', '-']
      · exact .sum hlevel (.term (.factor (.primary (ih₁ h₁)))) (.factor hpower)
      · by_cases hlevel' : op ∈ ['*', '/']
        · exact .term (.product hlevel' (.factor (.primary (ih₁ h₁))) hpower)
        · obtain rfl : op = '^' := by
            simp only [List.mem_cons, List.not_mem_nil, or_false] at hop hlevel hlevel'
            tauto
          exact .term (.factor (.power (ih₁ h₁) hpower))
    exact .paren hsum

end DocMachine.Haskell.Parser
