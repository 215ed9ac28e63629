import DocMachine.Haskell.Printed.Grammar

/-!
# Printing expressions

Model of `showExp` of `haskellcalculus_sk4520/Calculus.hs` (122-169) with its tables (111-112,
118-119).

* A literal is what `show` prints for a finite `Double` (`Numeral`), and its value is that of its
  text: the function from texts to numbers is a parameter.
* The clauses stand in the source's order, which decides between those that overlap.
* Products and quotients are printed without brackets (158-162), which reads as a chain of factors
  from the left. For a denominator this is wrong if it is a chain itself: `x / (y / z)` is printed
  as `(x / y) / z` is.
* `Unambiguous` is about two expressions that are printed alike: they have the same values in every
  environment without zero denominators. Variables are single letters, since two of them are printed
  next to each other.

Results:
* `unambiguous_of_plain`: equal texts have equal values when no denominator is a chain
  (`PlainDenominators`). The grammar of the printed texts is in `Printed`.
* `showExp_div_div`: any quotient behind `/` loses its brackets, and `eval_div_div_iff` says when
  the two quotients have the same value all the same.
* `not_unambiguous_quotients`: `x / (y / z)` and `(x / y) / z`.
* `unambiguous_chain`: two expressions that are printed alike, and have the same value.
-/

namespace DocMachine.Haskell.Calculus

open Printed

/-! ## Literals -/

/-- What `show` prints for a finite `Double`: perhaps a minus, then a number without a sign. -/
structure Numeral where
  negative : Bool
  text : List Char
  valid : IsUnsigned text

/-- The text of the number. -/
def Numeral.show (n : Numeral) : List Char := if n.negative then '-' :: n.text else n.text

/-! ## Calculus.hs -/

/-- `unOpShow`. -/
def unOpShow : List (UnOp × List Char) :=
  [(.neg, "-".toList), (.sin, "sin".toList), (.cos, "cos".toList), (.log, "log".toList)]

/-- `binOpShow`. -/
def binOpShow : List (BinOp × List Char) :=
  [(.add, "+".toList), (.mul, "*".toList), (.div, "/".toList)]

/-- Every operator has an entry. -/
def showUnOp (op : UnOp) : List Char := (unOpShow.lookup op).getD []

/-- Every operator has an entry. -/
def showBinOp (op : BinOp) : List Char := (binOpShow.lookup op).getD []

/-- `showExp`. -/
def showExp : Exp Numeral → List Char
  | .val d => d.show
  | .id x => x.toList
  | .unApp op (.id x) => "(".toList ++ showUnOp op ++ "(".toList ++ x.toList ++ "))".toList
  | .binApp .add exp (.unApp .neg exp') =>
    "(".toList ++ showExp exp ++ "-".toList ++ showExp exp' ++ ")".toList
  | .binApp .mul (.id x) (.id y) =>
    if x = y then x.toList ++ "^2".toList else x.toList ++ y.toList
  | .binApp .mul (.id x) (.binApp .mul (.val a) (.id y)) =>
    a.show ++ "*".toList ++ x.toList ++ y.toList
  | .binApp .mul (.binApp .mul (.val a) (.id y)) (.id x) =>
    a.show ++ "*".toList ++ y.toList ++ x.toList
  | .unApp op (.binApp .mul exp exp') =>
    showUnOp op ++ "(".toList ++ showExp exp ++ "*".toList ++ showExp exp' ++ ")".toList
  | .binApp .mul exp exp' => showExp exp ++ showBinOp .mul ++ showExp exp'
  | .binApp .div exp exp' => showExp exp ++ showBinOp .div ++ showExp exp'
  | .unApp op exp => "(".toList ++ showUnOp op ++ showExp exp ++ ")".toList
  | .binApp op exp exp' => "(".toList ++ showExp exp ++ showBinOp op ++ showExp exp' ++ ")".toList

/-! ## What the text should determine -/

/-- The variables are single letters. -/
def SingleLetters (e : Exp Numeral) : Prop :=
  ∀ x ∈ e.ids, ∃ c, isLetter c = true ∧ x = String.singleton c

/-- The expression over other numbers. -/
def Exp.map {D K : Type} (f : D → K) : Exp D → Exp K
  | .val d => .val (f d)
  | .id x => .id x
  | .unApp op e => .unApp op (e.map f)
  | .binApp op e e' => .binApp op (e.map f) (e'.map f)

section

variable {K : Type} [Field K] [Floating K]

/-- The expression with exact numbers, given the values of texts. -/
def Exp.exact (value : List Char → K) (e : Exp Numeral) : Exp K := e.map fun d => value d.show

/-- No denominator is zero. -/
def NonzeroDenominators (env : Env K) : Exp K → Prop
  | .val _ => True
  | .id _ => True
  | .unApp _ e => NonzeroDenominators env e
  | .binApp .div e e' =>
    NonzeroDenominators env e ∧ NonzeroDenominators env e' ∧ ∀ a ∈ eval e' env, a ≠ 0
  | .binApp _ e e' => NonzeroDenominators env e ∧ NonzeroDenominators env e'

/-- If two expressions are printed alike they have the same values. -/
def Unambiguous (value : List Char → K) (e e' : Exp Numeral) : Prop :=
  showExp e = showExp e' → ∀ env, Binds (e.exact value) env → Binds (e'.exact value) env →
    NonzeroDenominators env (e.exact value) → NonzeroDenominators env (e'.exact value) →
      eval (e.exact value) env = eval (e'.exact value) env

end

/-- What may stand behind `/`: no quotient, and no product but of two variables. -/
def IsOperand {D : Type} : Exp D → Prop
  | .binApp .div _ _ => False
  | .binApp .mul (.id _) (.id _) => True
  | .binApp .mul _ _ => False
  | _ => True

/-- No denominator is printed as a chain. -/
def PlainDenominators {D : Type} : Exp D → Prop
  | .val _ => True
  | .id _ => True
  | .unApp _ e => PlainDenominators e
  | .binApp .div e e' => PlainDenominators e ∧ PlainDenominators e' ∧ IsOperand e'
  | .binApp _ e e' => PlainDenominators e ∧ PlainDenominators e'

/-! ## Values -/

section

variable {K : Type} [Field K] [Floating K] (value : List Char → K) (ρ : String → K)

/-- The value of an expression with numerals. -/
def denote : Exp Numeral → K
  | .val d => value d.show
  | .id x => ρ x
  | .unApp op e => apply op (denote e)
  | .binApp .add e e' => denote e + denote e'
  | .binApp .mul e e' => denote e * denote e'
  | .binApp .div e e' => denote e / denote e'

theorem eval_exact {e : Exp Numeral} {env : Env K} (h : Binds (e.exact value) env) :
    eval (e.exact value) env = some (denote value (fun x => (env.lookup x).getD 0) e) := by
  unfold Exp.exact at h ⊢
  induction e with
  | val d => rfl
  | id x =>
    obtain ⟨v, hv⟩ := Option.isSome_iff_exists.mp (h x (by simp [Exp.map, Exp.ids]))
    simp [Exp.map, eval, denote, hv]
  | unApp op e ih =>
    rw [Exp.map, eval, ih h]
    cases op <;> rfl
  | binApp op e e' ih ih' =>
    rw [Exp.map, eval, ih fun y hy => h y (by simp [Exp.map, Exp.ids, hy]),
      ih' fun y hy => h y (by simp [Exp.map, Exp.ids, hy])]
    cases op <;> rfl

/-! ## Printed expressions are in the language -/

/-- The text of `e` is one of the language and has the value of `e`. -/
def IsPrinted (e : Exp Numeral) : Prop :=
  ∃ ts, showExp e = render ts ∧
    Reads value (fun c => ρ (String.singleton c)) .chain ts (denote value ρ e) ∧
    (IsOperand e → Reads value (fun c => ρ (String.singleton c)) .operand ts (denote value ρ e))

variable {value ρ} {e e' : Exp Numeral}

theorem IsPrinted.of_operand (ts : List Token) (hts : showExp e = render ts)
    (h : Reads value (fun c => ρ (String.singleton c)) .operand ts (denote value ρ e)) :
    IsPrinted value ρ e :=
  ⟨ts, hts, h.single, fun _ => h⟩

variable (value ρ) in
theorem reads_show (d : Numeral) : ∃ ts, d.show = render ts ∧
    Reads value (fun c => ρ (String.singleton c)) .operand ts (value d.show) := by
  by_cases hneg : d.negative
  · have hshow : d.show = '-' :: d.text := if_pos hneg
    rw [hshow]
    exact ⟨[.op .neg, .num d.text], by simp [render, Token.render], .negative d.valid⟩
  · have hshow : d.show = d.text := if_neg hneg
    rw [hshow]
    exact ⟨[.num d.text], by simp [render, Token.render], .num d.valid⟩

theorem isOperand_mul (h : IsOperand (.binApp .mul e e')) : ∃ x y, e = .id x ∧ e' = .id y := by
  cases e <;> cases e' <;> simp_all [IsOperand]

theorem SingleLetters.left {op : BinOp} (h : SingleLetters (.binApp op e e')) :
    SingleLetters e := fun x hx => h x (List.mem_append_left _ hx)

theorem SingleLetters.right {op : BinOp} (h : SingleLetters (.binApp op e e')) :
    SingleLetters e' := fun x hx => h x (List.mem_append_right _ hx)

theorem SingleLetters.id {x : String} (h : SingleLetters (.id x)) :
    ∃ c, isLetter c = true ∧ x = String.singleton c := h x List.mem_cons_self

theorem showUnOp_eq (op : UnOp) : showUnOp op = (Token.op op).render := by
  cases op <;> rfl

theorem showBinOp_add : showBinOp .add = ['+'] := rfl

theorem showBinOp_mul : showBinOp .mul = ['*'] := rfl

theorem showBinOp_div : showBinOp .div = ['/'] := rfl

variable (value ρ) in
theorem isPrinted (hletters : SingleLetters e) (hplain : PlainDenominators e) :
    IsPrinted value ρ e := by
  fun_induction showExp e
  case case1 d =>
    obtain ⟨ts, hts, hreads⟩ := reads_show value ρ d
    exact .of_operand ts (by rw [showExp, hts]) hreads
  case case2 x =>
    obtain ⟨c, hc, rfl⟩ := hletters.id
    exact .of_operand [.var c] (by simp [showExp, render, Token.render]) (.var hc)
  case case3 op x =>
    obtain ⟨c, hc, rfl⟩ := SingleLetters.id hletters
    refine .of_operand _ ?_ (.appliedVar op hc)
    simp [showExp, showUnOp_eq, render, Token.render]
  case case4 e e' ih ih' =>
    obtain ⟨ts, hts, hreads, -⟩ := ih hletters.left hplain.1
    obtain ⟨us, hus, hreads', -⟩ := ih' hletters.right hplain.2
    have hsum := Reads.difference hreads hreads'
    rw [sub_eq_add_neg] at hsum
    refine .of_operand _ ?_ hsum
    simp [showExp, hts, hus, render, Token.render]
  case case5 y =>
    obtain ⟨c, hc, rfl⟩ := SingleLetters.id hletters.left
    exact .of_operand [.square c] (by simp [showExp, render, Token.render]) (.square hc)
  case case6 x y hne =>
    obtain ⟨c, hc, rfl⟩ := SingleLetters.id hletters.left
    obtain ⟨d, hd, rfl⟩ := SingleLetters.id hletters.right
    refine .of_operand [.pair c d] ?_ (.pair ⟨hc, hd⟩)
    simp [showExp, hne, render, Token.render]
  case case7 x a y =>
    obtain ⟨c, hc, rfl⟩ := SingleLetters.id hletters.left
    obtain ⟨d, hd, rfl⟩ := SingleLetters.id hletters.right
    obtain ⟨ts, hts, hreads⟩ := reads_show value ρ a
    have hproduct := hreads.single.times (.pair ⟨hc, hd⟩)
    rw [mul_left_comm] at hproduct
    refine ⟨_, ?_, hproduct, fun h => h.elim⟩
    simp [showExp, hts, render, Token.render]
  case case8 a y x =>
    obtain ⟨c, hc, rfl⟩ := SingleLetters.id hletters.left
    obtain ⟨d, hd, rfl⟩ := SingleLetters.id hletters.right
    obtain ⟨ts, hts, hreads⟩ := reads_show value ρ a
    have hproduct := hreads.single.times (.pair ⟨hc, hd⟩)
    rw [← mul_assoc] at hproduct
    refine ⟨_, ?_, hproduct, fun h => h.elim⟩
    simp [showExp, hts, render, Token.render]
  case case9 op e e' ih ih' =>
    have hproduct : SingleLetters (.binApp .mul e e') := hletters
    obtain ⟨ts, hts, hreads, -⟩ := ih hproduct.left hplain.1
    obtain ⟨us, hus, hreads', -⟩ := ih' hproduct.right hplain.2
    refine .of_operand _ ?_ (.argument op (hreads.mul hreads'))
    simp [showExp, showUnOp_eq, hts, hus, render, Token.render]
  case case10 e e' hvars hleft hright ih ih' =>
    obtain ⟨ts, hts, hreads, -⟩ := ih hletters.left hplain.1
    obtain ⟨us, hus, hreads', -⟩ := ih' hletters.right hplain.2
    refine ⟨_, ?_, hreads.mul hreads', fun h => ?_⟩
    · rw [showExp, hts, hus]
      · simp [showBinOp_mul, render, Token.render]
      · exact hvars
      · exact hleft
      · exact hright
    · obtain ⟨x, y, hx, hy⟩ := isOperand_mul h
      exact (hvars x y hx hy).elim
  case case11 e e' ih ih' =>
    obtain ⟨ts, hts, hreads, -⟩ := ih hletters.left hplain.1
    obtain ⟨us, hus, -, hreads'⟩ := ih' hletters.right hplain.2.1
    refine ⟨_, ?_, hreads.divide (hreads' hplain.2.2), fun h => h.elim⟩
    simp [showExp, showBinOp_div, hts, hus, render, Token.render]
  case case12 op e hvar hproduct ih =>
    obtain ⟨ts, hts, hreads, -⟩ := ih hletters hplain
    refine .of_operand _ ?_ (.applied op hreads)
    rw [showExp, hts]
    · simp [showUnOp_eq, render, Token.render]
    · exact hvar
    · exact hproduct
  case case13 op e e' _ _ _ _ hmul hdiv ih ih' =>
    have hshow : showExp (.binApp op e e') =
        "(".toList ++ showExp e ++ showBinOp op ++ showExp e' ++ ")".toList := by
      rw [showExp] <;> assumption
    obtain rfl : op = .add := by
      cases op with
      | add => rfl
      | mul => exact (hmul rfl).elim
      | div => exact (hdiv rfl).elim
    obtain ⟨ts, hts, hreads, -⟩ := ih hletters.left hplain.1
    obtain ⟨us, hus, hreads', -⟩ := ih' hletters.right hplain.2
    refine .of_operand _ ?_ (.sum hreads hreads')
    simp [hshow, showBinOp_add, hts, hus, render, Token.render]

/-- **Equal texts have equal values** when denominators are operands. -/
theorem unambiguous_of_plain (value : List Char → K) (hletters : SingleLetters e)
    (hletters' : SingleLetters e') (hplain : PlainDenominators e)
    (hplain' : PlainDenominators e') : Unambiguous value e e' := by
  intro hshow env hbinds hbinds' _ _
  let ρ := fun x => (env.lookup x).getD 0
  obtain ⟨ts, hts, hreads, -⟩ := isPrinted value ρ hletters hplain
  obtain ⟨us, hus, hreads', -⟩ := isPrinted value ρ hletters' hplain'
  have htext : render ts = render us := by rw [← hts, ← hus, hshow]
  rw [eval_exact value hbinds, eval_exact value hbinds', hreads.eq_of_render_eq hreads' htext]

/-! ## Compound denominators -/

/-- Any quotient behind `/` loses its brackets. -/
theorem showExp_div_div (a b c : Exp Numeral) : showExp (a / (b / c)) = showExp (a / b / c) := by
  change showExp (.binApp .div a (.binApp .div b c)) = showExp (.binApp .div (.binApp .div a b) c)
  simp [showExp]

theorem div_div_eq_iff {K : Type} [Field K] {u v w : K} (hv : v ≠ 0) (hw : w ≠ 0) :
    u / (v / w) = u / v / w ↔ u = 0 ∨ w ^ 2 = 1 := by
  rw [div_div_eq_mul_div, div_div, div_eq_div_iff hv (mul_ne_zero hv hw)]
  constructor
  · intro h
    have hzero : u * v * (w ^ 2 - 1) = 0 := by linear_combination h
    obtain huv | hw2 := mul_eq_zero.mp hzero
    · exact .inl ((mul_eq_zero.mp huv).resolve_right hv)
    · exact .inr (sub_eq_zero.mp hw2)
  · rintro (rfl | hw2)
    · ring
    · linear_combination u * v * hw2

/-- The two quotients are equal only by chance. -/
theorem eval_div_div_iff {a b c : Exp Numeral} {env : Env K}
    (hbinds : Binds ((a / (b / c)).exact value) env)
    (hb : denote value (fun x => (env.lookup x).getD 0) b ≠ 0)
    (hc : denote value (fun x => (env.lookup x).getD 0) c ≠ 0) :
    eval ((a / (b / c)).exact value) env = eval ((a / b / c).exact value) env ↔
      denote value (fun x => (env.lookup x).getD 0) a = 0 ∨
        denote value (fun x => (env.lookup x).getD 0) c ^ 2 = 1 := by
  have hids : ((a / b / c).exact value).ids = ((a / (b / c)).exact value).ids :=
    List.append_assoc _ _ _
  have hbinds' : Binds ((a / b / c).exact value) env := by
    unfold Binds
    rw [hids]
    exact hbinds
  rw [eval_exact value hbinds, eval_exact value hbinds', Option.some_inj]
  exact div_div_eq_iff hb hc

end

theorem letter_names : ∀ x ∈ ["w", "x", "y", "z"],
    ∃ c, isLetter c = true ∧ x = String.singleton c := by
  simp only [List.forall_mem_cons]
  refine ⟨⟨'w', ?_, rfl⟩, ⟨'x', ?_, rfl⟩, ⟨'y', ?_, rfl⟩, ⟨'z', ?_, rfl⟩, ?_⟩ <;> simp [isLetter]

/-- `x / (y / z)` and `(x / y) / z`, for 1, 1 and 2. -/
theorem not_unambiguous_quotients :
    SingleLetters (.id "x" / (.id "y" / .id "z")) ∧ SingleLetters (.id "x" / .id "y" / .id "z") ∧
      ¬ Unambiguous (fun _ => (0 : ℝ)) (.id "x" / (.id "y" / .id "z"))
        (.id "x" / .id "y" / .id "z") := by
  have hletters : ∀ x ∈ ["x", "y", "z"], ∃ c, isLetter c = true ∧ x = String.singleton c :=
    fun x hx => letter_names x (List.mem_cons_of_mem _ hx)
  refine ⟨hletters, hletters, fun h => ?_⟩
  let env : Env ℝ := [("x", 1), ("y", 1), ("z", 2)]
  have hbinds : Binds (Exp.exact (fun _ => (0 : ℝ)) (.id "x" / (.id "y" / .id "z"))) env := by
    change ∀ x ∈ ["x", "y", "z"], (env.lookup x).isSome
    simp [env]
  have hbinds' : Binds (Exp.exact (fun _ => (0 : ℝ)) (.id "x" / .id "y" / .id "z")) env := hbinds
  have hy : ∀ a ∈ eval (.id "y") env, a ≠ 0 := by
    intro a ha
    obtain rfl : 1 = a := Option.some.inj ha
    norm_num
  have hz : ∀ a ∈ eval (.id "z") env, a ≠ 0 := by
    intro a ha
    obtain rfl : 2 = a := Option.some.inj ha
    norm_num
  have hyz : ∀ a ∈ eval (.id "y" / .id "z") env, a ≠ 0 := by
    intro a ha
    obtain rfl : 1 / 2 = a := Option.some.inj ha
    norm_num
  have hvalues := h rfl env hbinds hbinds' ⟨trivial, ⟨trivial, trivial, hz⟩, hyz⟩
    ⟨⟨trivial, trivial, hy⟩, trivial, hz⟩
  rw [eval_exact _ hbinds, eval_exact _ hbinds'] at hvalues
  have hnot : (1 : ℝ) / (1 / 2) ≠ 1 / 1 / 2 := by norm_num
  exact hnot (Option.some.inj hvalues)

/-- `w / x * (y / z)` and `w / x * y / z`: the text is the same, and so is the value. -/
theorem unambiguous_chain : Unambiguous (fun _ => (0 : ℝ))
    (.id "w" / .id "x" * (.id "y" / .id "z")) (.id "w" / .id "x" * .id "y" / .id "z") :=
  unambiguous_of_plain _ letter_names letter_names
    ⟨⟨trivial, trivial, trivial⟩, trivial, trivial, trivial⟩
    ⟨⟨⟨trivial, trivial, trivial⟩, trivial⟩, trivial, trivial⟩

end DocMachine.Haskell.Calculus
