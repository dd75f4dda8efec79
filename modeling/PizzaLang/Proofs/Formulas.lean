import PizzaLang.Proofs.Arithmetic
import PizzaLang.Proofs.Construction

/-!
# What numbers joined by operators are worth

The quantity of an ingredient is written as numbers with operators between them. Products are
taken before sums, and on both levels what stands to the right of an operator is taken first. This
is said without trees (`PizzaLang.Formula.value`): cut the numbers at the operators `+` and `-`,
fold each product from the right, then fold the sums and differences from the right.

* The tree that is read has that value, if it has one at all (`PizzaLang.Row.read`).
* Numbers have no signs, so a product is never negative
  (`PizzaLang.SyntaxTree.IsProduct.nonneg`), and a sum or a difference stays above the least number
  in 64 bits (`PizzaLang.SyntaxTree.IsSum.lower_bound`). In particular no quotient overflows
  (`PizzaLang.SyntaxTree.IsProduct.evaluate_divide`).
-/

namespace PizzaLang

/-! ### Values without trees -/

/-- **A row of things joined by operators**: the first, and the others with the operators before
them. -/
structure Formula (α : Type) where
  first : α
  others : List (Lexeme × α)

namespace Formula

/-- A row with other things in it, and the same operators. -/
def map {α β : Type} (g : α → β) (f : Formula α) : Formula β :=
  ⟨g f.first, f.others.map fun p => (p.1, g p.2)⟩

/-- What an operator does to two numbers; a quotient loses its fraction. -/
def apply : Lexeme → Int → Int → Int
  | .plus, x, y => x + y
  | .minus, x, y => x - y
  | .times, x, y => x * y
  | _, x, y => x.tdiv y

/-- Numbers folded from the right, the first of which is given apart. -/
def foldFrom (first : Int) : List (Lexeme × Int) → Int
  | [] => first
  | (operator, n) :: others => apply operator first (foldFrom n others)

/-- **Numbers folded from the right**, whatever the operators are. -/
def fold (f : Formula Int) : Int := foldFrom f.first f.others

/-- A row cut in pieces at `+` and `-`, given its first number and the others. -/
def cutFrom (first : Int) : List (Lexeme × Int) → Formula (Formula Int)
  | [] => ⟨⟨first, []⟩, []⟩
  | (operator, n) :: others =>
    let rest := cutFrom n others
    if operator ∈ [.plus, .minus] then ⟨⟨first, []⟩, (operator, rest.first) :: rest.others⟩
    else ⟨⟨first, (operator, rest.first.first) :: rest.first.others⟩, rest.others⟩

/-- **Products, joined by `+` and `-`**: a row of numbers cut at these operators. -/
def cut (f : Formula Int) : Formula (Formula Int) := cutFrom f.first f.others

/-- **The value of a row of numbers**: each product is folded from the right, and so are the sums
and differences of what results. -/
def value (f : Formula Int) : Int := (f.cut.map fold).fold

end Formula

/-! ### Rows of tokens -/

/-- The number that the text of a token stands for. -/
def Token.decimal (t : Token) : Int := Text.decimal t.text.toList

/-- **A number has no sign**: if the token is a number, its text is digits. -/
def Token.Unsigned (t : Token) : Prop :=
  t.lexeme = .number → ∀ d ∈ t.text.toList, d.isDigit = true

/-- A token for a number, in digits. -/
abbrev Digits := { t : Token // t.lexeme = .number ∧ ∀ d ∈ t.text.toList, d.isDigit = true }

/-- The token as one that is only known to be a number. -/
def Digits.leaf (n : Digits) : Derivation.Leaf [.number] := ⟨n.1, List.mem_singleton.mpr n.2.1⟩

/-- **A row of numbers**, as tokens. -/
structure Row where
  first : Digits
  others : List (Derivation.Leaf [.plus, .minus, .times, .divide] × Digits)

namespace Row

/-- The tokens of a row. -/
def tokens (row : Row) : List Token :=
  row.first.1 :: row.others.flatMap fun p => [p.1.1, p.2.1]

/-- The numbers of a row. -/
def formula (row : Row) : Formula Int :=
  ⟨row.first.1.decimal, row.others.map fun p => (p.1.1.lexeme, p.2.1.decimal)⟩

theorem cut_cons (first n : Digits)
    (operator : Derivation.Leaf [.plus, .minus, .times, .divide])
    (others : List (Derivation.Leaf [.plus, .minus, .times, .divide] × Digits)) :
    (formula ⟨first, (operator, n) :: others⟩).cut =
      let rest := (formula ⟨n, others⟩).cut
      if operator.1.lexeme ∈ [.plus, .minus] then
        ⟨⟨first.1.decimal, []⟩, (operator.1.lexeme, rest.first) :: rest.others⟩
      else
        ⟨⟨first.1.decimal, (operator.1.lexeme, rest.first.first) :: rest.first.others⟩,
          rest.others⟩ := rfl

theorem unsigned (row : Row) : ∀ t ∈ row.tokens, t.Unsigned := by
  intro t ht
  rcases List.mem_cons.mp ht with rfl | ht
  · exact fun _ => row.first.2.2
  · obtain ⟨p, -, hp⟩ := List.mem_flatMap.mp ht
    rcases List.mem_cons.mp hp with rfl | hp
    · intro hnumber
      have hoperator := p.1.2
      rw [hnumber] at hoperator
      exact absurd hoperator (by decide)
    · obtain rfl := List.mem_singleton.mp hp
      exact fun _ => p.2.2.2

end Row

/-! ### Values of derivations -/

namespace Derivation

open SyntaxTree

section Chains

variable {operators : List Lexeme} {α : Type}

/-- The value of a chain, given that of an operand. -/
def Chain.value (operand : α → Int) : Chain operators α → Int
  | last a => operand a
  | link left operator right =>
    Formula.apply operator.1.lexeme (operand left) (right.value operand)

/-- The operands of a chain as a row. -/
def Chain.formula {β : Type} (operand : α → β) : Chain operators α → Formula β
  | last a => ⟨operand a, []⟩
  | link left operator right =>
    ⟨operand left, (operator.1.lexeme, (right.formula operand).first) ::
      (right.formula operand).others⟩

theorem Chain.value_eq_fold (operand : α → Int) (c : Chain operators α) :
    c.value operand = (c.formula operand).fold := by
  induction c with
  | last a => rfl
  | link left operator right ih =>
    rw [value, ih]
    rfl

theorem Chain.map_formula {β γ : Type} (g : β → γ) (operand : α → β) (c : Chain operators α) :
    (c.formula operand).map g = c.formula fun a => g (operand a) := by
  induction c with
  | last a => rfl
  | link left operator right ih =>
    rw [formula, formula, ← ih]
    rfl

end Chains

/-- The numbers of a term. -/
def Term.formula : Term → Formula Int := Chain.formula fun n => n.1.decimal

/-- The value of a term. -/
def Term.value : Term → Int := Chain.value fun n => n.1.decimal

/-- The value of an expression. -/
def Expression.value : Expression → Int := Chain.value Term.value

/-- **The value of an expression** is that of its terms, folded like their numbers. -/
theorem Expression.value_eq (e : Expression) :
    Expression.value e = ((Chain.formula Term.formula e).map Formula.fold).fold := by
  have hterm : Term.value = fun t => (Term.formula t).fold := funext (Chain.value_eq_fold _)
  rw [Expression.value, Chain.value_eq_fold, Chain.map_formula, hterm]

end Derivation

open PizzaLang.Derivation in
/-- **A row of numbers is an expression**, whose terms are the products that the row is cut in. -/
theorem Row.exists_expression (row : Row) : ∃ e : Expression,
    Expression.tokens e = row.tokens ∧ Chain.formula Term.formula e = row.formula.cut := by
  obtain ⟨first, others⟩ := row
  induction others generalizing first with
  | nil => exact ⟨.last (.last first.leaf), rfl, rfl⟩
  | cons p others ih =>
    obtain ⟨operator, n⟩ := p
    obtain ⟨e, htokens, hcut⟩ := ih n
    rw [cut_cons, ← hcut]
    by_cases hsum : operator.1.lexeme ∈ [.plus, .minus]
    · -- the operator ends the first product
      refine ⟨.link (.last first.leaf) ⟨operator.1, hsum⟩ e, ?_, (if_pos hsum).symm⟩
      exact congrArg (first.1 :: operator.1 :: ·) htokens
    · -- the first product goes on with the first term of what follows
      have hproduct : operator.1.lexeme ∈ [.times, .divide] := by
        have hoperator := operator.2
        simp only [List.mem_cons, List.not_mem_nil, or_false] at hoperator hsum ⊢
        tauto
      rw [if_neg hsum]
      cases e with
      | last t =>
        exact ⟨.last (.link first.leaf ⟨operator.1, hproduct⟩ t),
          congrArg (first.1 :: operator.1 :: ·) htokens, rfl⟩
      | link t operator' e =>
        exact ⟨.link (.link first.leaf ⟨operator.1, hproduct⟩ t) operator' e,
          congrArg (first.1 :: operator.1 :: ·) htokens, rfl⟩

/-! ### Values of trees -/

theorem Text.Numeral.eq_decimal {text : String} {n : Int} (h : Numeral text n)
    (hdigits : ∀ d ∈ text.toList, d.isDigit = true) : n = Text.decimal text.toList := by
  cases h with
  | unsigned htext => rw [htext]
  | positive htext =>
    rw [htext, List.forall_mem_cons] at hdigits
    exact absurd hdigits.1 (by decide)
  | negative htext =>
    rw [htext, List.forall_mem_cons] at hdigits
    exact absurd hdigits.1 (by decide)

namespace Derivation

open SyntaxTree

/-- The operation that an operator stands for is what it does. -/
theorem eq_apply_of_operates {l : Lexeme} {x y z : Int} (h : Operates (operation l) x y z) :
    z = Formula.apply l x y := by
  cases l <;> cases h <;> rfl

/-- **The tree of a chain has the value of the chain**, if trees of operands have theirs. -/
theorem Chain.value_of_denotes {operators : List Lexeme} {α : Type} {tokens : α → List Token}
    {tree : α → SyntaxTree} {value : α → Int}
    (h : ∀ a, (∀ t ∈ tokens a, t.Unsigned) → ∀ v, (tree a).Denotes v → v = value a)
    {c : Chain operators α} (hc : ∀ t ∈ c.tokens tokens, t.Unsigned) {v : Int}
    (hv : (c.tree tree).Denotes v) : v = c.value value := by
  induction c generalizing v with
  | last a => exact h a hc v hv
  | link left operator right ih =>
    rw [Chain.tokens, List.forall_mem_append, List.forall_mem_cons] at hc
    obtain ⟨x, y, hleft, hright, hop⟩ := hv.exists_operands
    obtain rfl := h left hc.1 x hleft
    obtain rfl := ih hc.2.2 hright
    exact eq_apply_of_operates hop

theorem Term.value_of_denotes {t : Term} (ht : ∀ u ∈ Term.tokens t, u.Unsigned) {v : Int}
    (hv : (Term.tree t).Denotes v) : v = Term.value t := by
  refine Chain.value_of_denotes (fun n hn v hv => ?_) ht hv
  rw [numberTree, nodeAt] at hv
  cases hv with
  | number hnumeral =>
    exact hnumeral.eq_decimal (hn n.1 List.mem_cons_self (List.mem_singleton.mp n.2))

/-- **The tree of an expression has the value of the expression**, if it has a value at all. -/
theorem Expression.value_of_denotes {e : Expression}
    (he : ∀ t ∈ Expression.tokens e, t.Unsigned) {v : Int} (hv : (Expression.tree e).Denotes v) :
    v = Expression.value e :=
  Chain.value_of_denotes (fun _ ht _ hv => Term.value_of_denotes ht hv) he hv

end Derivation

/-! ### Ranges -/

namespace SyntaxTree

/-- **A product** of numbers without signs; quotients count as products. -/
inductive IsProduct : SyntaxTree → Prop
  | number {value : String} {position : Position} :
      (∀ d ∈ value.toList, d.isDigit = true) → IsProduct (.node ⟨.number, value, position⟩ [])
  | operation {kind : NodeKind} {value : String} {position : Position} {left right : SyntaxTree} :
      kind = .times ∨ kind = .divide → IsProduct left → IsProduct right →
      IsProduct (.node ⟨kind, value, position⟩ [left, right])

/-- **A sum** of products, in which operands on the left are products; differences count as
sums. -/
inductive IsSum : SyntaxTree → Prop
  | product {t : SyntaxTree} : t.IsProduct → IsSum t
  | operation {kind : NodeKind} {value : String} {position : Position} {left right : SyntaxTree} :
      kind = .plus ∨ kind = .minus → left.IsProduct → IsSum right →
      IsSum (.node ⟨kind, value, position⟩ [left, right])

variable {t u : SyntaxTree} {v x y : Int}

theorem IsProduct.isExpression (h : t.IsProduct) : t.IsExpression := by
  induction h with
  | number => exact .number
  | operation hkind _ _ ihleft ihright =>
    exact .operation (by rcases hkind with rfl | rfl <;> rfl) ihleft ihright

theorem IsSum.isExpression (h : t.IsSum) : t.IsExpression := by
  induction h with
  | product hproduct => exact hproduct.isExpression
  | operation hkind hleft _ ihright =>
    exact .operation (by rcases hkind with rfl | rfl <;> rfl) hleft.isExpression ihright

theorem IsExpression.denotes (h : t.IsExpression) (hv : t.evaluate = .ok v) :
    t.Denotes v ∧ ∀ u ∈ t.operandsFirst, HasQuantity u := by
  rcases h.evaluate_cases with ⟨w, hw, hdenotes, hparts⟩ | ⟨e, he, -⟩
  · obtain rfl := Except.ok.inj (hw.symm.trans hv)
    exact ⟨hdenotes, hparts⟩
  · rw [he] at hv
    cases hv

/-- The parts of a product are products. -/
theorem IsProduct.parts (h : t.IsProduct) : ∀ u ∈ t.operandsFirst, IsProduct u := by
  induction h with
  | number hdigits =>
    rw [Tree.operandsFirst_leaf, List.forall_mem_singleton]
    exact .number hdigits
  | operation hkind hleft hright ihleft ihright =>
    rw [Tree.operandsFirst_binary, List.forall_mem_append, List.forall_mem_append,
      List.forall_mem_singleton]
    exact ⟨ihleft, ihright, .operation hkind hleft hright⟩

/-- The parts of a sum are sums. -/
theorem IsSum.parts (h : t.IsSum) : ∀ u ∈ t.operandsFirst, IsSum u := by
  induction h with
  | product hproduct => exact fun u hu => .product (hproduct.parts u hu)
  | operation hkind hleft hright ihright =>
    rw [Tree.operandsFirst_binary, List.forall_mem_append, List.forall_mem_append,
      List.forall_mem_singleton]
    exact ⟨fun u hu => .product (hleft.parts u hu), ihright, .operation hkind hleft hright⟩

/-- A sum without `+` and `-` on top is a product. -/
theorem IsSum.isProduct (h : t.IsSum) (hplus : t.kind ≠ .plus) (hminus : t.kind ≠ .minus) :
    t.IsProduct := by
  cases h with
  | product hproduct => exact hproduct
  | operation hkind =>
    rcases hkind with rfl | rfl
    · exact absurd rfl hplus
    · exact absurd rfl hminus

/-- **A product is not negative.** -/
theorem IsProduct.nonneg (h : t.IsProduct) (hv : t.Denotes v) : 0 ≤ v := by
  induction h generalizing v with
  | number hdigits =>
    cases hv with
    | number hnumeral =>
      rw [hnumeral.eq_decimal hdigits]
      exact Int.natCast_nonneg _
  | operation hkind _ _ ihleft ihright =>
    obtain ⟨x, y, hleft, hright, hop⟩ := hv.exists_operands
    have hx := ihleft hleft
    have hy := ihright hright
    rcases hkind with rfl | rfl
    · cases hop with
      | times => exact Int.mul_nonneg hx hy
    · cases hop with
      | divide => exact Int.tdiv_nonneg hx hy

/-- **A sum is above the least number in 64 bits.** What is taken away from a product is at most
the greatest number, and what is added to it is a sum again. -/
theorem IsSum.lower_bound (h : t.IsSum) (hparts : ∀ u ∈ t.operandsFirst, HasQuantity u)
    (hv : t.Denotes v) : -(2 ^ 63 - 1) ≤ v := by
  induction h generalizing v with
  | product hproduct =>
    have hnonneg := hproduct.nonneg hv
    omega
  | @operation _ _ _ left right hkind hproduct hsum ih =>
    obtain ⟨x, y, hleft, hright, hop⟩ := hv.exists_operands
    rw [Tree.operandsFirst_binary, List.forall_mem_append, List.forall_mem_append] at hparts
    have hx := hproduct.nonneg hleft
    rcases hkind with rfl | rfl
    · have hy := ih hparts.2.1 hright
      cases hop with
      | plus => omega
    · obtain ⟨y', hright', hfits⟩ := hparts.2.1 right right.self_mem_operandsFirst
      obtain rfl := hright.unique hright'
      have hy := hfits.2
      cases hop with
      | minus => omega

/-- **A quotient of products never overflows.** -/
theorem IsProduct.evaluate_divide {left right : SyntaxTree} (h : t.IsProduct)
    (hkind : t.kind = .divide) (hchildren : t.children = [left, right])
    (hleft : left.evaluate = .ok x) (hright : right.evaluate = .ok y) :
    t.evaluate = if y = 0 then .error (.divisionByZero t.position) else .ok (x.tdiv y) := by
  cases h with
  | number => cases hkind
  | @operation kind value position left₁ right₁ _ hproduct hproduct' =>
    obtain rfl : kind = .divide := hkind
    obtain ⟨rfl, rfl⟩ : left₁ = left ∧ right₁ = right := by
      have hoperands : [left₁, right₁] = [left, right] := hchildren
      simpa using hoperands
    rw [evaluate_operation rfl, hleft, hright]
    change operate ⟨.divide, value, position⟩ x y = _
    split
    · next hzero =>
      rw [hzero]
      exact operate_zero rfl
    · next hne =>
      obtain ⟨hdenotes, hparts⟩ := hproduct.isExpression.denotes hleft
      obtain ⟨x', hdenotes', hfits⟩ := hparts left₁ left₁.self_mem_operandsFirst
      obtain rfl := hdenotes.unique hdenotes'
      -- the quotient lies between zero and the dividend
      have hx : 0 ≤ x := hproduct.nonneg hdenotes
      have hy : 0 ≤ y := hproduct'.nonneg (hproduct'.isExpression.denotes hright).1
      have hnonneg : 0 ≤ x.tdiv y := Int.tdiv_nonneg hx hy
      have hle : x.tdiv y ≤ x := Int.tdiv_le_self y hx
      have hquotient : Fits (x.tdiv y) := ⟨by omega, hle.trans hfits.2⟩
      have hoperate : operate ⟨.divide, value, position⟩ x y = inRange position (x.tdiv y) :=
        operate_of_operates (.divide hne)
      rw [hoperate]
      exact inRange_eq_ok_iff.mpr ⟨rfl, hquotient⟩

end SyntaxTree

namespace Derivation

open SyntaxTree

theorem Term.isProduct {t : Term} (ht : ∀ u ∈ Term.tokens t, u.Unsigned) :
    (Term.tree t).IsProduct := by
  have hnumber : ∀ n : Leaf [.number], n.1.Unsigned → (numberTree n).IsProduct :=
    fun n hn => .number (hn (List.mem_singleton.mp n.2))
  induction t with
  | last n => exact hnumber n (ht n.1 List.mem_cons_self)
  | link n operator t ih =>
    rw [Term.tokens, Chain.tokens, List.singleton_append, List.forall_mem_cons,
      List.forall_mem_cons] at ht
    refine .operation ?_ (hnumber n ht.1) (ih ht.2.2)
    rcases List.mem_pair.mp operator.2 with h | h <;> simp [h, operation]

theorem Expression.isSum {e : Expression} (he : ∀ t ∈ Expression.tokens e, t.Unsigned) :
    (Expression.tree e).IsSum := by
  induction e with
  | last t => exact .product (Term.isProduct he)
  | link t operator e ih =>
    rw [Expression.tokens, Chain.tokens, List.forall_mem_append, List.forall_mem_cons] at he
    refine .operation ?_ (Term.isProduct he.1) (ih he.2.2)
    rcases List.mem_pair.mp operator.2 with h | h <;> simp [h, operation]

end Derivation

/-! ### Reading -/

open PizzaLang.Derivation in
/-- **A row is read as a whole**, and what comes of it is a sum that has the value of the row, if
it has a value at all. -/
theorem Row.read (row : Row) {s : Cursor} {after : List Token} (hs : s.rest = row.tokens ++ after)
    (hafter : ¬Ahead [.plus, .minus, .times, .divide] after) :
    ∃ id s', Reader.expression s = .ok id s' ∧ s'.rest = after ∧
      (s'.forest.subtree id).IsSum ∧
      ∀ v, (s'.forest.subtree id).Denotes v → v = row.formula.value := by
  obtain ⟨e, htokens, hcut⟩ := row.exists_expression
  have hunsigned : ∀ t ∈ Expression.tokens e, t.Unsigned := htokens ▸ row.unsigned
  rw [← htokens] at hs
  obtain ⟨id, s', hread, f, hs', hplanted⟩ := Reader.plants_expression e ⟨hs, rfl⟩ hafter
  obtain rfl := hs'.forest
  refine ⟨id, s', hread, hs'.rest, ?_, ?_⟩
  · rw [hplanted.subtree]
    exact Expression.isSum hunsigned
  · intro v hv
    rw [hplanted.subtree] at hv
    rw [Expression.value_of_denotes hunsigned hv, Expression.value_eq, hcut, Formula.value]

/-- `10 - 3 - 2` is read as `10 - (3 - 2)`. -/
example : Formula.value ⟨10, [(.minus, 3), (.minus, 2)]⟩ = 9 := by decide

/-- `8 / 2 * 2 - 1` is read as `8 / (2 * 2) - 1`. -/
example : Formula.value ⟨8, [(.divide, 2), (.times, 2), (.minus, 1)]⟩ = 1 := by decide

end PizzaLang
