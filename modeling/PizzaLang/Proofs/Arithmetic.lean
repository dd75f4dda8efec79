import Mathlib.Algebra.Group.Int.Defs
import Mathlib.Data.Nat.Digits.Defs
import PizzaLang.Proofs.Meaning
import PizzaLang.Proofs.Shape

/-!
# Checked arithmetic is exact

An expression is evaluated in 64 bits, and every number and every result along the way is looked
at. Here this is compared with arithmetic that has no bounds.

* `PizzaLang.Text.Numeral`: which texts are numbers, and which number each of them is;
* `PizzaLang.SyntaxTree.Denotes`: the value of an expression over all integers, where division
  drops the fraction and nothing is divided by zero;
* `PizzaLang.Tree.operandsFirst`: all parts of a tree in the order in which they are worked on, the
  left operand of an operator before the right one and both before the operator.

An expression is evaluated to its value exactly if each of its parts has a value that fits in 64
bits. Otherwise the first part that does not is at fault: for a division by zero if that is what it
is, and for an overflow in all other cases (`PizzaLang.SyntaxTree.evaluate_exact`).
-/

namespace PizzaLang

/-! ### Numbers as they are written -/

namespace Text

/-- **The number that digits stand for**, in base ten with the most significant digit first. -/
def decimal (ds : List Char) : Nat :=
  Nat.ofDigits 10 (ds.map fun d => d.toNat - '0'.toNat).reverse

theorem digitsValue_eq_decimal (ds : List Char) : digitsValue ds = decimal ds := by
  rw [decimal, Nat.ofDigits_eq_foldr, List.foldr_reverse, List.foldl_map, digitsValue]
  simp only [Nat.add_comm, Nat.cast_id]

/-- **Digits**, and at least one of them. -/
def IsDigits (ds : List Char) : Prop := ds ≠ [] ∧ ∀ d ∈ ds, d.isDigit = true

theorem digits?_eq_some_iff {ds : List Char} {n : Nat} :
    digits? ds = some n ↔ IsDigits ds ∧ n = decimal ds := by
  rw [digits?, digitsValue_eq_decimal, IsDigits, ← List.all_eq_true]
  split
  · next h => rw [and_iff_right h, Option.some.injEq, eq_comm]
  · next h => exact iff_of_false (Option.some_ne_none n).symm fun hn => h hn.1

/-- **A text is a number**: digits, perhaps after a sign. -/
inductive Numeral (text : String) : Int → Prop
  | unsigned {ds : List Char} : text.toList = ds → IsDigits ds → Numeral text (decimal ds)
  | positive {ds : List Char} : text.toList = '+' :: ds → IsDigits ds → Numeral text (decimal ds)
  | negative {ds : List Char} :
      text.toList = '-' :: ds → IsDigits ds → Numeral text (-(decimal ds : Int))

/-- Digits have no sign in front. -/
theorem IsDigits.head {d : Char} {ds : List Char} (h : IsDigits (d :: ds)) : d.isDigit = true :=
  h.2 d List.mem_cons_self

/-- **The numbers that are read are those that are written.** -/
theorem integer?_eq_some_iff {text : String} {n : Int} :
    integer? text = some n ↔ Numeral text n := by
  constructor
  · intro h
    rw [integer?] at h
    split at h
    · next ds htext =>
      obtain ⟨_, hcast, rfl⟩ := Option.map_eq_some_iff.mp h
      obtain ⟨m, hm, heq⟩ := Option.bind_eq_some_iff.mp hcast
      obtain rfl := Option.some.inj heq
      obtain ⟨hds, rfl⟩ := digits?_eq_some_iff.mp hm
      exact .negative htext hds
    · next ds htext =>
      obtain ⟨m, hm, rfl⟩ := Option.map_eq_some_iff.mp h
      obtain ⟨hds, rfl⟩ := digits?_eq_some_iff.mp hm
      exact .positive htext hds
    · obtain ⟨m, hm, rfl⟩ := Option.map_eq_some_iff.mp h
      obtain ⟨hds, rfl⟩ := digits?_eq_some_iff.mp hm
      exact .unsigned rfl hds
  · intro h
    cases h with
    | @unsigned ds htext hds =>
      rw [integer?]
      split
      · next htext' =>
        rw [htext.symm.trans htext'] at hds
        exact absurd hds.head (by decide)
      · next htext' =>
        rw [htext.symm.trans htext'] at hds
        exact absurd hds.head (by decide)
      · rw [htext, digits?_eq_some_iff.mpr ⟨hds, rfl⟩]
        rfl
    | @positive ds htext hds =>
      rw [integer?, htext]
      change (digits? ds).map Int.ofNat = _
      rw [digits?_eq_some_iff.mpr ⟨hds, rfl⟩]
      rfl
    | @negative ds htext hds =>
      rw [integer?, htext]
      change ((digits? ds).bind fun n => some (n : Int)).map (fun n => -n) = _
      rw [digits?_eq_some_iff.mpr ⟨hds, rfl⟩]
      rfl

end Text

/-! ### The order of work -/

namespace Tree

variable {α : Type}

mutual

/-- **All parts of a tree**, those of its children from left to right before the tree itself. -/
def operandsFirst : Tree α → List (Tree α)
  | node a ts => operandsFirstAll ts ++ [node a ts]

/-- All parts of some trees, from left to right. -/
def operandsFirstAll : List (Tree α) → List (Tree α)
  | [] => []
  | t :: ts => operandsFirst t ++ operandsFirstAll ts

end

theorem operandsFirst_leaf {a : α} : operandsFirst (node a []) = [node a []] := by
  rw [operandsFirst, operandsFirstAll, List.nil_append]

theorem operandsFirst_binary {a : α} {left right : Tree α} :
    operandsFirst (node a [left, right]) =
      left.operandsFirst ++ (right.operandsFirst ++ [node a [left, right]]) := by
  rw [operandsFirst, operandsFirstAll, operandsFirstAll, operandsFirstAll, List.append_nil,
    List.append_assoc]

theorem self_mem_operandsFirst (t : Tree α) : t ∈ t.operandsFirst := by
  cases t
  rw [operandsFirst]
  exact List.mem_append_right _ List.mem_cons_self

end Tree

namespace SyntaxTree

/-! ### Arithmetic without bounds -/

/-- **The result of an operation** on integers. Division drops the fraction, and there is no
division by zero. -/
inductive Operates : NodeKind → Int → Int → Int → Prop
  | plus {x y : Int} : Operates .plus x y (x + y)
  | minus {x y : Int} : Operates .minus x y (x - y)
  | times {x y : Int} : Operates .times x y (x * y)
  | divide {x y : Int} : y ≠ 0 → Operates .divide x y (x.tdiv y)

/-- **The value of an expression** over all integers. -/
inductive Denotes : SyntaxTree → Int → Prop
  | number {value : String} {position : Position} {n : Int} :
      Text.Numeral value n → Denotes (.node ⟨.number, value, position⟩ []) n
  | operation {kind : NodeKind} {value : String} {position : Position} {left right : SyntaxTree}
      {x y z : Int} : Denotes left x → Denotes right y → Operates kind x y z →
      Denotes (.node ⟨kind, value, position⟩ [left, right]) z

/-- **A number fits in 64 bits.** -/
def Fits (n : Int) : Prop := -2 ^ 63 ≤ n ∧ n ≤ 2 ^ 63 - 1

/-- **An expression has a value that fits** in 64 bits. -/
def HasQuantity (t : SyntaxTree) : Prop := ∃ n, t.Denotes n ∧ Fits n

/-- **An expression divides by zero.** -/
def DividesByZero (t : SyntaxTree) : Prop :=
  t.kind = .divide ∧ ∃ left right, t.children = [left, right] ∧ Denotes right 0

/-- **The error for an expression** whose operands have values that fit, though it has none
itself. -/
def Faults (t : SyntaxTree) (e : SemanticError) : Prop :=
  t.DividesByZero ∧ e = .divisionByZero t.position ∨ ¬t.DividesByZero ∧ e = .overflow t.position

/-- **The first part at fault**: all parts before it have values that fit, and it has none. -/
def FirstFault (parts : List SyntaxTree) (e : SemanticError) : Prop :=
  ∃ before t after, parts = before ++ t :: after ∧ (∀ u ∈ before, u.HasQuantity) ∧
    ¬t.HasQuantity ∧ t.Faults e

theorem Operates.unique {kind : NodeKind} {x y z z' : Int} (h : Operates kind x y z)
    (h' : Operates kind x y z') : z = z' := by
  cases h <;> cases h' <;> rfl

theorem Denotes.exists_operands {label : NodeLabel} {left right : SyntaxTree} {z : Int}
    (h : Denotes (.node label [left, right]) z) :
    ∃ x y, left.Denotes x ∧ right.Denotes y ∧ Operates label.kind x y z := by
  cases h with
  | operation hleft hright hz => exact ⟨_, _, hleft, hright, hz⟩

/-- **An expression has one value** at most. -/
theorem Denotes.unique {t : SyntaxTree} {n n' : Int} (h : t.Denotes n) (h' : t.Denotes n') :
    n = n' := by
  induction h generalizing n' with
  | number hn =>
    cases h' with
    | number hn' =>
      rw [← Text.integer?_eq_some_iff] at hn hn'
      exact Option.some.inj (hn.symm.trans hn')
  | operation _ _ hz ihleft ihright =>
    cases h' with
    | operation hleft' hright' hz' =>
      obtain rfl := ihleft hleft'
      obtain rfl := ihright hright'
      exact hz.unique hz'

/-! ### Evaluation -/

variable {position : Position} {label : NodeLabel} {x y z n : Int} {e : SemanticError}

theorem isQuantity_iff : isQuantity n = true ↔ Fits n := by
  rw [isQuantity, Bool.and_eq_true, decide_eq_true_eq, decide_eq_true_eq, quantityBound, Fits]
  omega

theorem inRange_eq_ok_iff : inRange position n = .ok z ↔ n = z ∧ Fits n := by
  rw [inRange, ← isQuantity_iff]
  split
  · next h => simp [h]
  · next h => simp [h]

theorem inRange_eq_error_iff :
    inRange position n = .error e ↔ ¬Fits n ∧ e = .overflow position := by
  rw [inRange, ← isQuantity_iff]
  split
  · next h => simp [h]
  · next h => simp [h, eq_comm]

/-- **A number is read** exactly if it fits, and is an overflow otherwise. -/
theorem readQuantity_cases (label : NodeLabel) :
    (∃ n, readQuantity label = .ok n ∧ Text.Numeral label.value n ∧ Fits n) ∨
      readQuantity label = .error (.overflow label.position) ∧
        ∀ n, Text.Numeral label.value n → ¬Fits n := by
  rw [readQuantity]
  cases hread : Text.integer? label.value with
  | none =>
    refine Or.inr ⟨rfl, fun n hn => ?_⟩
    rw [Text.integer?_eq_some_iff.mpr hn] at hread
    cases hread
  | some n =>
    have hn := Text.integer?_eq_some_iff.mp hread
    by_cases hfits : Fits n
    · exact Or.inl ⟨n, inRange_eq_ok_iff.mpr ⟨rfl, hfits⟩, hn, hfits⟩
    · refine Or.inr ⟨inRange_eq_error_iff.mpr ⟨hfits, rfl⟩, fun m hm => ?_⟩
      rw [← Text.integer?_eq_some_iff, hread] at hm
      exact Option.some.inj hm ▸ hfits

theorem operate_of_operates (h : Operates label.kind x y z) :
    operate label x y = inRange label.position z := by
  obtain ⟨kind, value, position⟩ := label
  cases h with
  | plus => rfl
  | minus => rfl
  | times => rfl
  | divide hy => exact if_neg hy

theorem operate_zero (h : label.kind = .divide) :
    operate label x 0 = .error (.divisionByZero label.position) := by
  rw [operate, h]
  exact if_pos rfl

theorem evaluate_operation {left right : SyntaxTree} (hkind : label.kind.isOperator = true) :
    evaluate (.node label [left, right]) =
      left.evaluate >>= fun x => right.evaluate >>= fun y => operate label x y := by
  have hnumber : label.kind ≠ .number := by
    intro h
    rw [h] at hkind
    cases hkind
  rw [evaluate, if_neg hnumber, if_pos hkind]

/-- Every operation but the division by zero has a result. -/
theorem exists_operates {kind : NodeKind} (hkind : kind.isOperator = true) (x : Int)
    (hzero : ¬(kind = .divide ∧ y = 0)) : ∃ z, Operates kind x y z := by
  cases kind
  case plus => exact ⟨_, .plus⟩
  case minus => exact ⟨_, .minus⟩
  case times => exact ⟨_, .times⟩
  case divide => exact ⟨_, .divide fun hy => hzero ⟨rfl, hy⟩⟩
  all_goals cases hkind

theorem Operates.divisor_ne_zero {kind : NodeKind} (h : Operates kind x y z)
    (hkind : kind = .divide) : y ≠ 0 := by
  cases h with
  | divide hy => exact hy
  | plus => cases hkind
  | minus => cases hkind
  | times => cases hkind

/-! ### The first fault -/

namespace FirstFault

variable {parts others : List SyntaxTree} {e' : SemanticError}

theorem append (h : FirstFault parts e) (others : List SyntaxTree) :
    FirstFault (parts ++ others) e := by
  obtain ⟨before, t, after, rfl, hbefore, ht, he⟩ := h
  exact ⟨before, t, after ++ others, by simp, hbefore, ht, he⟩

theorem behind (h : FirstFault others e) (hparts : ∀ u ∈ parts, u.HasQuantity) :
    FirstFault (parts ++ others) e := by
  obtain ⟨before, t, after, rfl, hbefore, ht, he⟩ := h
  exact ⟨parts ++ before, t, after, by simp, List.forall_mem_append.mpr ⟨hparts, hbefore⟩, ht, he⟩

theorem only {t : SyntaxTree} (ht : ¬t.HasQuantity) (he : t.Faults e) : FirstFault [t] e :=
  ⟨[], t, [], rfl, fun _ hu => absurd hu List.not_mem_nil, ht, he⟩

theorem not_all (h : FirstFault parts e) : ¬∀ u ∈ parts, u.HasQuantity := by
  obtain ⟨before, t, after, rfl, -, ht, -⟩ := h
  exact fun hall => ht (hall t (by simp))

/-- There is one first fault, and one error for it. -/
theorem unique (h : FirstFault parts e) (h' : FirstFault parts e') : e = e' := by
  obtain ⟨before, t, after, hsplit, hbefore, ht, he⟩ := h
  obtain ⟨before', t', after', hsplit', hbefore', ht', he'⟩ := h'
  have hsame : t = t' := by
    -- if one of the two came first, the other would not be the first fault
    rcases List.append_eq_append_iff.mp (hsplit.symm.trans hsplit') with
      ⟨ts, hts, heq⟩ | ⟨ts, hts, heq⟩
    · cases ts with
      | nil => exact (List.cons.inj heq).1
      | cons u ts =>
        obtain ⟨rfl, -⟩ := List.cons.inj heq
        exact absurd (hbefore' t (by simp [hts])) ht
    · cases ts with
      | nil => exact (List.cons.inj heq).1.symm
      | cons u ts =>
        obtain ⟨rfl, -⟩ := List.cons.inj heq
        exact absurd (hbefore t' (by simp [hts])) ht'
  subst hsame
  rcases he with ⟨hzero, rfl⟩ | ⟨hzero, rfl⟩
  · rcases he' with ⟨-, rfl⟩ | ⟨hzero', -⟩
    · rfl
    · exact absurd hzero hzero'
  · rcases he' with ⟨hzero', -⟩ | ⟨-, rfl⟩
    · exact absurd hzero' hzero
    · rfl

end FirstFault

/-- **An expression is evaluated to its value, or its first fault is found.** -/
theorem IsExpression.evaluate_cases {t : SyntaxTree} (h : t.IsExpression) :
    (∃ v, t.evaluate = .ok v ∧ t.Denotes v ∧ ∀ u ∈ t.operandsFirst, HasQuantity u) ∨
      ∃ e, t.evaluate = .error e ∧ FirstFault t.operandsFirst e := by
  induction h with
  | @number value position =>
    rw [Tree.operandsFirst_leaf, evaluate, if_pos rfl]
    rcases readQuantity_cases ⟨.number, value, position⟩ with ⟨n, hread, hn, hfits⟩ | ⟨hread, hn⟩
    · refine Or.inl ⟨n, hread, .number hn, List.forall_mem_singleton.mpr ?_⟩
      exact ⟨n, .number hn, hfits⟩
    · refine Or.inr ⟨_, hread, .only ?_ (Or.inr ⟨fun hzero => ?_, rfl⟩)⟩
      · rintro ⟨n, hdenotes, hfits⟩
        cases hdenotes with
        | number hn' => exact hn n hn' hfits
      · cases hzero.1
  | @operation kind value position left right hkind _ _ ihleft ihright =>
    rw [Tree.operandsFirst_binary, evaluate_operation hkind]
    rcases ihleft with ⟨x, hx, hleft, hleft'⟩ | ⟨e, he, hfault⟩
    swap
    · exact Or.inr ⟨e, by rw [he]; rfl, hfault.append _⟩
    rcases ihright with ⟨y, hy, hright, hright'⟩ | ⟨e, he, hfault⟩
    swap
    · exact Or.inr ⟨e, by rw [hx, he]; rfl, (hfault.append _).behind hleft'⟩
    rw [hx, hy]
    change (∃ v, operate ⟨kind, value, position⟩ x y = .ok v ∧ _) ∨
      ∃ e, operate ⟨kind, value, position⟩ x y = .error e ∧ _
    by_cases hzero : kind = .divide ∧ y = 0
    · obtain ⟨rfl, rfl⟩ := hzero
      refine Or.inr ⟨_, operate_zero rfl, ((FirstFault.only ?_ ?_).behind hright').behind hleft'⟩
      · rintro ⟨n, hn, -⟩
        cases hn with
        | operation _ hright₁ hop => exact hop.divisor_ne_zero rfl (hright₁.unique hright)
      · exact Or.inl ⟨⟨rfl, left, right, rfl, hright⟩, rfl⟩
    · obtain ⟨z, hz⟩ := exists_operates hkind x hzero
      have hdenotes : Denotes (.node ⟨kind, value, position⟩ [left, right]) z :=
        .operation hleft hright hz
      have hoperate : operate ⟨kind, value, position⟩ x y = inRange position z :=
        operate_of_operates hz
      rw [hoperate]
      by_cases hfits : Fits z
      · refine Or.inl ⟨z, inRange_eq_ok_iff.mpr ⟨rfl, hfits⟩, hdenotes, ?_⟩
        rw [List.forall_mem_append, List.forall_mem_append, List.forall_mem_singleton]
        exact ⟨hleft', hright', z, hdenotes, hfits⟩
      · refine Or.inr ⟨_, inRange_eq_error_iff.mpr ⟨hfits, rfl⟩,
          ((FirstFault.only ?_ (Or.inr ⟨?_, rfl⟩)).behind hright').behind hleft'⟩
        · rintro ⟨n, hn, hfits'⟩
          exact hfits (hn.unique hdenotes ▸ hfits')
        · rintro ⟨hdivide, left₁, right₁, hchildren, hnought⟩
          have hoperands : [left, right] = [left₁, right₁] := hchildren
          obtain ⟨rfl, rfl⟩ : left = left₁ ∧ right = right₁ := by simpa using hoperands
          exact hzero ⟨hdivide, hright.unique hnought⟩

/-- **Checked evaluation is exact arithmetic.**

* An expression is evaluated to a number exactly if each of its parts has a value over all integers
  that fits in 64 bits – so each number in it is one, and nothing is divided by zero – and the
  number is the value of the whole.
* It fails with an error exactly if there is a part without such a value, and the error is that of
  the first such part, where operands come before their operator and left ones before right ones: a
  division by zero if the divisor is zero, and an overflow in all other cases. -/
theorem evaluate_exact (t : SyntaxTree) (ht : t.IsExpression) :
    (∀ v, t.evaluate = .ok v ↔ (∀ u ∈ t.operandsFirst, HasQuantity u) ∧ t.Denotes v) ∧
    ∀ e, t.evaluate = .error e ↔ FirstFault t.operandsFirst e := by
  rcases ht.evaluate_cases with ⟨v, hv, hdenotes, hall⟩ | ⟨e, he, hfault⟩
  · rw [hv]
    refine ⟨fun w => ⟨fun h => ?_, fun h => ?_⟩, fun e => ⟨fun h => ?_, fun h => ?_⟩⟩
    · obtain rfl := Except.ok.inj h
      exact ⟨hall, hdenotes⟩
    · exact congrArg Except.ok (hdenotes.unique h.2)
    · cases h
    · exact absurd hall h.not_all
  · rw [he]
    refine ⟨fun w => ⟨fun h => ?_, fun h => ?_⟩, fun e' => ⟨fun h => ?_, fun h => ?_⟩⟩
    · cases h
    · exact absurd h.1 hfault.not_all
    · obtain rfl := Except.error.inj h
      exact hfault
    · exact congrArg Except.error (hfault.unique h)

/-- A number in some column. -/
def numberIn (column : Nat) (value : String) : SyntaxTree :=
  .node ⟨.number, value, ⟨1, column, ⟨"main.pf"⟩⟩⟩ []

/-- A quotient of two numbers in some column. -/
def quotientIn (column : Nat) (dividend divisor : String) : SyntaxTree :=
  .node ⟨.divide, "DIVIDE", ⟨1, column, ⟨"main.pf"⟩⟩⟩
    [numberIn (column + 1) dividend, numberIn (column + 2) divisor]

theorem isExpression_quotientIn (column : Nat) (dividend divisor : String) :
    (quotientIn column dividend divisor).IsExpression :=
  .operation rfl .number .number

/-- The sum of a quotient that does not fit and of one by zero. -/
def leastNegated : SyntaxTree :=
  .node ⟨.plus, "PLUS", ⟨1, 1, ⟨"main.pf"⟩⟩⟩
    [quotientIn 2 "-9223372036854775808" "-1", quotientIn 5 "1" "0"]

/-- The fraction of a negative quotient is dropped, as in the exact value, and of two faults the
first one counts: the least number has no negative. -/
theorem evaluate_exact_quotients :
    (quotientIn 2 "+07" "-2").evaluate = .ok (-3) ∧ (quotientIn 2 "+07" "-2").Denotes (-3) ∧
    leastNegated.evaluate = .error (.overflow ⟨1, 2, ⟨"main.pf"⟩⟩) ∧
    FirstFault leastNegated.operandsFirst (.overflow ⟨1, 2, ⟨"main.pf"⟩⟩) := by
  have hok : (quotientIn 2 "+07" "-2").evaluate = .ok (-3) := by decide +kernel
  have herror : leastNegated.evaluate = .error (.overflow ⟨1, 2, ⟨"main.pf"⟩⟩) := by
    decide +kernel
  have hexpression : leastNegated.IsExpression :=
    .operation rfl (isExpression_quotientIn ..) (isExpression_quotientIn ..)
  exact ⟨hok, (((evaluate_exact _ (isExpression_quotientIn ..)).1 _).mp hok).2, herror,
    ((evaluate_exact _ hexpression).2 _).mp herror⟩

end SyntaxTree

end PizzaLang
