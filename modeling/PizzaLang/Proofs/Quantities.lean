import PizzaLang.Proofs.Acceptance
import PizzaLang.Proofs.Formulas
import PizzaLang.Proofs.NoMisfit
import PizzaLang.Proofs.Placement

/-!
# Quantities in a text

The quantities of a text are rows of numbers without signs. They are read as sums of products
(`PizzaLang.Row.read`), so there is little room for what can be wrong with them: if a quantity has a
value but not a positive one, the value is zero or the negative of a number in 64 bits, and never
the least number, which has no negative.

An error about such a quantity is traced from a compilation to the unit, the statement and the use
that it comes from (`PizzaLang.SyntaxTree.NotPositive`), at whatever depth.

The result is `PizzaLang.quantities_in_source`.
-/

namespace PizzaLang

open SyntaxTree

/-! ### Uses that are refused -/

/-- **A use has a quantity that is not positive**, and that is the error. -/
def SyntaxTree.NotPositive (u : SyntaxTree) (e : SemanticError) : Prop :=
  ∃ quantity q, u.child? 0 = some quantity ∧ quantity.evaluate = .ok q ∧ q ≤ 0 ∧
    e = .invalidQuantity u.value q u.position

section Refusals

variable {t : SymbolTable} {u d : SyntaxTree} {name : String} {q : Int} {position : Position}

/-- What is wrong with an expression is not its value. -/
theorem SyntaxTree.IsExpression.evaluate_ne_invalidQuantity (h : u.IsExpression) :
    u.evaluate ≠ .error (.invalidQuantity name q position) := by
  intro hquantity
  rcases h.evaluate_cases with ⟨v, hv, -⟩ | ⟨e, he, before, part, after, -, -, -, hfaults⟩
  · rw [hv] at hquantity
    cases hquantity
  · obtain rfl := Except.error.inj (he.symm.trans hquantity)
    rcases hfaults with ⟨-, hfault⟩ | ⟨-, hfault⟩ <;> cases hfault

namespace SymbolTable

theorem lookup_ne_invalidQuantity {kind : SymbolKind} :
    t.lookup u kind ≠ .error (.invalidQuantity name q position) := by
  rw [lookup]
  split
  · simp
  · split <;> simp

theorem notPositive_of_portionOf (hu : u.IsUse)
    (h : t.portionOf u = .error (.invalidQuantity name q position)) :
    u.NotPositive (.invalidQuantity name q position) := by
  cases hu with
  | @intro _ _ quantity hquantity =>
    rcases Fallible.bind_eq_error_iff.mp h with h | ⟨i, -, h⟩
    · exact absurd (useIngredient_eq_error_iff.mp h) lookup_ne_invalidQuantity
    rcases Fallible.bind_eq_error_iff.mp h with h | ⟨node, hnode, h⟩
    · cases h
    obtain rfl : quantity = node := Except.ok.inj hnode
    rcases Fallible.bind_eq_error_iff.mp h with h | ⟨x, hx, h⟩
    · exact absurd h hquantity.evaluate_ne_invalidQuantity
    split at h
    · next hle => exact ⟨quantity, x, rfl, hx, hle, (Except.error.inj h).symm⟩
    · cases h

/-- A step that takes a portion in is refused for the portion. -/
theorem notPositive_of_fold {β : Type} {step : β → SyntaxTree → Except SemanticError β}
    {take : β → Portion → β}
    (hstep : ∀ b u, step b u = t.portionOf u >>= fun p => pure (take b p))
    {uses : List SyntaxTree} (huses : ∀ u ∈ uses, u.IsUse) {b : β}
    (h : uses.foldlM step b = .error (.invalidQuantity name q position)) :
    ∃ u ∈ uses, u.NotPositive (.invalidQuantity name q position) := by
  obtain ⟨u, hu, b', h⟩ := Fallible.exists_of_foldlM_eq_error h
  rw [hstep] at h
  rcases Fallible.bind_eq_error_iff.mp h with h | ⟨p, -, h⟩
  · exact ⟨u, hu, notPositive_of_portionOf (huses u hu) h⟩
  · exact absurd h Fallible.pure_ne_error

/-- A specialty is refused for one of its uses. -/
theorem notPositive_of_specialtyOf {l l' : NodeLabel} {uses : List SyntaxTree}
    (huses : ∀ u ∈ uses, u.IsUse)
    (h : t.specialtyOf (.node l [.node l' uses]) = .error (.invalidQuantity name q position)) :
    ∃ u ∈ uses, u.NotPositive (.invalidQuantity name q position) := by
  rcases Fallible.bind_eq_error_iff.mp h with h | ⟨node, hnode, h⟩
  · cases h
  obtain rfl : .node l' uses = node := Except.ok.inj hnode
  rcases Fallible.bind_eq_error_iff.mp h with h | ⟨portions, -, h⟩
  · exact notPositive_of_fold (fun _ _ => rfl) huses h
  · exact absurd h Fallible.pure_ne_error

/-- A clause is refused for one of the ingredients that it adds. -/
theorem notPositive_of_addClause {pizza : Pizza} (hd : d.IsClause)
    (h : t.addClause pizza d = .error (.invalidQuantity name q position)) :
    d.kind = .add ∧ ∃ u ∈ d.children, NotPositive u (.invalidQuantity name q position) := by
  cases hd with
  | add huses =>
    rcases Fallible.bind_eq_error_iff.mp h with h | ⟨portions, -, h⟩
    · exact ⟨rfl, notPositive_of_fold (fun _ _ => rfl) huses h⟩
    · exact absurd h Fallible.pure_ne_error
  | names =>
    rcases Fallible.bind_eq_error_iff.mp h with h | ⟨specialties, -, h⟩
    · obtain ⟨u, -, b, h⟩ := Fallible.exists_of_foldlM_eq_error h
      rcases Fallible.bind_eq_error_iff.mp h with h | ⟨p, -, h⟩
      · exact absurd (useSpecialty_eq_error_iff.mp h) lookup_ne_invalidQuantity
      · exact absurd h Fallible.pure_ne_error
    · exact absurd h Fallible.pure_ne_error
  | save => cases h

/-- An order is refused for one of the ingredients that it adds. -/
theorem notPositive_of_pizzaOf {l size pizza : NodeLabel} {clauses : List SyntaxTree}
    (hclauses : ∀ c ∈ clauses, c.IsClause)
    (h : t.pizzaOf (.node l [.node size [.node pizza clauses]]) =
      .error (.invalidQuantity name q position)) :
    ∃ c ∈ clauses, c.kind = .add ∧
      ∃ u ∈ c.children, NotPositive u (.invalidQuantity name q position) := by
  rcases Fallible.bind_eq_error_iff.mp h with h | ⟨node, hnode, h⟩
  · cases h
  obtain rfl : .node size [.node pizza clauses] = node := Except.ok.inj hnode
  split at h
  · cases h
  · rcases Fallible.bind_eq_error_iff.mp h with h | ⟨body, hbody, h⟩
    · cases h
    obtain rfl : .node pizza clauses = body := Except.ok.inj hbody
    obtain ⟨c, hc, b, h⟩ := Fallible.exists_of_foldlM_eq_error h
    exact ⟨c, hc, notPositive_of_addClause (hclauses c hc) h⟩

end SymbolTable

/-- An image is never refused for a quantity. -/
theorem ingredientOf_ne_invalidQuantity {d name' path : SyntaxTree} {intrinsic : ImageSize}
    (hd : d.IsDefinition) (hkind : d.kind = .ingredient) :
    ingredientOf d name' path intrinsic ≠ .error (.invalidQuantity name q position) := by
  intro h
  rcases Fallible.bind_eq_error_iff.mp h with h | ⟨size, -, h⟩
  · cases hd with
    | ingredient => cases h
    | @resized _ _ _ resize _ number =>
      rcases Fallible.bind_eq_error_iff.mp h with h | ⟨node, -, h⟩
      · cases h
      · split at h
        · cases h
        · cases h
    | specialty => cases hkind
  · split at h
    · cases h
    · split at h
      · cases h
      · cases h

end Refusals

/-! ### Statements that are refused -/

namespace Compiler

variable {c : Compiler} {chain : List Path} {m : Menu} {t : SyntaxTree} {name : String} {q : Int}
  {position : Position}

/-- A statement that is at fault for a quantity has a use with that quantity. -/
theorem Faulty.notPositive (ht : t.IsStatement)
    (h : c.Faulty chain m t (.semantic (.invalidQuantity name q position))) :
    ∃ u ∈ t.uses, NotPositive u (.invalidQuantity name q position) := by
  rcases h.semantic_cases ht with ⟨_, he⟩ | ⟨d, hkind, hd, hundeclared⟩ | ⟨hkind, hmade⟩
  · cases he
  · cases ht with
    | inclusion => cases hkind
    | definition hdefined =>
      obtain rfl := Except.ok.inj hd
      rcases hundeclared.semantic_cases hdefined with ⟨hkind, _, _, _, hdrawn⟩ | ⟨hkind, hmade⟩
      · exact absurd hdrawn (ingredientOf_ne_invalidQuantity hdefined hkind)
      · cases hdefined with
        | ingredient => cases hkind
        | resized => cases hkind
        | specialty huses =>
          rw [uses_specialty]
          exact SymbolTable.notPositive_of_specialtyOf huses hmade
    | make => cases hkind
  · cases ht with
    | inclusion => cases hkind
    | definition => cases hkind
    | make hclauses =>
      obtain ⟨clause, hclause, hadd, u, hu, h⟩ :=
        SymbolTable.notPositive_of_pizzaOf hclauses hmade
      refine ⟨u, mem_partsOf.mpr ⟨clause, ?_, hadd, hu⟩, h⟩
      rwa [clauses_make]

end Compiler

/-! ### Uses in a text -/

namespace Derivation

theorem AddClause.exists_use (a : AddClause) {u : SyntaxTree} (hu : u ∈ a.tree.children) :
    ∃ use : Use, use.tree = u ∧ ∀ t ∈ use.tokens, t ∈ a.tokens := by
  rcases List.mem_cons.mp hu with rfl | hu
  · exact ⟨a.first, rfl, fun t ht => List.mem_cons_of_mem _ (List.mem_append_left _ ht)⟩
  · obtain ⟨p, hp, rfl⟩ := List.mem_map.mp hu
    refine ⟨p.2, rfl, fun t ht => List.mem_cons_of_mem _ (List.mem_append_right _ ?_)⟩
    exact List.mem_flatMap.mpr ⟨p, hp, List.mem_cons_of_mem _ ht⟩

theorem Toppings.exists_use (toppings : Toppings) {clause u : SyntaxTree}
    (hclause : clause ∈ toppings.trees) (hkind : clause.kind = .add) (hu : u ∈ clause.children) :
    ∃ use : Use, use.tree = u ∧ ∀ t ∈ use.tokens, t ∈ toppings.tokens := by
  cases toppings with
  | add a =>
    obtain rfl := List.mem_singleton.mp hclause
    exact a.exists_use hu
  | names o added =>
    rcases List.mem_cons.mp hclause with rfl | hadded
    · cases hkind
    · obtain ⟨a, ha, rfl⟩ := List.mem_map.mp hadded
      obtain ⟨use, htree, htokens⟩ := a.exists_use hu
      refine ⟨use, htree, fun t ht => List.mem_append_right _ ?_⟩
      exact List.mem_flatMap.mpr ⟨a, ha, htokens t ht⟩

/-- **The uses in a statement are derived** from tokens of the statement. -/
theorem Statement.exists_use (s : Statement) {u : SyntaxTree} (hu : u ∈ s.tree.uses) :
    ∃ use : Use, use.tree = u ∧ ∀ t ∈ use.tokens, t ∈ s.tokens := by
  cases s with
  | inclusion => cases hu
  | definition keyword defined =>
    cases defined with
    | ingredient introduction name opening path closing resize semicolon =>
      rw [tree, frameAt, nodeAt, uses_ingredient rfl] at hu
      cases hu
    | specialty introduction name opening first others closing =>
      rw [tree, frameAt, nodeAt, Definition.tree, frameAt, nodeAt, nameAt, nodeAt,
        uses_specialty] at hu
      obtain ⟨p, hp, rfl⟩ := List.mem_map.mp hu
      have hportion : ∀ t ∈ p.1.tokens, t ∈ (first :: others).flatMap portionTokens :=
        fun t ht => List.mem_flatMap.mpr ⟨p, hp, List.mem_append_left _ ht⟩
      refine ⟨p.1, rfl, fun t ht => ?_⟩
      simp only [tokens, body, Definition.tokens, Definition.body, List.mem_cons, List.mem_append]
      exact Or.inr (Or.inr (Or.inr (Or.inr (Or.inl (hportion t ht)))))
  | make order =>
    obtain ⟨clause, hclause, hkind, hu⟩ := mem_partsOf.mp hu
    rw [tree, Make.tree, Make.pizzaTree, frameAt, nodeAt, frameAt, nodeAt, nameAt, nodeAt,
      clauses_make] at hclause
    rcases List.mem_append.mp hclause with htopping | hsave
    · obtain ⟨use, htree, htokens⟩ := order.toppings.exists_use htopping hkind hu
      refine ⟨use, htree, fun t ht => ?_⟩
      simp only [tokens, body, Make.body, Make.pizzaBody, List.mem_cons, List.mem_append]
      exact Or.inr (Or.inr (Or.inr (Or.inl (Or.inl (htokens t ht)))))
    · obtain ⟨save, -, rfl⟩ := List.mem_map.mp hsave
      cases hkind

end Derivation

/-- **The quantities in a text are sums** of products of numbers without signs. -/
theorem IsProgram.isSum {unit : Path} {text : String} {tree t u quantity : SyntaxTree}
    (h : IsProgram unit text tree) (ht : t ∈ tree.children) (hu : u ∈ t.uses)
    (hquantity : u.child? 0 = some quantity) : quantity.IsSum := by
  obtain ⟨d, s, htokens, hs, rfl⟩ := h.exists_statement ht
  obtain ⟨use, rfl, hmem⟩ := s.exists_use hu
  obtain rfl : Derivation.Expression.tree use.quantity = quantity := Option.some.inj hquantity
  refine Derivation.Expression.isSum fun t ht hnumber => ?_
  have hspells := (wellSpelled_of_tokenize htokens).spells t
    (List.mem_flatMap.mpr ⟨s, hs, hmem t (by simp [Derivation.Use.tokens, ht])⟩)
  rw [hnumber] at hspells
  exact hspells.2

/-- A quantity that a use in a text is refused for is zero, or the negative of a number in 64
bits. -/
theorem IsProgram.bounds {unit : Path} {text name : String} {tree t u : SyntaxTree} {q : Int}
    {position : Position} (h : IsProgram unit text tree) (ht : t ∈ tree.children) (hu : u ∈ t.uses)
    (hrefused : u.NotPositive (.invalidQuantity name q position)) :
    -(2 ^ 63 - 1) ≤ q ∧ q ≤ 0 := by
  obtain ⟨quantity, q', hquantity, hevaluate, hle, he⟩ := hrefused
  obtain ⟨-, rfl, -⟩ := SemanticError.invalidQuantity.inj he
  have hsum := h.isSum ht hu hquantity
  obtain ⟨hdenotes, hparts⟩ := hsum.isExpression.denotes hevaluate
  exact ⟨hsum.lower_bound hparts hdenotes, hle⟩

/-- **A compilation that refuses a quantity** has met it in the text or in a unit that is
included. -/
theorem Compiler.bounds_of_compileUnit {c : Compiler} {unit : Path} {text name : String} {q : Int}
    {position : Position} {s s' : Session}
    (h : c.compileUnit unit text s = .error (.semantic (.invalidQuantity name q position)) s') :
    -(2 ^ 63 - 1) ≤ q ∧ q ≤ 0 := by
  generalize he : CompileError.semantic (.invalidQuantity name q position) = e at h
  cases compileNested_fails h with
  | deep => cases he
  | unread hread =>
    subst he
    exact absurd hread forestOf_ne_semantic
  | inside hprogram hfails =>
    subst he
    obtain ⟨before, t, after, m, walk, hsplit, -, hfails⟩ := hfails
    obtain ⟨unit', text', tree', chain, m', t', hprogram', ht', hfaulty⟩ :=
      hfails.exists_faulty hprogram (by simp [hsplit])
    obtain ⟨u, hu, hrefused⟩ := hfaulty.notPositive (hprogram'.wellShaped t' ht')
    exact hprogram'.bounds ht' hu hrefused

/-- **Quantities in a text**: what they are worth and how far they reach.

* A row of numbers, each in digits, with operators between them and none after them, is read as a
  whole. If what comes of it is evaluated to a number, that is the value of the row: the row is cut
  at `+` and `-`, and then folded from the right, first the products and then their sums.
* All along, nothing but `+` and `-` makes a number negative, the least number in 64 bits is never
  reached, and a quotient whose operands have values fails only for a divisor that is zero.
* A compilation that ends with a quantity that is not positive, in the text or in a unit that it
  includes, has got one that is zero or the negative of a number in 64 bits. -/
theorem quantities_in_source :
    (∀ (row : Row) (s : Cursor) (after : List Token), s.rest = row.tokens ++ after →
      ¬Ahead [.plus, .minus, .times, .divide] after →
      ∃ id s', Reader.expression s = .ok id s' ∧ s'.rest = after ∧
        (∀ v, (s'.forest.subtree id).evaluate = .ok v → v = row.formula.value) ∧
        ∀ u : SyntaxTree, u ∈ (s'.forest.subtree id).operandsFirst →
          (u.kind ≠ .plus → u.kind ≠ .minus → ∀ v, u.evaluate = .ok v → 0 ≤ v) ∧
          (∀ v, u.evaluate = .ok v → -(2 ^ 63 - 1) ≤ v) ∧
          (u.kind = .divide → ∀ (left right : SyntaxTree) (x y : Int), u.children = [left, right] →
            left.evaluate = .ok x → right.evaluate = .ok y →
            u.evaluate = if y = 0 then .error (.divisionByZero u.position)
              else .ok (x.tdiv y))) ∧
    ∀ (c : Compiler) unit text s name q position s',
      c.compileUnit unit text s = .error (.semantic (.invalidQuantity name q position)) s' →
      -(2 ^ 63 - 1) ≤ q ∧ q ≤ 0 := by
  refine ⟨?_, ?_⟩
  · intro row s after hs hafter
    obtain ⟨id, s', hread, hrest, hsum, hvalue⟩ := row.read hs hafter
    refine ⟨id, s', hread, hrest, fun v hv => hvalue v (hsum.isExpression.denotes hv).1, ?_⟩
    intro u hu
    have husum := hsum.parts u hu
    refine ⟨fun hplus hminus v hv => ?_, fun v hv => ?_, fun hkind left right x y hchildren => ?_⟩
    · exact (husum.isProduct hplus hminus).nonneg (husum.isExpression.denotes hv).1
    · obtain ⟨hdenotes, hparts⟩ := husum.isExpression.denotes hv
      exact husum.lower_bound hparts hdenotes
    · exact (husum.isProduct (by simp [hkind]) (by simp [hkind])).evaluate_divide hkind hchildren
  · intro c unit text s name q position s' h
    exact Compiler.bounds_of_compileUnit h

/-- A digit, as a token. -/
def digitToken (d : Char) (hd : d.isDigit = true) : Digits :=
  ⟨⟨.number, String.singleton d, default⟩, rfl, by simpa using hd⟩

/-- The tokens of `8 / 2 * 2 - 1`. -/
def quotientRow : Row :=
  ⟨digitToken '8' rfl,
    [(⟨⟨.divide, "/", default⟩, by decide⟩, digitToken '2' rfl),
      (⟨⟨.times, "*", default⟩, by decide⟩, digitToken '2' rfl),
      (⟨⟨.minus, "-", default⟩, by decide⟩, digitToken '1' rfl)]⟩

/-- An order of as little as can be written. -/
def leastOrder : String :=
  "include 'menu'; make big pizza of hot add ham(0 - 9223372036854775807);"

/-- The product comes before the quotient and both before the difference, and the lower bound of
quantities is reached. -/
theorem quantities_in_source_quotientRow :
    (∃ id s', Reader.expression (.ofTokens ⟨"main.pf"⟩ quotientRow.tokens) = .ok id s' ∧
      (s'.forest.subtree id).evaluate = .ok 1 ∧ quotientRow.formula.value = 1) ∧
    ∃ q s', Compiler.pantry.compileUnit ⟨"main.pf"⟩ leastOrder (.ofChain []) =
        .error (.semantic (.invalidQuantity "ham" q ⟨1, 43, ⟨"main.pf"⟩⟩)) s' ∧
      -(2 ^ 63 - 1) ≤ q ∧ q ≤ 0 ∧ q = -(2 ^ 63 - 1) := by
  obtain ⟨hrow, hcompile⟩ := quantities_in_source
  refine ⟨?_, ?_⟩
  · have h : Stateful.yields (Reader.expression (.ofTokens ⟨"main.pf"⟩ quotientRow.tokens))
        (fun id s' => (s'.forest.subtree id).evaluate = .ok 1) = true := by
      decide +kernel
    obtain ⟨id, s', hread, htest⟩ := Stateful.exists_of_yields h
    obtain ⟨id', s'', hread', -, hvalue, -⟩ :=
      hrow quotientRow (.ofTokens ⟨"main.pf"⟩ quotientRow.tokens) [] rfl not_ahead_nil
    obtain ⟨rfl, rfl⟩ := EStateM.Result.ok.inj (hread.symm.trans hread')
    have hone := of_decide_eq_true htest
    exact ⟨id, s', hread, hone, (hvalue 1 hone).symm⟩
  · have h : Stateful.fails (Compiler.pantry.compileUnit ⟨"main.pf"⟩ leastOrder (.ofChain []))
        (fun e => e = .semantic
          (.invalidQuantity "ham" (-(2 ^ 63 - 1)) ⟨1, 43, ⟨"main.pf"⟩⟩)) = true := by
      decide +kernel
    obtain ⟨e, s', he, htest⟩ := Stateful.exists_of_fails h
    obtain rfl := of_decide_eq_true htest
    obtain ⟨hlower, hupper⟩ := hcompile _ _ _ _ _ _ _ _ he
    exact ⟨_, s', he, hlower, hupper, rfl⟩

end PizzaLang
