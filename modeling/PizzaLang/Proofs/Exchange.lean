import PizzaLang.Proofs.Equality
import PizzaLang.Proofs.StaticSemantics

/-!
# Independent statements can be exchanged

The order of statements matters for two reasons: a name has to be declared before it is used, and
pizzas are made in the order in which they are asked for. Two statements that follow each other and
for which neither is a reason can change places.

What a statement adds to a menu depends on the table before it only through the names that it looks
up (`PizzaLang.Compiler.Adds.of_lookups`). So if the second one looks up nothing that the first one
declares, it adds the same before it; and the first one adds the same behind it, because a larger
table keeps the meaning of everything. What comes out differs in the order of the table
(`PizzaLang.Menu.Reordered`), and all statements that follow go on from there alike.

The result is `PizzaLang.Compiler.analyze_exchange`.
-/

namespace PizzaLang

/-! ### What a statement adds -/

/-- Names that a table does not bring are bound without it as they are with it. -/
theorem SymbolTable.withinOn_of_append {t other : SymbolTable} {names : List String}
    (h : ∀ name ∈ names, name ∉ other.names) : WithinOn names (t.append other) t := by
  intro name hname s hget
  rwa [get?_append, get?_eq_none_iff.mpr (h name hname), Option.or_none] at hget

namespace Compiler

open CompileM

variable {c : Compiler} {chain : List Path} {unit : Path} {table table' : SymbolTable}
  {t u : SyntaxTree} {ts : List SyntaxTree} {part : SymbolTable × List Instruction}

/-- **What a statement adds depends only on the names that it looks up.** -/
theorem Adds.of_lookups (h : c.Adds chain unit table t part)
    (hw : SymbolTable.WithinOn t.lookups table table') : c.Adds chain unit table' t part := by
  cases h with
  | inclusion hkind hn => exact .inclusion hkind hn
  | @definition d s hkind hd hs =>
    refine .definition hkind hd ?_
    cases hs with
    | ingredient hkind' hname hpath hm hi => exact .ingredient hkind' hname hpath hm hi
    | specialty hkind' hp =>
      rw [SyntaxTree.lookups_specialty hkind hd hkind'] at hw
      exact .specialty hkind' (SymbolTable.specialtyOf_of_lookups hw hp)
  | make hkind hpizza =>
    rw [SyntaxTree.lookups_make hkind] at hw
    exact .make hkind (SymbolTable.pizzaOf_of_lookups hw hpizza)

theorem Adds.mono (h : c.Adds chain unit table t part) (hw : table.Within table') :
    c.Adds chain unit table' t part :=
  h.of_lookups fun name _ => hw name

/-- **A statement orders nothing**: it is no order, and what it includes has no instruction. -/
def OrdersNothing (c : Compiler) (chain : List Path) (unit : Path) (t : SyntaxTree) : Prop :=
  t.kind ≠ .make ∧
    (t.kind = .inclusion → ∀ n, c.included? chain unit t = some n → n.instructions = [])

theorem Adds.instructions_eq_nil (h : c.Adds chain unit table t part)
    (ht : c.OrdersNothing chain unit t) : part.2 = [] := by
  cases h with
  | inclusion hkind hn => exact ht.2 hkind _ hn.included?
  | definition => rfl
  | make hkind => exact absurd hkind ht.1

end Compiler

/-! ### Menus in another order -/

/-- **A menu is another one with its table in another order.** -/
structure Menu.Reordered (m m' : Menu) : Prop where
  unit : m'.unit = m.unit
  instructions : m'.instructions = m.instructions
  symbols : m'.symbols.symbols.entries.Perm m.symbols.symbols.entries

namespace Menu.Reordered

variable {m m' : Menu} (h : m.Reordered m')

include h

theorem names : m'.symbols.names.Perm m.symbols.names := h.symbols.map _

theorem keyed (hm : m.symbols.Keyed) : m'.symbols.Keyed :=
  ⟨h.names.nodup_iff.mpr hm.nodup, fun e he => hm.keyed e (h.symbols.mem_iff.mp he)⟩

/-- A name has the same declaration, wherever that stands. -/
theorem within (hm : m.symbols.Keyed) : m.symbols.Within m'.symbols := by
  intro name s hget
  have hmem := h.symbols.mem_iff.mpr (SymbolTable.mem_entries_of_get? hget)
  exact (h.keyed hm).get?_of_mem hmem

/-- What is added goes behind both. -/
theorem add {part : SymbolTable × List Instruction} :
    Reordered ⟨m.unit, m.instructions ++ part.2, m.symbols.append part.1⟩
      ⟨m'.unit, m'.instructions ++ part.2, m'.symbols.append part.1⟩ :=
  ⟨h.unit, congrArg (· ++ part.2) h.instructions, h.symbols.append_right _⟩

end Menu.Reordered

namespace Compiler

open CompileM

variable {c : Compiler} {chain : List Path} {unit : Path} {m m' n : Menu} {t u : SyntaxTree}
  {ts : List SyntaxTree}

/-- **A run through statements goes on alike** from a table in another order. -/
theorem exists_answer_of_reordered (hm : m.symbols.Keyed) (hmm : m.Reordered m')
    (h : (ts.foldlM (c.statement (c.compileNested c.limit)) m).answer chain = .ok n) :
    ∃ n', (ts.foldlM (c.statement (c.compileNested c.limit)) m').answer chain = .ok n' ∧
      n.Reordered n' := by
  induction ts generalizing m m' with
  | nil =>
    obtain rfl := Except.ok.inj h
    exact ⟨m', rfl, hmm⟩
  | cons t ts ih =>
    rw [List.foldlM_cons] at h
    obtain ⟨m₁, ht, h⟩ := (blind_nested.answer_bind_eq_ok_iff blind_statements).mp h
    obtain ⟨part, hpart, hfree, rfl⟩ := answer_statement_eq_ok_iff.mp ht
    obtain ⟨n', hrest, hn⟩ := ih (hm.append hpart.keyed hfree) hmm.add h
    refine ⟨n', ?_, hn⟩
    rw [List.foldlM_cons]
    refine (blind_nested.answer_bind_eq_ok_iff blind_statements).mpr ⟨_, ?_, hrest⟩
    refine answer_statement_eq_ok_iff.mpr ⟨part, ?_, fun name hname hmem => ?_, rfl⟩
    · rw [hmm.unit]
      exact hpart.mono (hmm.within hm)
    · exact hfree name hname (hmm.names.mem_iff.mp hmem)

theorem keyed_of_answer (hm : m.symbols.Keyed)
    (h : (ts.foldlM (c.statement (c.compileNested c.limit)) m).answer chain = .ok n) :
    n.symbols.Keyed := by
  obtain ⟨s', hrun⟩ := ((blind_statements m).answer_eq_ok_iff (s := .ofChain chain)).mp h
  obtain ⟨walk, hmade, -, -⟩ := statements_sound (fun _ _ _ _ _ h => compileNested_sound h) hrun
  exact hmade.keyed hm

/-- A run through statements is a run through the first of them and one through the others. -/
theorem answer_append_eq_ok_iff {ts us : List SyntaxTree} :
    ((ts ++ us).foldlM (c.statement (c.compileNested c.limit)) m).answer chain = .ok n ↔
      ∃ m₁, (ts.foldlM (c.statement (c.compileNested c.limit)) m).answer chain = .ok m₁ ∧
        (us.foldlM (c.statement (c.compileNested c.limit)) m₁).answer chain = .ok n := by
  rw [List.foldlM_append]
  exact (blind_statements m).answer_bind_eq_ok_iff blind_statements

/-- **Two statements that follow each other** lead to the same menu in either order, apart from the
order of its table, if the second one looks up nothing of what the first one declares. -/
theorem exists_answer_of_swap
    (h : ([t, u].foldlM (c.statement (c.compileNested c.limit)) m).answer chain = .ok n)
    (huse : ∀ name ∈ u.lookups, name ∉ (c.contributed chain m.unit t).map (·.1))
    (hnone : c.OrdersNothing chain m.unit t ∨ c.OrdersNothing chain m.unit u) :
    ∃ n', ([u, t].foldlM (c.statement (c.compileNested c.limit)) m).answer chain = .ok n' ∧
      n.Reordered n' := by
  simp only [List.foldlM_cons, List.foldlM_nil, bind_pure,
    blind_nested.answer_bind_eq_ok_iff fun _ => blind_nested, answer_statement_eq_ok_iff] at h ⊢
  obtain ⟨_, ⟨part, hpart, hfree, rfl⟩, part', hpart', hfree', rfl⟩ := h
  simp only [SymbolTable.names_append, List.mem_append, not_or] at hfree'
  rw [hpart.contributed, hpart.keyed.map_signature] at huse
  have hinstructions : part'.2 ++ part.2 = part.2 ++ part'.2 := by
    rcases hnone with hnone | hnone
    · rw [hpart.instructions_eq_nil hnone, List.append_nil, List.nil_append]
    · rw [hpart'.instructions_eq_nil hnone, List.append_nil, List.nil_append]
  refine ⟨⟨m.unit, m.instructions ++ part'.2 ++ part.2, (m.symbols.append part'.1).append part.1⟩,
    ⟨_, ⟨part', ?_, fun name hname => (hfree' name hname).1, rfl⟩, part, ?_, fun name hname => ?_,
      rfl⟩, rfl, ?_, ?_⟩
  · exact hpart'.of_lookups (SymbolTable.withinOn_of_append huse)
  · exact hpart.mono SymbolTable.within_append_left
  · rw [SymbolTable.names_append, List.mem_append, not_or]
    exact ⟨hfree name hname, fun hname' => (hfree' name hname').2 hname⟩
  · simp only [List.append_assoc, hinstructions]
  · simp only [SymbolTable.append, List.append_assoc]
    exact List.perm_append_comm.append_left _

/-- **Independent statements can be exchanged.** Let a tree be compiled in which two statements
follow each other. If the second one looks up no name that the first one contributes, and if one of
the two orders nothing, then the tree with the two exchanged is compiled too, and to an equal menu:
with the same unit, the same instructions, and the same declarations in some order. -/
theorem analyze_exchange (c : Compiler) (unit : Path) {label : NodeLabel} {t u : SyntaxTree}
    {before after : List SyntaxTree} {s s' : Session} {m : Menu}
    (h : c.analyze unit (some (.node label (before ++ t :: u :: after))) s = .ok m s')
    (huse : ∀ name ∈ u.lookups, name ∉ (c.contributed s.chain unit t).map (·.1))
    (hnone : c.OrdersNothing s.chain unit t ∨ c.OrdersNothing s.chain unit u) :
    ∃ m' s'', c.analyze unit (some (.node label (before ++ u :: t :: after))) s = .ok m' s'' ∧
      m.Reordered m' ∧ m'.same m = true := by
  have hm : m.WellFormed := by
    obtain ⟨tree, walk, -, hmade⟩ := analyze_sound h
    exact (Menu.WellFormed.blank unit).elaborates hmade
  -- the statements before the two, the two themselves, and those behind them
  have hsplit : ∀ t u : SyntaxTree, before ++ t :: u :: after = before ++ ([t, u] ++ after) :=
    fun _ _ => rfl
  have hrun := analyze_eq_ok_iff.mp ⟨s', h⟩
  rw [Tree.children, hsplit, answer_append_eq_ok_iff] at hrun
  obtain ⟨m₁, hbefore, hrun⟩ := hrun
  obtain ⟨m₂, htwo, hafter⟩ := answer_append_eq_ok_iff.mp hrun
  obtain ⟨-, -, hunit, -⟩ := exists_addsAll hbefore
  replace hunit : m₁.unit = unit := hunit
  rw [← hunit] at huse hnone
  obtain ⟨n₂, htwo', hreordered⟩ := exists_answer_of_swap htwo huse hnone
  have hkeyed := keyed_of_answer (keyed_of_answer SymbolTable.keyed_empty hbefore) htwo
  obtain ⟨m', hafter', hreordered'⟩ := exists_answer_of_reordered hkeyed hreordered hafter
  obtain ⟨s'', hanalyzed⟩ : ∃ s'', c.analyze unit
      (some (.node label (before ++ u :: t :: after))) s = .ok m' s'' := by
    rw [analyze_eq_ok_iff, Tree.children, hsplit, answer_append_eq_ok_iff]
    exact ⟨m₁, hbefore, answer_append_eq_ok_iff.mpr ⟨n₂, htwo', hafter'⟩⟩
  exact ⟨m', s'', hanalyzed, hreordered',
    hm.same_of_perm hreordered'.unit hreordered'.instructions hreordered'.symbols⟩

/-- The definition of an ingredient that the small supply does not have. -/
def rindDefinition : SyntaxTree :=
  .node ⟨.definition, "", ⟨2, 1, ⟨"main.pf"⟩⟩⟩ [.node ⟨.ingredient, "", default⟩
    [.node ⟨.literal, "rind", ⟨2, 19, ⟨"main.pf"⟩⟩⟩ [.node ⟨.path, "ham.png", default⟩ []]]]

/-- The order of a specialty that the small supply has. -/
def hotOrder : SyntaxTree :=
  .node ⟨.make, "", ⟨3, 1, ⟨"main.pf"⟩⟩⟩ [.node ⟨.size, "big", default⟩ [.node ⟨.pizza, "", default⟩
    [.node ⟨.ofClause, "", default⟩ [.node ⟨.literal, "hot", default⟩ []]]]]

/-- The inclusion of the unit that has the specialty. -/
def baseInclusion : SyntaxTree :=
  .node ⟨.inclusion, "", ⟨1, 1, ⟨"main.pf"⟩⟩⟩ [.node ⟨.path, "base", default⟩ []]

/-- A pizza may be ordered before an ingredient is declared that it has nothing to do with. -/
theorem analyze_exchange_rind :
    ∃ m m' s s', pantry.analyze ⟨"main.pf"⟩ (some (.node default
        [baseInclusion, rindDefinition, hotOrder])) (.ofChain []) = .ok m s ∧
      m.symbols.names = ["ham", "hot", "rind"] ∧ m.instructions.length = 1 ∧
      pantry.analyze ⟨"main.pf"⟩ (some (.node default
        [baseInclusion, hotOrder, rindDefinition])) (.ofChain []) = .ok m' s' ∧
      m'.same m = true := by
  have h : Stateful.yields (pantry.analyze ⟨"main.pf"⟩ (some (.node default
      [baseInclusion, rindDefinition, hotOrder])) (.ofChain []))
      (fun m _ => m.symbols.names = ["ham", "hot", "rind"] ∧ m.instructions.length = 1) = true := by
    decide +kernel
  obtain ⟨m, s, hm, htest⟩ := Stateful.exists_of_yields h
  obtain ⟨hnames, hlength⟩ := of_decide_eq_true htest
  change pantry.analyze ⟨"main.pf"⟩ (some (.node default
    ([baseInclusion] ++ rindDefinition :: hotOrder :: []))) (.ofChain []) = .ok m s at hm
  obtain ⟨m', s', hm', -, hsame⟩ := analyze_exchange pantry ⟨"main.pf"⟩ hm (by decide)
    (Or.inl ⟨by decide, fun hkind => by cases hkind⟩)
  exact ⟨m, m', s, s', hm, hnames, hlength, hm', hsame⟩

end Compiler

end PizzaLang
