import PizzaLang.Proofs.Elaboration
import PizzaLang.Proofs.PathEquality
import PizzaLang.Proofs.Relocation

/-!
# No unit is compiled twice

A compilation refuses to enter a unit that is open already, so no unit includes itself, however
indirectly. Nothing is said of a unit that is entered again after it has been left. It fails all
the same, for a reason that lies elsewhere. Every program ends up with a name: its first statement
is a definition, which declares one, or an inclusion of a unit, which has one, or an order, which
needs one (`PizzaLang.Compiler.Elaborates.names_ne_nil`). Under whatever path a unit is entered,
it declares the same names (`PizzaLang.Sources.Walk.names_eq`). So the second time it is entered
it declares a name that is declared already, and the merge that brings both together is refused.

The result is `PizzaLang.Compiler.compiled_once`.
-/

namespace PizzaLang

namespace SyntaxTree

/-- The name that is written in a definition. -/
def declared? (t : SyntaxTree) : Option String :=
  if t.kind = .definition then
    (t.child? 0).bind fun definition => (definition.child? 0).map value
  else none

/-- **Nothing that a statement names is a program**: neither what stands right below it nor the
first node below that. -/
def Worded (t : SyntaxTree) : Prop :=
  ∀ u, t.child? 0 = some u → u.kind ≠ .program ∧ ∀ v, u.child? 0 = some v → v.kind ≠ .program

variable {t t' u u' : SyntaxTree}

/-- Inclusions with the same content refer to the same text. -/
theorem SameContent.firstValue (h : t.SameContent t') (hw : t.Worded) (hu : t.child? 0 = some u)
    (hu' : t'.child? 0 = some u') : u.value = u'.value := by
  rcases h.first with ⟨hnone, -⟩ | ⟨v, v', hv, hv', hsame⟩
  · rw [hu] at hnone
    cases hnone
  · obtain rfl := Option.some.inj (hu.symm.trans hv)
    obtain rfl := Option.some.inj (hu'.symm.trans hv')
    exact hsame.value (hw u hu).1

/-- Definitions with the same content declare the same name. -/
theorem SameContent.declared (h : t.SameContent t') (hw : t.Worded) :
    t.declared? = t'.declared? := by
  rw [declared?, declared?, h.kind]
  rcases h.first with ⟨hu, hu'⟩ | ⟨u, u', hu, hu', hsame⟩
  · rw [hu, hu']
  · rw [hu, hu', Option.bind_some, Option.bind_some]
    rcases hsame.first with ⟨hv, hv'⟩ | ⟨v, v', hv, hv', hsame'⟩
    · rw [hv, hv']
    · rw [hv, hv', Option.map_some, Option.map_some, hsame'.value ((hw u hu).2 v hv)]

end SyntaxTree

/-! ### Programs -/

namespace Derivation

theorem Statement.worded (d : Statement) : d.tree.Worded := by
  intro u hu
  cases d with
  | inclusion keyword path semicolon =>
    obtain rfl : path.tree = u := Option.some.inj hu
    exact ⟨nofun, nofun⟩
  | definition keyword defined =>
    obtain rfl : defined.tree = u := Option.some.inj hu
    cases defined with
    | ingredient =>
      refine ⟨nofun, fun v hv => ?_⟩
      obtain rfl := Option.some.inj hv
      exact nofun
    | specialty =>
      refine ⟨nofun, fun v hv => ?_⟩
      obtain rfl := Option.some.inj hv
      exact nofun
  | make order =>
    obtain rfl : nameAt .size order.size.1 [order.pizzaTree] = u := Option.some.inj hu
    refine ⟨nofun, fun v hv => ?_⟩
    obtain rfl := Option.some.inj hv
    exact nofun

theorem Program.worded (d : Program) (unit : Path) :
    ∀ t ∈ (d.tree unit).children, SyntaxTree.Worded t :=
  List.forall_mem_map.mpr fun s _ => s.worded

end Derivation

/-- The tree of a text is that of a derivation. -/
theorem IsProgram.exists_derivation {unit : Path} {text : String} {tree : SyntaxTree}
    (h : IsProgram unit text tree) : ∃ d : Derivation.Program, tree = d.tree unit :=
  (isProgram_iff.mp h).2.exists_derivation

theorem IsProgram.worded {unit : Path} {text : String} {tree : SyntaxTree}
    (h : IsProgram unit text tree) : ∀ t ∈ tree.children, SyntaxTree.Worded t := by
  obtain ⟨d, rfl⟩ := h.exists_derivation
  exact d.worded unit

/-- The names that are written in the definitions among some statements, in order. -/
def declaredIn (entries : List (Path × SyntaxTree)) : List String :=
  entries.filterMap fun entry => entry.2.declared?

theorem declaredIn_cons (unit : Path) (t : SyntaxTree) (entries : List (Path × SyntaxTree)) :
    declaredIn ((unit, t) :: entries) = t.declared?.toList ++ declaredIn entries := by
  rw [declaredIn, List.filterMap_cons]
  cases t.declared? <;> rfl

theorem mem_declaredIn_statement {name : String} {unit : Path} {t : SyntaxTree} {walk : List Visit}
    (h : name ∈ declaredIn (statementsOf walk)) :
    name ∈ declaredIn (statementsOf (.statement unit t :: walk)) := by
  rw [statementsOf_statement, declaredIn_cons]
  exact List.mem_append_right _ h

theorem declaredIn_append (entries entries' : List (Path × SyntaxTree)) :
    declaredIn (entries ++ entries') = declaredIn entries ++ declaredIn entries' :=
  List.filterMap_append

/-- **A unit declares the same names under every path**: walks through statements that are the
same apart from their unit, and through all that they include, meet the same names. -/
theorem Sources.Walk.names_eq {sources : Sources} (hsources : sources.Respects) {p q : Path}
    {ts ts' : List SyntaxTree} {walk walk' : List Visit} (h : sources.Walk p ts walk)
    (h' : sources.Walk q ts' walk') (hpq : p.Same q) (hts : SyntaxTree.SameContents ts ts')
    (hw : ∀ t ∈ ts, t.Worded) :
    declaredIn (statementsOf walk) = declaredIn (statementsOf walk') := by
  induction h generalizing q ts' walk' with
  | done =>
    obtain rfl := hts.nil
    cases h'
    rfl
  | @meet p t ts walk hkind hrest ih =>
    obtain ⟨t', us', rfl, ht, hus⟩ := hts.cons
    cases h' with
    | meet _ hrest' =>
      have hrec := ih hrest' hpq hus fun u hu => hw u (List.mem_cons_of_mem _ hu)
      have hname := ht.declared (hw t List.mem_cons_self)
      rw [statementsOf_statement, statementsOf_statement, declaredIn_cons, declaredIn_cons, hname,
        hrec]
    | enter hkind' =>
      -- a statement of the same content is not an inclusion either
      rw [ht.kind, hkind'] at hkind
      simp at hkind
  | @enter p id t tree ts inner walk hkind hto hinner hrest ihinner ihrest =>
    obtain ⟨t', us', rfl, ht, hus⟩ := hts.cons
    cases h' with
    | meet hkind' _ =>
      rw [← ht.kind, hkind] at hkind'
      simp at hkind'
    | enter _ hto' hinner' hrest' =>
      obtain ⟨path, text, hpath, hid, htext, htree⟩ := hto
      obtain ⟨path', text', hpath', hid', htext', htree'⟩ := hto'
      have hvalue := ht.firstValue (hw t List.mem_cons_self) (SyntaxTree.child_eq_ok_iff.mp hpath)
        (SyntaxTree.child_eq_ok_iff.mp hpath')
      rw [← hvalue] at hid'
      -- the same reference from equal units leads to equal units, and these have one text
      have hsame := hsources.locate (r := ⟨s!"{path.value}.{sourceExtension}"⟩) rfl (.some hpq)
      rw [hid, hid'] at hsame
      cases hsame with
      | ok hsame =>
        obtain rfl := Except.ok.inj (htext.symm.trans ((hsources.load hsame).trans htext'))
        have hinner := ihinner hinner' hsame (htree.sameContent htree').children htree.worded
        have hrest := ihrest hrest' hpq hus fun u hu => hw u (List.mem_cons_of_mem _ hu)
        rw [statementsOf_unit, statementsOf_unit, statementsOf_append, statementsOf_append,
          declaredIn_append, declaredIn_append, hinner, hrest]

/-! ### Orders need a name -/

namespace SymbolTable

variable {t : SymbolTable}

theorem ne_nil_of_get? {name : String} {s : Symbol} (h : t.get? name = some s) : t.names ≠ [] :=
  List.ne_nil_of_mem (mem_names_of_get? h)

theorem ne_nil_of_addClause {pizza pizza' : Pizza} {clause : SyntaxTree}
    (h : t.addClause pizza clause = .ok pizza') (hne : clause.children ≠ [])
    (hkind : clause.kind = .add ∨ clause.kind = .ofClause) : t.names ≠ [] := by
  obtain ⟨first, others, hchildren⟩ := List.exists_cons_of_ne_nil hne
  rw [addClause, hchildren] at h
  -- either sort of clause looks up a name for the first thing it lists
  rcases hkind with hkind | hkind <;> rw [hkind] at h
  · obtain ⟨portions, hfold, -⟩ := Fallible.bind_eq_ok_iff.mp h
    rw [List.foldlM_cons] at hfold
    obtain ⟨_, hfirst, -⟩ := Fallible.bind_eq_ok_iff.mp hfold
    obtain ⟨portion, hportion, -⟩ := Fallible.bind_eq_ok_iff.mp hfirst
    exact ne_nil_of_get? (portionOf_eq_ok_iff.mp hportion).1
  · obtain ⟨specialties, hfold, -⟩ := Fallible.bind_eq_ok_iff.mp h
    rw [List.foldlM_cons] at hfold
    obtain ⟨_, hfirst, -⟩ := Fallible.bind_eq_ok_iff.mp hfold
    obtain ⟨specialty, hspecialty, -⟩ := Fallible.bind_eq_ok_iff.mp hfirst
    exact ne_nil_of_get? (useSpecialty_eq_ok_iff.mp hspecialty)

/-- **A pizza cannot be made of nothing**: its first clause names something. -/
theorem ne_nil_of_pizzaOf {order : Derivation.Make} {pizza : Pizza}
    (h : t.pizzaOf order.tree = .ok pizza) : t.names ≠ [] := by
  obtain ⟨size, word, body, hsize, -, hbody, hfold⟩ := pizzaOf_eq_ok_iff.mp h
  obtain rfl := Except.ok.inj hsize
  obtain rfl := Except.ok.inj hbody
  obtain ⟨clause, others, htrees, hne, hkind⟩ : ∃ clause others,
      order.toppings.trees = clause :: others ∧ clause.children ≠ [] ∧
        (SyntaxTree.kind clause = .add ∨ SyntaxTree.kind clause = .ofClause) := by
    cases order.toppings with
    | add clause => exact ⟨clause.tree, [], rfl, List.cons_ne_nil _ _, Or.inl rfl⟩
    | names clause added => exact ⟨clause.tree, _, rfl, List.cons_ne_nil _ _, Or.inr rfl⟩
  have hchildren : order.pizzaTree.children =
      clause :: (others ++ order.save.toList.map Derivation.SaveClause.tree) :=
    congrArg (· ++ order.save.toList.map Derivation.SaveClause.tree) htrees
  rw [hchildren, List.foldlM_cons] at hfold
  obtain ⟨pizza₁, hclause, -⟩ := Fallible.bind_eq_ok_iff.mp hfold
  exact ne_nil_of_addClause hclause hne hkind

end SymbolTable

/-! ### The names of a unit -/

namespace Compiler

variable {c : Compiler} {chain : List Path} {m m' : Menu} {ts : List SyntaxTree}
  {walk : List Visit}

/-- **A compilation declares the names that are written** in the definitions it passes. -/
theorem Elaborates.names_eq (h : c.Elaborates chain m ts m' walk) :
    m'.symbols.names = m.symbols.names ++ declaredIn (statementsOf walk) := by
  induction h with
  | done => exact (List.append_nil _).symm
  | @define chain m m' t d ts s walk hkind hd hs _ _ ih =>
    obtain ⟨name, hname, hs⟩ := hs.name
    have hdeclared : t.declared? = some s.name := by
      rw [SyntaxTree.declared?, if_pos hkind, SyntaxTree.child_eq_ok_iff.mp hd, Option.bind_some,
        SyntaxTree.child_eq_ok_iff.mp hname, Option.map_some, hs]
    rw [ih, statementsOf_statement, declaredIn_cons, hdeclared, SymbolTable.names_append,
      SymbolTable.names_only, List.append_assoc, Option.toList_some]
  | @order chain m m' t ts pizza walk hkind _ _ ih =>
    have hdeclared : t.declared? = none := by
      rw [SyntaxTree.declared?, if_neg (by rw [hkind]; decide)]
    rw [ih, statementsOf_statement, declaredIn_cons, hdeclared]
    rfl
  | @enter chain m n m' t tree ts id inner walk _ _ _ _ _ _ ihinner ih =>
    have hn : n.symbols.names = declaredIn (statementsOf inner) := ihinner
    rw [ih, SymbolTable.names_append, hn, statementsOf_unit, statementsOf_append,
      declaredIn_append, List.append_assoc]

theorem Elaborates.ne_nil (h : c.Elaborates chain m ts m' walk) (hm : m.symbols.names ≠ []) :
    m'.symbols.names ≠ [] := by
  rw [h.names_eq]
  exact fun hnil => hm (List.append_eq_nil_iff.mp hnil).1

/-- **Every program ends up with a name**, because its first statement has one, or one below
it, or needs one. -/
theorem Elaborates.names_ne_nil (h : c.Elaborates chain m ts m' walk)
    (hts : ∃ (d : Derivation.Statement) (rest : List SyntaxTree), ts = d.tree :: rest) :
    m'.symbols.names ≠ [] := by
  induction h with
  | done =>
    obtain ⟨d, rest, hts⟩ := hts
    cases hts
  | define _ _ _ _ hrest _ =>
    refine hrest.ne_nil ?_
    rw [SymbolTable.names_append]
    exact List.append_ne_nil_of_right_ne_nil _ (List.cons_ne_nil _ _)
  | @order chain m m' t ts pizza walk hkind hpizza hrest _ =>
    refine hrest.ne_nil ?_
    -- only an order that is written as the grammar has it is known to name something
    obtain ⟨d, rest, hts⟩ := hts
    obtain ⟨rfl, -⟩ := List.cons.inj hts
    cases d with
    | inclusion => cases hkind
    | definition => cases hkind
    | make order => exact SymbolTable.ne_nil_of_pizzaOf hpizza
  | @enter chain m n m' t tree ts id inner walk _ hto _ _ _ hrest ihinner _ =>
    refine hrest.ne_nil ?_
    obtain ⟨path, text, -, -, -, htree⟩ := hto
    obtain ⟨d, rfl⟩ := htree.exists_derivation
    rw [SymbolTable.names_append]
    exact List.append_ne_nil_of_right_ne_nil _ (ihinner ⟨d.first, _, rfl⟩)

/-- A unit that is compiled by itself has a name. -/
theorem Elaborates.names_ne_nil_of_program {unit : Path} {text : String} {tree : SyntaxTree}
    (h : c.Elaborates chain m tree.children m' walk) (htree : IsProgram unit text tree) :
    m'.symbols.names ≠ [] := by
  obtain ⟨d, rfl⟩ := htree.exists_derivation
  exact h.names_ne_nil ⟨d.first, _, rfl⟩

/-! ### Units that are entered -/

/-- **What a unit contributes**: the names that are written in it and in all that it includes. -/
def Contributes (c : Compiler) (unit : Path) (names : List String) : Prop :=
  ∃ text tree walk, c.sources.load unit = .ok text ∧ IsProgram unit text tree ∧
    c.sources.Walk unit tree.children walk ∧ declaredIn (statementsOf walk) = names

/-- Equal paths contribute the same. -/
theorem Contributes.unique (hc : c.sources.Respects) {p q : Path} {names names' : List String}
    (h : c.Contributes p names) (h' : c.Contributes q names') (hpq : p.Same q) :
    names = names' := by
  obtain ⟨text, tree, walk, htext, htree, hwalk, rfl⟩ := h
  obtain ⟨text', tree', walk', htext', htree', hwalk', rfl⟩ := h'
  obtain rfl := Except.ok.inj (htext.symm.trans ((hc.load hpq).trans htext'))
  exact hwalk.names_eq hc hwalk' hpq (htree.sameContent htree').children htree.worded

theorem Elaborates.contributes {unit id : Path} {t tree : SyntaxTree}
    (h : c.Elaborates chain (.blank id) tree.children m walk)
    (hto : c.sources.Includes unit t id tree) :
    c.Contributes id m.symbols.names ∧ m.symbols.names ≠ [] := by
  obtain ⟨path, text, -, -, htext, htree⟩ := hto
  refine ⟨⟨text, tree, walk, htext, htree, h.toWalk, h.names_eq.symm⟩, ?_⟩
  exact h.names_ne_nil_of_program htree

/-- **Every unit that is entered contributes a name** to what is compiled. -/
theorem Elaborates.exists_contributes (h : c.Elaborates chain m ts m' walk) {u : Path}
    (hu : u ∈ unitsOf walk) :
    ∃ names, c.Contributes u names ∧ names ≠ [] ∧
      ∀ name ∈ names, name ∈ declaredIn (statementsOf walk) := by
  induction h with
  | done => exact absurd hu List.not_mem_nil
  | define _ _ _ _ _ ih =>
    obtain ⟨names, hnames, hne, hsub⟩ := ih hu
    exact ⟨names, hnames, hne, fun name hname => mem_declaredIn_statement (hsub name hname)⟩
  | order _ _ _ ih =>
    obtain ⟨names, hnames, hne, hsub⟩ := ih hu
    exact ⟨names, hnames, hne, fun name hname => mem_declaredIn_statement (hsub name hname)⟩
  | @enter chain m n m' t tree ts id inner walk _ hto _ hinner _ _ ihinner ih =>
    rw [statementsOf_unit, statementsOf_append, declaredIn_append]
    rw [unitsOf_unit, unitsOf_append, List.mem_cons, List.mem_append] at hu
    -- the unit is the included one, or is entered from there, or is entered afterwards
    rcases hu with rfl | hu | hu
    · obtain ⟨hnames, hne⟩ := hinner.contributes hto
      refine ⟨_, hnames, hne, fun name hname => List.mem_append_left _ ?_⟩
      rwa [hinner.names_eq] at hname
    · obtain ⟨names, hnames, hne, hsub⟩ := ihinner hu
      exact ⟨names, hnames, hne, fun name hname => List.mem_append_left _ (hsub name hname)⟩
    · obtain ⟨names, hnames, hne, hsub⟩ := ih hu
      exact ⟨names, hnames, hne, fun name hname => List.mem_append_right _ (hsub name hname)⟩

/-- **Paths that are all different**, as paths and not only as texts. -/
def Apart (paths : List Path) : Prop := paths.Pairwise fun p q => ¬p.Same q

/-- **The units that are entered are all different**, and different from those that are open. -/
theorem Elaborates.units_differ (hc : c.sources.Respects) (h : c.Elaborates chain m ts m' walk)
    (hnodup : m'.symbols.names.Nodup) :
    Apart (unitsOf walk) ∧ ∀ u ∈ unitsOf walk, ∀ p ∈ chain, ¬u.Same p := by
  induction h with
  | done => exact ⟨.nil, fun u hu => absurd hu List.not_mem_nil⟩
  | define _ _ _ _ _ ih => exact ih hnodup
  | order _ _ _ ih => exact ih hnodup
  | @enter chain m n m' t tree ts id inner walk _ hto hopen hinner _ hrest ihinner ih =>
    have hnames : m'.symbols.names =
        m.symbols.names ++ (n.symbols.names ++ declaredIn (statementsOf walk)) := by
      rw [hrest.names_eq, SymbolTable.names_append, List.append_assoc]
    rw [hnames] at hnodup
    obtain ⟨hn, -, hdisjoint⟩ := List.nodup_append.mp (List.nodup_append.mp hnodup).2.1
    obtain ⟨hpinner, hoinner⟩ := ihinner hn
    obtain ⟨hprest, horest⟩ := ih (hnames ▸ hnodup)
    -- a unit that is entered again would declare its names again
    have hagain : ∀ u ∈ id :: unitsOf inner, ∀ v ∈ unitsOf walk, ¬u.Same v := by
      intro u hu v hv hsame
      obtain ⟨names, hcontributes, hne, hsub⟩ : ∃ names, c.Contributes u names ∧ names ≠ [] ∧
          ∀ name ∈ names, name ∈ n.symbols.names := by
        rcases List.mem_cons.mp hu with rfl | hu
        · exact ⟨_, (hinner.contributes hto).1, (hinner.contributes hto).2, fun _ h => h⟩
        · obtain ⟨names, hcontributes, hne, hsub⟩ := hinner.exists_contributes hu
          exact ⟨names, hcontributes, hne, fun name hname => hinner.names_eq ▸ hsub name hname⟩
      obtain ⟨names', hcontributes', -, hsub'⟩ := hrest.exists_contributes hv
      obtain rfl := hcontributes.unique hc hcontributes' hsame
      obtain ⟨name, hname⟩ := List.exists_mem_of_ne_nil _ hne
      exact hdisjoint name (hsub name hname) name (hsub' name hname) rfl
    rw [unitsOf_unit, unitsOf_append]
    refine ⟨List.pairwise_cons.mpr ⟨fun v hv => ?_, List.pairwise_append.mpr ⟨hpinner, hprest, ?_⟩⟩,
      fun u hu p hp => ?_⟩
    · rcases List.mem_append.mp hv with hv | hv
      · exact fun hsame => hoinner v hv id List.mem_cons_self hsame.symm
      · exact hagain id List.mem_cons_self v hv
    · exact fun u hu v hv => hagain u (List.mem_cons_of_mem _ hu) v hv
    · rw [List.mem_cons, List.mem_append] at hu
      rcases hu with rfl | hu | hu
      · exact hopen p (List.mem_cons_of_mem _ hp)
      · exact hoinner u hu p (List.mem_cons_of_mem _ hp)
      · exact horest u hu p hp

/-- A program that is reported as compiled is reported with a name. -/
theorem Reported.symbols_pos {u : Path} {instructions symbols : Nat}
    (h : c.Reported (.analyzed u instructions symbols)) : 0 < symbols := by
  obtain ⟨text, tree, chain, n, walk, htree, hmade, rfl⟩ := h
  rw [← SymbolTable.length_names]
  exact List.length_pos_iff.mpr (hmade.names_ne_nil_of_program htree)

/-- A compilation from a blank menu enters units that are all different, its own included. -/
theorem Elaborates.apart (hc : c.sources.Respects) {unit : Path}
    (h : c.Elaborates (unit :: chain) (.blank unit) ts m walk) : Apart (unit :: unitsOf walk) := by
  have hkeyed : m.symbols.Keyed := h.keyed SymbolTable.keyed_empty
  obtain ⟨hpairwise, hopen⟩ := h.units_differ hc hkeyed.nodup
  refine List.pairwise_cons.mpr ⟨fun u hu hsame => ?_, hpairwise⟩
  exact hopen u hu unit List.mem_cons_self hsame.symm

/-- **Each unit is compiled once.** Let the supply of units respect path equality, as units in
memory do. Then a successful compilation finishes every unit that it enters, and each with a name
in its table; the units that it enters are those of the one walk through the program, the first
unit included, and they are all different. So a program fails to compile if there is no walk
through it, as when it includes itself, or if the walk comes to a unit again. -/
theorem compiled_once :
    (∀ l : Library, l.sources.Respects) ∧
    ∀ c : Compiler, c.sources.Respects → ∀ unit text chain,
      (∀ m s', c.compileUnit unit text (.ofChain chain) = .ok m s' →
        (∀ u ∈ s'.visited, ∃ instructions symbols,
          Event.analyzed u instructions symbols ∈ s'.events) ∧
        (∀ u instructions symbols,
          Event.analyzed u instructions symbols ∈ s'.events → 0 < symbols) ∧
        Apart s'.visited ∧
        ∃ walk, c.sources.WalkOf unit text walk ∧ s'.visited = unit :: unitsOf walk) ∧
      ((∀ walk, c.sources.WalkOf unit text walk → ¬Apart (unit :: unitsOf walk)) →
        ∃ e s', c.compileUnit unit text (.ofChain chain) = .error e s') := by
  refine ⟨Library.respects, fun c hc unit text chain => ⟨fun m s' h => ?_, fun hwalks => ?_⟩⟩
  · obtain ⟨tree, walk, htree, hmade, hpassed, hfinished⟩ := compileNested_sound h
    have hvisited : s'.visited = unit :: unitsOf walk := hpassed.visited
    rw [hvisited]
    refine ⟨hfinished, fun u instructions symbols hevent => ?_, hmade.apart hc, walk,
      ⟨tree, htree, hmade.toWalk⟩, rfl⟩
    rcases hpassed.reported _ hevent with hold | hreported
    · exact absurd hold (by simp [Session.ofChain])
    · exact hreported.symbols_pos
  · cases h : c.compileUnit unit text (.ofChain chain) with
    | ok m s' =>
      obtain ⟨tree, walk, htree, hmade, -⟩ := compileNested_sound h
      exact absurd (hmade.apart hc) (hwalks walk ⟨tree, htree, hmade.toWalk⟩)
    | error e s' => exact ⟨e, s', rfl⟩

/-- Three units, one inside the other. -/
theorem compiled_once_pantry :
    ∃ m s', pantry.compileUnit ⟨"main.pf"⟩ pantryOrder (.ofChain []) = .ok m s' ∧
      s'.visited = [⟨"main.pf"⟩, ⟨"menu.pf"⟩, ⟨"base.pf"⟩] ∧ Apart s'.visited := by
  obtain ⟨m, s', hm, -, -, hvisited⟩ := pantryOrder_compiles
  have honce := (compiled_once.2 pantry (compiled_once.1 _) _ _ _).1 m s' hm
  exact ⟨m, s', hm, hvisited, honce.2.2.1⟩

end Compiler

end PizzaLang
