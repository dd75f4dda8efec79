import PizzaLang.Proofs.Elaboration

/-!
# Inclusion is expansion in place

An included unit is compiled by itself, with a table of its own, and merged afterwards. The
same menu comes out when all statements that a walk meets are worked on in one sequence, with
one table and one list of instructions for all of them – as if each inclusion had been
replaced by the statements of the unit it leads to. A statement then sees more names than it
saw before: those of the units around its own. It does not see them differently, because a
name that it uses is one of its own unit, and the merges that follow make sure that no unit
around has the same name.

* `PizzaLang.Compiler.analyzeFlat`: statements in one sequence, each with its unit;
* `PizzaLang.Compiler.Elaborates.flat`: the simulation, for a table in front that has none of
  the names that come out;
* `PizzaLang.Compiler.compileUnit_eq_analyzeFlat`: the two ways agree.
-/

namespace PizzaLang

namespace Compiler

/-- A statement adds to the one menu of all units; images are looked up from the unit that the
statement stands in. An inclusion has nowhere to go. -/
def flatStatement (c : Compiler) (menu : Menu) (entry : Path × SyntaxTree) : CompileM Menu :=
  c.statement (fun unit _ => throw (.nesting unit)) { menu with unit := entry.1 } entry.2

/-- **Statements in one sequence**, each with its unit, against one table and one list of
instructions. -/
def analyzeFlat (c : Compiler) (unit : Path) (entries : List (Path × SyntaxTree)) :
    CompileM Menu :=
  entries.foldlM c.flatStatement (.blank unit)

variable {c : Compiler} {m m' f : Menu} {s : Session}

/-! ### Statements that succeed -/

theorem symbolOf_complete {d : SyntaxTree} {symbol : Symbol}
    (h : c.Declares m.unit m.symbols d symbol) (s : Session) :
    ∃ s', c.symbolOf m d s = .ok symbol s' := by
  cases h with
  | @ingredient name path measured i hkind hname hpath hmeasured hi =>
    obtain ⟨s', hrun, -⟩ := c.measure_run path.value m.unit s
    rw [hmeasured] at hrun
    refine ⟨s', ?_⟩
    simp only [symbolOf, hkind, Stateful.bind_eq_ok_iff, CompileM.lift_eq_ok_iff,
      Stateful.pure_eq_ok_iff, Fallible.mapError_eq_ok_iff]
    exact ⟨name, s, ⟨hname, rfl⟩, path, s, ⟨hpath, rfl⟩, _, s', hrun, measured.size, s',
      ⟨rfl, rfl⟩, i, s', ⟨hi, rfl⟩, rfl, rfl⟩
  | @specialty p hkind hp =>
    refine ⟨s, ?_⟩
    simp only [symbolOf, hkind, Stateful.bind_eq_ok_iff, CompileM.lift_eq_ok_iff,
      Stateful.pure_eq_ok_iff]
    exact ⟨p, s, ⟨hp, rfl⟩, rfl, rfl⟩

theorem define_complete {t d : SyntaxTree} {symbol : Symbol} (hd : t.child 0 = .ok d)
    (hs : c.Declares m.unit m.symbols d symbol) (hfree : symbol.name ∉ m.symbols.names)
    (s : Session) :
    ∃ s', c.define m t s = .ok { m with symbols := m.symbols.append (.only symbol) } s' := by
  obtain ⟨s₁, hsymbol⟩ := symbolOf_complete hs s
  refine ⟨{ s₁ with events := s₁.events.push (.declared symbol) }, ?_⟩
  simp only [define, Stateful.bind_eq_ok_iff, CompileM.lift_eq_ok_iff, CompileM.record_eq_ok_iff,
    Stateful.pure_eq_ok_iff]
  exact ⟨d, s, ⟨hd, rfl⟩, symbol, s₁, hsymbol, (), _, rfl, _, _,
    ⟨SymbolTable.insert_eq_ok_iff.mpr ⟨hfree, rfl⟩, rfl⟩, rfl, rfl⟩

theorem order_complete {t : SyntaxTree} {pizza : Pizza} (hpizza : m.symbols.pizzaOf t = .ok pizza)
    (s : Session) :
    ∃ s', order m t s =
      .ok { m with instructions := m.instructions ++ [⟨t.position, pizza⟩] } s' := by
  refine ⟨{ s with events := s.events.push (.ordered ⟨t.position, pizza⟩) }, ?_⟩
  simp only [order, Stateful.bind_eq_ok_iff, CompileM.lift_eq_ok_iff, CompileM.record_eq_ok_iff,
    Stateful.pure_eq_ok_iff]
  exact ⟨pizza, s, ⟨hpizza, rfl⟩, (), _, rfl, rfl, rfl⟩

/-! ### The simulation -/

/-- A compilation puts what it finds at the end of the table. -/
theorem Elaborates.exists_append {chain : List Path} {ts : List SyntaxTree} {walk : List Visit}
    (h : c.Elaborates chain m ts m' walk) : ∃ more, m'.symbols = m.symbols.append more := by
  induction h with
  | done => exact ⟨.empty, SymbolTable.append_empty.symm⟩
  | define _ _ _ _ _ ih =>
    obtain ⟨more, hmore⟩ := ih
    exact ⟨_, hmore.trans SymbolTable.append_assoc⟩
  | order _ _ _ ih => exact ih
  | enter _ _ _ _ _ _ _ ih =>
    obtain ⟨more, hmore⟩ := ih
    exact ⟨_, hmore.trans SymbolTable.append_assoc⟩

theorem Elaborates.names_subset {chain : List Path} {ts : List SyntaxTree} {walk : List Visit}
    (h : c.Elaborates chain m ts m' walk) {name : String} (hname : name ∈ m.symbols.names) :
    name ∈ m'.symbols.names := by
  obtain ⟨more, hmore⟩ := h.exists_append
  rw [hmore, SymbolTable.names_append]
  exact List.mem_append_left _ hname

/-- The menu `m` of a unit, seen in the one menu of all units: instructions and symbols from
before the unit, and then its own. -/
structure Behind (instructions : List Instruction) (t : SymbolTable) (m f : Menu) : Prop where
  instructions : f.instructions = instructions ++ m.instructions
  symbols : f.symbols = t.append m.symbols

/-- **A compilation of a unit goes through in the one menu of all units as well**, if the table
in front has none of the names that the unit ends up with. -/
theorem Elaborates.flat {chain : List Path} {ts : List SyntaxTree} {walk : List Visit}
    (h : c.Elaborates chain m ts m' walk) {before : List Instruction} {t : SymbolTable}
    (hf : Behind before t m f) (hdis : ∀ name ∈ m'.symbols.names, name ∉ t.names) (s : Session) :
    ∃ f' s', (statementsOf walk).foldlM c.flatStatement f s = .ok f' s' ∧
      Behind before t m' f' := by
  induction h generalizing before t f s with
  | done => exact ⟨f, s, rfl, hf⟩
  | @define chain m m' st d ts symbol walk hkind hd hs hfree hrest ih =>
    have hown : ∀ name ∈ m.symbols.names, name ∉ t.names := fun name hname =>
      hdis name (hrest.names_subset (by simp [hname]))
    have hw : m.symbols.Within f.symbols := hf.symbols ▸ SymbolTable.within_append_right hown
    have hfree' : symbol.name ∉ f.symbols.names := by
      rw [hf.symbols, SymbolTable.names_append, List.mem_append, not_or]
      exact ⟨hdis _ (hrest.names_subset (by simp)), hfree⟩
    obtain ⟨s₁, hdefine⟩ :=
      define_complete (m := { f with unit := m.unit }) hd (hs.mono hw) hfree' s
    have hstep : c.flatStatement f (m.unit, st) s =
        .ok ⟨m.unit, f.instructions, f.symbols.append (.only symbol)⟩ s₁ := by
      rw [flatStatement, statement, hkind]
      exact hdefine
    have hf₁ : Behind before t { m with symbols := m.symbols.append (.only symbol) }
        ⟨m.unit, f.instructions, f.symbols.append (.only symbol)⟩ := by
      refine ⟨hf.instructions, ?_⟩
      rw [← SymbolTable.append_assoc, ← hf.symbols]
    rw [statementsOf_statement, List.foldlM_cons, Stateful.bind_of_ok hstep]
    exact ih hf₁ hdis s₁
  | @order chain m m' st ts pizza walk hkind hpizza hrest ih =>
    have hown : ∀ name ∈ m.symbols.names, name ∉ t.names := fun name hname =>
      hdis name (hrest.names_subset hname)
    have hw : m.symbols.Within f.symbols := hf.symbols ▸ SymbolTable.within_append_right hown
    obtain ⟨s₁, horder⟩ := order_complete (m := { f with unit := m.unit })
      (SymbolTable.pizzaOf_mono hw hpizza) s
    have hstep : c.flatStatement f (m.unit, st) s =
        .ok ⟨m.unit, f.instructions ++ [⟨st.position, pizza⟩], f.symbols⟩ s₁ := by
      rw [flatStatement, statement, hkind]
      exact horder
    have hf₁ : Behind before t
        { m with instructions := m.instructions ++ [⟨st.position, pizza⟩] }
        ⟨m.unit, f.instructions ++ [⟨st.position, pizza⟩], f.symbols⟩ := by
      refine ⟨?_, hf.symbols⟩
      rw [← List.append_assoc, ← hf.instructions]
    rw [statementsOf_statement, List.foldlM_cons, Stateful.bind_of_ok hstep]
    exact ih hf₁ hdis s₁
  | @enter chain m n m' st tree ts id inner walk _ _ _ _ hnames hrest ihinner ih =>
    -- What is in front of the included unit is all that is in front of this one, and this one.
    have hinner : Behind (before ++ m.instructions) (t.append m.symbols) (.blank id) f := by
      refine ⟨?_, ?_⟩
      · rw [hf.instructions]
        exact (List.append_nil _).symm
      · rw [hf.symbols]
        exact SymbolTable.append_empty.symm
    have hdis' : ∀ name ∈ n.symbols.names, name ∉ (t.append m.symbols).names := by
      intro name hname
      rw [SymbolTable.names_append, List.mem_append, not_or]
      exact ⟨hdis name (hrest.names_subset (by simp [hname])), hnames name hname⟩
    obtain ⟨f₁, s₁, hrun, hf₁⟩ := ihinner hinner hdis' s
    rw [statementsOf_unit, statementsOf_append, List.foldlM_append, Stateful.bind_of_ok hrun]
    refine ih ⟨?_, ?_⟩ hdis s₁
    · rw [hf₁.instructions, List.append_assoc]
    · rw [hf₁.symbols, SymbolTable.append_assoc]

/-- **Inclusion is expansion in place.** A unit that compiles has exactly one walk through it
and all it includes, and the definitions and orders that this walk meets, worked on in one
sequence against one table and one list of instructions, give the same instructions and the
same symbols, in the same order. -/
theorem compileUnit_eq_analyzeFlat {unit : Path} {text : String} {s s' : Session}
    (h : c.compileUnit unit text s = .ok m s') :
    ∃ walk, c.sources.WalkOf unit text walk ∧
      (∀ walk', c.sources.WalkOf unit text walk' → walk' = walk) ∧
      ∀ t, ∃ f t', c.analyzeFlat unit (statementsOf walk) t = .ok f t' ∧
        f.instructions = m.instructions ∧ f.symbols = m.symbols := by
  obtain ⟨tree, walk, htree, hmade, -⟩ := compileNested_sound h
  have hwalk : c.sources.WalkOf unit text walk := ⟨tree, htree, hmade.toWalk⟩
  refine ⟨walk, hwalk, fun walk' hwalk' => hwalk'.unique hwalk, fun t => ?_⟩
  have hblank : Behind [] .empty (.blank unit) (.blank unit) := ⟨rfl, rfl⟩
  obtain ⟨f, t', hrun, hf⟩ := hmade.flat hblank (by simp) t
  exact ⟨f, t', hrun, hf.instructions, hf.symbols.trans SymbolTable.empty_append⟩

/-- Two orders in two units, and the ingredient and the specialty of a third. -/
theorem compileUnit_eq_analyzeFlat_pantry :
    ∃ m s' walk, pantry.compileUnit ⟨"main.pf"⟩ pantryOrder (.ofChain []) = .ok m s' ∧
      m.symbols.names = ["ham", "hot"] ∧ m.instructions.length = 2 ∧
      pantry.sources.WalkOf ⟨"main.pf"⟩ pantryOrder walk ∧
      ∃ f t', pantry.analyzeFlat ⟨"main.pf"⟩ (statementsOf walk) (.ofChain []) = .ok f t' ∧
        f.instructions = m.instructions ∧ f.symbols = m.symbols := by
  obtain ⟨m, s', hm, hnames, hlength, -⟩ := pantryOrder_compiles
  obtain ⟨walk, hwalk, -, hflat⟩ := compileUnit_eq_analyzeFlat hm
  exact ⟨m, s', walk, hm, hnames, hlength, hwalk, hflat (.ofChain [])⟩

end Compiler

end PizzaLang
