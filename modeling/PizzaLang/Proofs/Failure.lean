import PizzaLang.Proofs.Elaboration
import PizzaLang.Proofs.Grammar

/-!
# Failing compilations, as a relation

The counterpart of `PizzaLang.Compiler.Elaborates`. A compilation that fails does so at one
statement, and all that comes before it has succeeded. The statement is at fault itself
(`PizzaLang.Compiler.Faulty`), or it is an inclusion and a statement of the included unit fails
(`PizzaLang.Compiler.Fails`). Errors pass through inclusions unchanged, so the error of a
compilation is the one that belongs to the innermost fault.

`PizzaLang.Compiler.compileNested_fails` and `PizzaLang.Compiler.analyze_fails` read the relation
off a run; `PizzaLang.Compiler.read_fails` says why the unit at a path is not even read.
-/

namespace PizzaLang

/-! ### Steps of a session that fail -/

namespace CompileM

variable {α ε : Type} {s s' : Session} {e : CompileError}

theorem lift_eq_error_iff {wrap : ε → CompileError} {result : Except ε α} :
    lift wrap result s = .error e s' ↔ (∃ e', result = .error e' ∧ wrap e' = e) ∧ s = s' := by
  cases result with
  | ok a => simp [lift]
  | error e' => simp [lift]

theorem record_ne_error {event : Event} : record event s ≠ .error e s' := nofun

theorem chain_ne_error : chain s ≠ .error e s' := nofun

/-- Work on a unit that fails is failure with the unit on the chain. -/
theorem within_eq_error_iff {unit : Path} {act : CompileM α} :
    within unit act s = .error e s' ↔
      ∃ u, act { s with chain := unit :: s.chain } = .error e u ∧ s' = pop u := by
  have hpush : (do push unit; act : CompileM α) s = act { s with chain := unit :: s.chain } :=
    Stateful.bind_of_ok rfl
  rw [within, hpush]
  cases act { s with chain := unit :: s.chain } with
  | ok a u => simp
  | error e' u =>
    simp only [EStateM.Result.error.injEq]
    constructor
    · rintro ⟨rfl, rfl⟩
      exact ⟨u, ⟨rfl, rfl⟩, rfl⟩
    · rintro ⟨v, ⟨rfl, rfl⟩, rfl⟩
      exact ⟨rfl, rfl⟩

end CompileM

/-- **An inclusion leads to a text**: the statement `t`, standing in `unit`, locates `id`, which
has the text `text`. -/
def Sources.Leads (sources : Sources) (unit : Path) (t : SyntaxTree) (id : Path) (text : String) :
    Prop :=
  ∃ path, t.child 0 = .ok path ∧
    sources.locate ⟨s!"{path.value}.{sourceExtension}"⟩ (some unit) = .ok id ∧
    sources.load id = .ok text

theorem Sources.Leads.includes {sources : Sources} {unit id : Path} {t tree : SyntaxTree}
    {text : String} (h : sources.Leads unit t id text) (htree : IsProgram id text tree) :
    sources.Includes unit t id tree := by
  obtain ⟨path, hpath, hid, htext⟩ := h
  exact ⟨path, text, hpath, hid, htext, htree⟩

namespace Compiler

/-! ### The relations -/

/-- **Why a definition declares nothing**, in a unit and after a table of names. -/
inductive Undeclared (c : Compiler) (unit : Path) (t : SymbolTable) (definition : SyntaxTree) :
    CompileError → Prop
  /-- It is no definition. -/
  | stray : definition.kind ≠ .ingredient → definition.kind ≠ .specialty →
      Undeclared c unit t definition (.semantic (definition.misfit .notDefinition))
  /-- The ingredient has no name. -/
  | nameless {e : SemanticError} :
      definition.kind = .ingredient → definition.child 0 = .error e →
      Undeclared c unit t definition (.semantic e)
  /-- The ingredient has no image. -/
  | imageless {name : SyntaxTree} {e : SemanticError} :
      definition.kind = .ingredient → definition.child 0 = .ok name → name.child 0 = .error e →
      Undeclared c unit t definition (.semantic e)
  /-- The image cannot be measured. -/
  | unmeasured {name path : SyntaxTree} {e : LookupError} :
      definition.kind = .ingredient → definition.child 0 = .ok name → name.child 0 = .ok path →
      c.images.measure path.value unit = .error e →
      Undeclared c unit t definition
        (.resource (unresolved path.value (.ingredient name.value) path.position e))
  /-- The image cannot be drawn. -/
  | undrawn {name path : SyntaxTree} {measured : Measurement} {e : SemanticError} :
      definition.kind = .ingredient → definition.child 0 = .ok name → name.child 0 = .ok path →
      c.images.measure path.value unit = .ok measured →
      ingredientOf definition name path measured.size = .error e →
      Undeclared c unit t definition (.semantic e)
  /-- The specialty has no meaning. -/
  | specialty {e : SemanticError} :
      definition.kind = .specialty → t.specialtyOf definition = .error e →
      Undeclared c unit t definition (.semantic e)

/-- **A statement is at fault** for an error, after a menu and while the units of the chain are
open. -/
inductive Faulty (c : Compiler) (chain : List Path) (m : Menu) (t : SyntaxTree) :
    CompileError → Prop
  /-- It is no statement. -/
  | stray : t.kind ≠ .inclusion → t.kind ≠ .definition → t.kind ≠ .make →
      Faulty c chain m t (.semantic (t.misfit .notStatement))
  /-- The inclusion has no text. -/
  | pathless {e : SemanticError} : t.kind = .inclusion → t.child 0 = .error e →
      Faulty c chain m t (.semantic e)
  /-- The inclusion names the unit that it stands in. -/
  | itself {path : SyntaxTree} : t.kind = .inclusion → t.child 0 = .ok path →
      (m.unit.sibling ⟨s!"{path.value}.{sourceExtension}"⟩).Same m.unit →
      Faulty c chain m t
        (.resource (.recursiveInclude s!"{path.value}.{sourceExtension}" m.unit t.position))
  /-- The inclusion leads nowhere. -/
  | unlocated {path : SyntaxTree} {e : LookupError} : t.kind = .inclusion → t.child 0 = .ok path →
      c.sources.locate ⟨s!"{path.value}.{sourceExtension}"⟩ (some m.unit) = .error e →
      Faulty c chain m t
        (.resource (unresolved s!"{path.value}.{sourceExtension}" .inclusion t.position e))
  /-- The inclusion leads to a unit that is open. -/
  | busy {path : SyntaxTree} {id : Path} : t.kind = .inclusion → t.child 0 = .ok path →
      c.sources.locate ⟨s!"{path.value}.{sourceExtension}"⟩ (some m.unit) = .ok id →
      (∃ p ∈ m.unit :: chain, id.Same p) →
      Faulty c chain m t
        (.resource (.recursiveInclude s!"{path.value}.{sourceExtension}" id t.position))
  /-- The inclusion leads to a unit whose text cannot be had. -/
  | unloaded {path : SyntaxTree} {id : Path} {e : LookupError} : t.kind = .inclusion →
      t.child 0 = .ok path →
      c.sources.locate ⟨s!"{path.value}.{sourceExtension}"⟩ (some m.unit) = .ok id →
      c.sources.load id = .error e →
      Faulty c chain m t (.resource
        (.unreachable s!"{path.value}.{sourceExtension}" .inclusion e.message t.position))
  /-- The inclusion leads to a unit for which there is no room. -/
  | deep {id : Path} {text : String} : t.kind = .inclusion → c.sources.Leads m.unit t id text →
      Faulty c chain m t (.nesting id)
  /-- The inclusion leads to a unit whose text is no program. -/
  | unread {id : Path} {text : String} {e : CompileError} : t.kind = .inclusion →
      c.sources.Leads m.unit t id text → forestOf id text = .error e → Faulty c chain m t e
  /-- The inclusion brings a name that is declared already. -/
  | overlap {id : Path} {tree : SyntaxTree} {n : Menu} {walk : List Visit}
      {symbols : SymbolTable} {clash : Clash} :
      t.kind = .inclusion → c.sources.Includes m.unit t id tree →
      c.Elaborates (id :: chain) (.blank id) tree.children n walk →
      m.symbols.merge n.symbols = (symbols, some clash) →
      Faulty c chain m t (.semantic (.duplicate clash))
  /-- The definition has nothing in it. -/
  | undefined {e : SemanticError} : t.kind = .definition → t.child 0 = .error e →
      Faulty c chain m t (.semantic e)
  /-- The definition declares nothing. -/
  | undeclared {d : SyntaxTree} {e : CompileError} : t.kind = .definition → t.child 0 = .ok d →
      c.Undeclared m.unit m.symbols d e → Faulty c chain m t e
  /-- The definition declares a name that is declared already. -/
  | clash {d : SyntaxTree} {s : Symbol} {clash : Clash} : t.kind = .definition →
      t.child 0 = .ok d → c.Declares m.unit m.symbols d s → m.symbols.insert s = .error clash →
      Faulty c chain m t (.semantic (.duplicate clash))
  /-- The order has no meaning. -/
  | order {e : SemanticError} : t.kind = .make → m.symbols.pizzaOf t = .error e →
      Faulty c chain m t (.semantic e)

/-- **A statement fails**: it is at fault, or it leads to a unit in which a statement fails once
all those before it have succeeded. -/
inductive Fails (c : Compiler) : List Path → Menu → SyntaxTree → CompileError → Prop
  | fault {chain : List Path} {m : Menu} {t : SyntaxTree} {e : CompileError} :
      c.Faulty chain m t e → Fails c chain m t e
  | inside {chain : List Path} {m n : Menu} {t tree u : SyntaxTree}
      {before after : List SyntaxTree} {id : Path} {walk : List Visit} {e : CompileError} :
      t.kind = .inclusion → c.sources.Includes m.unit t id tree →
      (∀ p ∈ m.unit :: chain, ¬id.Same p) → tree.children = before ++ u :: after →
      c.Elaborates (id :: chain) (.blank id) before n walk → Fails c (id :: chain) n u e →
      Fails c chain m t e

/-- **Statements fail**: the first of them that does not succeed does. -/
def FailsAmong (c : Compiler) (chain : List Path) (m : Menu) (ts : List SyntaxTree)
    (e : CompileError) : Prop :=
  ∃ before t after m₁ walk, ts = before ++ t :: after ∧ c.Elaborates chain m before m₁ walk ∧
    c.Fails chain m₁ t e

/-- **A unit is refused**: there is no room for it, its text is no program, or its statements
fail. -/
inductive Refused (c : Compiler) (chain : List Path) (unit : Path) (text : String) :
    CompileError → Prop
  | deep : Refused c chain unit text (.nesting unit)
  | unread {e : CompileError} : forestOf unit text = .error e → Refused c chain unit text e
  | inside {tree : SyntaxTree} {e : CompileError} : IsProgram unit text tree →
      c.FailsAmong (unit :: chain) (.blank unit) tree.children e → Refused c chain unit text e

/-! ### Reading the relations off a run -/

variable {c : Compiler} {m m' : Menu} {t d : SyntaxTree} {ts : List SyntaxTree} {s s' : Session}
  {e : CompileError}

theorem checkExtension_fails {path : Path} {error : ResourceError}
    (h : checkExtension path = .error error) :
    ∃ extension, error = .unsupportedExtension path extension := by
  rw [checkExtension] at h
  split at h
  · cases h
  · exact ⟨_, (Except.error.inj h).symm⟩

/-- **Why a text is no program**: its unit has the wrong extension, the scanner does not know a
character, or the grammar is not kept. -/
theorem forestOf_fails {unit : Path} {text : String} (h : forestOf unit text = .error e) :
    (∃ extension, e = .resource (.unsupportedExtension unit extension)) ∨
      (∃ error, e = .lexical error) ∨ ∃ error, e = .syntactic error := by
  rcases Fallible.bind_eq_error_iff.mp h with h | ⟨tokens, -, h⟩
  · rcases Fallible.bind_eq_error_iff.mp h with h | ⟨source, -, h⟩
    · obtain ⟨error, herror, rfl⟩ := Fallible.mapError_eq_error_iff.mp h
      rcases Fallible.bind_eq_error_iff.mp herror with hcheck | ⟨_, -, hpure⟩
      · obtain ⟨extension, rfl⟩ := checkExtension_fails hcheck
        exact Or.inl ⟨extension, rfl⟩
      · exact absurd hpure Fallible.pure_ne_error
    · obtain ⟨error, -, rfl⟩ := Fallible.mapError_eq_error_iff.mp h
      exact Or.inr (Or.inl ⟨error, rfl⟩)
  · obtain ⟨error, -, rfl⟩ := Fallible.mapError_eq_error_iff.mp h
    exact Or.inr (Or.inr ⟨error, rfl⟩)

theorem symbolOf_fails (h : c.symbolOf m d s = .error e s') :
    c.Undeclared m.unit m.symbols d e := by
  cases hkind : d.kind
  case ingredient =>
    simp only [symbolOf, hkind, Stateful.bind_eq_error_iff, CompileM.lift_eq_error_iff,
      CompileM.lift_eq_ok_iff, Stateful.pure_ne_error, and_false, exists_false, or_false] at h
    rcases h with ⟨⟨e', he', rfl⟩, -⟩ | ⟨name, _, ⟨hname, rfl⟩, h⟩
    · exact .nameless hkind he'
    rcases h with ⟨⟨e', he', rfl⟩, -⟩ | ⟨path, _, ⟨hpath, rfl⟩, h⟩
    · exact .imageless hkind hname he'
    obtain ⟨t, hrun, -⟩ := c.measure_run path.value m.unit s
    rcases h with h | ⟨answer, _, hanswer, h⟩
    · rw [hrun] at h
      cases h
    obtain ⟨rfl, rfl⟩ := EStateM.Result.ok.inj (hrun.symm.trans hanswer)
    cases hmeasured : c.images.measure path.value m.unit with
    | error e₀ =>
      rw [hmeasured] at h
      rcases h with ⟨⟨e', he', rfl⟩, -⟩ | ⟨size, _, ⟨hsize, -⟩, -⟩
      · obtain rfl := Except.error.inj he'
        exact .unmeasured hkind hname hpath hmeasured
      · cases hsize
    | ok measured =>
      rw [hmeasured] at h
      rcases h with ⟨⟨e', he', rfl⟩, -⟩ | ⟨size, _, ⟨hsize, rfl⟩, ⟨e', he', rfl⟩, -⟩
      · cases he'
      · obtain rfl := Except.ok.inj hsize
        exact .undrawn hkind hname hpath hmeasured he'
  case specialty =>
    simp only [symbolOf, hkind, Stateful.bind_eq_error_iff, CompileM.lift_eq_error_iff,
      Stateful.pure_ne_error, and_false, exists_false, or_false] at h
    obtain ⟨⟨e', he', rfl⟩, -⟩ := h
    exact .specialty hkind he'
  all_goals
    simp only [symbolOf, hkind] at h
    obtain ⟨rfl, -⟩ := Stateful.throw_eq_error_iff.mp h
    exact .stray (by simp [hkind]) (by simp [hkind])

theorem define_fails {chain : List Path} (hkind : t.kind = .definition)
    (h : c.define m t s = .error e s') : c.Faulty chain m t e := by
  simp only [define, Stateful.bind_eq_error_iff, CompileM.lift_eq_error_iff,
    CompileM.lift_eq_ok_iff, CompileM.record_ne_error, false_or, Stateful.pure_ne_error, and_false,
    exists_false, or_false] at h
  rcases h with ⟨⟨e', he', rfl⟩, -⟩ | ⟨d, _, ⟨hd, rfl⟩, h⟩
  · exact .undefined hkind he'
  rcases h with h | ⟨symbol, s₁, hsymbol, -, s₂, -, ⟨clash, hclash, rfl⟩, -⟩
  · exact .undeclared hkind hd (symbolOf_fails h)
  · exact .clash hkind hd (symbolOf_sound hsymbol).1 hclash

theorem order_fails {chain : List Path} (hkind : t.kind = .make)
    (h : order m t s = .error e s') : c.Faulty chain m t e := by
  simp only [order, Stateful.bind_eq_error_iff, CompileM.lift_eq_error_iff,
    CompileM.record_ne_error, Stateful.pure_ne_error, and_false, exists_false, or_false] at h
  obtain ⟨⟨e', he', rfl⟩, -⟩ := h
  exact .order hkind he'

theorem resolve_fails {path : SyntaxTree} (hkind : t.kind = .inclusion)
    (hpath : t.child 0 = .ok path)
    (h : c.resolve m.unit s!"{path.value}.{sourceExtension}" t.position s = .error e s') :
    c.Faulty s.chain m t e := by
  rw [resolve] at h
  split at h
  · next hself =>
    obtain ⟨rfl, -⟩ := Stateful.throw_eq_error_iff.mp h
    exact .itself hkind hpath hself
  simp only [locate, Stateful.bind_eq_error_iff, Stateful.bind_eq_ok_iff,
    CompileM.lift_eq_error_iff, CompileM.lift_eq_ok_iff, CompileM.record_ne_error,
    CompileM.record_eq_ok_iff, CompileM.chain_ne_error, CompileM.chain_eq_ok_iff,
    Stateful.pure_ne_error, Stateful.pure_eq_ok_iff, Fallible.mapError_eq_error_iff,
    Fallible.mapError_eq_ok_iff, false_or, and_false, exists_false] at h
  obtain ⟨_, _, ⟨-, _, rfl, rfl, rfl⟩, h⟩ := h
  rcases h with ⟨⟨_, ⟨e', he', rfl⟩, rfl⟩, -⟩ | ⟨id, _, ⟨hid, rfl⟩, _, _, ⟨rfl, rfl⟩, h⟩
  · exact .unlocated hkind hpath he'
  split at h
  · next hbusy =>
    obtain ⟨rfl, -⟩ := Stateful.throw_eq_error_iff.mp h
    exact .busy hkind hpath hid (by simpa using hbusy)
  simp only [load, Stateful.bind_eq_error_iff, Stateful.bind_eq_ok_iff,
    CompileM.lift_eq_error_iff, CompileM.record_ne_error, CompileM.record_eq_ok_iff,
    CompileM.chain_ne_error, CompileM.chain_eq_ok_iff, Stateful.pure_ne_error,
    Stateful.pure_eq_ok_iff, Fallible.mapError_eq_error_iff, false_or, and_false, exists_false,
    or_false] at h
  obtain ⟨_, _, ⟨_, _, ⟨rfl, rfl⟩, -, _, rfl, rfl, rfl⟩, ⟨_, ⟨e', he', rfl⟩, rfl⟩, -⟩ := h
  exact .unloaded hkind hpath hid he'

/-- A unit that an inclusion leads to and that is refused makes the inclusion fail. -/
theorem Refused.fails {chain : List Path} {id : Path} {text : String}
    (h : c.Refused chain id text e) (hkind : t.kind = .inclusion)
    (hto : c.sources.Leads m.unit t id text) (hopen : ∀ p ∈ m.unit :: chain, ¬id.Same p) :
    c.Fails chain m t e := by
  cases h with
  | deep => exact .fault (.deep hkind hto)
  | unread he => exact .fault (.unread hkind hto he)
  | inside htree hfails =>
    obtain ⟨before, u, after, n, walk, hsplit, hmade, hu⟩ := hfails
    exact .inside hkind (hto.includes htree) hopen hsplit hmade hu

section Statements

variable {compile : Path → String → CompileM Menu}

theorem includeUnit_fails
    (hcompile : ∀ id text s n s', compile id text s = .ok n s' → c.Compiled id text n s s')
    (hrefused : ∀ id text s e s', compile id text s = .error e s' → c.Refused s.chain id text e)
    (hkind : t.kind = .inclusion) (h : c.includeUnit compile m t s = .error e s') :
    c.Fails s.chain m t e := by
  simp only [includeUnit, Stateful.bind_eq_error_iff, CompileM.lift_eq_error_iff,
    CompileM.lift_eq_ok_iff, CompileM.record_ne_error, CompileM.record_eq_ok_iff, false_or] at h
  rcases h with ⟨⟨e', he', rfl⟩, -⟩ | ⟨path, _, ⟨hpath, rfl⟩, h⟩
  · exact .fault (.pathless hkind he')
  rcases h with h | ⟨⟨id, text⟩, s₁, hresolve, -, _, rfl, h⟩
  · exact .fault (resolve_fails hkind hpath h)
  obtain ⟨hid, htext, hopen, hpassed⟩ := resolve_sound hresolve
  have hto : c.sources.Leads m.unit t id text := ⟨path, hpath, hid, htext⟩
  rcases h with h | ⟨n, s₂, hn, ⟨clash, hclash, rfl⟩, -⟩
  · have hrefused := hrefused _ _ _ _ _ h
    rw [hpassed.chain] at hrefused
    exact hrefused.fails hkind hto hopen
  · obtain ⟨tree, inner, htree, hmade, -, -⟩ := hcompile _ _ _ _ _ hn
    rw [hpassed.chain] at hmade
    rw [absorb] at hclash
    split at hclash
    · cases hclash
    · next hmerge =>
      obtain rfl := Except.error.inj hclash
      exact .fault (.overlap hkind (hto.includes htree) hmade hmerge)

theorem statement_fails
    (hcompile : ∀ id text s n s', compile id text s = .ok n s' → c.Compiled id text n s s')
    (hrefused : ∀ id text s e s', compile id text s = .error e s' → c.Refused s.chain id text e)
    (h : c.statement compile m t s = .error e s') : c.Fails s.chain m t e := by
  cases hkind : t.kind
  case inclusion =>
    rw [statement, hkind] at h
    exact includeUnit_fails hcompile hrefused hkind h
  case definition =>
    rw [statement, hkind] at h
    exact .fault (define_fails hkind h)
  case make =>
    rw [statement, hkind] at h
    exact .fault (order_fails hkind h)
  all_goals
    rw [statement, hkind] at h
    obtain ⟨rfl, -⟩ := Stateful.throw_eq_error_iff.mp h
    exact .fault (.stray (by simp [hkind]) (by simp [hkind]) (by simp [hkind]))

/-- Statements that are worked on one after the other fail at one of them. -/
theorem statements_fail
    (hcompile : ∀ id text s n s', compile id text s = .ok n s' → c.Compiled id text n s s')
    (hrefused : ∀ id text s e s', compile id text s = .error e s' → c.Refused s.chain id text e)
    (h : ts.foldlM (c.statement compile) m s = .error e s') : c.FailsAmong s.chain m ts e := by
  obtain ⟨before, t, after, m₁, s₁, rfl, hbefore, ht⟩ := Stateful.exists_of_foldlM_eq_error h
  obtain ⟨walk, hmade, hpassed, -⟩ := statements_sound hcompile hbefore
  have hfails := statement_fails hcompile hrefused ht
  rw [hpassed.chain] at hfails
  exact ⟨before, t, after, m₁, walk, rfl, hmade, hfails⟩

theorem analyzeWith_fails
    (hcompile : ∀ id text s n s', compile id text s = .ok n s' → c.Compiled id text n s s')
    (hrefused : ∀ id text s e s', compile id text s = .error e s' → c.Refused s.chain id text e)
    {unit : Path} {tree : SyntaxTree}
    (h : c.analyzeWith compile unit (some tree) s = .error e s') :
    c.FailsAmong s.chain (.blank unit) tree.children e := by
  simp only [analyzeWith, Stateful.bind_eq_error_iff, CompileM.record_ne_error,
    Stateful.pure_ne_error, and_false, exists_false, or_false] at h
  exact statements_fail hcompile hrefused h

end Statements

/-- **A unit whose compilation fails is refused**, at whatever depth. -/
theorem compileNested_fails {room : Nat} {unit : Path} {text : String}
    (h : c.compileNested room unit text s = .error e s') : c.Refused s.chain unit text e := by
  induction room generalizing unit text s e s' with
  | zero =>
    obtain ⟨rfl, -⟩ := Stateful.throw_eq_error_iff.mp h
    exact .deep
  | succ room ih =>
    simp only [compileNested, Stateful.bind_eq_error_iff, CompileM.lift_eq_error_iff,
      CompileM.lift_eq_ok_iff, CompileM.record_ne_error, CompileM.record_eq_ok_iff,
      CompileM.within_eq_error_iff, CompileM.chain_ne_error, CompileM.chain_eq_ok_iff,
      false_or] at h
    rcases h with ⟨⟨e', he', rfl⟩, -⟩ | ⟨tokens, _, ⟨htokens, rfl⟩, -, _, rfl, h⟩
    · exact .unread (Fallible.bind_eq_error_iff.mpr (Or.inl he'))
    rcases h with ⟨⟨e', he', rfl⟩, -⟩ | ⟨forest, _, ⟨hforest, rfl⟩, -, _, rfl, s₁,
      ⟨_, _, ⟨rfl, rfl⟩, -, _, rfl, h⟩, rfl⟩
    · refine .unread (Fallible.bind_eq_error_iff.mpr (Or.inr ⟨tokens, htokens, ?_⟩))
      exact Fallible.mapError_eq_error_iff.mpr ⟨e', he', rfl⟩
    have hread : forestOf unit text = .ok forest :=
      Fallible.bind_eq_ok_iff.mpr ⟨tokens, htokens, Fallible.mapError_eq_ok_iff.mpr hforest⟩
    obtain ⟨d, -, htree⟩ := tree?_of_parse hforest
    rw [htree] at h
    exact .inside ⟨forest, hread, htree⟩
      (analyzeWith_fails (fun _ _ _ _ _ h => compileNested_sound h) (fun _ _ _ _ _ h => ih h) h)

/-- **A statement that fails leads to one at fault**, in the same program or in one that is
included. -/
theorem Fails.exists_faulty {chain : List Path} {unit : Path} {text : String} {tree : SyntaxTree}
    (h : c.Fails chain m t e) (hprogram : IsProgram unit text tree) (ht : t ∈ tree.children) :
    ∃ unit' text' tree' chain' m' t', IsProgram unit' text' tree' ∧ t' ∈ tree'.children ∧
      c.Faulty chain' m' t' e := by
  induction h generalizing unit text tree with
  | fault hfaulty => exact ⟨_, _, _, _, _, _, hprogram, ht, hfaulty⟩
  | inside _ hto _ hsplit _ _ ih =>
    obtain ⟨path, text', -, -, -, hincluded⟩ := hto
    exact ih hincluded (by simp [hsplit])

/-- **A tree whose compilation fails** has a statement that fails. -/
theorem analyze_fails {unit : Path} {tree : SyntaxTree}
    (h : c.analyze unit (some tree) s = .error e s') :
    c.FailsAmong s.chain (.blank unit) tree.children e :=
  analyzeWith_fails (fun _ _ _ _ _ h => compileNested_sound h)
    (fun _ _ _ _ _ h => compileNested_fails h) h

/-! ### Files -/

variable {path : Path}

theorem read_sound {id : Path} {text : String} (h : c.read path s = .ok (id, text) s') :
    c.sources.locate path none = .ok id ∧ c.sources.load id = .ok text ∧ s'.chain = s.chain := by
  simp only [read, locate, load, Stateful.bind_eq_ok_iff, CompileM.lift_eq_ok_iff,
    CompileM.record_eq_ok_iff, CompileM.chain_eq_ok_iff, Stateful.pure_eq_ok_iff,
    Fallible.mapError_eq_ok_iff, Prod.mk.injEq] at h
  obtain ⟨-, _, ⟨-, rfl⟩, _, _, ⟨-, _, rfl, rfl, rfl⟩, _, _, ⟨hid, rfl⟩, _, _,
    ⟨_, _, ⟨rfl, rfl⟩, -, _, rfl, rfl, rfl⟩, _, _, ⟨htext, rfl⟩, ⟨rfl, rfl⟩, rfl⟩ := h
  exact ⟨hid, htext, rfl⟩

/-- **Why the unit at a path is not read**: the path has the wrong extension, there is no unit, or
there is one that cannot be read. -/
theorem read_fails (h : c.read path s = .error e s') :
    (∃ extension, e = .resource (.unsupportedExtension path extension)) ∨
      e = .resource (.sourceNotFound path) ∨
      ∃ id reason, c.sources.locate path none = .ok id ∧
        c.sources.load id = .error (.unreadable reason) ∧
        e = .resource (.sourceUnreadable path reason) := by
  simp only [read, locate, load, Stateful.bind_eq_error_iff, Stateful.bind_eq_ok_iff,
    CompileM.lift_eq_error_iff, CompileM.lift_eq_ok_iff, CompileM.record_ne_error,
    CompileM.record_eq_ok_iff, CompileM.chain_ne_error, CompileM.chain_eq_ok_iff,
    Stateful.pure_ne_error, Stateful.pure_eq_ok_iff, Fallible.mapError_eq_error_iff,
    Fallible.mapError_eq_ok_iff, false_or, and_false, exists_false, or_false] at h
  rcases h with ⟨⟨error, hcheck, rfl⟩, -⟩ | ⟨-, _, ⟨-, rfl⟩, _, _, ⟨-, _, rfl, rfl, rfl⟩, h⟩
  · obtain ⟨extension, rfl⟩ := checkExtension_fails hcheck
    exact Or.inl ⟨extension, rfl⟩
  rcases h with ⟨⟨_, ⟨_, -, rfl⟩, rfl⟩, -⟩ | ⟨id, _, ⟨hid, rfl⟩, _, _,
    ⟨_, _, ⟨rfl, rfl⟩, -, _, rfl, rfl, rfl⟩, ⟨_, ⟨error, hload, rfl⟩, rfl⟩, -⟩
  · exact Or.inr (Or.inl rfl)
  · cases error with
    | notFound => exact Or.inr (Or.inl rfl)
    | unreadable reason => exact Or.inr (Or.inr ⟨id, reason, hid, hload, rfl⟩)

end Compiler

end PizzaLang
